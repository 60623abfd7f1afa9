import ClassLang.Proofs.Pool.Stability

/-!
# Strict and loose resolution agree

`resolve` works a derived type out from its root alone and leaves what is open as it is;
`resolveStrict` works out both operands and stops with an error at what is open. On a known type the
two give the same. On any other type the strict one fails, with what `Blocks` says is met first: an
open variable, or an operator that the type of its left operand does not have.

All this holds of every pool in which looking through types comes to an end, so also for variables
that were forwarded to other variables or to derived types.
-/

namespace ClassLang.Pool

open Relation (ReflTransGen)

variable {p : Pool} {t root rhs : TypeId} {op : BinaryOp} {e e' : CompileError}

/-- What is met first when the operands of `t` are worked out, the left one before the right one, and
then its operator. -/
inductive Blocks (p : Pool) : TypeId → CompileError → Prop
  | openVariable {t : TypeId} (hd : p.view t = .var none) :
      Blocks p t (.typeMismatch "Unable to intuit lambda argument type from usage")
  | root {t root rhs : TypeId} {op : BinaryOp} {e : CompileError}
      (hd : p.view t = .derived root op rhs) (h : Blocks p root e) : Blocks p t e
  | rhs {t root rhs : TypeId} {op : BinaryOp} {e : CompileError}
      (hd : p.view t = .derived root op rhs) (hroot : p.isUnresolved root = false)
      (h : Blocks p rhs e) : Blocks p t e
  | operator {t root rhs : TypeId} {op : BinaryOp} (hd : p.view t = .derived root op rhs)
      (hroot : p.isUnresolved root = false) (hrhs : p.isUnresolved rhs = false)
      (hop : p.operator? root op = none) :
      Blocks p t (.unknownOperation op.symbol (p.display root))

namespace Blocks

/-- Only open types block. -/
theorem isUnresolved (h : p.Blocks t e) : p.isUnresolved t = true := by
  cases h with
  | openVariable hd => simp [Pool.isUnresolved, hd, TypeData.isVar]
  | root hd | rhs hd | operator hd => simp [Pool.isUnresolved, hd, TypeData.isVar]

/-- Only one thing is met first. -/
theorem eq (h : p.Blocks t e) (h' : p.Blocks t e') : e = e' := by
  induction h with
  | openVariable hd =>
      cases h' with
      | openVariable => rfl
      | root hd' | rhs hd' | operator hd' => simp [hd] at hd'
  | root hd h ih =>
      cases h' with
      | openVariable hd' => simp [hd] at hd'
      | root hd' h' =>
          cases hd.symm.trans hd'
          exact ih h'
      | rhs hd' hroot | operator hd' hroot =>
          cases hd.symm.trans hd'
          simp [h.isUnresolved] at hroot
  | rhs hd hroot h ih =>
      cases h' with
      | openVariable hd' => simp [hd] at hd'
      | root hd' h' =>
          cases hd.symm.trans hd'
          simp [h'.isUnresolved] at hroot
      | rhs hd' _ h' =>
          cases hd.symm.trans hd'
          exact ih h'
      | operator hd' _ hrhs =>
          cases hd.symm.trans hd'
          simp [h.isUnresolved] at hrhs
  | operator hd hroot hrhs =>
      cases h' with
      | openVariable hd' => simp [hd] at hd'
      | root hd' h' =>
          cases hd.symm.trans hd'
          simp [h'.isUnresolved] at hroot
      | rhs hd' _ h' =>
          cases hd.symm.trans hd'
          simp [h'.isUnresolved] at hrhs
      | operator hd' =>
          cases hd.symm.trans hd'
          rfl

end Blocks

/-! ## Values -/

/-- Nothing is reached from a type without parts and sources. -/
theorem depth_of_blank (hparts : (p.data t).parts = []) (hsources : (p.data t).sources = []) :
    p.depth t = 0 := by
  classical
  rw [depth, Finset.card_eq_zero, Finset.filter_eq_empty_iff]
  exact fun _ _ => not_looksAt_of_blank hparts hsources

namespace Founded

/-- What a type stands for stands for itself. -/
theorem resolve_resolve (h : p.Founded) (t : TypeId) : p.resolve (p.resolve t) = p.resolve t :=
  h.resolve_resolve_of_evolves h (.refl p) t

theorem view_resolve (h : p.Founded) (t : TypeId) : p.view (p.resolve t) = p.view t :=
  congrArg p.data (h.resolve_resolve t)

theorem operator?_resolve (h : p.Founded) (t : TypeId) (op : BinaryOp) :
    p.operator? (p.resolve t) op = p.operator? t op := by
  rw [operator?, operator?, h.view_resolve]

/-- A type is spelled like what it stands for. -/
theorem display_resolve (h : p.Founded) (t : TypeId) : p.display (p.resolve t) = p.display t := by
  unfold display displayWithin
  rw [h.resolve_resolve]

/-- What a type stands for was not forwarded, and it reaches no more than the type. -/
theorem resolve_spec (h : p.Founded) (t : TypeId) :
    (∀ target, p.view t ≠ .var (some target)) ∧ p.depth (p.resolve t) ≤ p.depth t := by
  induction t using h.ends.induction with
  | _ t ih =>
      cases hd : p.data t with
      | var target =>
          cases target with
          | none =>
              rw [view, resolve_open hd, hd]
              exact ⟨by simp, Nat.le_refl _⟩
          | some target =>
              have hlook : p.LooksAt target t := .inr (by simp [hd, TypeData.sources])
              obtain ⟨hopen, hdepth⟩ := ih target hlook
              rw [view, resolve_var h.ends hd]
              exact ⟨hopen, Nat.le_trans hdepth
                (Nat.le_of_lt (depth_lt_depth h.ends (h.lt_of_looksAt hlook) hlook))⟩
      | derived root op rhs =>
          have hlook : p.LooksAt root t := .inr (by simp [hd, TypeData.sources])
          have hroot : p.depth (p.resolve root) ≤ p.depth t :=
            Nat.le_trans (ih root hlook).2
              (Nat.le_of_lt (depth_lt_depth h.ends (h.lt_of_looksAt hlook) hlook))
          have hresolve := resolve_derived h.ends hd
          cases hop : p.operator? root op with
          | none =>
              rw [hop] at hresolve
              rw [view, show p.resolve t = t from hresolve, hd]
              exact ⟨by simp, Nat.le_refl _⟩
          | some operation =>
              have hknown := isVar_resultType h.data_boolean hop
              rw [hop] at hresolve
              rw [view, show p.resolve t = operation.resultType (p.resolve root) from hresolve]
              refine ⟨fun target hvar => by simp [hvar, TypeData.isVar] at hknown, ?_⟩
              rcases resultType_of_operator (t := p.resolve root) hop with heq | heq
              · rwa [heq]
              · rw [heq, depth_of_blank (by rw [h.data_boolean]; rfl) (by rw [h.data_boolean]; rfl)]
                exact Nat.zero_le _
      | _ =>
          have hknown : (p.data t).isVar = false := by rw [hd]; rfl
          rw [view, resolve_of_not_var hknown, hd]
          exact ⟨by simp, Nat.le_refl _⟩

/-- What a type stands for looks at types that reach less than it. -/
theorem depth_lt_of_looksAt_resolve (h : p.Founded) {u : TypeId}
    (hlook : p.LooksAt u (p.resolve t)) : p.depth u < p.depth t :=
  Nat.lt_of_lt_of_le (depth_lt_depth h.ends (h.lt_of_looksAt hlook) hlook) (h.resolve_spec t).2

/-- A derived type that is left over has a root without its operator. -/
theorem operator?_of_view_derived (h : p.Founded) (hd : p.view t = .derived root op rhs) :
    p.operator? root op = none := by
  -- with its operator, the type would stand for the result
  have hresolve := resolve_derived h.ends (t := p.resolve t) hd
  rw [h.resolve_resolve] at hresolve
  cases hop : p.operator? root op with
  | none => rfl
  | some operation =>
      have hknown := isVar_resultType h.data_boolean hop
      rw [hop] at hresolve
      rw [← show p.resolve t = operation.resultType (p.resolve root) from hresolve,
        show p.data (p.resolve t) = _ from hd] at hknown
      cases hknown

/-- Within a bound that exceeds the depth of a type, its value is found or what blocks it. -/
theorem resolveStrictWithin_cases (h : p.Founded) {fuel : Nat} (hfuel : p.depth t < fuel) :
    (p.isUnresolved t = false ∧ p.resolveStrictWithin fuel t = .ok (p.resolve t)) ∨
      ∃ e, p.Blocks t e ∧ p.resolveStrictWithin fuel t = .error e := by
  induction fuel generalizing t with
  | zero => exact absurd hfuel (Nat.not_lt_zero _)
  | succ fuel ih =>
      by_cases hknown : p.isUnresolved t = false
      · exact .inl ⟨hknown, resolveStrictWithin_of_resolved hknown _⟩
      right
      unfold resolveStrictWithin
      dsimp only
      cases hd : p.data (p.resolve t) with
      | var target =>
          cases target with
          | none => exact ⟨_, .openVariable hd, rfl⟩
          | some target => exact absurd hd ((h.resolve_spec t).1 target)
      | derived root op rhs =>
          have hop := h.operator?_of_view_derived (t := t) hd
          have hroot : p.depth root < p.depth t :=
            h.depth_lt_of_looksAt_resolve (.inr (by simp [hd, TypeData.sources]))
          have hrhs : p.depth rhs < p.depth t :=
            h.depth_lt_of_looksAt_resolve (.inr (by simp [hd, TypeData.sources]))
          dsimp only
          rcases ih (t := root) (by omega) with ⟨hroot, heval⟩ | ⟨e, hblocks, heval⟩
          · rw [heval]
            rcases ih (t := rhs) (by omega) with ⟨hrhs, heval'⟩ | ⟨e, hblocks, heval'⟩
            · refine ⟨_, .operator hd hroot hrhs hop, ?_⟩
              have hnone : p.operator? (p.resolve root) op = none :=
                (h.operator?_resolve root op).trans hop
              simp [heval', bind, Except.bind, operatorResult, hnone, h.display_resolve]
            · exact ⟨e, .rhs hd hroot hblocks, by rw [heval']; rfl⟩
          · exact ⟨e, .root hd hblocks, by rw [heval]; rfl⟩
      | _ => simp [isUnresolved, view, hd, TypeData.isVar] at hknown

/-- The strict value of a type is the loose one, unless something blocks it. -/
theorem resolveStrict_cases (h : p.Founded) (t : TypeId) :
    (p.isUnresolved t = false ∧ p.resolveStrict t = .ok (p.resolve t)) ∨
      ∃ e, p.Blocks t e ∧ p.resolveStrict t = .error e := by
  by_cases ht : t < p.size
  · exact h.resolveStrictWithin_cases (depth_lt_size h.ends ht)
  · have hvoid := data_of_le (Nat.le_of_not_lt ht)
    have hknown : p.isUnresolved t = false := by
      rw [isUnresolved, view, resolve_of_not_var (by rw [hvoid]; rfl), hvoid]
      rfl
    exact .inl ⟨hknown, resolveStrictWithin_of_resolved hknown _⟩

/-- **Strict and loose resolution agree** in every pool in which no variable was forwarded to a type
built from itself. What a type stands for stands for itself and was not forwarded. The strict value
exists exactly if the type is known, and is the loose one; otherwise the error is that of what is met
first, an open variable or a missing operator. -/
theorem resolutions_agree (h : p.Founded) (t : TypeId) :
    p.resolve (p.resolve t) = p.resolve t ∧
      (∀ target, p.data (p.resolve t) ≠ .var (some target)) ∧
      (∀ u, p.resolveStrict t = .ok u ↔ p.isUnresolved t = false ∧ u = p.resolve t) ∧
      (∀ e, p.resolveStrict t = .error e ↔ p.Blocks t e) ∧
      (p.isUnresolved t = true → ∃ e, p.Blocks t e) := by
  refine ⟨h.resolve_resolve t, (h.resolve_spec t).1, ?_⟩
  rcases h.resolveStrict_cases t with ⟨hknown, hvalue⟩ | ⟨e, hblocks, hvalue⟩
  · have hnone : ∀ e, ¬ p.Blocks t e := fun e hblocks => by simp [hblocks.isUnresolved] at hknown
    exact ⟨fun u => by simp [hvalue, hknown, eq_comm], fun e => by simp [hvalue, hnone],
      fun hunresolved => by simp [hknown] at hunresolved⟩
  · have honly : ∀ e', e = e' ↔ p.Blocks t e' := fun e' =>
      ⟨fun heq => heq ▸ hblocks, hblocks.eq⟩
    exact ⟨fun u => by simp [hvalue, hblocks.isUnresolved], fun e' => by simp [hvalue, honly],
      fun _ => ⟨e, hblocks⟩⟩

end Founded

/-- A variable that was forwarded to another one, which stands for `Char`, and an open one. -/
def forwardedPool : Pool :=
  (Pool.initial.freshVar.2.freshVar.2.freshVar.2.set 8 (.var (some 9))).set 9 (.var (some .char))

/-- Derived types of the variables in `forwardedPool`: a comparison, a sum that `Char` does not have,
and two sums with that sum as an operand. -/
def derivedPool : Pool :=
  ((((forwardedPool.derive 8 .lt 10).2.derive 8 .add .integer).2.derive 12 .add 10).2.derive
    10 .add 12).2

/-- A comparison with an open operand is known, and a sum of sums fails at the operand that is met
first. -/
theorem resolutions_agree_derived :
    derivedPool.Founded ∧ derivedPool.resolveStrict 11 = .ok .boolean ∧
      derivedPool.resolveStrict 13 = .error (.unknownOperation "+" "Char") ∧
      derivedPool.Blocks 13 (.unknownOperation "+" "Char") := by
  have hvars : Pool.initial.Grows Pool.initial.freshVar.2.freshVar.2.freshVar.2 :=
    ((ReflTransGen.single (.freshVar _)).tail (.freshVar _)).tail (.freshVar _)
  have hforwarded : Pool.initial.Grows forwardedPool :=
    (hvars.unify 8 9 (by decide) (not_looksAt_of_blank rfl rfl) rfl).unify 9 .char (by decide)
      (not_looksAt_of_blank rfl rfl) rfl
  have hderived : Pool.initial.Grows derivedPool :=
    (((hforwarded.tail (.derive _ (by decide) (by decide))).tail
      (.derive _ (by decide) (by decide))).tail (.derive _ (by decide) (by decide))).tail
        (.derive _ (by decide) (by decide))
  have hfounded := Founded.initial.grows hderived
  have hsum : derivedPool.resolveStrict 13 = .error (.unknownOperation "+" "Char") := by decide +kernel
  obtain ⟨-, -, -, herror, -⟩ := hfounded.resolutions_agree 13
  exact ⟨hfounded, by decide +kernel, hsum, (herror _).1 hsum⟩

end ClassLang.Pool
