import ClassLang.Proofs.Typing.Confinement
import ClassLang.Typing.Call

/-!
# Reading types of a territory

What is found by looking into a type of the territory, its operators, its members or the parameters
of the closure it stands for, belongs to the territory again. The parameters of a closure that a
parameter type stands for are closed: this is why no variable is ever forwarded to a type built
from itself.
-/

namespace ClassLang

/-- A type that a parameter may have: it may be mentioned by a declaration, or is a variable. -/
def Pool.Passable (p : Pool) (N : TypeId → Prop) (t : TypeId) : Prop :=
  (p.Closed t ∨ ∃ target, p.data t = .var target) ∧ N t

section Pools

variable {p₀ p q : Pool} {N : TypeId → Prop} {t u : TypeId}

theorem Pool.Passable.mono (h : p.Passable N t) (he : p.Evolves q) : q.Passable N t :=
  ⟨h.1.imp (·.mono he) he.exists_var, h.2⟩

theorem Pool.Declarable.passable (h : p.Declarable N t) : p.Passable N t :=
  ⟨.inl h.1, h.2⟩

/-- If what a parameter type stands for is a closure, then it is closed. -/
theorem Pool.Sound.closed_resolve (h : p.Sound)
    (ht : p.Closed t ∨ ∃ target, p.data t = .var target) (hvar : (p.view t).isVar = false) :
    p.Closed (p.resolve t) := by
  rcases h.resolve_eq_or_closed t with heq | hclosed
  · rw [heq]
    rcases ht with ht | ⟨target, ht⟩
    · exact ht
    · rw [Pool.view, heq, ht] at hvar
      cases hvar
  · exact hclosed

/-- The parameters of a closure that a parameter type stands for may be mentioned. -/
theorem Pool.Kept.closureParams_declarable (hT : p₀.Territory N) (h : p₀.Kept N p)
    (ht : p.Passable N t) {params : List TypeId} (hparams : Typing.closureParams? p t = some params) :
    ∀ u ∈ params, p.Declarable N u := by
  intro u hu
  unfold Typing.closureParams? at hparams
  split at hparams
  · next result captures hview =>
      cases hparams
      have hclosed := h.sound.closed_resolve ht.1 (by rw [hview]; rfl)
      unfold Pool.view at hview
      have hpart : u ∈ (p.data (p.resolve t)).parts := by
        rw [hview]
        exact List.mem_append_left _ hu
      exact ⟨hclosed.parts hpart,
        h.respects _ (h.resolve_mem hT ht.2) u (by simp [TypeData.mentions, hpart])⟩
  · cases hparams

/-- What a value's type stands for has usable parts. -/
theorem Pool.Kept.view_parts_usable (hT : p₀.Territory N) (h : p₀.Kept N p) (ht : p.Usable N t)
    (hu : u ∈ (p.view t).parts) : p.Usable N u :=
  h.parts_usable (h.resolve_usable hT ht).1 (h.resolve_mem hT ht.2) hu

/-- What a type of the territory stands for mentions types that may be mentioned. -/
theorem Pool.Kept.view_members_declarable (hT : p₀.Territory N) (h : p₀.Kept N p) (ht : N t)
    (hu : u ∈ (p.view t).members) : p.Declarable N u :=
  h.members_declarable (h.resolve_mem hT ht) hu

/-- The type of an operator is that of its left operand, or `Boolean`. -/
theorem Pool.Kept.operatorResult_usable (hT : p₀.Territory N) (h : p₀.Kept N p)
    (ht : p.Usable N t) {op : BinaryOp} {r : TypeId} (hr : p.operatorResult t op u = .ok r) :
    p.Usable N r := by
  unfold Pool.operatorResult at hr
  split at hr
  · cases hr
  · next operation hop =>
      split at hr
      · cases hr
        rcases resultType_of_operator (t := p.resolve t) hop with heq | heq <;> rw [heq]
        · exact h.resolve_usable hT ht
        · exact (h.builtin hT (by decide)).usable
      · cases hr

/-- A type that is no longer open is usable if it was. -/
theorem Pool.Kept.resolveStrict_usable (hT : p₀.Territory N) (h : p₀.Kept N p)
    (ht : p.Usable N t) {r : TypeId} (hr : p.resolveStrict t = .ok r) : p.Usable N r := by
  suffices ∀ fuel t r, p.Usable N t → p.resolveStrictWithin fuel t = .ok r → p.Usable N r from
    this _ t r ht hr
  intro fuel
  induction fuel with
  | zero =>
      intro t r ht hr
      unfold Pool.resolveStrictWithin at hr
      dsimp only at hr
      split at hr
      · cases hr
      · cases hr
      · cases hr
        exact h.resolve_usable hT ht
  | succ fuel ih =>
      intro t r ht hr
      unfold Pool.resolveStrictWithin at hr
      dsimp only at hr
      split at hr
      · cases hr
      · next root op rhs hd =>
          have hroot : p.Usable N root := by
            have hlt := (h.resolve_usable hT ht)
            refine ⟨Nat.lt_trans (h.sound.derived_lt hd).1 hlt.1, h.respects _ hlt.2 root ?_⟩
            simp [hd, TypeData.mentions, TypeData.sources]
          simp only [bind, Except.bind] at hr
          cases hl : p.resolveStrictWithin fuel root with
          | error e =>
              rw [hl] at hr
              cases hr
          | ok l =>
              cases hrhs : p.resolveStrictWithin fuel rhs with
              | error e =>
                  rw [hl, hrhs] at hr
                  cases hr
              | ok r' =>
                  rw [hl, hrhs] at hr
                  exact h.operatorResult_usable hT (ih root l hroot hl) hr
      · cases hr
        exact h.resolve_usable hT ht

/-- What can be called by name on a type of the territory may be mentioned, and is one of its
methods unless it reads a field. -/
theorem Pool.Kept.findSignature_declarable (hT : p₀.Territory N) (h : p₀.Kept N p) (ht : N t)
    {name : String} {sig : Signature} (hsig : p.findSignature? t name = some sig) :
    sig.Declarable p N ∧ (sig ∈ (p.view t).methods ∨
      ∃ index result, (p.view t).namedOperation? name = some (.element index result)) := by
  unfold Pool.findSignature? at hsig
  split at hsig
  · next found hop =>
      cases hsig
      have hmem : sig ∈ (p.view t).methods := by
        unfold TypeData.namedOperation? at hop
        split at hop
        · split at hop <;> cases hop
        · split at hop <;> cases hop
        · split at hop <;> cases hop
        · obtain ⟨found, hfound, heq⟩ := Option.map_eq_some_iff.1 hop
          cases heq
          exact List.mem_of_find?_eq_some hfound
      refine ⟨fun u hu => h.view_members_declarable hT ht ?_, .inl hmem⟩
      generalize p.view t = d at hmem
      cases d <;> simp only [TypeData.methods, List.not_mem_nil] at hmem
      · exact List.mem_append_right _ (List.mem_flatMap.2 ⟨sig, hmem, hu⟩)
      · exact List.mem_append_right _ (List.mem_flatMap.2 ⟨sig, hmem, hu⟩)
  · next index result hop =>
      cases hsig
      refine ⟨fun u hu => ?_, .inr ⟨index, result, hop⟩⟩
      have hbuiltin : result < Pool.initial.size := by
        unfold TypeData.namedOperation? at hop
        split at hop
        · split at hop <;> cases hop
          decide
        · split at hop <;> cases hop
          decide
        · split at hop <;> cases hop
          decide
        · obtain ⟨found, -, heq⟩ := Option.map_eq_some_iff.1 hop
          cases heq
      simp only [Signature.types, Signature.paramTypes, List.map_nil, List.mem_singleton] at hu
      rw [hu]
      exact h.builtin hT hbuiltin
  · cases hsig

/-- Classes, data types and cases have no fields of built-in records. -/
theorem TypeData.namedOperation_ne_element {d : TypeData} (h : d.nominalName?.isSome)
    {name : String} {index : Nat} {result : TypeId} :
    d.namedOperation? name ≠ some (.element index result) := by
  intro hop
  unfold TypeData.namedOperation? at hop
  split at hop
  · cases h
  · cases h
  · cases h
  · obtain ⟨found, -, heq⟩ := Option.map_eq_some_iff.1 hop
    cases heq

/-- A type that is no longer open is no variable. -/
theorem Pool.Sound.isVar_of_resolveStrict (h : p.Sound) {r : TypeId}
    (hr : p.resolveStrict t = .ok r) : (p.data r).isVar = false := by
  have hop : ∀ {l op rhs r}, p.operatorResult l op rhs = .ok r → (p.data r).isVar = false := by
    intro l op rhs r hr
    unfold Pool.operatorResult at hr
    split at hr
    · cases hr
    · next operation hop =>
        split at hr
        · cases hr
          rcases resultType_of_operator (t := p.resolve l) hop with heq | heq <;> rw [heq]
          · exact (Pool.closed_of_operator hop).isVar_eq_false
          · exact (h.closed_builtin (by decide)).isVar_eq_false
        · cases hr
  suffices ∀ fuel t r, p.resolveStrictWithin fuel t = .ok r → (p.data r).isVar = false from
    this _ t r hr
  intro fuel t r hr
  unfold Pool.resolveStrictWithin at hr
  dsimp only at hr
  split at hr
  · cases hr
  · cases fuel with
    | zero => cases hr
    | succ fuel =>
        simp only [bind, Except.bind] at hr
        split at hr
        · cases hr
        · split at hr
          · cases hr
          · exact hop hr
  · next hvar hderived =>
      cases hr
      generalize p.data (p.resolve t) = d at hvar hderived
      cases d <;> first | rfl | exact absurd rfl (hvar _) | exact absurd rfl (hderived _ _ _)

/-- The fields of built-in records stay what they are. -/
theorem Pool.findOperation_element (hb : (p.data t).Becomes (q.data t)) {name : String}
    {index : Nat} {result : TypeId}
    (h : (p.data t).namedOperation? name = some (.element index result)) :
    q.findOperation t name = .ok (.element index result) := by
  have hkind : (p.data t = .string ∧ name = "c_str") ∨ (p.data t = .typeRecord ∧ name = "name") ∨
      (p.data t = .dynamic ∧ name = "type") := by
    unfold TypeData.namedOperation? at h
    split at h
    · next hd =>
        split at h
        · next hname => exact .inl ⟨hd, hname⟩
        · cases h
    · next hd =>
        split at h
        · next hname => exact .inr (.inl ⟨hd, hname⟩)
        · cases h
    · next hd =>
        split at h
        · next hname => exact .inr (.inr ⟨hd, hname⟩)
        · cases h
    · obtain ⟨found, -, heq⟩ := Option.map_eq_some_iff.1 h
      cases heq
  have hsame : q.data t = p.data t := by
    generalize hq : q.data t = d at hb
    rcases hkind with ⟨hd, -⟩ | ⟨hd, -⟩ | ⟨hd, -⟩ <;> rw [hd] at hb ⊢ <;> cases hb <;> rfl
  have hsymbol : BinaryOp.ofSymbol? name = none := by
    rcases hkind with ⟨-, rfl⟩ | ⟨-, rfl⟩ | ⟨-, rfl⟩ <;> decide
  have hvar : (q.data t).isVar = false := by
    rw [hsame]
    rcases hkind with ⟨hd, -⟩ | ⟨hd, -⟩ | ⟨hd, -⟩ <;> rw [hd] <;> rfl
  unfold Pool.findOperation
  simp only [hsymbol, Pool.view, Pool.resolve_of_not_var hvar, hsame, h]

/-- The parameters of a declared function may be passed to. -/
theorem Signature.Declarable.passable {sig : Signature} (h : sig.Declarable p N) :
    ∀ param ∈ sig.params, p.Passable N param.type := fun param hparam =>
  (h param.type (List.mem_cons_of_mem _ (List.mem_map.2 ⟨param, hparam, rfl⟩))).passable

end Pools

/-- A type that is still open, or an operator that does not exist, is a fault of the program. -/
theorem Pool.operatorResult_error {p : Pool} {l r : TypeId} {op : BinaryOp} {e : CompileError}
    (h : p.operatorResult l op r = .error e) : ∀ text, e ≠ .internal text := by
  unfold Pool.operatorResult at h
  split at h
  · cases h
    simp
  · split at h <;> cases h
    simp

theorem Pool.resolveStrict_error {p : Pool} {t : TypeId} {e : CompileError}
    (h : p.resolveStrict t = .error e) : ∀ text, e ≠ .internal text := by
  suffices ∀ fuel t e, p.resolveStrictWithin fuel t = .error e → ∀ text, e ≠ .internal text from
    this _ t e h
  intro fuel
  induction fuel with
  | zero =>
      intro t e he
      unfold Pool.resolveStrictWithin at he
      dsimp only at he
      split at he <;> cases he <;> simp
  | succ fuel ih =>
      intro t e he
      unfold Pool.resolveStrictWithin at he
      dsimp only at he
      split at he
      · cases he
        simp
      · next root op rhs hd =>
          simp only [bind, Except.bind] at he
          cases hl : p.resolveStrictWithin fuel root with
          | error e' =>
              rw [hl] at he
              cases he
              exact ih root _ hl
          | ok l =>
              cases hrhs : p.resolveStrictWithin fuel rhs with
              | error e' =>
                  rw [hl, hrhs] at he
                  cases he
                  exact ih rhs _ hrhs
              | ok r' =>
                  rw [hl, hrhs] at he
                  exact operatorResult_error he
      · cases he

end ClassLang
