import ClassLang.Proofs.Pool.Founded
import ClassLang.Proofs.Pool.Written

/-!
# What is known of types stays known

While a pool grows, a variable that was open may come to stand for another type, and with it every
derived type and closure made of it. What was known before stays so: a type keeps standing for what
it stood for, or stands for what that has come to stand for (`resolve_resolve_of_evolves`), so known
types keep their positions, equal types stay equal, and a type that converts to another still does.

Checking the arguments of a call fixes the open parameter types of lambdas, one variable after the
other. `Forwards` relates the pools before and after. What they have in common is seen from the
later one: if looking through its types comes to an end, so it did before.
-/

namespace ClassLang.Pool

variable {p q : Pool} {a b t : TypeId}

/-- A variable that was forwarded stands for what its target stands for. -/
theorem resolve_var (hends : WellFounded p.LooksAt) {target : TypeId}
    (hd : p.data t = .var (some target)) : p.resolve t = p.resolve target := by
  have ht : t < p.size := lt_size_of_data_ne (by simp [hd])
  obtain ⟨fuel, hsize⟩ := Nat.exists_eq_succ_of_ne_zero (Nat.ne_zero_of_lt ht)
  rw [resolve, hsize]
  simp only [resolveWithin, hd]
  by_cases hlt : target < p.size
  · have hdepth : p.depth target < p.depth t :=
      depth_lt_depth hends hlt (.inr (by simp [hd, TypeData.sources]))
    have hdepth' := depth_lt_size hends ht
    exact resolveWithin_congr_of_depth_lt hends (by omega) (by omega)
  · rw [resolve, resolveWithin_of_le (Nat.le_of_not_lt hlt),
      resolveWithin_of_le (Nat.le_of_not_lt hlt)]

/-- An open variable stands for itself. -/
theorem resolve_open (hd : p.data t = .var none) : p.resolve t = t := by
  unfold resolve
  cases p.size <;> simp [resolveWithin, hd]

/-- How values of one entry become values of another one. -/
inductive Coerces (p : Pool) : TypeData → TypeData → Prop
  | wrap {d : TypeData} (known : d.isVar = false) (hvoid : d ≠ .void) : Coerces p d .dynamic
  | widen : Coerces p .boolean .integer
  | cast {params params' captures captures' : List TypeId} {result result' : TypeId}
      (hparams : p.sameTypes params params' = true) (hresult : p.sameType result result' = true) :
      Coerces p (.closure params result captures) (.closure params' result' captures')

/-- A type converts to equal types and to those it is coerced to. -/
theorem canConvert_iff :
    p.canConvert a b = true ↔ p.sameType a b = true ∨ p.Coerces (p.view a) (p.view b) := by
  unfold canConvert conversion?
  by_cases hsame : p.sameType a b = true
  · simp [hsame]
  rw [if_neg hsame, or_iff_right hsame]
  generalize p.view a = d
  generalize p.view b = d'
  constructor
  · intro h
    split at h
    · cases h
    · cases h
    · cases h
    · cases h
    · cases h
    · next hvar hderived hvoid =>
        refine .wrap ?_ hvoid
        cases d <;> first | rfl | exact absurd rfl (hvar _) | exact absurd rfl (hderived _ _ _)
    · exact .widen
    · split at h
      · next hparts =>
          rw [Bool.and_eq_true] at hparts
          exact .cast hparts.1 hparts.2
      · cases h
    · cases h
  · intro h
    cases h with
    | wrap known hvoid => cases d <;> simp [TypeData.isVar] at known hvoid ⊢
    | widen => rfl
    | cast hparams hresult => simp [hparams, hresult]

namespace Evolves

/-- An entry with operators never changes. -/
theorem data_of_operator (he : p.Evolves q) {op : BinaryOp} {operation : Operation}
    (h : (p.data t).operator? op = some operation) : q.data t = p.data t := by
  have hclosed := closed_of_operator h
  refine he.data_eq_of_fixed hclosed.lt_size ?_ hclosed.isVar_eq_false
  rcases TypeData.primitive_of_operator h with hd | hd | hd <;> rw [hd] <;> rfl

/-- A closure never changes. -/
theorem data_closure (he : p.Evolves q) {params captures : List TypeId} {result : TypeId}
    (hd : p.data t = .closure params result captures) :
    q.data t = .closure params result captures :=
  (he.data_eq_of_fixed (lt_size_of_data_ne (by simp [hd])) (by rw [hd]; rfl)
    (by rw [hd]; rfl)).trans hd

/-- A derived type never changes. -/
theorem data_derived (he : p.Evolves q) {root rhs : TypeId} {op : BinaryOp}
    (hd : p.data t = .derived root op rhs) : q.data t = .derived root op rhs := by
  have hbecomes := he.becomes t (lt_size_of_data_ne (by simp [hd]))
  rw [hd] at hbecomes
  generalize q.data t = later at hbecomes ⊢
  cases hbecomes
  rfl

/-- A variable that was forwarded stays so. -/
theorem data_forwarded (he : p.Evolves q) {target : TypeId} (hd : p.data t = .var (some target)) :
    q.data t = .var (some target) := by
  have hbecomes := he.becomes t (lt_size_of_data_ne (by simp [hd]))
  rw [hd] at hbecomes
  generalize q.data t = later at hbecomes ⊢
  cases hbecomes
  rfl

end Evolves

namespace Founded

/-- What a type stands for later is what its present value stands for later. -/
theorem resolve_resolve_of_evolves (hp : p.Founded) (hq : q.Founded) (he : p.Evolves q)
    (t : TypeId) : q.resolve (p.resolve t) = q.resolve t := by
  induction t using hp.ends.induction with
  | _ t ih =>
      by_cases hvar : (p.data t).isVar = false
      · rw [resolve_of_not_var hvar]
      cases hd : p.data t with
      | var target =>
          cases target with
          | none => rw [resolve_open hd]
          | some target =>
              rw [resolve_var hp.ends hd, resolve_var hq.ends (he.data_forwarded hd)]
              exact ih target (.inr (by simp [hd, TypeData.sources]))
      | derived root op rhs =>
          have hroot := ih root (.inr (by simp [hd, TypeData.sources]))
          have hresolve := resolve_derived hp.ends hd
          have hresolve' := resolve_derived hq.ends (he.data_derived hd)
          cases hop : p.operator? root op with
          | none =>
              rw [hop] at hresolve
              rw [show p.resolve t = t from hresolve]
          | some operation =>
              -- the root stands for a primitive type, which stays what it is
              have hdata := he.data_of_operator hop
              have hknown : (q.data (p.resolve root)).isVar = false :=
                hdata ▸ (closed_of_operator hop).isVar_eq_false
              rw [resolve_of_not_var hknown] at hroot
              have hop' : q.operator? root op = some operation := by
                rw [operator?, view, ← hroot, hdata]
                exact hop
              rw [hop] at hresolve
              rw [hop', ← hroot] at hresolve'
              rw [show p.resolve t = operation.resultType (p.resolve root) from hresolve,
                show q.resolve t = operation.resultType (p.resolve root) from hresolve']
              have hop'' : (q.data (p.resolve root)).operator? op = some operation := by
                rw [hdata]
                exact hop
              exact resolve_of_not_var (isVar_resultType hq.data_boolean hop'')
      | _ => simp [hd, TypeData.isVar] at hvar

/-- Types that stand for the same position keep doing so. -/
theorem resolve_eq_of_evolves (hp : p.Founded) (hq : q.Founded) (he : p.Evolves q)
    (h : p.resolve a = p.resolve b) : q.resolve a = q.resolve b := by
  rw [← hp.resolve_resolve_of_evolves hq he a, h, hp.resolve_resolve_of_evolves hq he b]

/-- A known type keeps standing for the same position. -/
theorem resolve_of_evolves (hp : p.Founded) (hq : q.Founded) (he : p.Evolves q)
    (hlt : p.resolve t < p.size) (hknown : p.isUnresolved t = false) :
    q.resolve t = p.resolve t := by
  rw [← hp.resolve_resolve_of_evolves hq he t]
  exact resolve_of_not_var ((he.becomes _ hlt).isVar_eq.trans hknown)

/-- What a known type stands for changes as entries do. -/
theorem view_becomes (hp : p.Founded) (hq : q.Founded) (he : p.Evolves q)
    (hlt : p.resolve t < p.size) (hknown : p.isUnresolved t = false) :
    (p.view t).Becomes (q.view t) := by
  rw [view, view, hp.resolve_of_evolves hq he hlt hknown]
  exact he.becomes _ hlt

/-- A known type stays known. -/
theorem isUnresolved_of_evolves (hp : p.Founded) (hq : q.Founded) (he : p.Evolves q)
    (hlt : p.resolve t < p.size) (hknown : p.isUnresolved t = false) : q.isUnresolved t = false :=
  (hp.view_becomes hq he hlt hknown).isVar_eq.trans hknown

/-- A known type is found to be the same. -/
theorem resolveStrict_of_evolves (hp : p.Founded) (hq : q.Founded) (he : p.Evolves q)
    (hlt : p.resolve t < p.size) (hknown : p.isUnresolved t = false) :
    q.resolveStrict t = p.resolveStrict t := by
  rw [resolveStrict, resolveStrict, resolveStrictWithin_of_resolved hknown,
    resolveStrictWithin_of_resolved (hp.isUnresolved_of_evolves hq he hlt hknown),
    hp.resolve_of_evolves hq he hlt hknown]

/-- A known type keeps its classification. -/
theorem flags_of_evolves (hp : p.Founded) (hq : q.Founded) (hindexed : p.Indexed)
    (hindexed' : q.Indexed) (he : p.Evolves q) (hlt : p.resolve t < p.size)
    (hknown : p.isUnresolved t = false) : q.flags t = p.flags t := by
  rw [hindexed.flags_eq, hindexed'.flags_eq]
  exact (hp.view_becomes hq he hlt hknown).flags_eq

/-! ## Equality and conversion -/

/-- Types that stand for closures keep standing for them. -/
theorem data_resolve_closure (hp : p.Founded) (hq : q.Founded) (he : p.Evolves q)
    {params captures : List TypeId} {result : TypeId}
    (hd : p.data (p.resolve t) = .closure params result captures) :
    q.data (q.resolve t) = .closure params result captures := by
  have hd' := he.data_closure hd
  rw [← hp.resolve_resolve_of_evolves hq he t, resolve_of_not_var (by rw [hd']; rfl), hd']

/-- Equal types stay equal, within every bound that is no smaller. -/
theorem sameTypeWithin_of_evolves (hp : p.Founded) (hq : q.Founded) (he : p.Evolves q)
    {fuel fuel' : Nat} (hfuel : fuel ≤ fuel') (h : p.sameTypeWithin fuel a b = true) :
    q.sameTypeWithin fuel' a b = true := by
  induction fuel generalizing fuel' a b with
  | zero =>
      rcases sameTypeWithin_cases h with heq | ⟨_, _, _, _, _, _, _, hzero, -⟩
      · exact sameTypeWithin_of_resolve_eq (hp.resolve_eq_of_evolves hq he heq) _
      · cases hzero
  | succ fuel ih =>
      rcases sameTypeWithin_cases h with heq | ⟨params, result, captures, params', result',
        captures', nested, hnested, ha, hb, hparams, hresult, hcaptures⟩
      · exact sameTypeWithin_of_resolve_eq (hp.resolve_eq_of_evolves hq he heq) _
      · cases hnested
        obtain ⟨fuel', rfl⟩ := Nat.exists_eq_succ_of_ne_zero (n := fuel') (by omega)
        have hle : fuel ≤ fuel' := Nat.le_of_succ_le_succ hfuel
        exact sameTypeWithin_of_closures (hp.data_resolve_closure hq he ha)
          (hp.data_resolve_closure hq he hb) (hparams.imp fun _ _ h => ih hle h) (ih hle hresult)
          (hcaptures.imp fun _ _ h => ih hle h)

/-- Equal types stay equal. -/
theorem sameType_of_evolves (hp : p.Founded) (hq : q.Founded) (he : p.Evolves q)
    (h : p.sameType a b = true) : q.sameType a b = true :=
  hp.sameTypeWithin_of_evolves hq he he.size_le h

theorem sameTypes_of_evolves (hp : p.Founded) (hq : q.Founded) (he : p.Evolves q)
    {as bs : List TypeId} (h : p.sameTypes as bs = true) : q.sameTypes as bs = true := by
  simp only [sameTypes, Bool.and_eq_true, List.all_eq_true] at h ⊢
  exact ⟨h.1, fun pair hpair => hp.sameType_of_evolves hq he (h.2 pair hpair)⟩

/-- What is coerced to another entry still is. -/
theorem coerces_of_evolves (hp : p.Founded) (hq : q.Founded) (he : p.Evolves q)
    (h : p.Coerces (p.view a) (p.view b)) : q.Coerces (q.view a) (q.view b) := by
  have hview : ∀ {t d}, p.view t = d → d ≠ .void → d.isVar = false → d.Becomes (q.view t) := by
    rintro t _ rfl hvoid hknown
    exact hp.view_becomes hq he (lt_size_of_data_ne hvoid) hknown
  generalize hd : p.view a = d at h
  generalize hd' : p.view b = d' at h
  cases h with
  | wrap known hvoid =>
      have ha := hview hd hvoid known
      have hb := hview hd' (by simp) rfl
      generalize q.view b = later at hb ⊢
      cases hb
      refine .wrap (ha.isVar_eq.trans known) fun heq => hvoid ?_
      rw [heq] at ha
      cases ha
      rfl
  | widen =>
      have ha := hview hd (by simp) rfl
      have hb := hview hd' (by simp) rfl
      generalize q.view a = source at ha ⊢
      generalize q.view b = target at hb ⊢
      cases ha
      cases hb
      exact .widen
  | cast hparams hresult =>
      rw [view, view, hp.data_resolve_closure hq he hd, hp.data_resolve_closure hq he hd']
      exact .cast (hp.sameTypes_of_evolves hq he hparams) (hp.sameType_of_evolves hq he hresult)

/-- A type that converts to another keeps doing so. -/
theorem canConvert_of_evolves (hp : p.Founded) (hq : q.Founded) (he : p.Evolves q)
    (h : p.canConvert a b = true) : q.canConvert a b = true := by
  rw [canConvert_iff] at h ⊢
  exact h.imp (hp.sameType_of_evolves hq he) (hp.coerces_of_evolves hq he)

end Founded

/-! ## Growth -/

/-- What is known of the types of `p` is known of them in `q`. -/
structure Retains (p q : Pool) : Prop where
  /-- A type stands for what its earlier value has come to stand for. -/
  resolve : ∀ t < p.size, q.resolve (p.resolve t) = q.resolve t
  /-- A known type keeps its value, found strictly or loosely, and its classification. -/
  known : ∀ t < p.size, p.isUnresolved t = false →
    q.resolve t = p.resolve t ∧ q.resolveStrict t = p.resolveStrict t ∧ q.flags t = p.flags t
  sameType : ∀ a < p.size, ∀ b < p.size, p.sameType a b = true → q.sameType a b = true
  canConvert : ∀ a < p.size, ∀ b < p.size, p.canConvert a b = true → q.canConvert a b = true

/-- A founded pool retains what was known before. -/
theorem Founded.retains (hp : p.Founded) (hq : q.Founded) (hindexed : p.Indexed)
    (hindexed' : q.Indexed) (he : p.Evolves q) : p.Retains q where
  resolve t _ := hp.resolve_resolve_of_evolves hq he t
  known t ht hknown := by
    have hlt := hp.resolve_lt_size ht
    exact ⟨hp.resolve_of_evolves hq he hlt hknown, hp.resolveStrict_of_evolves hq he hlt hknown,
      hp.flags_of_evolves hq hindexed hindexed' he hlt hknown⟩
  sameType _ _ _ _ := hp.sameType_of_evolves hq he
  canConvert _ _ _ _ := hp.canConvert_of_evolves hq he

/-- Pools that are built up step by step retain what was known before. -/
theorem Grows.retains (hp : initial.Grows p) (hq : p.Grows q) : p.Retains q := by
  have hfounded := Founded.initial.grows hp
  have hindexed := hp.indexed .initial
  exact hfounded.retains (hfounded.grows hq) hindexed (hq.indexed hindexed) hq.evolves

/-- Sound pools retain what was known on the way to them. -/
theorem Passes.retains {ok : Pool → Prop} (hpasses : Passes ok p q) (hp : p.Sound)
    (hok : ∀ r, ok r → r.Sound) : p.Retains q ∧ Passes (·.Retains q) p q := by
  have hsound : q.Sound ∧ Passes (fun r => r.Sound ∧ r.Evolves q) p q := by
    induction hpasses with
    | refl => exact ⟨hp, .refl p⟩
    | @step q r _ hchange hr ih =>
        refine ⟨hok r hr, .step (ih.2.mono fun x hx => ?_) hchange ⟨hok r hr, .refl r⟩⟩
        exact ⟨hx.1, hx.2.trans hchange.evolves⟩
  obtain ⟨hq, hway⟩ := hsound
  have hretains : ∀ r : Pool, r.Sound ∧ r.Evolves q → r.Retains q := fun r hr =>
    hr.1.founded.retains hq.founded hr.1.indexed hq.indexed hr.2
  exact ⟨hretains p ⟨hp, hpasses.evolves⟩, hway.mono hretains⟩

/-! ## Pools that differ in forwarded variables -/

open Relation (ReflTransGen)

variable {p q : Pool} {var target : TypeId}

/-- The pool `q` comes from `p` by forwarding variables. -/
def Forwards : Pool → Pool → Prop :=
  ReflTransGen fun p q => ∃ var target, p.unify var target = .ok q

/-- A forwarded variable was open before. -/
theorem eq_or_set_of_unify (h : p.unify var target = .ok q) :
    q = p ∨ p.data var = .var none ∧ q = p.set var (.var (some (p.resolve target))) := by
  unfold unify at h
  dsimp only at h
  split at h
  · next hvar =>
      cases h
      split
      · exact .inl rfl
      · exact .inr ⟨hvar, rfl⟩
  · cases h
  · cases h

theorem Forwards.evolves (h : p.Forwards q) : p.Evolves q := by
  induction h with
  | refl => exact .refl p
  | tail _ hstep ih =>
      obtain ⟨var, target, hunify⟩ := hstep
      exact ih.trans (Change.unify hunify).evolves

namespace Founded

/-- Forwarding a variable adds to what its type looks at, and changes nothing else. -/
theorem of_unify (hq : q.Founded) (h : p.unify var target = .ok q) : p.Founded := by
  rcases eq_or_set_of_unify h with rfl | ⟨hopen, rfl⟩
  · exact hq
  have hvar : var < p.size := lt_size_of_data_ne (by simp [hopen])
  have hdata (t : TypeId) (ht : t ≠ var) :
      (p.set var (.var (some (p.resolve target)))).data t = p.data t :=
    data_set_of_ne p _ ht
  have hself := data_set_self p (.var (some (p.resolve target))) hvar
  refine ⟨⟨by simpa using hq.builtins.size_le, fun t ht => ?_⟩, fun {t u} hu => ?_, ?_⟩
  · have hne : t ≠ var := by
      rintro rfl
      have hfixed : ∀ t < Pool.initial.size, (Pool.initial.data t).isVar = false := by decide
      have hbuiltin := hq.data_of_builtin ht
      rw [hself] at hbuiltin
      simpa [← hbuiltin, TypeData.isVar] using hfixed t ht
    rw [← hdata t hne]
    exact hq.builtins.becomes t ht
  · have hne : t ≠ var := by
      rintro rfl
      simp [hopen, TypeData.mentions, TypeData.parts, TypeData.members, TypeData.sources] at hu
    have hlt := hq.mentions_lt (t := t) (u := u) (by rwa [hdata t hne])
    simpa using hlt
  · refine Subrelation.wf (fun {u t} hlook => ?_) hq.ends
    have hne : t ≠ var := by
      rintro rfl
      simp [LooksAt, hopen, TypeData.parts, TypeData.sources] at hlook
    unfold LooksAt at hlook ⊢
    rwa [hdata t hne]

theorem of_forwards (hq : q.Founded) (h : p.Forwards q) : p.Founded := by
  induction h with
  | refl => exact hq
  | tail _ hstep ih =>
      obtain ⟨var, target, hunify⟩ := hstep
      exact ih (hq.of_unify hunify)

/-- What could be passed before variables were forwarded can be passed afterwards. -/
theorem canConvert_of_forwards (hq : q.Founded) (h : p.Forwards q) {source wanted : TypeId}
    (hcan : p.canConvert source wanted = true) : q.canConvert source wanted = true :=
  canConvert_of_evolves (hq.of_forwards h) hq h.evolves hcan

end Founded

end ClassLang.Pool
