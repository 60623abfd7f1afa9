import ClassLang.Proofs.Lowering.FaultsModule
import ClassLang.Proofs.Pool.Stability
import ClassLang.Proofs.Pool.Termination
import ClassLang.Proofs.Session.Frame

/-!
# Variables are forwarded to closed types

Forwarding a variable has no occurs check, so nothing in the pool itself keeps a variable from being
forwarded to a type that contains it. Typing never does: while a unit is typed every pool is
`Settled`, that is, forwarded variables lead to types without variables, derived types are made of
earlier ones, and looking through types ends. A variable is forwarded at most once, and nothing but
a variable is.

Code is generated from the pool as it is when a unit has been typed, but arguments, assignments and
returns were checked against the pools before. Nothing that was found out about types then is lost,
so a conversion that was accepted while the unit was typed is available when it is generated.
-/

namespace ClassLang

open Relation (ReflTransGen)

/-- What is expected of a pool at every moment. -/
structure Pool.Settled (p : Pool) : Prop where
  /-- From the target of a variable, pointers and closures lead to no variable or derived type. -/
  forwarded : ∀ {t target}, p.data t = .var (some target) →
    ∀ {u}, ReflTransGen (fun a b => b ∈ (p.data a).parts) target u →
      u < p.size ∧ (p.data u).isVar = false
  /-- A derived type is made of earlier types. -/
  derived : ∀ {t root op rhs}, p.data t = .derived root op rhs → root < t ∧ rhs < t
  /-- There is no endless way through variables, derived types, pointers and closures. -/
  wellFounded : WellFounded p.LooksAt
  resolve : ∀ {fuel}, p.size ≤ fuel → p.resolveWithin fuel = p.resolve
  resolveStrict : ∀ {fuel}, p.size ≤ fuel → p.resolveStrictWithin fuel = p.resolveStrict
  display : ∀ {fuel}, p.size ≤ fuel → p.displayWithin fuel = p.display
  sameType : ∀ {fuel}, p.size ≤ fuel → p.sameTypeWithin fuel = p.sameType

/-- Sound pools are settled. -/
theorem Pool.Sound.settled {p : Pool} (h : p.Sound) : p.Settled where
  forwarded hd _ hu :=
    have hclosed := (h.forwarded hd).of_reached hu
    ⟨hclosed.lt_size, hclosed.isVar_eq_false⟩
  derived := h.derived_lt
  wellFounded := h.wellFounded_looksAt
  resolve hfuel := funext (h.resolveWithin_eq_resolve hfuel)
  resolveStrict hfuel := funext (h.resolveStrictWithin_eq_resolveStrict hfuel)
  display hfuel := funext (h.displayWithin_eq_display hfuel)
  sameType hfuel := funext fun a => funext (h.sameTypeWithin_eq_sameType hfuel a)

/-! ## Misused forwarding -/

/-- The two misuses of forwarding are told by the beginning of their texts. -/
theorem Halt.not_misused_of_text {text : String} (h : text.toList.take 3 ∉ faultHeads) :
    ¬ (Halt.error (.internal text)).IsMisusedForwarding := by
  rintro (heq | heq) <;> cases heq <;> exact h (by decide)

/-- All errors but the misuses of forwarding are tolerated. -/
theorem tolerant_not_misused : Tolerant fun h => ¬ h.IsMisusedForwarding where
  outOfFuel := by rintro (h | h) <;> cases h
  program _ he := Typing.not_misused_of_kind he
  broken _ ht := Halt.not_misused_of_text ht

section Findings

variable {ctx : LoweringContext} {walk : InstanceId} {node : NodeId} {visit : Visit}

theorem typeKnown_not_misused : TypeKnown (fun h => ¬ h.IsMisusedForwarding) ctx walk node := by
  intro e he
  unfold TypeTable.typeOf at he
  split at he <;> cases he
  exact Typing.not_misused_of_head (by simp [ToString.toString])

theorem signatureKnown_not_misused :
    SignatureKnown (fun h => ¬ h.IsMisusedForwarding) ctx visit := by
  intro e he
  unfold TypeTable.signature at he
  split at he <;> cases he
  exact Typing.not_misused_of_head (by simp [ToString.toString])

theorem targetKnown_not_misused {declared : String → Prop} :
    TargetKnown (fun h => ¬ h.IsMisusedForwarding) declared ctx walk node := by
  refine ⟨fun e he => ?_, fun _ _ sig _ => .inr ?_⟩
  · unfold TypeTable.target at he
    split at he <;> cases he
    exact Typing.not_misused_of_head (by simp [ToString.toString])
  · exact Typing.not_misused_of_head (by simp [ToString.toString])

/-- No finding of typing that the generator misses makes it misuse forwarding. -/
theorem prepared_not_misused {declared : String → Prop} :
    Prepared (fun h => ¬ h.IsMisusedForwarding) declared ctx walk fun _ => True := by
  intro node _
  have hpart : ∀ node, PartReady (fun h => ¬ h.IsMisusedForwarding) ctx walk (fun _ => True) node :=
    fun node => ⟨typeKnown_not_misused, trivial⟩
  have hcall : ∀ node args, CallReady (fun h => ¬ h.IsMisusedForwarding) declared ctx walk
      (fun _ => True) node args :=
    fun node args => ⟨targetKnown_not_misused, fun arg _ => hpart arg⟩
  unfold NodeReady
  split
  · exact fun _ _ => trivial
  · exact targetKnown_not_misused
  · exact ⟨typeKnown_not_misused, hpart _⟩
  · exact ⟨typeKnown_not_misused, hpart _⟩
  · exact ⟨typeKnown_not_misused, hcall _ _, fun _ _ _ object _ => hpart object⟩
  · trivial
  · exact hcall _ _
  · exact ⟨hpart _, hpart _⟩
  · trivial
  · exact ⟨hpart _, trivial, fun _ _ => trivial⟩
  · exact ⟨hpart _, trivial⟩
  · exact ⟨hpart _, fun _ _ _ _ _ => ⟨typeKnown_not_misused, trivial⟩⟩
  · exact fun value _ => hpart value
  · exact ⟨typeKnown_not_misused, hpart _⟩
  · trivial

theorem moduleReady_not_misused {before : String → Prop} :
    ModuleReady (fun h => ¬ h.IsMisusedForwarding) before ctx where
  types _ _ _ _ := typeKnown_not_misused
  inclusions _ _ _ _ _ _ :=
    ⟨fun _ => Typing.not_misused_of_head (by decide), fun _ => Typing.not_misused_of_text (by
      constructor <;> intro h <;> simpa [ToString.toString] using congrArg (·.toList.take 3) h)⟩
  signatures _ _ _ _ := signatureKnown_not_misused
  bodies _ _ _ _ _ _ _ _ _ := ⟨typeKnown_not_misused, fun _ => True, prepared_not_misused, trivial⟩

end Findings

/-- Generating code never misuses forwarding. -/
theorem Backend.code_not_misused {tree : SyntaxTree} {pool : Pool} {typed : TypedModule}
    {o o' : Output} {h : Halt} (hrun : Backend.code.generate tree pool typed o = .error h o') :
    ¬ h.IsMisusedForwarding := by
  have hready : ModuleReady (fun h => ¬ h.IsMisusedForwarding) (fun _ => False)
      { tree, pool, typed } := moduleReady_not_misused
  have hsafe := Emit.generate_safe tolerant_not_misused hready (o := o) fun _ hname => hname.elim
  exact hsafe.error hrun

namespace Session

variable {store : ModuleStore}

/-- Compiling one unit ends in a misuse of forwarding only if an import does. -/
theorem compileWith_misused {importer : Importer (Session Output)} {tree : SyntaxTree} {p : Pool}
    {N : TypeId → Prop} {session : Session Output} {after : Pool × Session Output} {h : Halt}
    (hlawful : importer.Lawful) (hT : p.Territory N) (hfits : importer.ExportsFit p N session)
    (hrun : compileWith Backend.code importer tree (p, session) = .error h after)
    (hmisused : h.IsMisusedForwarding) : importer.Raises h := by
  unfold compileWith at hrun
  have hinitial : Typing.Confined { tree, importer } p N { pool := p, imports := session } :=
    .initial hT hfits
  have hcalc := Typing.calculate_confined hT hlawful hinitial
  cases hresult : Typing.calculate { tree, importer } { pool := p, imports := session } with
  | error h' s =>
      simp only [hresult] at hrun
      cases hrun
      exact (hcalc.error hresult).2.2 hmisused
  | ok typed s =>
      simp only [hresult] at hrun
      split at hrun
      · next hgenerate =>
          cases hrun
          exact absurd hmisused (Backend.code_not_misused hgenerate)
      · cases hrun

/-- No import ends in a misuse of forwarding. -/
theorem importerWithin_not_misused (store : ModuleStore) (fuel : Nat) {h : Halt}
    (hraises : (importerWithin Backend.code store fuel).Raises h) : ¬ h.IsMisusedForwarding := by
  induction fuel generalizing h with
  | zero =>
      obtain ⟨path, dotted, p, session, N, after, hT, hfits, hrun⟩ := hraises
      cases hrun
      exact tolerant_not_misused.outOfFuel
  | succ fuel ih =>
      obtain ⟨path, dotted, p, session, N, after, hT, hfits, hrun⟩ := hraises
      have hcases := resolve_resolved Backend.code store fuel path dotted p session
      rw [hrun] at hcases
      cases hcases with
      | refused h => exact tolerant_not_misused.program _ h
      | failed hload hcompile =>
          intro hmisused
          refine ih ?_ hmisused
          refine compileWith_misused (importerWithin_lawful _ store fuel) hT ?_ hcompile hmisused
          intro id e he
          rw [importerWithin_exports] at he
          exact hfits id e he

/-- Type variables are only ever forwarded to closed types: while a unit is typed in a session whose
modules offer closed types, the pool is settled at the beginning, operations that keep it settled
each lead to the pool at the end, and typing never ends because a variable was forwarded twice or
something that is no variable was forwarded. -/
theorem calculate_settled {s : Pool × Session Output} (h : Sound s) (store : ModuleStore)
    (fuel : Nat) (tree : SyntaxTree) :
    s.1.Settled ∧
      Pool.Passes Pool.Settled s.1 (finalState (Typing.calculate
        { tree, importer := importerWithin Backend.code store fuel }
        { pool := s.1, imports := s.2 })).pool ∧
      ∀ e t, Typing.calculate { tree, importer := importerWithin Backend.code store fuel }
        { pool := s.1, imports := s.2 } = .error e t → ¬ e.IsMisusedForwarding := by
  have hcalc := Typing.calculate_confined h.pool.territory
    (importerWithin_lawful Backend.code store fuel) (h.confined Backend.code store fuel tree)
  refine ⟨h.pool.settled, ?_, fun e t hrun hmisused => ?_⟩
  · cases hrun : Typing.calculate { tree, importer := importerWithin Backend.code store fuel }
        { pool := s.1, imports := s.2 } with
    | ok typed t => exact (hcalc.ok hrun).2.1.passes.mono fun _ hkept => hkept.sound.settled
    | error e t => exact (hcalc.error hrun).2.1.passes.mono fun _ hkept => hkept.sound.settled
  · exact importerWithin_not_misused store fuel ((hcalc.error hrun).2.2 hmisused) hmisused

/-- A unit that passes a lambda without declared types to a function. -/
def applyUnit : SyntaxTree :=
  .ofStatements #[.namedType "Integer", .closureType [0] 0, .typed "f" 1, .number 1,
    .call none "f" [3], .methodDef "apply" [2] (some 0) 4, .ident "x", .ident "x",
    .lambda [6] [] 7, .call none "apply" [8], .methodDef "main" [] (some 0) 9] [5, 10]

/-- Typing `applyUnit` in a new session. -/
def applyRun : EStateM.Result Halt (TypingState (Session Output)) TypedModule :=
  Typing.calculate { tree := applyUnit, importer := importerWithin Backend.code {} 1 }
    { pool := Pool.initial, imports := { output := Output.ofName "unit" } }

/-- The parameter of the lambda is a variable that the call forwards to `Integer`, and the pool is
settled all the time. -/
theorem calculate_settled_apply :
    (finalState applyRun).pool.data 9 = .var (some .integer) ∧
      Pool.Passes Pool.Settled Pool.initial (finalState applyRun).pool := by
  have hsound : Sound (Pool.initial, ({ output := Output.ofName "unit" } : Session Output)) :=
    ⟨Pool.sound_initial, fun id e he => by simp [exports?] at he⟩
  exact ⟨by decide +kernel, (calculate_settled hsound {} 1 applyUnit).2.1⟩

end Session

end ClassLang

/-! ## Types that are known stay known -/

namespace ClassLang.Session

variable {γ : Type}

/-- Type facts are stable. A pool that comes from another one by operations on its types, of which
none forwards a variable to a type built from it, retains what was known of the types: what they
stand for, which are equal, and which convert to which. In a session the pool for which code is
generated retains what was known when the typing of the unit began, and operations lead from there
to it that each give a pool of which it retains what was known. -/
theorem type_facts_last (backend : Backend γ) (store : ModuleStore) :
    (∀ {p q : Pool}, Pool.initial.Grows p → p.Grows q → p.Retains q) ∧
      ∀ {fuel : Nat} {tree : SyntaxTree} {s : Pool × Session γ},
        Begins backend store fuel tree s → ∀ {typed : TypedModule} {t : TypingState (Session γ)},
        Typing.calculate { tree, importer := importerWithin backend store fuel }
          { pool := s.1, imports := s.2 } = .ok typed t →
        s.1.Retains t.pool ∧ Pool.Passes (·.Retains t.pool) s.1 t.pool := by
  refine ⟨fun hp hq => hp.retains hq, fun {fuel tree s} h {typed t} hrun => ?_⟩
  have hcalc := Typing.calculate_confined h.sound.pool.territory
    (importerWithin_lawful backend store fuel) (h.sound.confined backend store fuel tree)
  obtain ⟨-, hle, -⟩ := hcalc.ok hrun
  exact hle.passes.retains h.sound.pool fun _ hkept => hkept.sound

/-- Two closure types over one open variable, of which the first captures an Integer. -/
def closurePool : Pool :=
  ((Pool.initial.freshVar.2.closure [8] 8 [.integer]).2.closure [8] 8 []).2

/-- The pool `closurePool` with its variable forwarded to `String`. -/
def forwardedClosurePool : Pool :=
  closurePool.set 8 (.var (some .string))

/-- The closures of `closurePool` convert to each other before and after their variable is
forwarded, and typing `applyUnit`, where a variable is forwarded as well, loses nothing either. -/
theorem type_facts_last_closures :
    closurePool.isUnresolved 8 = true ∧ closurePool.conversion? 9 10 = some .castClosure ∧
      forwardedClosurePool.resolve 8 = .string ∧ forwardedClosurePool.canConvert 9 10 = true ∧
      ∃ typed t, applyRun = .ok typed t ∧ t.pool.data 9 = .var (some .integer) ∧
        Pool.Passes (·.Retains t.pool) Pool.initial t.pool := by
  have hgrows : Pool.initial.Grows closurePool :=
    .tail (.tail (.single (.freshVar _)) (.closure (by decide))) (.closure (by decide))
  have hunify : closurePool.unify 8 .string = .ok forwardedClosurePool := by decide +kernel
  have hlast : closurePool.Grows forwardedClosurePool :=
    .single (.unify (by decide) (Pool.not_looksAt_of_blank rfl rfl) hunify)
  obtain ⟨hpools, hsession⟩ := type_facts_last Backend.code {}
  have hretains := hpools hgrows hlast
  refine ⟨by decide, by decide +kernel, by decide, ?_, ?_⟩
  · exact hretains.canConvert 9 (by decide) 10 (by decide) (by decide +kernel)
  · have hforwarded : okWith (fun _ t => t.pool.data 9) applyRun = some (.var (some .integer)) := by
      decide +kernel
    obtain ⟨typed, t, hrun, hdata⟩ := exists_of_okWith hforwarded
    exact ⟨typed, t, hrun, hdata, (hsession (.unit (.start _) applyUnit) hrun).2⟩

end ClassLang.Session
