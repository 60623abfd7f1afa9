import ClassLang.Proofs.Lowering.StorageModule
import ClassLang.Proofs.Session.Outputs

/-!
# Storage for what a unit reads

Typing finds a name in any enclosing block of its function, also from inside a lambda, while the
code of a lambda only has storage for its parameters, its captures and what its own body declares.
Code for a unit that was typed is generated without lack of storage if its bodies are scoped: every
name that a function or lambda reads is one that it has storage for.
-/

namespace ClassLang

/-! ## Deciding whether bodies are scoped -/

namespace LoweringContext

variable (ctx : LoweringContext) (walk : InstanceId) (strict : Prop) [Decidable strict]
  (S : List String → NodeId → Prop) [∀ names node, Decidable (S names node)]

instance decidableSeqScoped : ∀ names statements, Decidable (ctx.SeqScoped S names statements)
  | _, [] => isTrue True.intro
  | names, statement :: rest =>
    have := decidableSeqScoped (ctx.declares statement ++ names) rest
    inferInstanceAs (Decidable (S names statement ∧ ctx.SeqScoped S _ rest))

instance decidableArmScoped (onDynamic : Bool) (names : List String) (arm : NodeId) :
    Decidable (ctx.ArmScoped walk S onDynamic names arm) := by
  unfold ArmScoped
  split
  · split <;> infer_instance
  · infer_instance

instance decidableNodeScoped (names : List String) (node : NodeId) :
    Decidable (ctx.NodeScoped walk strict S names node) := by
  unfold NodeScoped
  split
  all_goals first
    | infer_instance
    | split <;> infer_instance

instance decidableScopedWithin :
    ∀ fuel names node, Decidable (ctx.ScopedWithin walk strict fuel names node)
  | 0, _, _ => isTrue True.intro
  | fuel + 1, names, node =>
    have := decidableScopedWithin fuel
    ctx.decidableNodeScoped walk strict (ctx.ScopedWithin walk strict fuel) names node

instance decidableBodiesScoped : Decidable (ctx.BodiesScoped strict) :=
  have (visit : Visit) (sig : Signature) : Decidable (ctx.MethodScoped strict visit sig) := by
    unfold MethodScoped
    split <;> infer_instance
  inferInstanceAs (Decidable (∀ entry ∈ ctx.typed.table.signatures.toList,
    ctx.MethodScoped strict entry.1 entry.2))

end LoweringContext

namespace Session

variable {store : ModuleStore}

/-- Generating keeps the records of runtime types, and units that fail leave a table in which
different types have different records. -/
theorem upheld_registering (store : ModuleStore) : Upheld store (registering False False) where
  start _ := .of_none rfl
  stop _ _ ho := ⟨False.elim, ho, id⟩
  intact h := h.2.1
  generate _ _ _ ho :=
    Emit.generate_registers (LoweringContext.bodiesScoped_of_lax _) _ ho


/-- Code reads only what has storage: wherever a compilation begins in a session, be it of a unit or
of something it imports, let the unit be typed and its bodies be scoped, so that every name that
typing took for a local is a parameter or capture of the function or lambda that reads it, bound by
an enclosing pattern in it, or declared before in an enclosing sequence in it. Then generating does
not fail because a name has no storage. -/
theorem scoped_bodies_have_storage {fuel : Nat} {tree : SyntaxTree} {s : Pool × Session Output}
    (h : Generating store fuel tree s) {typed : TypedModule} {t : TypingState (Session Output)}
    (hrun : Typing.calculate { tree, importer := importerWithin Backend.code store fuel }
      { pool := s.1, imports := s.2 } = .ok typed t)
    (hscoped : LoweringContext.BodiesScoped { tree, pool := t.pool, typed } True) :
    ∀ halt o, Backend.code.generate tree t.pool typed t.imports.output = .error halt o →
      ¬ halt.Unstored := by
  intro halt o hgenerate
  have hregistered := (upheld_registering store).calculated h hrun
  have hkeeps := Emit.generate_registers hscoped _ hregistered
  exact (hkeeps.error hgenerate).1 True.intro

/-- A unit with a lambda that captures the local it reads. -/
def capturingUnit : SyntaxTree :=
  .ofStatements #[.number 1, .var "x" none 0, .ident "x", .lambda [] ["x"] 2, .var "f" none 3,
    .call none "f" [], .seq [1, 4, 5], .methodDef "main" [] none 6] [7]

/-- The bodies of `capturingUnit` are scoped. -/
theorem scoped_bodies_have_storage_capturing :
    ∃ typed t, firstRun {} capturingUnit = .ok typed t ∧
      ∀ halt o, Backend.code.generate capturingUnit t.pool typed t.imports.output =
        .error halt o → ¬ halt.Unstored := by
  have hscoped : okWith (fun typed t => decide (LoweringContext.BodiesScoped
      { tree := capturingUnit, pool := t.pool, typed } True)) (firstRun {} capturingUnit) =
      some true := by
    decide +kernel
  obtain ⟨typed, t, hrun, hbodies⟩ := exists_of_okWith hscoped
  exact ⟨typed, t, hrun, scoped_bodies_have_storage (.unit (.start "main") capturingUnit) hrun
    (of_decide_eq_true hbodies)⟩

/-- A unit with a lambda that reads a local without capturing it. -/
def uncapturedUnit : SyntaxTree :=
  .ofStatements #[.number 1, .var "x" none 0, .ident "x", .lambda [] [] 2, .var "f" none 3,
    .seq [1, 4], .methodDef "main" [] none 5] [6]

/-- Typing accepts `uncapturedUnit`, but the lambda has no storage for the local. -/
theorem uncaptured_local_has_no_storage :
    uncapturedUnit.TreeShaped ∧
      ∃ typed t halt o, firstRun {} uncapturedUnit = .ok typed t ∧
        typed.table.target { walk := 0, node := 2 } = .ok .localVar ∧
        Backend.code.generate uncapturedUnit t.pool typed t.imports.output = .error halt o ∧
        halt.Unstored := by
  have hhalts : firstHalts {} uncapturedUnit =
      (none, some (.error (.internal "'x' has no storage in this function"))) := by
    decide +kernel
  have htarget : okWith (fun typed _ => typed.table.target { walk := 0, node := 2 })
      (firstRun {} uncapturedUnit) = some (.ok .localVar) := by
    decide +kernel
  unfold firstHalts at hhalts
  split at hhalts
  · cases hhalts
  · next typed t hrun =>
      split at hhalts
      · next halt o hgenerate =>
          cases hhalts
          rw [hrun] at htarget
          exact ⟨by decide, typed, t, _, o, hrun, Option.some.inj htarget, hgenerate, "x", rfl⟩
      · cases hhalts

end Session

end ClassLang
