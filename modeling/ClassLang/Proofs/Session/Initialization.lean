import ClassLang.Proofs.Lowering.SettledModule
import ClassLang.Proofs.Session.ControlFlow
import ClassLang.Proofs.Session.Storage

/-!
# Locals that are read before they are written

Typing lets a name be read behind the branch or loop that declares it, and the slot of the name is
there from the entry of the function on, but it is written only where the declaration stands. So
there are units whose code reads a slot that was never written. If every body reads settled names
only, no slot is read before it is written.
-/

namespace ClassLang

namespace IR

instance decidableWrites (function : FunctionId) (slot : Nat) (is : List Instruction) :
    Decidable (Writes function slot is) :=
  inferInstanceAs (Decidable (∃ i ∈ is, _))

instance Function.decidableMisses (f : Function) (id : FunctionId) (slot a b : Nat) :
    Decidable (f.Misses id slot a b) :=
  inferInstanceAs (Decidable (_ ∧ _))

end IR

/-! ## Deciding whether bodies read settled names -/

namespace LoweringContext

variable (ctx : LoweringContext) (walk : InstanceId) (V : NodeId → List String)
  (S : List String → NodeId → Prop) [∀ names node, Decidable (S names node)]

instance decidablePartsSettled : ∀ names parts, Decidable (ctx.PartsSettled V S names parts)
  | _, [] => isTrue True.intro
  | names, part :: rest =>
    have := decidablePartsSettled (ctx.settledAfter V names part) rest
    inferInstanceAs (Decidable (S names part ∧ ctx.PartsSettled V S _ rest))

instance decidableKindSettled (names : List String) (node : NodeId) (kind : Node) :
    Decidable (ctx.KindSettled walk V S names node kind) := by
  cases kind with
  | unary op operand => cases op <;> dsimp only [KindSettled] <;> infer_instance
  | _ =>
      dsimp only [KindSettled]
      infer_instance

instance decidableSettledWithin :
    ∀ fuel names node, Decidable (ctx.SettledWithin walk fuel names node)
  | 0, _, _ => isTrue True.intro
  | fuel + 1, names, node =>
    have := decidableSettledWithin fuel
    ctx.decidableKindSettled walk (ctx.varsWithin fuel) (ctx.SettledWithin walk fuel) names node
      (ctx.tree.node node)

instance decidableBodiesSettled : Decidable ctx.BodiesSettled :=
  have (visit : Visit) (sig : Signature) : Decidable (ctx.MethodSettled visit sig) :=
    inferInstanceAs (Decidable (∀ body ∈ ctx.methodBody? visit.node, _))
  inferInstanceAs (Decidable (∀ entry ∈ ctx.typed.table.signatures.toList,
    ctx.MethodSettled entry.1 entry.2))

end LoweringContext

namespace Session

variable {store : ModuleStore}

/-- Wherever a compilation begins in a session, be it of a unit or of something it imports, let the
unit be typed and its bodies read settled names only: names that are parameters, captures or bound
by an enclosing pattern, or whose last declaration before stands where control cannot get around it.
Then no function that generating gives a body reads a slot before it is written: every path from the
entry to a load of a slot passes a store to it. -/
theorem settled_bodies_write_first {fuel : Nat} {tree : SyntaxTree} {s : Pool × Session Output}
    (h : Generating store fuel tree s) {typed : TypedModule} {t : TypingState (Session Output)}
    (hrun : Typing.calculate { tree, importer := importerWithin Backend.code store fuel }
      { pool := s.1, imports := s.2 } = .ok typed t)
    (hsettled : LoweringContext.BodiesSettled { tree, pool := t.pool, typed }) {o : Output}
    (hgenerate : Backend.code.generate tree t.pool typed t.imports.output = .ok () o) :
    ∀ id, (t.imports.output.builder.module.function id).hasBody = false →
      (o.builder.module.function id).WritesFirst id := by
  let before := t.imports.output.builder
  have hsane : before.Sane := (upheld_building store).calculated h hrun
  -- a function without a body has no blocks, so an account with nothing in it is right
  have hcovered : before.Covered (fun id => (before.module.function id).hasBody = false)
      fun _ _ => ∅ := by
    refine ⟨hsane, fun _ hbody => hbody, fun id hbody => ?_⟩
    exact .of_no_blocks rfl (by simpa [IR.Function.hasBody, Array.isEmpty] using hbody)
      (hsane.layout id hbody)
  have hcovers := Emit.generate_covers hsettled _ _ hcovered
  obtain ⟨-, -, accounts, hafter, -⟩ := hcovers.ok hgenerate
  exact fun id hbody => (hafter.functions id hbody).writesFirst

/-- A unit that writes a local in a loop and in a branch, and reads it in the other one and behind
both. -/
def settledUnit : SyntaxTree :=
  .ofStatements #[.namedType "Integer", .number 1, .var "x" none 1, .bool false, .ident "x",
    .number 2, .assign 4 5, .loop 3 6, .bool true, .ident "x", .var "y" none 9, .ident "x",
    .number 3, .assign 11 12, .branch 8 10 (some 13), .ident "x", .seq [2, 7, 14, 15],
    .methodDef "main" [] (some 0) 16] [17]

/-- The bodies of `settledUnit` read settled names only, and its code writes all slots first. -/
theorem settled_bodies_write_first_loop :
    ∃ typed t o, firstRun {} settledUnit = .ok typed t ∧
      Backend.code.generate settledUnit t.pool typed t.imports.output = .ok () o ∧
      (o.builder.module.function 2).blocks.size = 8 ∧
      (o.builder.module.function 2).WritesFirst 2 := by
  have hdecides : okWith (fun typed t => (decide (LoweringContext.BodiesSettled
      { tree := settledUnit, pool := t.pool, typed }),
      (t.imports.output.builder.module.function 2).hasBody,
      okWith (fun _ (o : Output) => (o.builder.module.function 2).blocks.size)
        (Backend.code.generate settledUnit t.pool typed t.imports.output)))
      (firstRun {} settledUnit) = some (true, false, some 8) := by
    decide +kernel
  obtain ⟨typed, t, hrun, hall⟩ := exists_of_okWith hdecides
  obtain ⟨hsettled, hrest⟩ := Prod.mk.inj hall
  obtain ⟨hbody, hgenerates⟩ := Prod.mk.inj hrest
  obtain ⟨⟨⟩, o, hgenerate, hsize⟩ := exists_of_okWith hgenerates
  exact ⟨typed, t, o, hrun, hgenerate, hsize,
    settled_bodies_write_first (.unit (.start "main") settledUnit) hrun
      (of_decide_eq_true hsettled) hgenerate 2 hbody⟩

/-- A unit that declares a local in a branch and reads it behind the branch. -/
def leakingUnit : SyntaxTree :=
  .ofStatements #[.namedType "Integer", .bool false, .number 1, .var "x" none 2, .branch 1 3 none,
    .ident "x", .seq [4, 5], .methodDef "main" [] (some 0) 6] [7]

/-- The block behind the branch is reached from the entry of `main` without a store to the slot of
the local, and begins by loading it. -/
theorem branch_local_is_read_unwritten :
    leakingUnit.TreeShaped ∧ ∃ m, compile {} "main" leakingUnit = .ok m ∧
      ¬ (m.function 2).WritesFirst 2 := by
  have hcode : (compile {} "main" leakingUnit).toOption.map (fun m =>
      decide ((m.function 2).entryBlock? = some 0 ∧ (m.function 2).Misses 2 1 0 3 ∧
        (∃ i ∈ ((m.function 2).block 0).instructions, i.id = 1 ∧ i.op.isAlloca = true) ∧
        ∃ i ∈ ((m.function 2).block 3).instructions.head?, i.op.loaded? = some (2, 1))) =
      some true := by
    decide +kernel
  refine ⟨by decide, ?_⟩
  cases hrun : compile {} "main" leakingUnit with
  | error h =>
      rw [hrun] at hcode
      cases hcode
  | ok m =>
      rw [hrun] at hcode
      obtain ⟨hentry, hmisses, hslot, i, hi, hload⟩ := of_decide_eq_true (Option.some.inj hcode)
      refine ⟨m, rfl, fun hfirst => ?_⟩
      obtain ⟨rest, hrest⟩ := List.head?_eq_some_iff.mp hi
      have hwrites := hfirst 1 ⟨0, hslot⟩ 0 3 hentry (.single hmisses) [] i rest hrest hload
      obtain ⟨_, hmem, -⟩ := hwrites
      cases hmem

end Session

end ClassLang
