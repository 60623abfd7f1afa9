import Mathlib.Logic.Relation
import ClassLang.Execution.Evaluator
import ClassLang.Proofs.Lowering.FlowModule
import ClassLang.Proofs.Session.Outputs

/-!
# The flow of control in generated code

Whenever a unit of a session compiles, every function that got a body on the way is complete: each
of its blocks ends in one terminator and has no other, and the exit block is where all paths through
the function end. This covers the modules that the unit imports, methods, expansions and lambdas.

Units that fail leave unfinished functions behind. Nothing is built into them later, which is why
the statements are about the functions that got their body while the unit was compiled.
-/

namespace ClassLang

open IR (Builder FunctionId Value)
open Relation (ReflTransGen)

/-! ## Paths through a function -/

/-- Control can go on from block `a` to block `b` of function `id`. -/
def IR.Function.Leads (f : IR.Function) (id : FunctionId) (a b : Nat) : Prop :=
  ⟨id, b⟩ ∈ (f.block a).successors

/-- A block that leads to the exit block of a function with a result is a return site. -/
theorem IR.Function.ExitProtocol.site_of_leads {f : IR.Function} {id : FunctionId}
    {noResult : Prop} {sites : List (Value × IR.BlockRef)}
    (h : f.ExitProtocol id noResult sites) (hresult : ¬ noResult) {k : Nat}
    (hleads : f.Leads id k 1) : ⟨id, k⟩ ∈ sites.map (·.2) := by
  rw [(h.predecessors hresult).1.mem_iff]
  refine List.mem_map_of_mem (List.count_pos_iff.mp ?_)
  rw [IR.Function.count_predecessors h.layout]
  exact List.count_pos_iff.mpr hleads

/-- The exit block of a function with a result is not reached from the entry without passing a
return site. -/
theorem IR.Function.ExitProtocol.passes_site {f : IR.Function} {id : FunctionId} {noResult : Prop}
    {sites : List (Value × IR.BlockRef)} (h : f.ExitProtocol id noResult sites)
    (hresult : ¬ noResult) {k : Nat}
    (hpath : ReflTransGen (fun a b => f.Leads id a b ∧ ⟨id, a⟩ ∉ sites.map (·.2)) 0 k) :
    k ≠ 1 := by
  rintro rfl
  rcases hpath.cases_tail with h0 | ⟨a, -, hleads, hnot⟩
  · cases h0
  · exact hnot (h.site_of_leads hresult hleads)

/-! ## Generating from an open block -/

/-- The stage of generating a node in block `c` of the function of a body: the code is responsible
for that block and for the blocks it makes. -/
def Stage.local (b : Body) (c size : Nat) : Stage where
  function := b.function
  walk := b.walk
  exit := b.exit
  result := b.result
  expected := none
  bare h := by cases h
  watched k := k = c ∨ size ≤ k
  records _ := True

/-- Generating a node in an open block `c`: the block in which building goes on is open if the node
has a value, and all other blocks that were made have ended, as has `c` if building left it. -/
theorem Lower.lower_from_open {ctx : LoweringContext} {node : NodeId} {b b' : Body} {o o' : Output}
    {c : Nat} {value : Option Value} (hsane : o.builder.Sane) (hat : o.builder.At b.function c)
    (hopen : ((o.builder.module.function b.function).block c).Open)
    (hrun : (Lower.lower ctx node).run b o = .ok (value, b') o') :
    ∃ c', o'.builder.At b.function c' ∧
      (value.isSome = true → ((o'.builder.module.function b.function).block c').Open) ∧
      ∀ k, k < (o'.builder.module.function b.function).blocks.size →
        k = c ∨ (o.builder.module.function b.function).blocks.size ≤ k → k ≠ c' →
          ((o'.builder.module.function b.function).block k).endsOnce = true := by
  let S := Stage.local b c (o.builder.module.function b.function).blocks.size
  have hflow : Flow False S [] c b o.builder := by
    refine ⟨rfl, rfl, rfl, hsane, hat, by simp, by simp, by simp, fun k hk hwatched _ hne => ?_,
      .inr hopen, rfl, False.elim⟩
    rcases hwatched with rfl | hle
    · exact absurd rfl hne
    · exact absurd hk (Nat.not_lt.mpr hle)
  have hlowers : LowersWithin ctx False (fun _ => False) (ctx.tree.size + 1) :=
    Lower.lowerWithin_flows False.elim _
  have hkeeps := hlowers S node False.elim [] c b o ⟨hflow, hopen⟩ False.elim
  obtain ⟨-, -, c', hflow', hopen'⟩ := hkeeps.ok hrun
  exact ⟨c', hflow'.at_, hopen', fun k hk hwatched hne => hflow'.ended k hk hwatched (by simp) hne⟩

/-! ## Functions that get a body -/

/-- Functions with a body stay as they are, and the blocks of those that get one have ended once. -/
structure Builds (b b' : Builder) : Prop where
  kept : ∀ id, (b.module.function id).hasBody = true →
    b'.module.function id = b.module.function id
  blocks : ∀ id, (b.module.function id).hasBody = false →
    ∀ k, k < (b'.module.function id).blocks.size →
      ((b'.module.function id).block k).endsOnce = true

namespace Builds

variable {b b' b'' : Builder}

theorem of_frame {ctx : LoweringContext} {begun : BodyRun → Prop}
    (h : Frame ctx True begun none b b') : Builds b b' where
  kept id hbody := h.kept id (by simp) hbody
  blocks id hbody k hk := by
    cases hbody' : (b'.module.function id).hasBody with
    | true => exact (h.done id (by simp) hbody hbody').blocks k hk
    | false =>
        have hnone : (b'.module.function id).blocks.size = 0 := by
          simpa [IR.Function.hasBody, Array.isEmpty] using hbody'
        omega

theorem refl (b : Builder) : Builds b b where
  kept _ _ := rfl
  blocks id hbody k hk := by
    have hnone : (b.module.function id).blocks.size = 0 := by
      simpa [IR.Function.hasBody, Array.isEmpty] using hbody
    omega

theorem trans (h : Builds b b') (h' : Builds b' b'') : Builds b b'' where
  kept id hbody := by
    have hsame := h.kept id hbody
    rw [h'.kept id (hsame ▸ hbody), hsame]
  blocks id hbody k hk := by
    by_cases hbody' : (b'.module.function id).hasBody = true
    · rw [h'.kept id hbody'] at hk ⊢
      exact h.blocks id hbody k hk
    · exact h'.blocks id (by simpa using hbody') k hk

end Builds

/-- What typing checked is what generating relies on. -/
theorem Typing.ModuleChecked.returnsChecked {ctx : LoweringContext}
    (h : Typing.ModuleChecked ctx.tree ctx.typed) (hsound : ctx.pool.Sound) :
    ReturnsChecked ctx where
  void := by
    have hdata : ctx.pool.data TypeId.void = Pool.initial.data TypeId.void :=
      (hsound.builtin TypeId.void (by decide)).2
    have hresolve : ctx.pool.resolve TypeId.void = TypeId.void :=
      Pool.resolve_of_not_var (by rw [hdata]; rfl)
    rw [Pool.resolveStrict, Pool.resolveStrictWithin, hresolve, hdata]
    rfl
  bodies statement hstatement visit hvisit sig hsig := by
    refine (h statement hstatement visit hvisit).2 sig ?_
    unfold TypeTable.signature at hsig
    split at hsig
    · next hfound =>
        cases hsig
        exact hfound
    · cases hsig

namespace Session

variable {store : ModuleStore}

/-- Units that compile complete the functions they give a body; all units leave a sane builder. -/
def building : Discipline Halt (Session Output) where
  inv s := s.output.builder.Sane
  le s t := Builds s.output.builder t.output.builder
  fails _ _ t := t.output.builder.Sane
  refl _ := .refl _
  trans := .trans
  fails_trans _ h := h

end Session

/-- A new output is sane: no function has a body. -/
theorem Output.ofName_sane (name : String) : (Output.ofName name).builder.Sane := by
  have hempty : (Builder.ofName name).Sane := by
    refine ⟨fun name' id h => ?_, fun id _ => ?_⟩
    · simp [Builder.ofName, Builder.function?] at h
    · rfl
  have hmalloc := IR.Builder.declareFunction_run hempty "malloc"
    { params := [.i64], result := some .ptr }
  exact (IR.Builder.declareFunction_run hmalloc.sane "free"
    { params := [.ptr], result := none }).sane

namespace Session

variable {store : ModuleStore}

/-- Generating completes the functions it gives a body. -/
theorem upheld_building (store : ModuleStore) :
    Upheld store (building.comap fun output => { output }) where
  start := Output.ofName_sane
  stop _ _ hsane := hsane
  intact h := h
  generate {fuel tree s typed t} hrun hchecked hsound hsane := by
    have hkeeps : (flowing { tree, pool := t.pool, typed } True _ none).KeepsAt t.imports.output
        (Emit.generate { tree, pool := t.pool, typed }) fun _ _ => True :=
      Emit.generate_keeps (fun _ => Typing.ModuleChecked.returnsChecked hchecked hsound) hsane
    cases hgen : Emit.generate { tree, pool := t.pool, typed } t.imports.output with
    | ok _ output =>
        obtain ⟨hsane', hframe, -⟩ := hkeeps.ok hgen
        exact .of_ok hgen hsane' (.of_frame hframe) True.intro
    | error h output => exact .of_error hgen (hkeeps.error hgen).1

/-- A unit that compiles completes the functions it gives a body. -/
theorem Generating.builds {fuel : Nat} {tree : SyntaxTree} {s after : Pool × Session Output}
    {typed : TypedModule} (h : Generating store fuel tree s)
    (hrun : compileWith Backend.code (importerWithin Backend.code store fuel) tree s =
      .ok typed after) : Builds s.2.output.builder after.2.output.builder :=
  (((upheld_building store).compiled h).ok hrun).2.1

/-! ## Blocks and exits -/

/-- Control flow of generated code is well formed. When a unit compiles, functions that had a body
stay as they are, and each block of a function that got one ends in a terminator and holds no other.
On the way, generating a node in an open block has a value only if building goes on in an open
block. -/
theorem generated_blocks_end_once {fuel : Nat} {tree : SyntaxTree}
    {s after : Pool × Session Output} {typed : TypedModule} (h : Generating store fuel tree s)
    (hrun : compileWith Backend.code (importerWithin Backend.code store fuel) tree s =
      .ok typed after) :
    (∀ id, (s.2.output.builder.module.function id).hasBody = true →
        after.2.output.builder.module.function id = s.2.output.builder.module.function id) ∧
      (∀ id, (s.2.output.builder.module.function id).hasBody = false →
        ∀ k, k < (after.2.output.builder.module.function id).blocks.size →
          ((after.2.output.builder.module.function id).block k).endsOnce = true) ∧
      ∀ (ctx : LoweringContext) node (b b' : Body) (o o' : Output) c value, o.builder.Sane →
        o.builder.At b.function c →
        ((o.builder.module.function b.function).block c).Open →
        (Lower.lower ctx node).run b o = .ok (some value, b') o' →
        o'.builder.isTerminated = false := by
  have hbuilds := h.builds hrun
  refine ⟨hbuilds.kept, hbuilds.blocks, ?_⟩
  intro ctx node b b' o o' c value hsane hat hopen hlower
  obtain ⟨c', hat', hopen', -⟩ := Lower.lower_from_open hsane hat hopen hlower
  rw [hat'.isTerminated, (hopen' rfl).isTerminated]

/-- A unit whose function returns early on one of its paths. -/
def earlyReturnUnit : SyntaxTree :=
  .ofStatements #[.namedType "Integer", .bool true, .number 1, .ret (some 2), .branch 1 3 none,
    .number 2, .seq [4, 5], .methodDef "main" [] (some 0) 6] [7]

/-- What compiling a unit in a new session that has nothing to import ends in. -/
def loneRun (tree : SyntaxTree) : EStateM.Result Halt (Pool × Session Output) TypedModule :=
  compileUnit Backend.code {} tree (Pool.initial, { output := Output.ofName "main" })

/-- What the `main` of a unit returns that has nothing to import, if it compiles and runs to its
end. -/
def mainResult (tree : SyntaxTree) : Option Execution.Datum := do
  let m ← (compile {} "main" tree).toOption
  let evaluator ← (Execution.Evaluator.load m).toOption
  let (result, _) ← (evaluator.bindAll.call .integer "main").toOption
  result

/-- How many blocks a function has after a run that succeeded, and which of them lead to its exit
block. -/
def exitShape (id : FunctionId) :
    EStateM.Result Halt (Pool × Session Output) TypedModule → Option (Nat × List Nat)
  | .error _ _ => none
  | .ok _ after =>
      let f := after.2.output.builder.module.function id
      some (f.blocks.size, f.predecessors ⟨id, 1⟩)

theorem earlyReturnUnit_compiles :
    ∃ typed after, loneRun earlyReturnUnit = .ok typed after ∧
      (after.2.output.builder.module.function 2).blocks.size = 4 ∧
      (after.2.output.builder.module.function 2).predecessors ⟨2, 1⟩ = [2, 3] := by
  have hshape : exitShape 2 (loneRun earlyReturnUnit) = some (4, [2, 3]) := by decide +kernel
  cases hrun : loneRun earlyReturnUnit with
  | error h after =>
      rw [hrun] at hshape
      cases hshape
  | ok typed after =>
      rw [hrun] at hshape
      obtain ⟨hsize, hpredecessors⟩ := Prod.mk.inj (Option.some.inj hshape)
      exact ⟨typed, after, rfl, hsize, hpredecessors⟩

/-- The four blocks of the function of `earlyReturnUnit` end once. -/
theorem generated_blocks_end_once_early_return :
    ∃ typed after, loneRun earlyReturnUnit = .ok typed after ∧
      (after.2.output.builder.module.function 2).blocks.size = 4 ∧
      ∀ k < 4, ((after.2.output.builder.module.function 2).block k).endsOnce = true := by
  obtain ⟨typed, after, hrun, hsize, -⟩ := earlyReturnUnit_compiles
  have hends := generated_blocks_end_once (.unit (.start "main") earlyReturnUnit) hrun
  exact ⟨typed, after, hrun, hsize, fun k hk => hends.2.1 2 rfl k (hsize ▸ hk)⟩

/-- When a unit is typed and generated, functions that had a body stay as they are, and the exit block
of every function that gets one obeys its protocol. The body is that of a run that began on the way,
for a definition when it was its turn or for a lambda. What its function returns is what the signature
or the type of the lambda declares, and the return sites that the run recorded, with the values as
they were converted to that type, are what the exit block merges. It is the only block that leaves the
function, and in a function with a result it is reached through return sites only. -/
theorem generated_exit_protocol {fuel : Nat} {tree : SyntaxTree} {s : Pool × Session Output}
    {typed : TypedModule} {t : TypingState (Session Output)} {o : Output}
    (h : Generating store fuel tree s)
    (hcalc : Typing.calculate { tree, importer := importerWithin Backend.code store fuel }
      { pool := s.1, imports := s.2 } = .ok typed t)
    (hgen : Emit.generate { tree, pool := t.pool, typed } t.imports.output = .ok () o) :
    (∀ id, (t.imports.output.builder.module.function id).hasBody = true →
        o.builder.module.function id = t.imports.output.builder.module.function id) ∧
      ∀ id, (t.imports.output.builder.module.function id).hasBody = false →
        (o.builder.module.function id).hasBody = true → ∃ run b,
          Emit.Begins { tree, pool := t.pool, typed } t.imports.output run ∧
          run.before.function = id ∧
          Completed { tree, pool := t.pool, typed } o.builder run b ∧
          (run.before.result ≠ .void → ∀ k, ReflTransGen (fun x y =>
            (o.builder.module.function id).Leads id x y ∧ ⟨id, x⟩ ∉ b.returnSites.map (·.2)) 0 k →
              k ≠ 1) := by
  obtain ⟨hsane, hchecked, hsound⟩ := (upheld_building store).typed h hcalc
  have hkeeps : (flowing { tree, pool := t.pool, typed } True _ none).KeepsAt t.imports.output
      (Emit.generate { tree, pool := t.pool, typed }) fun _ _ => True :=
    Emit.generate_keeps (fun _ => Typing.ModuleChecked.returnsChecked hchecked hsound) hsane
  obtain ⟨-, hframe, -⟩ := hkeeps.ok hgen
  refine ⟨fun id => hframe.kept id (by simp), fun id hbody hbody' => ?_⟩
  obtain ⟨run, b, hbegins, rfl, -, hcompleted⟩ :=
    (hframe.done id (by simp) hbody hbody').completed True.intro
  exact ⟨run, b, hbegins, rfl, hcompleted,
    fun hresult k hpath => hcompleted.protocol.passes_site hresult hpath⟩

/-- Of a unit that is typed and generated in a new session: whether a function has a body before, and
which blocks lead to its exit block in the end. -/
def generatedShape (id : FunctionId) (tree : SyntaxTree) : Option (Bool × Bool × List Nat) :=
  match Typing.calculate { tree, importer := importerWithin Backend.code {} 1 }
      { pool := Pool.initial, imports := { output := Output.ofName "main" } } with
  | .error _ _ => none
  | .ok typed t =>
      match Emit.generate { tree, pool := t.pool, typed } t.imports.output with
      | .error _ _ => none
      | .ok _ o =>
          let f := o.builder.module.function id
          some ((t.imports.output.builder.module.function id).hasBody, f.hasBody,
            f.predecessors ⟨id, 1⟩)

/-- The exit block of the function of `earlyReturnUnit` is led to by two blocks, which are its return
sites. -/
theorem generated_exit_protocol_early_return :
    ∃ typed t o, Typing.calculate
        { tree := earlyReturnUnit, importer := importerWithin Backend.code {} 1 }
        { pool := Pool.initial, imports := { output := Output.ofName "main" } } = .ok typed t ∧
      Emit.generate { tree := earlyReturnUnit, pool := t.pool, typed } t.imports.output = .ok () o ∧
      (o.builder.module.function 2).predecessors ⟨2, 1⟩ = [2, 3] ∧ ∃ run b,
        Emit.Begins { tree := earlyReturnUnit, pool := t.pool, typed } t.imports.output run ∧
        run.before.function = 2 ∧
        Completed { tree := earlyReturnUnit, pool := t.pool, typed } o.builder run b ∧
        (run.before.result ≠ .void → ∀ k, ReflTransGen (fun x y =>
          (o.builder.module.function 2).Leads 2 x y ∧ ⟨2, x⟩ ∉ b.returnSites.map (·.2)) 0 k →
            k ≠ 1) := by
  have hshape : generatedShape 2 earlyReturnUnit = some (false, true, [2, 3]) := by decide +kernel
  unfold generatedShape at hshape
  split at hshape
  · cases hshape
  · next typed t hcalc =>
      split at hshape
      · cases hshape
      · next o hgen =>
          simp only [Option.some.injEq, Prod.mk.injEq] at hshape
          obtain ⟨hbody, hbody', hpredecessors⟩ := hshape
          exact ⟨typed, t, o, hcalc, hgen, hpredecessors,
            (generated_exit_protocol (.unit (.start "main") earlyReturnUnit) hcalc hgen).2 2 hbody
              hbody'⟩

/-! ## Names that skipped code declares

Statements behind a `return` are typed but no code is generated for them. A name that such a
statement declares again keeps its older storage, while later uses are typed with the skipped
declaration. -/

/-- A unit that declares an Integer again as a String behind a `return`, and uses it as a String. -/
def redeclaredUnit : SyntaxTree :=
  .ofStatements #[.namedType "Integer", .number 1, .var "x" none 1, .bool false, .number 2,
    .ret (some 4), .text "s", .var "x" none 6, .seq [5, 7], .branch 3 8 none, .ident "x",
    .call (some 10) "c_str" [], .number 3, .seq [2, 9, 11, 12],
    .methodDef "main" [] (some 0) 13] [14]

/-- How often the builder was misused in a run that succeeded. -/
def misuses : EStateM.Result Halt (Pool × Session Output) TypedModule → Option Nat
  | .error _ _ => none
  | .ok _ after => some after.2.output.builder.errors

/-- Typing and generating accept `redeclaredUnit`, but the field of a String is asked of an
Integer. -/
theorem redeclaredUnit_misuses_builder :
    redeclaredUnit.TreeShaped ∧ ∃ typed after, loneRun redeclaredUnit = .ok typed after ∧
      after.2.output.builder.errors = 1 := by
  have hmisuses : misuses (loneRun redeclaredUnit) = some 1 := by decide +kernel
  cases hrun : loneRun redeclaredUnit with
  | error h after =>
      rw [hrun] at hmisuses
      cases hmisuses
  | ok typed after =>
      rw [hrun] at hmisuses
      exact ⟨by decide, typed, after, rfl, Option.some.inj hmisuses⟩

end Session

end ClassLang
