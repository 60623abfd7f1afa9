import ClassLang.Proofs.Lowering.FollowingModule
import ClassLang.Proofs.Lowering.TypedModule
import ClassLang.Proofs.Pool.Stability
import ClassLang.Proofs.Session.Carrying
import ClassLang.Proofs.Session.Sharing
import ClassLang.Proofs.Typing.PlainModules

/-!
# What generated code means

In a session in which all units compiled, running the code of a function on Integers and Booleans
gives what evaluating its body gives, whenever that is defined. Nodes that stand in two places of a
unit are ruled out: what typing records for such a node in one place is overwritten in the other. The
code of a unit that consists of such functions is well typed as well, so generating it never misuses
the builder.

A case without fields is built once, as a constant that holds its tag. When a unit compiles, the
constants that were made for it and for what it imports hold the tags that the cases have in the
pool, and its functions are shaped as generating leaves them.
-/

namespace ClassLang

open IR (Build Builder)

/-- The tags that cases have in a pool. -/
@[reducible] def CaseTags.ofPool (p : Pool) : CaseTags where
  IsTag t tag := ∃ link short owner fields, p.view t = .variant link short tag owner fields

/-- A case of a pool stays one. -/
theorem Pool.Sound.view_variant {p q : Pool} (hp : p.Sound) (hq : q.Sound) (he : p.Evolves q)
    {t : TypeId} {link short : String} {tag : Nat} {owner : TypeId} {fields : List (String × TypeId)}
    (h : p.view t = .variant link short tag owner fields) :
    q.view t = .variant link short tag owner fields := by
  have hlt : p.resolve t < p.size := lt_size_of_data_ne (by rw [← view, h]; simp)
  have hknown : p.isUnresolved t = false := by rw [isUnresolved, h]; rfl
  have hsame := hp.founded.resolve_of_evolves hq.founded he hlt hknown
  have hbecomes := he.becomes _ hlt
  rw [← view, h] at hbecomes
  rw [view, hsame]
  generalize q.data (p.resolve t) = d at hbecomes
  cases hbecomes
  rfl

namespace Output

/-- What was generated goes with the types of the pool. -/
structure Fits (p : Pool) (o : Output) : Prop where
  shaped : o.Shaped
  tagged : @Tagged (.ofPool p) o

theorem Fits.mono {p q : Pool} {o : Output} (h : o.Fits p) (hp : p.Sound) (hq : q.Sound)
    (he : p.Evolves q) : o.Fits q where
  shaped := h.shaped
  tagged herrors entry hentry := by
    obtain ⟨tag, ⟨link, short, owner, fields, hview⟩, hholds⟩ := h.tagged herrors entry hentry
    exact ⟨tag, ⟨link, short, owner, fields, hp.view_variant hq he hview⟩, hholds⟩

theorem ofName_fits (name : String) (p : Pool) : (ofName name).Fits p := by
  have hempty : (Builder.ofName name).Shaped := by
    refine ⟨fun g => ?_, fun other id h => ?_⟩
    · exact .of_no_blocks rfl rfl
    · simp [Builder.ofName, Builder.function?] at h
  have hmalloc := (Build.declareFunction_continues (Builder.ofName name) "malloc"
    { params := [.i64], result := some .ptr }).1.shaped hempty
  have hfree := (Build.declareFunction_continues _ "free"
    { params := [.ptr], result := none }).1.shaped hmalloc
  have htypes : (ofName name).runtimeTypes = [] := rfl
  have hsingletons : (ofName name).singletons = [] := rfl
  have hstrings : (ofName name).strings = [] := rfl
  exact ⟨⟨hfree, by simp [Constants, htypes, hsingletons, hstrings]⟩, fun _ => by simp [hsingletons]⟩

end Output

/-- Generating a unit goes with its types. -/
theorem Emit.generate_fits (ctx : LoweringContext) {o o' : Output} (ho : o.Fits ctx.pool)
    (hrun : Emit.generate ctx o = .ok () o') : o'.Fits ctx.pool := by
  let _ := CaseTags.ofPool ctx.pool
  have htags : ctx.Tags := fun t link short tag owner fields hview =>
    ⟨link, short, owner, fields, hview⟩
  have hcontinues := Emit.generate_continues htags o () o' ho.shaped hrun
  exact ⟨hcontinues.shaped ho.shaped, hcontinues.tagged ho.tagged⟩

namespace Session

/-- The constants go with the types of a session as long as its units compile. -/
theorem carried_fits : Carried fun p o => o.Fits p where
  mono hp hq he h := h.mono hp hq he
  generate ctx := Emit.generate_fits ctx

end Session

/-! ## Functions on Integers and Booleans -/

/-- Code is generated for units of declarations only. -/
theorem Emit.generate_declarations [CaseTags] {ctx : LoweringContext} {o o' : Output}
    (ho : o.Shaped) {r : Unit} (hrun : Emit.generate ctx o = .ok r o') {statement : NodeId}
    (hstatement : statement ∈ ctx.tree.statements ctx.tree.root) (name : String) :
    ¬ ctx.tree.DeclaresVar name statement := by
  obtain ⟨⟨⟩, o₁, hdeclares, -⟩ := bind_eq_ok.mp hrun
  obtain ⟨_, _, _, -, hdeclare, -⟩ := Emit.Continues.of_mem
    (fun statement _ => Emit.declareStatement_continues ctx statement) ho hdeclares hstatement
  intro hvar
  cases hvar with
  | here hnode =>
      rw [Emit.declareStatement, hnode] at hdeclare
      cases hdeclare
  | part hpart =>
      rw [Emit.declareStatement] at hdeclare
      unfold SyntaxTree.frameParts SyntaxTree.inlineParts at hpart
      cases hnode : ctx.tree.node statement <;> simp only [hnode] at hpart hdeclare <;>
        first | exact absurd hpart List.not_mem_nil | cases hdeclare

/-- Two runs of one call that ended gave the same. -/
theorem Execution.Context.result_unique {η : Type} {E : Execution.Context η} {m n : Nat}
    {g : IR.FunctionId} {args : List Execution.Datum} {r r' : Option Execution.Datum}
    {world w w' : Execution.World η} (h : E.runFunction m g args world = .finished r w)
    (h' : E.runFunction n g args world = .finished r' w') : r = r' := by
  unfold runFunction at h h'
  cases henter : E.enter? g args 0 with
  | none =>
      rw [henter] at h h'
      cases h.symm.trans h'
      rfl
  | some frame =>
      simp only [henter] at h h'
      have hsame := E.run_add_of_ne_unfinished (by rw [h]; rintro ⟨⟩) n
      rw [Nat.add_comm, E.run_add_of_ne_unfinished (by rw [h']; rintro ⟨⟩) m, h, h'] at hsame
      cases hsame
      rfl

namespace Session

variable {store : ModuleStore} {tree : SyntaxTree} {s after : Pool × Session Output}
  {typed : TypedModule}

/-- Where all units compiled, the output goes with the types. -/
theorem Generated.fits (h : Generated store s) : s.2.output.Fits s.1 := by
  induction h with
  | start hstart =>
      obtain ⟨name, rfl⟩ := hstart
      exact Output.ofName_fits name _
  | next h hpermits ih =>
      obtain ⟨typed, after, hrun⟩ := hpermits
      rw [hrun]
      exact carried_fits.compileUnit h.sound ih hrun

/-- The compilation of a unit begins in a session whose units all compiled: of one given to the
session, or of one that is imported. -/
abbrev Generated.Begins (store : ModuleStore) : Nat → SyntaxTree → Pool × Session Output → Prop :=
  BeginsFrom Backend.code store fun _ => Generated store

theorem Generated.Begins.unit (h : Generated store s) (tree : SyntaxTree) :
    Generated.Begins store (store.size + 1) tree s :=
  BeginsFrom.unit h

theorem Generated.Begins.begins {fuel : Nat} (h : Generated.Begins store fuel tree s) :
    Session.Begins Backend.code store fuel tree s :=
  BeginsFrom.mono h fun _ _ => Course.reachable

/-- What generating keeps holds wherever a compilation begins after units that compiled. -/
theorem Carried.begins {inv : Pool → Output → Prop} (hinv : Carried inv)
    (hgenerated : ∀ {s}, Generated store s → inv s.1 s.2.output) {fuel : Nat}
    (h : Generated.Begins store fuel tree s) : inv s.1 s.2.output := by
  induction h with
  | unit h => exact hgenerated h
  | imported hbegins _ hbefore _ _ ih =>
      have hsound := (Generated.Begins.begins hbegins).sound
      exact hinv.declared (hinv.importerWithin store _) hsound.pool.territory hsound.exportsFit ih
        hbefore

/-- Wherever a compilation begins after units that compiled, the output goes with the types. -/
theorem Generated.Begins.fits {fuel : Nat} (h : Generated.Begins store fuel tree s) :
    s.2.output.Fits s.1 :=
  carried_fits.begins Generated.fits h

/-- Wherever a compilation begins after units that compiled, the output has a history. -/
theorem Generated.Begins.history {fuel : Nat} (h : Generated.Begins store fuel tree s) :
    ∃ answers, History s.1 s.2.output answers := by
  obtain ⟨answers, h⟩ := (carried_history []).begins (fun h => by
    obtain ⟨answers, h⟩ := Generated.history h
    exact ⟨answers, by rwa [List.append_nil]⟩) h
  exact ⟨_, h⟩

/-- What is known when the code of a tree-shaped unit is generated: the types go with the output, and
typing has found out what there is to know about its plain functions. -/
theorem Generated.Begins.calculated {fuel : Nat} (h : Generated.Begins store fuel tree s)
    (hshape : tree.TreeShaped) {t : TypingState (Session Output)} {o : Output}
    (hcalc : Typing.calculate { tree, importer := importerWithin Backend.code store fuel }
      { pool := s.1, imports := s.2 } = .ok typed t)
    (hgenerate : Emit.generate { tree, pool := t.pool, typed } t.imports.output = .ok () o) :
    t.pool.Sound ∧ t.imports.output.Fits t.pool ∧ ∀ names,
      PlainFunctions tree typed.table names → ScalarMethods tree typed.table names := by
  have hsound := h.begins.sound
  have hlawful := importerWithin_lawful Backend.code store fuel
  have hbefore := carried_fits.calculated (carried_fits.importerWithin store fuel)
    hsound.pool.territory hsound.exportsFit h.fits hcalc
  let _ := CaseTags.ofPool t.pool
  obtain ⟨-, -, rfl, hmethods⟩ := (Typing.calculate_scalarMethods _ hsound.pool.territory hlawful
    hshape hsound.exportsFit h.begins.offersByName.2 fun statement hstatement name =>
      Emit.generate_declarations hbefore.shaped hgenerate hstatement name).ok hcalc
  exact ⟨((Typing.calculate_confined hsound.pool.territory hlawful
    (hsound.confined Backend.code store fuel tree)).ok hcalc).1.pool.sound, hbefore, hmethods⟩

/-- **Generated code means what the source says.** In a session in which every unit compiled, let a
tree-shaped unit compile, be it given to the session or imported, and let a function of the unit be
one of a family of functions on Integers and Booleans that call only each other. Whenever evaluating
its body on arguments of its parameter types is defined, running the code that was generated for it
on these arguments ends with the value of the evaluation, and the surroundings are as they were. -/
theorem plain_functions_run_as_evaluated {fuel : Nat} (h : Generated.Begins store fuel tree s)
    (hshape : tree.TreeShaped)
    (hrun : compileWith Backend.code (importerWithin Backend.code store fuel) tree s =
      .ok typed after) {names : String → Prop}
    (hplain : PlainFunctions tree typed.table names) {name : String} (hname : names name)
    {decl : NodeId} {fn : ScalarFunction} (hdecl : tree.function? name = some decl)
    (hfn : tree.scalarFunction? decl = some fn) {args : List Scalar} {v : Scalar} {bound : Nat}
    (hargs : fn.Fits args) (heval : fn.result? (Eval.evalWithin tree bound) args = some v)
    {η : Type} (E : Execution.Context η) (hmodule : E.module = after.2.output.builder.module)
    (world : Execution.World η) : ∃ sig g,
      typed.table.signature { walk := 0, node := decl } = .ok sig ∧
      after.2.output.builder.function? sig.linkName = some g ∧
      ∃ n world', E.runFunction n g (args.map Scalar.datum) world =
        .finished (some v.datum) world' ∧ world'.host = world.host := by
  obtain ⟨decl', fn', sig, locals, hfunction⟩ := hplain name hname
  obtain rfl : decl' = decl := Option.some.inj (hfunction.declared.symm.trans hdecl)
  obtain rfl : fn' = fn := Option.some.inj (hfunction.function.symm.trans hfn)
  obtain ⟨t, o, hcalc, hgenerate, rfl⟩ := exists_of_compileWith hrun
  let _ := CaseTags.ofPool t.pool
  have htags : LoweringContext.Tags { tree, pool := t.pool, typed } :=
    fun r link short tag owner fields hview => ⟨link, short, owner, fields, hview⟩
  -- what typing found out
  obtain ⟨hpool, hbefore, hmethods⟩ := h.calculated hshape hcalc hgenerate
  -- what its code does
  have hcalls := Lower.callsWithin_of_generate (E := E) hpool.hasScalars htags hbefore.shaped
    hgenerate hmodule (hmethods names hplain) (bound + 1)
  obtain ⟨-, g, hg, -, hanswers⟩ := hcalls name decl' fn' sig hname hdecl hfn
    hfunction.signature bound (.inr (Nat.lt_succ_self bound))
  obtain ⟨-, hruns⟩ := hanswers args v hargs heval
  obtain ⟨start, t', last, world', henter, hreaches, hlast, -, hhost, -⟩ := hruns 0 [] world
  obtain ⟨n, hn⟩ := hreaches.run_finished hlast
  refine ⟨sig, g, hfunction.signature, hg, n, world', ?_, hhost⟩
  rw [Execution.Context.runFunction, henter]
  exact hn

/-- A unit without imports leaves the session as it is until its code is generated. -/
theorem imports_of_calculate {fuel : Nat} (h : Begins Backend.code store fuel tree s)
    (hnone : ∀ statement ∈ tree.statements tree.root,
      ∀ path, tree.node statement ≠ .importModule path)
    {t : TypingState (Session Output)}
    (hrun : Typing.calculate { tree, importer := importerWithin Backend.code store fuel }
      { pool := s.1, imports := s.2 } = .ok typed t) : t.imports = s.2 :=
  Typing.calculate_keeps_imports (fun _ session => session = s.2) h.sound.pool.territory
    (importerWithin_lawful Backend.code store fuel) (fun _ _ _ hsame => hsame)
    (fun statement hstatement _ _ _ _ _ _ hnode => absurd hnode (hnone statement hstatement _))
    (h.sound.confined Backend.code store fuel tree)
    (.initial ⟨fun _ _ _ => True.intro, fun _ _ _ _ _ => True.intro⟩) rfl hrun

/-- **Plain code misuses nothing.** In a session in which every unit compiled, let a tree-shaped unit
compile whose statements are all functions on Integers and Booleans that call only each other. Then
the builder was not misused, and in the code of each function every operand has the type of its
destination, every call passes what its callee declares, and a value of the declared type is
returned. -/
theorem plain_units_misuse_nothing {fuel : Nat} (h : Generated.Begins store fuel tree s)
    (hshape : tree.TreeShaped)
    (hrun : compileWith Backend.code (importerWithin Backend.code store fuel) tree s =
      .ok typed after) {names : String → Prop}
    (hplain : PlainFunctions tree typed.table names)
    (hall : ∀ statement ∈ tree.statements tree.root, ∃ name, names name ∧
      tree.function? name = some statement) :
    after.2.output.builder.errors = s.2.output.builder.errors ∧
      ∀ statement ∈ tree.statements tree.root, ∃ sig g,
        typed.table.signature { walk := 0, node := statement } = .ok sig ∧
        after.2.output.builder.function? sig.linkName = some g ∧
        (after.2.output.builder.module.function g).hasBody = true ∧
        after.2.output.builder.module.IsTyped g := by
  obtain ⟨t, o, hcalc, hgenerate, rfl⟩ := exists_of_compileWith hrun
  obtain ⟨hpool, hbefore, hmethods⟩ := h.calculated hshape hcalc hgenerate
  have hscalars := hmethods names hplain
  -- nothing is imported
  have himports : t.imports = s.2 := by
    refine imports_of_calculate h.begins (fun statement hstatement path => ?_) hcalc
    obtain ⟨name, -, hdecl⟩ := hall statement hstatement
    obtain ⟨-, params, result, body, hnode⟩ := SyntaxTree.mem_of_function? hdecl
    rw [hnode]
    rintro ⟨⟩
  have hconsistent : t.imports.output.Consistent t.pool := by
    have hsound := h.begins.sound
    obtain ⟨answers, hhistory⟩ := h.history
    obtain ⟨more, hmore⟩ := (carried_history answers).calculated
      ((carried_history answers).importerWithin store fuel) hsound.pool.territory hsound.exportsFit
      ⟨[], hhistory⟩ hcalc
    exact hmore.consistent.2
  have hcallees : LoweringContext.OnlyCallees { tree, pool := t.pool, typed } names := by
    intro statement hstatement
    obtain ⟨name, hname, hdecl⟩ := hall statement hstatement
    obtain ⟨decl, fn, sig, locals, hfunction⟩ := hplain name hname
    obtain rfl : decl = statement := Option.some.inj (hfunction.declared.symm.trans hdecl)
    obtain ⟨K, kind, names', hmethod⟩ :=
      hscalars name decl fn sig hname hdecl hfunction.function hfunction.signature
    exact ⟨fn, sig, ⟨name, hname, hdecl⟩, hfunction.function, hfunction.signature, hmethod.takes⟩
  obtain ⟨herrors, htyped⟩ := Emit.generate_types hpool.hasScalars hpool hscalars hcallees
    hbefore.shaped.builder.sane hconsistent hgenerate
  exact ⟨by rw [← himports]; exact herrors, htyped⟩

/-- The types that were recorded for the parameters and the result of a function. -/
def shape? (typed : TypedModule) (node : NodeId) : Option (List TypeId × TypeId) :=
  match typed.table.signature { walk := 0, node } with
  | .ok sig => some (sig.params.map (·.type), sig.result)
  | .error _ => none

theorem exists_of_shape? {node : NodeId} {params : List TypeId} {result : TypeId}
    (h : shape? typed node = some (params, result)) : ∃ sig,
      typed.table.signature { walk := 0, node } = .ok sig ∧ sig.params.map (·.type) = params ∧
        sig.result = result := by
  unfold shape? at h
  split at h
  · next sig hsig =>
      cases h
      exact ⟨sig, hsig, rfl, rfl⟩
  · cases h

/-- The type that was recorded for a node. -/
def type? (typed : TypedModule) (node : NodeId) : Option TypeId :=
  (typed.table.typeOf { walk := 0, node }).toOption

theorem hasScalar_of_type? {node : NodeId} {τ : ScalarType} (h : type? typed node = some τ.id) :
    typed.table.HasScalar node τ := by
  unfold type? at h
  unfold TypeTable.HasScalar
  cases htype : typed.table.typeOf { walk := 0, node } with
  | error e =>
      rw [htype] at h
      cases h
  | ok r =>
      rw [htype] at h
      rw [Option.some.inj h]

/-- A machine for the code of an output, with surroundings that provide nothing. -/
def bareMachine (o : Output) : Execution.Context Unit where
  module := o.builder.module
  external _ _ _ := none

/-- The state of such a machine before anything ran. -/
def bareWorld : Execution.World Unit where
  memory := {}
  host := ()

/-- A unit whose `main` calls a function that doubles its argument in a local. -/
def doubleUnit : SyntaxTree :=
  .ofStatements #[.namedType "Integer", .typed "n" 0, .ident "n", .ident "n", .binary .add 2 3,
    .var "r" none 4, .ident "r", .seq [5, 6], .namedType "Integer",
    .methodDef "double" [1] (some 8) 7, .number 21, .call none "double" [10], .namedType "Integer",
    .methodDef "main" [] (some 12) 11] [9, 13]

theorem doubleUnit_plain (hlocal : typed.table.HasScalar 5 .integer)
    (hdouble : shape? typed 9 = some ([.integer], .integer))
    (hmain : shape? typed 13 = some ([], .integer)) :
    PlainFunctions doubleUnit typed.table fun name => name = "double" ∨ name = "main" := by
  rintro name (rfl | rfl)
  · obtain ⟨sig, hsig, hparams, hresult⟩ := exists_of_shape? hdouble
    have hvar : PlainCode doubleUnit typed.table (fun name => name = "double" ∨ name = "main") 5
        (([] ++ []) ++ [("r", .integer)]) :=
      .var rfl hlocal (by simp) (.binary rfl (.ident rfl) (.ident rfl))
    have hbody : PlainCode doubleUnit typed.table (fun name => name = "double" ∨ name = "main") 7
        ([5, 6].flatMap fun s => if s = 5 then [("r", .integer)] else []) :=
      .seq rfl (List.forall_mem_cons.mpr ⟨hvar, List.forall_mem_singleton.mpr (.ident rfl)⟩)
    exact ⟨9, { params := [("n", .integer)], result := .integer, body := 7 }, sig,
      [("r", .integer)], ⟨by decide, by decide, hsig, hparams, hresult, hbody, by decide⟩⟩
  · obtain ⟨sig, hsig, hparams, hresult⟩ := exists_of_shape? hmain
    have hbody : PlainCode doubleUnit typed.table (fun name => name = "double" ∨ name = "main") 11
        ([10].flatMap fun _ => []) :=
      .call rfl (.inl rfl) (List.forall_mem_singleton.mpr (.number rfl))
    exact ⟨13, { params := [], result := .integer, body := 11 }, sig, [],
      ⟨by decide, by decide, hsig, hparams, hresult, hbody, by decide⟩⟩

/-- `doubleUnit` compiles, and its functions are plain. -/
theorem doubleUnit_runs : ∃ typed after, loneRun doubleUnit = .ok typed after ∧
    PlainFunctions doubleUnit typed.table fun name => name = "double" ∨ name = "main" := by
  have hdecides : okWith (fun typed _ => (type? typed 5, shape? typed 9, shape? typed 13))
      (loneRun doubleUnit) =
        some (some .integer, some ([.integer], .integer), some ([], .integer)) := by
    decide +kernel
  obtain ⟨typed, after, hrun, hall⟩ := exists_of_okWith hdecides
  obtain ⟨hlocal, hrest⟩ := Prod.mk.inj hall
  obtain ⟨hdouble, hmain⟩ := Prod.mk.inj hrest
  exact ⟨typed, after, hrun, doubleUnit_plain (hasScalar_of_type? hlocal) hdouble hmain⟩

/-- Evaluating the `main` of `doubleUnit` gives 42, and so does running its code. -/
theorem plain_functions_run_as_evaluated_double :
    ∃ typed after, loneRun doubleUnit = .ok typed after ∧ ∃ sig g,
      typed.table.signature { walk := 0, node := 13 } = .ok sig ∧
      after.2.output.builder.function? sig.linkName = some g ∧
      ∃ n world', (bareMachine after.2.output).runFunction n g [] bareWorld =
        .finished (some (.int .w32 42)) world' := by
  obtain ⟨typed, after, hrun, hplain⟩ := doubleUnit_runs
  let fn : ScalarFunction := { params := [], result := .integer, body := 11 }
  have hdecl : doubleUnit.function? "main" = some 13 := by decide
  have hfn : doubleUnit.scalarFunction? 13 = some fn := by decide
  have hargs : fn.Fits [] := rfl
  have heval : fn.result? (Eval.evalWithin doubleUnit 8) [] = some (.int 42) := by
    decide +kernel
  obtain ⟨sig, g, hsig, hg, n, world', hn, -⟩ :=
    plain_functions_run_as_evaluated (.unit (.start "main") doubleUnit) (by decide) hrun
      hplain (.inr rfl) hdecl hfn hargs heval (bareMachine after.2.output) rfl bareWorld
  exact ⟨typed, after, hrun, sig, g, hsig, hg, n, world', hn⟩

/-- The code of `doubleUnit` is generated without a misuse. -/
example : ∃ typed after, loneRun doubleUnit = .ok typed after ∧
    after.2.output.builder.errors = 0 := by
  obtain ⟨typed, after, hrun, hplain⟩ := doubleUnit_runs
  have hnames : ∀ statement ∈ doubleUnit.statements doubleUnit.root,
      ∃ name, (name = "double" ∨ name = "main") ∧ doubleUnit.function? name = some statement := by
    rw [show doubleUnit.statements doubleUnit.root = [9, 13] by decide, List.forall_mem_cons,
      List.forall_mem_singleton]
    exact ⟨⟨"double", .inl rfl, by decide⟩, ⟨"main", .inr rfl, by decide⟩⟩
  exact ⟨typed, after, hrun, (plain_units_misuse_nothing (.unit (.start "main") doubleUnit)
    (by decide) hrun hplain hnames).1⟩

/-! ## Nodes in two places -/

/-- A unit in which the name `K` of a local of `main` and the case `K` that `other` mentions are one
node. -/
def sharedNameUnit : SyntaxTree :=
  .ofStatements #[.namedType "Integer", .bool true, .var "K" none 1, .ident "K", .number 1,
    .ret (some 4), .branch 3 5 none, .number 2, .seq [2, 6, 7], .methodDef "main" [] (some 0) 8,
    .caseDef "K" [], .dataDef "D" none [10] none, .methodDef "other" [] none 3] [11, 9, 12]

theorem sharedNameUnit_plain (hlocal : typed.table.HasScalar 2 .boolean)
    (hmain : shape? typed 9 = some ([], .integer)) :
    PlainFunctions sharedNameUnit typed.table fun name => name = "main" := by
  rintro name rfl
  obtain ⟨sig, hsig, hparams, hresult⟩ := exists_of_shape? hmain
  have hvar : PlainCode sharedNameUnit typed.table (fun name => name = "main") 2
      ([] ++ [("K", .boolean)]) :=
    .var rfl hlocal (by simp) (.bool rfl)
  have hbranch : PlainCode sharedNameUnit typed.table (fun name => name = "main") 6 ([] ++ []) :=
    .branchOnly rfl (.ident rfl) (.ret rfl (.number rfl))
  have hbody : PlainCode sharedNameUnit typed.table (fun name => name = "main") 8
      ([2, 6, 7].flatMap fun s => if s = 2 then [("K", .boolean)] else []) :=
    .seq rfl (List.forall_mem_cons.mpr ⟨hvar, List.forall_mem_cons.mpr
      ⟨hbranch, List.forall_mem_singleton.mpr (.number rfl)⟩⟩)
  exact ⟨9, { params := [], result := .integer, body := 8 }, sig, [("K", .boolean)],
    ⟨by decide, by decide, hsig, hparams, hresult, hbody, by decide⟩⟩

/-- What the code that was generated for a function without parameters returns. -/
def returned? (typed : TypedModule) (o : Output) (decl : NodeId) :
    Option (Option Execution.Datum) :=
  match typed.table.signature { walk := 0, node := decl } with
  | .error _ => none
  | .ok sig => do
    let g ← o.builder.function? sig.linkName
    match (bareMachine o).runFunction 100 g [] bareWorld with
    | .finished result _ => some result
    | _ => none

theorem exists_of_returned? {o : Output} {decl : NodeId} {result : Option Execution.Datum}
    (h : returned? typed o decl = some result) : ∃ sig g world',
      typed.table.signature { walk := 0, node := decl } = .ok sig ∧
        o.builder.function? sig.linkName = some g ∧
        (bareMachine o).runFunction 100 g [] bareWorld = .finished result world' := by
  unfold returned? at h
  split at h
  · cases h
  · next sig hsig =>
      obtain ⟨g, hg, h⟩ := Option.bind_eq_some_iff.mp h
      split at h
      · next hrun =>
          cases h
          exact ⟨sig, g, _, hsig, hg, hrun⟩
      · cases h

/-- Evaluating the `main` of `sharedNameUnit` gives 1, and its code never returns that. -/
theorem shared_name_runs_otherwise :
    ∃ typed after, loneRun sharedNameUnit = .ok typed after ∧
      PlainFunctions sharedNameUnit typed.table (fun name => name = "main") ∧ ∃ fn,
        sharedNameUnit.function? "main" = some 9 ∧ sharedNameUnit.scalarFunction? 9 = some fn ∧
        fn.result? (Eval.evalWithin sharedNameUnit 8) [] = some (.int 1) ∧ ∃ sig g,
          typed.table.signature { walk := 0, node := 9 } = .ok sig ∧
          after.2.output.builder.function? sig.linkName = some g ∧
          ∀ n world', (bareMachine after.2.output).runFunction n g [] bareWorld ≠
            .finished (some (.int .w32 1)) world' := by
  have hdecides : okWith (fun typed after => (type? typed 2, shape? typed 9,
        returned? typed after.2.output 9)) (loneRun sharedNameUnit) =
      some (some .boolean, some ([], .integer), some (some (.int .w32 2))) := by
    decide +kernel
  obtain ⟨typed, after, hrun, hall⟩ := exists_of_okWith hdecides
  obtain ⟨hlocal, hrest⟩ := Prod.mk.inj hall
  obtain ⟨hmain, hreturned⟩ := Prod.mk.inj hrest
  obtain ⟨sig, g, world₁, hsig, hg, hreturns⟩ := exists_of_returned? hreturned
  refine ⟨typed, after, hrun, sharedNameUnit_plain (hasScalar_of_type? hlocal) hmain,
    { params := [], result := .integer, body := 8 }, by decide, by decide, by decide +kernel, sig,
    g, hsig, hg, fun n world' hother => ?_⟩
  have hsame := Execution.Context.result_unique hreturns hother
  revert hsame
  decide

end Session

end ClassLang
