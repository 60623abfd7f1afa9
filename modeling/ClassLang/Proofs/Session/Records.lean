import ClassLang.Proofs.Lowering.Readiness
import ClassLang.Proofs.Session.Frame

/-!
# Generating finds what typing recorded

A unit is typed and then generated, and generating looks up types, meanings, signatures, walks of
inclusions and declared functions. If the unit and the modules it can import are tree-shaped, every
look-up finds what it asks for. The invariant of a session is that all methods in its pool and all
functions of its modules are declared in its output.
-/

namespace ClassLang

open SyntaxTree (TreeShaped)

/-- The errors of generating that are about a record that typing did not leave behind. -/
inductive Halt.MissingRecord : Halt → Prop
  | type (node : NodeId) (walk : InstanceId) :
      MissingRecord (.error (.internal s!"no type recorded for node {node} in walk {walk}"))
  | meaning (node : NodeId) :
      MissingRecord (.error (.internal s!"no resolution recorded for node {node}"))
  | signature (node : NodeId) :
      MissingRecord (.error (.internal s!"no signature recorded for node {node}"))
  | inclusion : MissingRecord (.error (.internal "include was not typed before generation"))
  | trait (name : String) :
      MissingRecord (.error (.internal s!"trait '{name}' is not declared in this module"))
  | function (name : String) :
      MissingRecord (.error (.internal s!"function '{name}' was never declared"))

/-- The errors about missing records are told by the beginning of their texts. -/
theorem Halt.MissingRecord.head {text : String}
    (h : (Halt.error (.internal text)).MissingRecord) : text.toList.take 3 ∈ faultHeads := by
  cases h <;> simp [ToString.toString, faultHeads]

/-- All errors but those about missing records are tolerated. -/
theorem tolerant_not_missing : Tolerant fun h => ¬ h.MissingRecord where
  outOfFuel := by rintro ⟨⟩
  program e he h := by
    cases h <;> exact he _ rfl
  broken _ ht h := ht h.head

namespace Session

variable {store : ModuleStore}

/-- The function is declared in the output of the session. -/
def Knows (session : Session Output) (name : String) : Prop :=
  (session.output.builder.function? name).isSome

section Units

variable {importer : Importer (Session Output)} {tree : SyntaxTree} {p : Pool} {N : TypeId → Prop}
  {session : Session Output}

/-- Typing a tree-shaped unit leaves everything behind that generating needs. -/
theorem calculate_complete {typed : TypedModule} {t : TypingState (Session Output)}
    (hshape : tree.TreeShaped) (hlawful : importer.Lawful)
    (haccountable : importer.Accountable Knows) (hT : p.Territory N)
    (hfits : importer.ExportsFit p N session) (hlinked : importer.Linked Knows p session)
    (hrun : Typing.calculate { tree, importer } { pool := p, imports := session } = .ok typed t) :
    typed = t.typed ∧ Typing.Delivered { tree, importer } Knows t ∧
      Typing.Confined { tree, importer } p N t := by
  have hinitial : Typing.Confined { tree, importer } p N { pool := p, imports := session } :=
    .initial hT hfits
  have hconfined := (Typing.calculate_confined hT hlawful hinitial).ok hrun
  have hdelivered := Typing.calculate_delivered { tree, importer } hT hlawful haccountable hshape
    hfits hlinked
  obtain ⟨-, -, rfl, hdelivered⟩ := hdelivered.ok hrun
  exact ⟨rfl, hdelivered, hconfined.1⟩

/-- After a tree-shaped unit was compiled, all methods and functions are declared. -/
theorem compileWith_linked {typed : TypedModule} {after : Pool × Session Output}
    (hshape : tree.TreeShaped) (hlawful : importer.Lawful)
    (haccountable : importer.Accountable Knows) (hexports : importer.exports? = exports?)
    (hT : p.Territory N) (hfits : importer.ExportsFit p N session)
    (hlinked : importer.Linked Knows p session)
    (hrun : compileWith Backend.code importer tree (p, session) = .ok typed after) :
    importer.Linked Knows after.1 after.2 ∧
      ∀ sig ∈ typed.exports.functions, after.2.Knows sig.linkName := by
  unfold compileWith at hrun
  cases hcalc : Typing.calculate { tree, importer } { pool := p, imports := session } with
  | error h s => simp [hcalc] at hrun
  | ok typed' s =>
      simp only [hcalc] at hrun
      obtain ⟨rfl, hdelivered, hconfined⟩ := calculate_complete hshape hlawful haccountable hT hfits
        hlinked hcalc
      have hgenerate := Emit.generate_safe tolerant_not_missing (hdelivered.moduleReady hconfined)
        (o := s.imports.output) fun _ h => h
      split at hrun
      · cases hrun
      · next hgen =>
          cases hrun
          obtain ⟨-, ⟨hle, -⟩, hlinks⟩ := hgenerate.ok hgen
          refine ⟨⟨fun t sig hsig => ?_, fun id e he sig hsig => ?_⟩, fun sig hsig => ?_⟩
          · exact (hdelivered.method_linked hsig).elim (hle _) (hlinks _)
          · refine hle _ (hdelivered.imported id e ?_ sig hsig)
            rw [hexports] at he ⊢
            exact he
          · exact hlinks _ (hdelivered.function_linked hsig)

end Units

/-- What a session imports is declared, if the modules it can load are tree-shaped. -/
theorem importerWithin_accountable (hstore : ∀ entry ∈ store.modules, entry.2.TreeShaped)
    (fuel : Nat) : (importerWithin Backend.code store fuel).Accountable Knows := by
  induction fuel with
  | zero =>
      intro path dotted p session N id p' session' _ _ _ hrun
      cases hrun
  | succ fuel ih =>
      intro path dotted p session N id p' session' hT hfits hlinked hrun
      have hcases := resolve_resolved Backend.code store fuel path dotted p session
      rw [hrun] at hcases
      have hmodules : ∀ {fuel' : Nat} {q : Pool} {before : Session Output},
          (importerWithin Backend.code store fuel').Linked Knows q before ↔
            (∀ t, ∀ sig ∈ (q.data t).methods, before.Knows sig.linkName) ∧
              ∀ id e, before.exports? id = some e → ∀ sig ∈ e.functions,
                before.Knows sig.linkName := by
        intro fuel' q before
        rw [← importerWithin_exports fuel']
        exact ⟨fun h => ⟨h.1, h.2⟩, fun h => ⟨h.1, h.2⟩⟩
      rw [hmodules] at hlinked ⊢
      cases hcases with
      | known => exact hlinked
      | @compiled tree typed after hload hcompile =>
          have hshape : tree.TreeShaped := by
            unfold ModuleStore.load at hload
            dsimp only at hload
            split at hload <;> cases hload
            next hlookup => exact hstore _ (mem_of_lookup_eq_some hlookup)
          have hmarked : (importerWithin Backend.code store fuel).Linked Knows p
              { session with inProgress := dotted :: session.inProgress } := hmodules.mpr hlinked
          have hnested := compileWith_linked (N := N) hshape (importerWithin_lawful _ store fuel) ih
            (importerWithin_exports fuel) hT ?_ hmarked hcompile
          · rw [hmodules] at hnested
            obtain ⟨⟨hmethods, hfunctions⟩, hoffered⟩ := hnested
            refine ⟨hmethods, fun id e he => ?_⟩
            simp only [exports?, Session.register, List.getElem?_append] at he
            split at he
            · exact hfunctions id e he
            · rw [List.getElem?_singleton] at he
              split at he <;> cases he
              exact hoffered
          · intro id e he
            rw [importerWithin_exports] at he
            exact hfits id e he

/-! ## Sessions -/

/-- The states of a session all of whose units were tree-shaped and compiled. -/
abbrev Built (store : ModuleStore) : Pool × Session Output → Prop :=
  Course Backend.code store (fun output => ∃ name, output = Output.ofName name) fun tree run =>
    tree.TreeShaped ∧ ∃ typed after, run = .ok typed after

theorem Built.start (name : String) :
    Built store (Pool.initial, { output := Output.ofName name }) :=
  Course.start ⟨name, rfl⟩

/-- In such a session all methods and functions are declared. -/
theorem Built.linked (hstore : ∀ entry ∈ store.modules, entry.2.TreeShaped)
    {s : Pool × Session Output} (h : Built store s) :
    Sound s ∧ (importer Backend.code store).Linked Knows s.1 s.2 := by
  induction h with
  | start =>
      refine ⟨(Reachable.start _ : Reachable Backend.code store _).sound, ?_, ?_⟩
      · intro t sig hsig
        have hlt : t < Pool.initial.size := by
          refine Pool.lt_size_of_data_ne fun hvoid => ?_
          simp [hvoid, TypeData.methods] at hsig
        have hnone : ∀ u < Pool.initial.size, (Pool.initial.data u).methods = [] := by decide
        simp [hnone t hlt] at hsig
      · intro id e he
        rw [importer, importerWithin_exports] at he
        simp [exports?] at he
  | @next s tree _ hpermits ih =>
      obtain ⟨hsound, hlinked⟩ := ih
      obtain ⟨hshape, typed, after, hrun⟩ := hpermits
      have hafter := hsound.compileUnit Backend.code store tree
      rw [hrun] at hafter ⊢
      refine ⟨hafter, (compileWith_linked hshape (importerWithin_lawful _ store _)
        (importerWithin_accountable hstore _) (importerWithin_exports _) hsound.pool.territory ?_
        hlinked hrun).1⟩
      exact hsound.exportsFit

/-- Generating finds every record: in a session whose units and importable modules are tree-shaped,
let a tree-shaped unit be typed. Then every type, meaning, signature and inclusion that generating
it asks for was recorded in the walk that it asks for, every function that a call means is declared
before any body is generated, and generating does not fail because a record is missing. -/
theorem generate_finds_every_record (hstore : ∀ entry ∈ store.modules, entry.2.TreeShaped)
    {s : Pool × Session Output} (h : Built store s) {tree : SyntaxTree} (hshape : tree.TreeShaped)
    {typed : TypedModule} {t : TypingState (Session Output)}
    (hrun : Typing.calculate { tree, importer := importer Backend.code store }
      { pool := s.1, imports := s.2 } = .ok typed t) :
    ModuleReady (fun _ => False) t.imports.Knows { tree, pool := t.pool, typed } ∧
      (∀ o, (tree.statements tree.root).forM
          (Emit.declareStatement { tree, pool := t.pool, typed }) t.imports.output = .ok () o →
        ∀ (v : Visit) target, typed.table.targets[v]? = some target → ∀ sig ∈ target.callees,
          (o.builder.function? sig.linkName).isSome) ∧
      ∀ halt o, Backend.code.generate tree t.pool typed t.imports.output = .error halt o →
        ¬ halt.MissingRecord := by
  obtain ⟨hsound, hlinked⟩ := h.linked hstore
  obtain ⟨rfl, hdelivered, hconfined⟩ := calculate_complete hshape
    (importerWithin_lawful Backend.code store _) (importerWithin_accountable hstore _)
    hsound.pool.territory hsound.exportsFit hlinked hrun
  refine ⟨hdelivered.moduleReady hconfined, fun o hdeclare v target htarget sig hsig => ?_,
    fun halt o hgenerate => ?_⟩
  · have hdeclared := Emit.declareStatements_safe tolerant_not_missing
      (hdelivered.moduleReady hconfined) (o := t.imports.output) fun _ h => h
    obtain ⟨hinv, -, hlinks⟩ := hdeclared.ok hdeclare
    exact (hdelivered.callee_linked hconfined htarget hsig).elim (hinv _) (hlinks _)
  · have hsafe := Emit.generate_safe tolerant_not_missing (hdelivered.moduleReady hconfined)
      (o := t.imports.output) fun _ h => h
    exact hsafe.error hgenerate

/-- Typing a unit in a new session. -/
def firstRun (store : ModuleStore) (tree : SyntaxTree) :
    EStateM.Result Halt (TypingState (Session Output)) TypedModule :=
  Typing.calculate { tree, importer := importer Backend.code store }
    { pool := Pool.initial, imports := { output := Output.ofName "main" } }

/-- What typing and then generating a unit in a new session ends in. -/
def firstHalts (store : ModuleStore) (tree : SyntaxTree) : Option Halt × Option Halt :=
  match firstRun store tree with
  | .error halt _ => (some halt, none)
  | .ok typed t =>
    match Backend.code.generate tree t.pool typed t.imports.output with
    | .error halt _ => (none, some halt)
    | .ok _ _ => (none, none)

/-- A module with a class that has a method. -/
def petStore : ModuleStore :=
  { modules := [("pets", .ofStatements #[.methodDec "ping" [] none none, .seq [0],
    .classDef "Pet" none 1] [2])] }

/-- A unit that imports the module of `petStore` and calls the method of its class. -/
def petUnit : SyntaxTree :=
  .ofStatements #[.importModule ["pets"], .ident "pets", .call (some 1) "Pet" [],
    .call (some 2) "ping" [], .methodDef "main" [] none 3] [0, 4]

/-- Generating `petUnit` finds the records of an imported class. -/
theorem generate_finds_every_record_pets :
    ∃ typed t, firstRun petStore petUnit = .ok typed t ∧
      ModuleReady (fun _ => False) t.imports.Knows { tree := petUnit, pool := t.pool, typed } ∧
      ∀ halt o, Backend.code.generate petUnit t.pool typed t.imports.output = .error halt o →
        ¬ halt.MissingRecord := by
  have hhalts : firstHalts petStore petUnit = (none, none) := by decide +kernel
  unfold firstHalts at hhalts
  split at hhalts
  · cases hhalts
  · next typed t hrun =>
      have hready := generate_finds_every_record (by decide) (.start "main") (by decide) hrun
      exact ⟨typed, t, hrun, hready.1, hready.2.2⟩

/-- A module whose two classes share their body. -/
def twinStore : ModuleStore :=
  { modules := [("twins", .ofStatements #[.methodDec "ping" [] none none, .seq [0],
    .classDef "A" none 1, .classDef "B" none 1] [2, 3])] }

/-- A unit that imports the module of `twinStore` and calls the method of its first class. -/
def twinUnit : SyntaxTree :=
  .ofStatements #[.importModule ["twins"], .ident "twins", .call (some 1) "A" [],
    .call (some 2) "ping" [], .methodDef "main" [] none 3] [0, 4]

/-- The shape of the importable modules matters: a tree-shaped unit that calls a method from a
shared body finds no function of that name, since the second class overwrote the record that the
first one left. -/
theorem shared_import_body_undeclared :
    twinUnit.TreeShaped ∧
      ∃ typed t halt o, firstRun twinStore twinUnit = .ok typed t ∧
        Backend.code.generate twinUnit t.pool typed t.imports.output = .error halt o ∧
        halt.MissingRecord := by
  have hhalts : firstHalts twinStore twinUnit =
      (none, some (.error (.internal "function '_Tc_A_ping' was never declared"))) := by
    decide +kernel
  unfold firstHalts at hhalts
  split at hhalts
  · cases hhalts
  · next typed t hrun =>
      split at hhalts
      · next halt o hgenerate =>
          cases hhalts
          exact ⟨by decide, typed, t, _, o, hrun, hgenerate, .function "_Tc_A_ping"⟩
      · cases hhalts

end Session

end ClassLang
