import ClassLang.Proofs.Session.Records
import ClassLang.Proofs.Typing.ImportSteps

/-!
# What sessions that generate code keep

A session generates code for a unit after typing it, and typing compiles what the unit imports. A
discipline of outputs that generating keeps for every unit is kept by whole sessions: it holds
between units, wherever the compilation of an imported unit begins, and across compiling a unit.
-/

namespace ClassLang.Session

variable {store : ModuleStore}

/-! ## Sessions that generate code -/

/-- The states of a session that generates code into a module of its own. -/
abbrev Coding (store : ModuleStore) : Pool × Session Output → Prop :=
  Course Backend.code store (fun output => ∃ name, output = Output.ofName name) fun _ _ => True

theorem Coding.start (name : String) :
    Coding store (Pool.initial, { output := Output.ofName name }) :=
  Course.start ⟨name, rfl⟩

theorem Coding.next {s : Pool × Session Output} (h : Coding store s) (tree : SyntaxTree) :
    Coding store (finalState (compileUnit Backend.code store tree s)) :=
  Course.next h True.intro

/-- The compilation of a unit begins in a state of a session that generates code: of one given to
the session, or of one that is imported. -/
abbrev Generating (store : ModuleStore) : Nat → SyntaxTree → Pool × Session Output → Prop :=
  BeginsFrom Backend.code store fun _ => Coding store

theorem Generating.unit {s : Pool × Session Output} (h : Coding store s) (tree : SyntaxTree) :
    Generating store (store.size + 1) tree s :=
  BeginsFrom.unit h

theorem Generating.begins {fuel : Nat} {tree : SyntaxTree} {s : Pool × Session Output}
    (h : Generating store fuel tree s) : Begins Backend.code store fuel tree s :=
  BeginsFrom.mono h fun _ _ => Course.reachable

/-! ## Compiling one unit -/

/-- A discipline of outputs that generating keeps: it holds of new outputs, any error leaves it
intact, and every unit that was typed is generated in keeping with it. -/
structure Upheld (store : ModuleStore) (D : Discipline Halt Output) : Prop where
  start : ∀ name, D.inv (Output.ofName name)
  stop : ∀ o h, D.inv o → D.fails o h o
  intact : ∀ {o h o'}, D.fails o h o' → D.inv o'
  generate : ∀ {fuel tree s typed} {t : TypingState (Session Output)},
    Typing.calculate { tree, importer := importerWithin Backend.code store fuel } s = .ok typed t →
    Typing.ModuleChecked tree typed → t.pool.Sound → D.inv t.imports.output →
    D.KeepsAt t.imports.output (Emit.generate { tree, pool := t.pool, typed }) fun _ _ => True

namespace Upheld

variable {D : Discipline Halt Output} {fuel : Nat} {p : Pool} {N : TypeId → Prop}
  {session : Session Output}

/-- The discipline of outputs, as one of sessions, allows errors that are not its own. -/
theorem toleratesFailure (h : Upheld store D) : (D.comap Session.output).ToleratesFailure :=
  fun _ _ hinv _ => h.stop _ _ hinv

/-- Compiling one unit keeps the discipline, if resolving imports does. -/
theorem compileWith (h : Upheld store D)
    (hobeys : (importerWithin Backend.code store fuel).Obeys (D.comap Session.output)
      (fun _ => True) fun _ _ => True) (hT : p.Territory N)
    (hfits : (importerWithin Backend.code store fuel).ExportsFit p N session)
    (hinv : D.inv session.output) (tree : SyntaxTree) :
    ((D.comap Session.output).comap Prod.snd).KeepsAt (p, session)
      (Session.compileWith Backend.code (importerWithin Backend.code store fuel) tree)
      fun _ _ => True := by
  have hlawful := importerWithin_lawful Backend.code store fuel
  have hcalc := Typing.calculate_obeys { tree, importer := importerWithin Backend.code store fuel }
    hT hlawful hobeys h.toleratesFailure (fun _ _ _ _ _ _ h => h) (fun _ _ => True.intro) hfits hinv
  have hinitial : Typing.Confined
      { tree, importer := Session.importerWithin Backend.code store fuel } p N
      { pool := p, imports := session } := .initial hT hfits
  have hconfined := Typing.calculate_confined hT hlawful hinitial
  have hgenerate : ∀ typed t, Typing.calculate
      { tree, importer := importerWithin Backend.code store fuel }
      { pool := p, imports := session } = .ok typed t → D.inv t.imports.output →
      D.KeepsAt t.imports.output (Emit.generate { tree, pool := t.pool, typed }) fun _ _ => True :=
    fun typed t hrun => h.generate hrun (hcalc.ok hrun).2.2.2.1 (hconfined.ok hrun).1.pool.sound
  refine compileWith_keeps hcalc (fun typed t output hrun hinv' hgen => ?_)
    fun typed t halt output hrun hinv' hgen => ?_
  · exact (hgenerate typed t hrun hinv').ok hgen
  · exact (hgenerate typed t hrun hinv').error hgen

/-- The importer of a session keeps the discipline, however deep imports nest. -/
theorem importerWithin (h : Upheld store D) (fuel : Nat) :
    (importerWithin Backend.code store fuel).Obeys (D.comap Session.output) (fun _ => True)
      fun _ _ => True := by
  induction fuel with
  | zero => exact fun _ _ _ _ _ _ _ hinv => h.stop _ _ hinv
  | succ fuel ih =>
      intro path p session N _ hT hfits hinv
      have hcases := resolve_resolved Backend.code store fuel path (".".intercalate path) p session
      have hfits' : (Session.importerWithin Backend.code store fuel).ExportsFit p N
          { session with inProgress := ".".intercalate path :: session.inProgress } := by
        intro id e he
        rw [importerWithin_exports] at he
        exact hfits id e (by rw [importerWithin_exports]; exact he)
      have hnested := h.compileWith ih hT hfits' hinv
      unfold Discipline.KeepsAt
      generalize (Session.importerWithin Backend.code store (fuel + 1)).resolve path
        (".".intercalate path) (p, session) = result at hcases
      cases hcases with
      | known => exact ⟨hinv, D.refl _, True.intro⟩
      | refused => exact h.stop _ _ hinv
      | failed hload hrun =>
          have hfails := (hnested _).error hrun
          exact hfails
      | compiled after hload hrun =>
          obtain ⟨hinv', hle, -⟩ := (hnested _).ok hrun
          exact ⟨hinv', hle, True.intro⟩

/-- The discipline holds between units. -/
theorem coding (h : Upheld store D) {s : Pool × Session Output} (hs : Coding store s) :
    D.inv s.2.output := by
  induction hs with
  | start hstart =>
      obtain ⟨name, rfl⟩ := hstart
      exact h.start name
  | @next s tree hs _ ih =>
      have hsound := hs.sound
      have hafter := h.compileWith (h.importerWithin (store.size + 1)) hsound.pool.territory
        hsound.exportsFit ih tree
      cases hrun : compileUnit Backend.code store tree s with
      | ok typed after => exact (hafter.ok hrun).1
      | error halt after => exact h.intact (hafter.error hrun)

/-- The discipline holds wherever a compilation begins. -/
theorem generating (h : Upheld store D) {tree : SyntaxTree} {s : Pool × Session Output}
    (hs : Generating store fuel tree s) : D.inv s.2.output := by
  induction hs with
  | unit hs => exact h.coding hs
  | @imported fuel tree loaded p session before after statement path s hs _ hbefore _ _ ih =>
      have hsound := (Generating.begins hs).sound
      have hnames := Typing.declareTypes_obeys
        { tree, importer := Session.importerWithin Backend.code store (fuel + 1) }
        hsound.pool.territory (importerWithin_lawful Backend.code store (fuel + 1))
        (h.importerWithin (fuel + 1)) h.toleratesFailure (fun _ _ _ _ _ _ h => h) before
        (fun _ _ _ _ => True.intro) (hsound.confined Backend.code store (fuel + 1) tree)
        (.initial ⟨fun _ _ _ => True.intro, fun _ _ _ _ _ => True.intro⟩) ih
      exact (hnames.ok hbefore).1

/-- Compiling a unit keeps the discipline wherever it begins. -/
theorem compiled (h : Upheld store D) {tree : SyntaxTree} {s : Pool × Session Output}
    (hs : Generating store fuel tree s) :
    ((D.comap Session.output).comap Prod.snd).KeepsAt s
      (Session.compileWith Backend.code (Session.importerWithin Backend.code store fuel) tree)
      fun _ _ => True :=
  have hsound := hs.begins.sound
  h.compileWith (h.importerWithin fuel) hsound.pool.territory hsound.exportsFit
    (h.generating hs) tree

/-- Typing a unit keeps the discipline wherever it begins, checks the unit and leaves a sound pool. -/
theorem typed (h : Upheld store D) {tree : SyntaxTree} {s : Pool × Session Output}
    (hs : Generating store fuel tree s) {typed : TypedModule} {t : TypingState (Session Output)}
    (hrun : Typing.calculate { tree, importer := Session.importerWithin Backend.code store fuel }
      { pool := s.1, imports := s.2 } = .ok typed t) :
    D.inv t.imports.output ∧ Typing.ModuleChecked tree typed ∧ t.pool.Sound := by
  have hsound := hs.begins.sound
  have hlawful := importerWithin_lawful Backend.code store fuel
  have hcalc := Typing.calculate_obeys
    { tree, importer := Session.importerWithin Backend.code store fuel } hsound.pool.territory
    hlawful (h.importerWithin fuel) h.toleratesFailure
    (fun _ _ _ _ _ _ h => h) (fun _ _ => True.intro) hsound.exportsFit (h.generating hs)
  have hconfined := Typing.calculate_confined hsound.pool.territory hlawful
    (hsound.confined Backend.code store fuel tree)
  exact ⟨(hcalc.ok hrun).1, (hcalc.ok hrun).2.2.2.1, (hconfined.ok hrun).1.pool.sound⟩

/-- Typing a unit keeps the discipline wherever it begins. -/
theorem calculated (h : Upheld store D) {tree : SyntaxTree} {s : Pool × Session Output}
    (hs : Generating store fuel tree s) {typed : TypedModule} {t : TypingState (Session Output)}
    (hrun : Typing.calculate { tree, importer := Session.importerWithin Backend.code store fuel }
      { pool := s.1, imports := s.2 } = .ok typed t) : D.inv t.imports.output :=
  (h.typed hs hrun).1

end Upheld

end ClassLang.Session
