import ClassLang.Proofs.Typing.ImportSteps
import ClassLang.Session

/-!
# How an import is resolved

Whatever a unit does, on success and on failure, it leaves the imports in progress as it found them:
it changes them only through the imports nested in it, and each of these takes back the mark that it
set. So the mark that is taken back after an import was compiled is that of this import, and
resolving comes down to four cases: the module is known, it is not to be had, compiling it fails, or
it is compiled and registered.
-/

namespace ClassLang.Session

variable {γ : Type} {backend : Backend γ} {store : ModuleStore}

/-- All importers of a session read what modules offer in the same way. -/
theorem importerWithin_exports (fuel : Nat) :
    (importerWithin backend store fuel).exports? = exports? := by
  cases fuel <;> rfl

/-! ## Imports in progress -/

/-- A unit is compiled by typing it and then generating: both have to keep the discipline. -/
theorem compileWith_keeps {importer : Importer (Session γ)}
    {D : Discipline Halt (Session γ)} {tree : SyntaxTree} {p : Pool} {session : Session γ}
    {P : TypedModule → TypingState (Session γ) → Prop}
    {Q : TypedModule → Pool × Session γ → Prop}
    (hcalc : D.onImports.KeepsAt { pool := p, imports := session }
      (Typing.calculate { tree, importer }) P)
    (hok : ∀ typed t output, Typing.calculate { tree, importer }
        { pool := p, imports := session } = .ok typed t → D.inv t.imports →
      backend.generate tree t.pool typed t.imports.output = .ok () output →
        D.inv { t.imports with output } ∧ D.le t.imports { t.imports with output } ∧
          Q typed (t.pool, { t.imports with output }))
    (herror : ∀ typed t h output, Typing.calculate { tree, importer }
        { pool := p, imports := session } = .ok typed t → D.inv t.imports →
      backend.generate tree t.pool typed t.imports.output = .error h output →
        D.fails t.imports h { t.imports with output }) :
    (D.comap Prod.snd).KeepsAt (p, session) (compileWith backend importer tree) Q := by
  cases hrun : Typing.calculate { tree, importer } { pool := p, imports := session } with
  | error h t =>
      have hresult : compileWith backend importer tree (p, session) =
          .error h (t.pool, t.imports) := by simp only [compileWith, hrun]
      exact .of_error hresult (hcalc.error hrun)
  | ok typed t =>
      obtain ⟨hinv, hle, -⟩ := hcalc.ok hrun
      cases hgen : backend.generate tree t.pool typed t.imports.output with
      | error h output =>
          have hresult : compileWith backend importer tree (p, session) =
              .error h (t.pool, { t.imports with output }) := by
            simp only [compileWith, hrun, hgen]
          exact .of_error hresult (D.fails_trans hle (herror typed t h output hrun hinv hgen))
      | ok _ output =>
          have hresult : compileWith backend importer tree (p, session) =
              .ok typed (t.pool, { t.imports with output }) := by
            simp only [compileWith, hrun, hgen]
          obtain ⟨hinv', hle', hQ⟩ := hok typed t output hrun hinv hgen
          exact .of_ok hresult hinv' (D.trans hle hle') hQ

/-- Steps between which the given imports are in progress. -/
def marking (γ : Type) (inProgress : List String) : Discipline Halt (Session γ) where
  inv s := s.inProgress = inProgress
  le _ _ := True
  fails _ _ t := t.inProgress = inProgress
  refl _ := True.intro
  trans _ _ := True.intro
  fails_trans _ h := h

/-- The imports in progress are the same after a step as before. -/
def KeepsMarks {α : Type} (step : Step γ α) : Prop :=
  ∀ s, (finalState (step s)).2.inProgress = s.2.inProgress

/-- A step that keeps the discipline wherever it begins. -/
theorem keepsMarks_of_marking {α : Type} {step : Step γ α}
    (h : ∀ p session, ((marking γ session.inProgress).comap Prod.snd).KeepsAt (p, session) step
      fun _ _ => True) : KeepsMarks step := by
  rintro ⟨p, session⟩
  have hstep := h p session
  cases hrun : step (p, session) with
  | ok a after => exact (hstep.ok hrun).1
  | error h after => exact hstep.error hrun

/-- A unit keeps the marks, if the imports nested in it do. -/
theorem compileWith_keepsMarks_of (backend : Backend γ) {importer : Importer (Session γ)}
    (h : ∀ path dotted, KeepsMarks (importer.resolve path dotted)) (tree : SyntaxTree) :
    KeepsMarks (compileWith backend importer tree) := by
  refine keepsMarks_of_marking fun p session => ?_
  have hcalc := Typing.calculate_follows (D := marking γ session.inProgress)
    (Q := fun _ _ => True) { tree, importer } p session (fun _ _ hinv _ => hinv)
    (fun _ _ _ _ _ _ h => h) rfl ?_
  · exact compileWith_keeps hcalc (fun _ _ _ _ hinv _ => ⟨hinv, True.intro, True.intro⟩)
      fun _ _ _ _ _ hinv _ => hinv
  · intro path t _ hinv _
    have hmarks := h path (".".intercalate path) (t.pool, t.imports)
    unfold Discipline.KeepsAt
    cases hrun : importer.resolve path (".".intercalate path) (t.pool, t.imports) with
    | ok id after =>
        rw [hrun] at hmarks
        exact ⟨hmarks.trans hinv, True.intro, True.intro⟩
    | error h after =>
        rw [hrun] at hmarks
        exact hmarks.trans hinv

/-- A step after another. -/
theorem KeepsMarks.bind {α β : Type} {step : Step γ α} {next : α → Step γ β}
    (h : KeepsMarks step) (hnext : ∀ a, KeepsMarks (next a)) : KeepsMarks (step >>= next) := by
  intro s
  have hstep := h s
  simp only [Bind.bind, EStateM.bind]
  cases hrun : step s with
  | error e t =>
      rw [hrun] at hstep
      exact hstep
  | ok a t =>
      rw [hrun] at hstep
      exact (hnext a t).trans hstep

/-- The mark that is taken back is the one that was set. -/
theorem KeepsMarks.whileImporting {α : Type} {step : Step γ α} (h : KeepsMarks step)
    (dotted : String) : KeepsMarks (whileImporting dotted step) := by
  rintro ⟨p, session⟩
  have htail := congrArg List.tail
    (h (p, { session with inProgress := dotted :: session.inProgress }))
  unfold Session.whileImporting
  simp only
  cases hrun : step (p, { session with inProgress := dotted :: session.inProgress }) with
  | error e t =>
      rw [hrun] at htail
      exact htail
  | ok a t =>
      rw [hrun] at htail
      exact htail

/-- Resolving leaves the imports in progress as they were, however deep imports nest. -/
theorem resolve_keepsMarks (backend : Backend γ) (store : ModuleStore) (fuel : Nat)
    (path : List String) (dotted : String) :
    KeepsMarks ((importerWithin backend store fuel).resolve path dotted) := by
  induction fuel generalizing path dotted with
  | zero => exact fun _ => rfl
  | succ fuel ih =>
      unfold importerWithin
      refine KeepsMarks.bind (fun _ => rfl) ?_
      rintro ⟨-, session⟩
      simp only
      split
      · exact fun _ => rfl
      · split
        · exact fun _ => rfl
        · split
          · exact fun _ => rfl
          · next tree _ =>
              have hnested := compileWith_keepsMarks_of backend ih tree
              exact .bind (hnested.whileImporting dotted) fun _ _ => rfl

/-- A unit leaves the imports in progress as they were. -/
theorem compileWith_keepsMarks (backend : Backend γ) (store : ModuleStore) (fuel : Nat)
    (tree : SyntaxTree) :
    KeepsMarks (compileWith backend (importerWithin backend store fuel) tree) :=
  compileWith_keepsMarks_of backend (resolve_keepsMarks backend store fuel) tree

/-! ## The cases of resolving -/

/-- How an import is resolved, written out: it is known, it is in progress, it cannot be loaded, or
it is compiled and registered. -/
theorem resolve_eq (fuel : Nat) (path : List String) (dotted : String) (p : Pool)
    (session : Session γ) :
    (importerWithin backend store (fuel + 1)).resolve path dotted (p, session) =
      match session.byPath.lookup dotted with
      | some id => .ok id (p, session)
      | none =>
        if dotted ∈ session.inProgress then .error (.error (.importCycle dotted)) (p, session)
        else
          match store.load path with
          | .error e => .error (.error e) (p, session)
          | .ok tree =>
            match compileWith backend (importerWithin backend store fuel) tree
                (p, { session with inProgress := dotted :: session.inProgress }) with
            | .error h after => .error h (after.1, { after.2 with inProgress := session.inProgress })
            | .ok typed after => .ok after.2.modules.length (after.1,
                ({ after.2 with inProgress := session.inProgress }.register
                  dotted typed.exports).2) := by
  have hget (next : Pool × Session γ → Step γ ModuleId) (s : Pool × Session γ) :
      (get >>= next) s = next s s := rfl
  simp only [importerWithin, hget]
  cases session.byPath.lookup dotted with
  | some id => rfl
  | none =>
      simp only [List.contains_iff_mem]
      split
      · rfl
      · cases store.load path with
        | error e => rfl
        | ok tree =>
            have htail := congrArg List.tail (compileWith_keepsMarks backend store fuel tree
              (p, { session with inProgress := dotted :: session.inProgress }))
            simp only [bind, EStateM.bind, whileImporting]
            cases hrun : compileWith backend (importerWithin backend store fuel) tree
                (p, { session with inProgress := dotted :: session.inProgress }) with
            | error h after =>
                rw [hrun] at htail
                simp only [finalState, List.tail_cons] at htail
                simp only [htail]
            | ok typed after =>
                rw [hrun] at htail
                simp only [finalState, List.tail_cons] at htail
                simp only [htail]
                rfl

/-- How an import can go: the module is known, it is not to be had, compiling it fails, or it is
compiled and registered. -/
inductive Resolved (backend : Backend γ) (store : ModuleStore) (fuel : Nat) (path : List String)
    (dotted : String) (p : Pool) (session : Session γ) :
    EStateM.Result Halt (Pool × Session γ) ModuleId → Prop
  | known {id : ModuleId} (h : session.byPath.lookup dotted = some id) :
      Resolved backend store fuel path dotted p session (.ok id (p, session))
  | refused {e : CompileError} (h : ∀ text, e ≠ .internal text) :
      Resolved backend store fuel path dotted p session (.error (.error e) (p, session))
  | failed {tree : SyntaxTree} {h : Halt} {after : Pool × Session γ}
      (hload : store.load path = .ok tree)
      (hrun : compileWith backend (importerWithin backend store fuel) tree
        (p, { session with inProgress := dotted :: session.inProgress }) = .error h after)
      (hnew : session.byPath.lookup dotted = none) (hidle : dotted ∉ session.inProgress) :
      Resolved backend store fuel path dotted p session
        (.error h (after.1, { after.2 with inProgress := session.inProgress }))
  | compiled {tree : SyntaxTree} {typed : TypedModule} (after : Pool × Session γ)
      (hload : store.load path = .ok tree)
      (hrun : compileWith backend (importerWithin backend store fuel) tree
        (p, { session with inProgress := dotted :: session.inProgress }) = .ok typed after)
      (hnew : session.byPath.lookup dotted = none) (hidle : dotted ∉ session.inProgress) :
      Resolved backend store fuel path dotted p session (.ok after.2.modules.length (after.1,
        ({ after.2 with inProgress := session.inProgress }.register dotted typed.exports).2))

theorem resolve_resolved (backend : Backend γ) (store : ModuleStore) (fuel : Nat)
    (path : List String) (dotted : String) (p : Pool) (session : Session γ) :
    Resolved backend store fuel path dotted p session
      ((importerWithin backend store (fuel + 1)).resolve path dotted (p, session)) := by
  rw [resolve_eq]
  cases hknown : session.byPath.lookup dotted with
  | some id => exact .known hknown
  | none =>
      simp only
      split
      · exact .refused (by simp)
      · next hidle =>
        cases hload : store.load path with
        | error e =>
            refine .refused fun text he => ?_
            unfold ModuleStore.load at hload
            dsimp only at hload
            split at hload <;> cases hload
            cases he
        | ok tree =>
            simp only
            cases hrun : compileWith backend (importerWithin backend store fuel) tree
                (p, { session with inProgress := dotted :: session.inProgress }) with
            | error h after => exact .failed hload hrun hknown hidle
            | ok typed after => exact .compiled after hload hrun hknown hidle

end ClassLang.Session
