import ClassLang.Proofs.Typing.CheckedModules

/-!
# What typing a module does to its imports

A module touches what its session imported in one place only: while names are declared, each
`import` is resolved. So if resolving an import keeps a discipline, then typing the module keeps it
too, all its imports are resolved in the end, and a failure that resolving did not raise is not that
of an import cycle.
-/

namespace ClassLang

/-- The paths that a unit imports, in the order of their statements. -/
def SyntaxTree.importPaths (tree : SyntaxTree) : List (List String) :=
  (tree.statements tree.root).filterMap fun statement =>
    match tree.node statement with
    | .importModule path => some path
    | _ => none

namespace Discipline

/-- The discipline of a part of the state. -/
def comap {ε S T : Type} (D : Discipline ε S) (part : T → S) : Discipline ε T where
  inv s := D.inv (part s)
  le s t := D.le (part s) (part t)
  fails s e t := D.fails (part s) e (part t)
  refl _ := D.refl _
  trans := D.trans
  fails_trans := D.fails_trans

end Discipline

/-- What is promised of whoever compiles imports: resolving one of the paths in `A` keeps the
discipline and leaves `Q` behind. -/
def Importer.Obeys {σ : Type} (importer : Importer σ) (D : Discipline Halt σ)
    (A : List String → Prop) (Q : List String → σ → Prop) : Prop :=
  ∀ path p imports N, A path → p.Territory N → importer.ExportsFit p N imports → D.inv imports →
    (D.comap Prod.snd).KeepsAt (p, imports) (importer.resolve path (".".intercalate path))
      fun _ after => Q path after.2

namespace Discipline

variable {σ : Type}

/-- The discipline of what was imported, as one of typing. -/
def onImports (D : Discipline Halt σ) : Discipline Halt (TypingState σ) :=
  D.comap TypingState.imports

/-- Failures without an import cycle may happen anywhere. -/
def ToleratesFailure (D : Discipline Halt σ) : Prop :=
  ∀ imports h, D.inv imports → h.NoCycle → D.fails imports h imports

/-- A step that does not touch imports. -/
theorem KeepsAt.onImports {α : Type} {D : Discipline Halt σ} {s : TypingState σ}
    {step : Typing σ α} {Q : α → TypingState σ → Prop}
    (h : (Typing.sparingImports σ).KeepsAt s step Q) (hfails : D.ToleratesFailure)
    (hs : D.inv s.imports) : D.onImports.KeepsAt s step Q := by
  unfold KeepsAt at h ⊢
  cases hstep : step s with
  | error e t =>
      simp only [hstep] at h ⊢
      show D.fails s.imports e t.imports
      rw [h.2]
      exact hfails _ _ hs h.1
  | ok a t =>
      simp only [hstep] at h ⊢
      have himports : t.imports = s.imports := h.2.1
      refine ⟨?_, ?_, h.2.2⟩
      · show D.inv t.imports
        rw [himports]
        exact hs
      · show D.le s.imports t.imports
        rw [himports]
        exact D.refl _

end Discipline

namespace Typing

variable {σ : Type} {ctx : TypingContext σ} {D : Discipline Halt σ} {A : List String → Prop}
  {Q : List String → σ → Prop} {p₀ : Pool} {N : TypeId → Prop} {s t u : TypingState σ}

/-- Declaring the names of a statement that imports nothing. -/
theorem declareType_quiet {statement : NodeId}
    (himport : ∀ path, ctx.tree.node statement ≠ .importModule path) :
    (sparingImports σ).KeepsAt s (declareType ctx statement) fun _ _ => True := by
  have hname (decl : NodeId) (name : String) (f : Pool → TypeId × Pool) :
      (sparingImports σ).KeepsAt s (do declareTypeName decl name (← makeType f)) fun _ _ => True :=
    .of_ok rfl True.intro rfl True.intro
  unfold declareType
  split
  · exact .of_ok rfl True.intro rfl True.intro
  · next path hnode => exact absurd hnode (himport path)
  · exact .of_ok rfl True.intro rfl True.intro
  · exact .bind_read True.intro (b := _) rfl (hname _ _ _)
  · exact .bind_read True.intro (b := _) rfl (hname _ _ _)
  · exact .of_ok rfl True.intro rfl True.intro
  · refine .bind (.of_ok (Q := fun _ _ => True) rfl True.intro rfl True.intro)
      fun template t _ _ _ => ?_
    refine (Discipline.forM_keeps (P := fun _ => True) _ True.intro True.intro ?_).trivial
    rintro ⟨decl, index⟩ - u - - -
    dsimp only
    split
    · exact .of_ok rfl True.intro rfl True.intro
    · exact .pure True.intro True.intro
  · exact .pure True.intro True.intro

/-- An import is resolved, and then bound to its name. -/
theorem importPath_follows (hfails : D.ToleratesFailure) {path : List String}
    (hinv : D.inv s.imports)
    (hresolve : path ≠ [] → (D.comap Prod.snd).KeepsAt (s.pool, s.imports)
      (ctx.importer.resolve path (".".intercalate path)) fun _ after => Q path after.2) :
    D.onImports.KeepsAt s (importPath ctx path) fun _ t => Q path t.imports := by
  unfold importPath
  split
  · exact .of_error rfl (hfails _ _ hinv fun _ h => by cases h)
  · next last hlast =>
      have himport := hresolve (by rintro rfl; cases hlast)
      refine .bind (P := fun _ t => Q path t.imports) ?_ fun id t ht _ hQ =>
        .of_ok rfl ht (D.refl _) hQ
      unfold Discipline.KeepsAt at himport ⊢
      cases hrun : ctx.importer.resolve path (".".intercalate path) (s.pool, s.imports) with
      | error h after =>
          simp only [hrun] at himport ⊢
          exact himport
      | ok id after =>
          simp only [hrun] at himport ⊢
          exact himport

/-- The names of a statement are declared, and what it imports is resolved. -/
theorem declareType_follows (hfails : D.ToleratesFailure) {statement : NodeId}
    (hinv : D.inv s.imports)
    (hresolve : ∀ path, ctx.tree.node statement = .importModule path → path ≠ [] →
      (D.comap Prod.snd).KeepsAt (s.pool, s.imports)
        (ctx.importer.resolve path (".".intercalate path)) fun _ after => Q path after.2) :
    D.onImports.KeepsAt s (declareType ctx statement) fun _ t =>
      ∀ path, ctx.tree.node statement = .importModule path → Q path t.imports := by
  by_cases himport : ∃ path, ctx.tree.node statement = .importModule path
  · obtain ⟨path, hnode⟩ := himport
    rw [declareType, hnode]
    refine (importPath_follows hfails hinv (hresolve path hnode)).weaken ?_
    rintro _ t - - hQ path' heq
    cases heq
    exact hQ
  · have hnot : ∀ path, ctx.tree.node statement ≠ .importModule path :=
      fun path h => himport ⟨path, h⟩
    exact ((declareType_quiet hnot).onImports hfails hinv).weaken fun _ _ _ _ _ path h =>
      absurd h (hnot path)

/-- Declaring the names of statements, beginning in `s`, gets to an import of `path` in `t`. -/
def Reaches (ctx : TypingContext σ) (statements : List NodeId) (s : TypingState σ)
    (path : List String) (t : TypingState σ) : Prop :=
  path ≠ [] ∧ ∃ before statement after, statements = before ++ statement :: after ∧
    before.forM (declareType ctx) s = .ok () t ∧ ctx.tree.node statement = .importModule path

/-- The first statement is processed before the others. -/
theorem Reaches.cons {statement : NodeId} {statements : List NodeId} {path : List String}
    (hstep : declareType ctx statement s = .ok () t) (h : Reaches ctx statements t path u) :
    Reaches ctx (statement :: statements) s path u := by
  obtain ⟨hpath, before, other, after, rfl, hbefore, hnode⟩ := h
  refine ⟨hpath, statement :: before, other, after, rfl, ?_, hnode⟩
  show (declareType ctx statement >>= fun _ => before.forM (declareType ctx)) s = _
  simp only [bind, EStateM.bind, hstep, hbefore]

/-- An import is reached within the territory of the module. -/
theorem Reaches.confined {statements : List NodeId} {path : List String} (hT : p₀.Territory N)
    (hlawful : ctx.importer.Lawful) (hs : Confined ctx p₀ N s)
    (h : Reaches ctx statements s path t) : Confined ctx p₀ N t := by
  obtain ⟨-, before, -, -, -, hbefore, -⟩ := h
  have hkeeps := Discipline.forM_keeps (P := fun _ => True) before hs True.intro
    fun statement _ _ ht _ _ => declareType_confined hT hlawful statement ht
  exact (hkeeps.ok hbefore).1

/-- Every import is resolved in the state in which it is reached. -/
theorem declareTypes_follows (hfails : D.ToleratesFailure) (hstable : ∀ path, D.Stable (Q path))
    (statements : List NodeId) {done : List NodeId}
    (hnamed : Named ctx (fun _ _ => True) done s) (hinv : D.inv s.imports)
    (hresolve : ∀ path t, Reaches ctx statements s path t → D.inv t.imports →
      D.le s.imports t.imports → (D.comap Prod.snd).KeepsAt (t.pool, t.imports)
        (ctx.importer.resolve path (".".intercalate path)) fun _ after => Q path after.2) :
    D.onImports.KeepsAt s (statements.forM (declareType ctx)) fun _ t =>
      Named ctx (fun _ _ => True) (done ++ statements) t ∧
        ∀ statement ∈ statements, ∀ path, ctx.tree.node statement = .importModule path →
          Q path t.imports := by
  induction statements generalizing s done with
  | nil => exact .pure hinv ⟨by simpa using hnamed, by simp⟩
  | cons statement statements ih =>
      have hfirst : D.onImports.KeepsAt s (declareType ctx statement) fun _ t =>
          ∀ path, ctx.tree.node statement = .importModule path → Q path t.imports :=
        declareType_follows hfails hinv fun path hnode hpath =>
          hresolve path s ⟨hpath, [], statement, statements, rfl, rfl, hnode⟩ hinv (D.refl _)
      have hstep := (hfirst.and (declareType_named statement hnamed fun _ _ _ _ _ _ =>
        ⟨fun _ _ _ => True.intro, fun _ _ _ _ _ => True.intro⟩)).and
          (Discipline.onSuccess_run (declareType ctx statement) s)
      show D.onImports.KeepsAt s
        (declareType ctx statement >>= fun _ => statements.forM (declareType ctx)) _
      refine .bind hstep ?_
      rintro _ t ht hle ⟨⟨hQ, hnamed'⟩, hrun⟩
      have hrest := ih hnamed' ht fun path u hreach hu htu =>
        hresolve path u (hreach.cons hrun) hu (D.trans hle htu)
      refine hrest.weaken ?_
      rintro _ u hu htu ⟨hnamed'', hall⟩
      refine ⟨by simpa using hnamed'', fun other hother path hnode => ?_⟩
      rcases List.mem_cons.mp hother with rfl | hother
      · exact hstable path _ _ ht htu hu (hQ path hnode)
      · exact hall other hother path hnode

/-- Typing a module touches imports only where it resolves one. If it succeeds, all its imports are
resolved and all its methods are checked. -/
theorem calculate_follows (ctx : TypingContext σ) (p : Pool) (imports : σ)
    (hfails : D.ToleratesFailure) (hstable : ∀ path, D.Stable (Q path)) (hinv : D.inv imports)
    (hresolve : ∀ path t,
      Reaches ctx (ctx.tree.statements ctx.tree.root) { pool := p, imports } path t →
        D.inv t.imports → D.le imports t.imports → (D.comap Prod.snd).KeepsAt (t.pool, t.imports)
          (ctx.importer.resolve path (".".intercalate path)) fun _ after => Q path after.2) :
    D.onImports.KeepsAt { pool := p, imports } (calculate ctx) fun typed t =>
      typed = t.typed ∧ ModuleChecked ctx.tree typed ∧
        ∀ path ∈ ctx.tree.importPaths, Q path t.imports := by
  have hnamed : Named ctx (fun _ _ => True) [] { pool := p, imports } :=
    .initial ⟨fun _ _ _ => True.intro, fun _ _ _ _ _ => True.intro⟩
  rw [calculate_eq]
  refine .bind (declareTypes_follows hfails hstable _ hnamed hinv hresolve) ?_
  rintro _ t ht - ⟨hnamed', hall⟩
  refine ((typeNamed_checks hnamed').onImports hfails ht).weaken ?_
  rintro typed u hu hle ⟨htyped, hchecked⟩
  refine ⟨htyped, hchecked, fun path hmem => ?_⟩
  obtain ⟨statement, hstatement, hnode⟩ := List.mem_filterMap.mp hmem
  split at hnode
  · next path' hnode' =>
      cases hnode
      exact hstable path _ _ ht hle hu (hall statement hstatement path hnode')
  · cases hnode

/-- What holds where an import is reached, if all imports before it keep the discipline. -/
theorem Reaches.follows {statements : List NodeId} {path : List String} {p : Pool} {imports : σ}
    (hfails : D.ToleratesFailure) (hinv : D.inv imports)
    (h : Reaches ctx statements { pool := p, imports } path t)
    (hresolve : ∀ path u, Reaches ctx statements { pool := p, imports } path u →
      D.inv u.imports → D.le imports u.imports → (D.comap Prod.snd).KeepsAt (u.pool, u.imports)
        (ctx.importer.resolve path (".".intercalate path)) fun _ _ => True) :
    D.inv t.imports ∧ D.le imports t.imports := by
  obtain ⟨-, before, statement, after, rfl, hbefore, -⟩ := h
  have hnamed : Named ctx (fun _ _ => True) [] { pool := p, imports } :=
    .initial ⟨fun _ _ _ => True.intro, fun _ _ _ _ _ => True.intro⟩
  have hsteps := declareTypes_follows hfails (Q := fun _ _ => True)
    (fun _ _ _ _ _ _ h => h) before hnamed hinv fun path u hreach hu hle => ?_
  · exact ⟨(hsteps.ok hbefore).1, (hsteps.ok hbefore).2.1⟩
  · obtain ⟨hpath, first, other, last, rfl, hfirst, hnode⟩ := hreach
    exact hresolve path u ⟨hpath, first, other, last ++ statement :: after, by simp, hfirst, hnode⟩
      hu hle

/-- Typing fails where an import does that it reaches, and leaves the imports as that one did. -/
theorem Reaches.error {path : List String} {h : Halt} {after : Pool × σ}
    (hreach : Reaches ctx (ctx.tree.statements ctx.tree.root) s path t)
    (hrun : ctx.importer.resolve path (".".intercalate path) (t.pool, t.imports) =
      .error h after) :
    calculate ctx s = .error h { t with pool := after.1, imports := after.2 } := by
  obtain ⟨hpath, before, statement, rest, hsplit, hbefore, hnode⟩ := hreach
  have hlast := List.getLast?_eq_some_getLast hpath
  have hstatement : declareType ctx statement t =
      .error h { t with pool := after.1, imports := after.2 } := by
    rw [declareType, hnode]
    simp only [importPath, hlast, bind, EStateM.bind, hrun]
  have hnames : (ctx.tree.statements ctx.tree.root).forM (declareType ctx) s =
      .error h { t with pool := after.1, imports := after.2 } := by
    have happend : (before ++ statement :: rest).forM (declareType ctx) =
        before.forM (declareType ctx) >>= fun _ => (statement :: rest).forM (declareType ctx) :=
      List.forM_append
    rw [hsplit, happend]
    show (before.forM (declareType ctx) >>= fun _ =>
      declareType ctx statement >>= fun _ => rest.forM (declareType ctx)) s = _
    simp only [bind, EStateM.bind, hbefore, hstatement]
  rw [calculate_eq]
  simp only [bind, EStateM.bind, hnames]

/-- Where an import is reached, whoever resolves it obeys. -/
theorem Reaches.obeys {statements : List NodeId} {path : List String} (hT : p₀.Territory N)
    (hlawful : ctx.importer.Lawful) (hobeys : ctx.importer.Obeys D A Q) (hs : Confined ctx p₀ N s)
    (hA : ∀ statement ∈ statements, ∀ path,
      ctx.tree.node statement = .importModule path → A path)
    (h : Reaches ctx statements s path t) (hinv : D.inv t.imports) :
    (D.comap Prod.snd).KeepsAt (t.pool, t.imports)
      (ctx.importer.resolve path (".".intercalate path)) fun _ after => Q path after.2 := by
  have ht := h.confined hT hlawful hs
  obtain ⟨-, before, statement, after, rfl, -, hnode⟩ := h
  have hfits := ht.exportsFit
  exact hobeys path t.pool t.imports _ (hA statement (by simp) path hnode) (ht.pool.inner hT) hfits
    hinv

/-- All names are declared, and all imports are resolved. -/
theorem declareTypes_obeys (ctx : TypingContext σ) (hT : p₀.Territory N)
    (hlawful : ctx.importer.Lawful) (hobeys : ctx.importer.Obeys D A Q) (hfails : D.ToleratesFailure)
    (hstable : ∀ path, D.Stable (Q path)) (statements : List NodeId) {done : List NodeId}
    (hA : ∀ statement ∈ statements, ∀ path,
      ctx.tree.node statement = .importModule path → A path)
    (hs : Confined ctx p₀ N s) (hnamed : Named ctx (fun _ _ => True) done s)
    (hinv : D.inv s.imports) :
    D.onImports.KeepsAt s (statements.forM (declareType ctx)) fun _ t =>
      Named ctx (fun _ _ => True) (done ++ statements) t ∧
        ∀ statement ∈ statements, ∀ path, ctx.tree.node statement = .importModule path →
          Q path t.imports :=
  declareTypes_follows hfails hstable statements hnamed hinv fun _ _ hreach ht _ =>
    hreach.obeys hT hlawful hobeys hs hA ht

/-- Typing a module keeps whatever discipline resolving its imports keeps. -/
theorem calculate_obeys (ctx : TypingContext σ) (hT : p₀.Territory N)
    (hlawful : ctx.importer.Lawful) (hobeys : ctx.importer.Obeys D A Q)
    (hfails : D.ToleratesFailure) (hstable : ∀ path, D.Stable (Q path))
    (hA : ∀ path ∈ ctx.tree.importPaths, A path) {imports : σ}
    (hfits : ctx.importer.ExportsFit p₀ N imports) (hinv : D.inv imports) :
    D.onImports.KeepsAt { pool := p₀, imports } (calculate ctx) fun typed t =>
      typed = t.typed ∧ ModuleChecked ctx.tree typed ∧
        ∀ path ∈ ctx.tree.importPaths, Q path t.imports := by
  have hpath : ∀ statement ∈ ctx.tree.statements ctx.tree.root, ∀ path,
      ctx.tree.node statement = .importModule path → A path := by
    intro statement hstatement path hnode
    exact hA path (List.mem_filterMap.mpr ⟨statement, hstatement, by rw [hnode]⟩)
  exact calculate_follows ctx p₀ imports hfails hstable hinv fun _ _ hreach ht _ =>
    hreach.obeys hT hlawful hobeys (Confined.initial hT hfits) hpath ht

end Typing

end ClassLang
