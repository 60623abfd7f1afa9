import ClassLang.Proofs.Session.LinkNames

/-!
# Package statements and link names

A package statement sets the package that link names begin with. Class and data types are named while
the statements are gone through for the first time, so each has the package of the last package
statement before it. Functions get their link names in a later pass, when all package statements
were seen: they all have the package of the last one of the unit, wherever they stand.
-/

namespace ClassLang

namespace SyntaxTree

variable (tree : SyntaxTree)

/-- The package that a statement sets, with dots between its parts. -/
def package? (statement : NodeId) : Option String :=
  match tree.node statement with
  | .package path => some (".".intercalate path)
  | _ => none

/-- The package after some statements: the one that the last package statement among them sets. -/
def packageAfter (statements : List NodeId) : Option String :=
  (statements.filterMap tree.package?).getLast?

/-- The name of a class or data type that is not generic. -/
def typeName? (statement : NodeId) : Option String :=
  match tree.node statement with
  | .classDef name none _ => some name
  | .dataDef name none _ _ => some name
  | _ => none

theorem packageAfter_concat (statements : List NodeId) (statement : NodeId) :
    tree.packageAfter (statements ++ [statement]) =
      (tree.package? statement).or (tree.packageAfter statements) := by
  unfold packageAfter
  rw [List.filterMap_append, List.getLast?_append]
  cases hpackage : tree.package? statement <;> simp [hpackage]

end SyntaxTree

/-- A name in a package. -/
def qualify (package : Option String) (name : String) : String :=
  match package with
  | some package => package ++ "." ++ name
  | none => name

namespace Typing

variable {σ : Type} {ctx : TypingContext σ} {tree : SyntaxTree} {done : List NodeId}
  {statement : NodeId} {s t : TypingState σ}

/-- What is known after the names of the statements `done` were declared: the package is that of the
last package statement, and each type is named in the package of the last one before it. -/
structure Prefixed (tree : SyntaxTree) (done : List NodeId) (s : TypingState σ) : Prop where
  walk : s.walk = 0
  package : s.package = tree.packageAfter done
  types : ∀ {before decl after name}, done = before ++ decl :: after →
    tree.typeName? decl = some name → ∃ r, s.table.get? ⟨0, decl⟩ = some r ∧
      (s.pool.data r).nominalName? = some (qualify (tree.packageAfter before) name)

namespace Prefixed

theorem initial (tree : SyntaxTree) (p : Pool) (imports : σ) :
    Prefixed tree [] ({ pool := p, imports } : TypingState σ) :=
  ⟨rfl, rfl, fun h => by simp at h⟩

/-- One more statement: `hnew` says what is recorded if it declares a type. -/
theorem add (h : Prefixed tree done s) (hwalk : t.walk = s.walk)
    (hpackage : t.package = (tree.package? statement).or s.package)
    (hpool : s.pool.Evolves t.pool)
    (htable : ∀ decl ∈ done, t.table.get? ⟨0, decl⟩ = s.table.get? ⟨0, decl⟩)
    (hnew : ∀ name, tree.typeName? statement = some name → ∃ r,
      t.table.get? ⟨0, statement⟩ = some r ∧
        (t.pool.data r).nominalName? = some (qualify s.package name)) :
    Prefixed tree (done ++ [statement]) t where
  walk := hwalk.trans h.walk
  package := by rw [tree.packageAfter_concat, hpackage, h.package]
  types {before decl after name} hsplit hname := by
    rcases List.eq_nil_or_concat after with rfl | ⟨rest, last, rfl⟩
    · -- the type is declared by the new statement
      obtain ⟨rfl, heq⟩ := List.append_inj' hsplit rfl
      cases heq
      rw [← h.package]
      exact hnew name hname
    · have hsplit : done ++ [statement] = (before ++ decl :: rest) ++ [last] := by simpa using hsplit
      have hbefore : done = before ++ decl :: rest := List.append_inj_left' hsplit rfl
      obtain ⟨r, hr, hnominal⟩ := h.types hbefore hname
      have hmem : decl ∈ done := by simp [hbefore]
      exact ⟨r, (htable decl hmem).trans hr, hpool.nominalName? hnominal⟩

/-- One more statement that declares no type. -/
theorem skip (h : Prefixed tree done s) (hwalk : t.walk = s.walk)
    (hpackage : t.package = (tree.package? statement).or s.package)
    (hpool : s.pool.Evolves t.pool) (htable : t.table = s.table)
    (hname : tree.typeName? statement = none) : Prefixed tree (done ++ [statement]) t :=
  h.add hwalk hpackage hpool (fun _ _ => by rw [htable]) fun name hsome => by simp [hname] at hsome

end Prefixed

/-- The name of a type has the package that was set before its declaration. -/
theorem declareTypeName_prefixed {name : String} {f : Pool → String → TypeId × Pool}
    (h : Prefixed ctx.tree done s) (hfresh : statement ∉ done)
    (hpackage : ctx.tree.package? statement = none)
    (hname : ctx.tree.typeName? statement = some name)
    (hf : ∀ p link, p.Evolves (f p link).2 ∧
      ((f p link).2.data (f p link).1).nominalName? = some link) :
    (Discipline.onSuccess Halt (TypingState σ)).KeepsAt s (do
      let linkName ← qualified name
      declareTypeName statement name (← makeType (f · linkName)))
      fun _ => Prefixed ctx.tree (done ++ [statement]) := by
  have hwalk := h.walk
  have hnew := hf s.pool (qualify s.package name)
  refine .of_ok rfl True.intro True.intro (h.add rfl ?_ hnew.1 (fun decl hdecl => ?_) ?_)
  · simp [hpackage]
  · have hne : (⟨0, decl⟩ : Visit) ≠ ⟨s.walk, statement⟩ := fun heq => by
      obtain rfl : decl = statement := congrArg Visit.node heq
      exact hfresh hdecl
    exact TypeTable.get?_record_of_ne _ _ hne
  · intro other hother
    obtain rfl : name = other := Option.some.inj (hname.symm.trans hother)
    refine ⟨(f s.pool (qualify s.package name)).1, ?_, hnew.2⟩
    rw [← hwalk]
    exact TypeTable.get?_record_self _ _ _

/-- An import sets no package and declares no type of the module. -/
theorem importPath_prefixed {path : List String} (h : Prefixed ctx.tree done s)
    (hpackage : ctx.tree.package? statement = none) (hname : ctx.tree.typeName? statement = none)
    (hresolve : ∀ dotted id r, ctx.importer.resolve path dotted (s.pool, s.imports) = .ok id r →
      s.pool.Evolves r.1) :
    (Discipline.onSuccess Halt (TypingState σ)).KeepsAt s (importPath ctx path)
      fun _ => Prefixed ctx.tree (done ++ [statement]) := by
  unfold importPath
  split
  · exact .of_error rfl True.intro
  · refine .bind (P := fun _ => Prefixed ctx.tree (done ++ [statement])) ?_ fun _ t _ _ ht =>
      .of_ok rfl True.intro True.intro { ht with }
    unfold Discipline.KeepsAt
    cases hrun : ctx.importer.resolve path (".".intercalate path) (s.pool, s.imports) with
    | error e r =>
        simp only [hrun]
        exact True.intro
    | ok id r =>
        simp only [hrun]
        have hadded : Prefixed ctx.tree (done ++ [statement]) { s with pool := r.1, imports := r.2 } :=
          h.skip rfl (by simp [hpackage]) (hresolve _ _ _ hrun) rfl hname
        exact ⟨True.intro, True.intro, hadded⟩

/-- The names of one more statement are declared. -/
theorem declareType_prefixed (h : Prefixed ctx.tree done s) (hfresh : statement ∉ done)
    (hresolve : ∀ path dotted id r,
      ctx.importer.resolve path dotted (s.pool, s.imports) = .ok id r → s.pool.Evolves r.1) :
    (Discipline.onSuccess Halt (TypingState σ)).KeepsAt s (declareType ctx statement)
      fun _ => Prefixed ctx.tree (done ++ [statement]) := by
  unfold declareType
  split
  · next path hnode =>
      have hpackage : ctx.tree.package? statement = some (".".intercalate path) := by
        simp [SyntaxTree.package?, hnode]
      exact .of_ok rfl True.intro True.intro
        (h.skip rfl (by rw [hpackage]; rfl) (.refl _) rfl (by simp [SyntaxTree.typeName?, hnode]))
  · next path hnode =>
      exact importPath_prefixed h (by simp [SyntaxTree.package?, hnode])
        (by simp [SyntaxTree.typeName?, hnode]) (hresolve path)
  · next name body hnode =>
      exact .of_ok rfl True.intro True.intro
        (h.skip rfl (by simp [SyntaxTree.package?, hnode]) (.refl _) rfl
          (by simp [SyntaxTree.typeName?, hnode]))
  · next name body hnode =>
      refine declareTypeName_prefixed (f := Pool.newReference) h hfresh
        (by simp [SyntaxTree.package?, hnode]) (by simp [SyntaxTree.typeName?, hnode])
        fun p link => ⟨(Pool.Change.newReference p link).evolves, ?_⟩
      exact congrArg TypeData.nominalName? (Pool.data_push_self _ _)
  · next name cases body hnode =>
      refine declareTypeName_prefixed (f := Pool.newData) h hfresh
        (by simp [SyntaxTree.package?, hnode]) (by simp [SyntaxTree.typeName?, hnode])
        fun p link => ⟨(Pool.Change.newData p link).evolves, ?_⟩
      exact congrArg TypeData.nominalName? (Pool.data_push_self _ _)
  · next name param body hnode =>
      exact .of_ok rfl True.intro True.intro
        (h.skip rfl (by simp [SyntaxTree.package?, hnode]) (.refl _) rfl
          (by simp [SyntaxTree.typeName?, hnode]))
  · next name param cases body hnode =>
      have hadded : Prefixed ctx.tree (done ++ [statement]) s :=
        h.skip rfl (by simp [SyntaxTree.package?, hnode]) (.refl _) rfl
          (by simp [SyntaxTree.typeName?, hnode])
      refine .bind (P := fun _ => Prefixed ctx.tree (done ++ [statement]))
        (.of_ok rfl True.intro True.intro { hadded with }) fun id t _ _ ht => ?_
      refine Discipline.forM_keeps (P := Prefixed ctx.tree (done ++ [statement])) _ True.intro ht
        fun entry _ u _ _ hu => ?_
      dsimp only
      split
      · exact .of_ok rfl True.intro True.intro { hu with }
      · exact .pure True.intro hu
  · next h₁ h₂ h₃ h₄ h₅ h₆ h₇ =>
      refine .pure True.intro (h.skip rfl ?_ (.refl _) rfl ?_)
      · unfold SyntaxTree.package?
        split
        · next hnode => exact absurd hnode (h₁ _)
        · rfl
      · unfold SyntaxTree.typeName?
        split
        · next hnode => exact absurd hnode (h₄ _ _)
        · next hnode => exact absurd hnode (h₅ _ _ _)
        · rfl

/-- The names of all statements are declared. -/
theorem declareTypes_prefixed {p₀ : Pool} {N : TypeId → Prop} (hT : p₀.Territory N)
    (hlawful : ctx.importer.Lawful) (done statements : List NodeId)
    (hnodup : (done ++ statements).Nodup) (hs : Confined ctx p₀ N s) (h : Prefixed ctx.tree done s) :
    (confinement ctx p₀ N).KeepsAt s (statements.forM (declareType ctx)) fun _ =>
      Prefixed ctx.tree (done ++ statements) := by
  induction statements generalizing s done with
  | nil => exact .pure hs (by simpa using h)
  | cons statement statements ih =>
      show (confinement ctx p₀ N).KeepsAt s
        (declareType ctx statement >>= fun _ => statements.forM (declareType ctx)) _
      have hfresh : statement ∉ done := fun hmem =>
        (List.nodup_append.mp hnodup).2.2 statement hmem statement (by simp) rfl
      have hfits := hs.exportsFit
      have hstep := declareType_prefixed h hfresh fun path dotted id r hrun => by
        have himport := hlawful path dotted s.pool s.imports (Pool.Inner N s.pool)
          (hs.pool.inner hT) hfits
        simp only [hrun] at himport
        exact himport.2.1.evolves
      refine .bind ((declareType_confined hT hlawful _ hs).and hstep) fun _ t ht _ hprefixed => ?_
      have hrest := ih _ (by simpa using hnodup) ht hprefixed.2
      simpa using hrest

/-- What typing a tree-shaped unit makes of its packages. -/
structure PackagesApplied (tree : SyntaxTree) (typed : TypedModule) (p : Pool) : Prop where
  /-- A type is named in the package of the last package statement before it. -/
  types : ∀ before decl after name, tree.statements tree.root = before ++ decl :: after →
    tree.typeName? decl = some name → ∃ r, typed.table.get? ⟨0, decl⟩ = some r ∧
      (p.data r).nominalName? = some (qualify (tree.packageAfter before) name)
  /-- All functions but `main` are linked in the package of the last package statement of the unit. -/
  functions : ∀ statement ∈ tree.statements tree.root, ∀ name,
    tree.method? statement = some (name, none) → typed.linkName? (.function statement) =
      some (functionLink (tree.packageAfter (tree.statements tree.root)) name)

/-- Types that were named keep their names, and functions get the package that was set last. -/
theorem Prefixed.applied {known : σ → String → Prop}
    (h : Prefixed ctx.tree (ctx.tree.statements ctx.tree.root) s) (hdelivered : Delivered ctx known t)
    (hsince : Since ctx.tree s t) : PackagesApplied ctx.tree t.typed t.pool where
  types before decl after name hsplit hname := by
    obtain ⟨r, hr, hnominal⟩ := h.types hsplit hname
    have hdeclares : (ctx.tree.node decl).declaresType = true := by
      unfold SyntaxTree.typeName? at hname
      split at hname
      · next hnode => simp [hnode, Node.declaresType]
      · next hnode => simp [hnode, Node.declaresType]
      · cases hname
    exact ⟨r, hsince.owners decl hdeclares r hr, hsince.pool.nominalName? hnominal⟩
  functions statement hstatement name hname := by
    have hmethod : ctx.tree.IsMethod statement := SyntaxTree.isMethod_iff.mpr (by simp [hname])
    have hlink := hdelivered.linkName_eq (d := .function statement) ⟨hstatement, hmethod⟩
      (Declaration.plainName?_eq_some_iff.mpr hname)
    rw [hlink, ← h.package, ← hsince.package]
    rfl

end Typing

namespace Session

variable {γ : Type} {backend : Backend γ} {store : ModuleStore} {fuel : Nat} {tree : SyntaxTree}
  {s : Pool × Session γ} {typed : TypedModule} {t : TypingState (Session γ)}

/-- Wherever in a session a tree-shaped unit is typed, its types are named in the package of the last
package statement before them, and its functions in that of the last package statement of all. -/
theorem packages_applied (h : Begins backend store fuel tree s) (hshape : tree.TreeShaped)
    (hrun : Typing.calculate { tree, importer := importerWithin backend store fuel }
      { pool := s.1, imports := s.2 } = .ok typed t) :
    Typing.PackagesApplied tree typed t.pool := by
  have hsound := h.sound
  have hnames := Typing.declareTypes_prefixed hsound.pool.territory
    (importerWithin_lawful backend store fuel) [] (tree.statements tree.root)
    (hshape.nodup_statements _) (hsound.confined backend store fuel tree) (.initial tree s.1 s.2)
  obtain ⟨rfl, hdone, u, hu, hsince⟩ := h.delivered hshape hrun
  exact (hnames.ok hu).2.2.applied hdone hsince

/-- A unit with a function before its package statement, and a class and a function after it. -/
def latePackageUnit : SyntaxTree :=
  .ofStatements #[.namedType "Integer", .number 1, .methodDef "helper" [] (some 0) 1,
    .package ["a", "b"], .seq [], .classDef "C" none 4, .namedType "Integer", .number 2,
    .methodDef "later" [] (some 6) 7] [2, 3, 5, 8]

/-- In `latePackageUnit` the class and both functions are in the package. -/
theorem packages_applied_late :
    ∃ typed t, firstRun {} latePackageUnit = .ok typed t ∧
      Typing.PackagesApplied latePackageUnit typed t.pool ∧
      (t.pool.data 8).nominalName? = some "a.b.C" ∧
      typed.linkName? (.function 8) = some "a.b.later" := by
  have htyped : okWith (fun typed t => ((t.pool.data 8).nominalName?, typed.linkName? (.function 8)))
      (firstRun {} latePackageUnit) = some (some "a.b.C", some "a.b.later") := by decide +kernel
  obtain ⟨typed, t, hrun, hfacts⟩ := exists_of_okWith htyped
  obtain ⟨hclass, hfunction⟩ := Prod.mk.inj hfacts
  have hbegins : Begins Backend.code {} 1 latePackageUnit
      (Pool.initial, { output := Output.ofName "main" }) := .unit (.start _) latePackageUnit
  exact ⟨typed, t, hrun, packages_applied hbegins (by decide) hrun, hclass, hfunction⟩

/-- Each function is linked in the package of the last package statement before it. -/
def FunctionsFollowPackages (tree : SyntaxTree) (typed : TypedModule) : Prop :=
  ∀ before statement after name, tree.statements tree.root = before ++ statement :: after →
    tree.method? statement = some (name, none) →
      typed.linkName? (.function statement) = some (functionLink (tree.packageAfter before) name)

/-- The function before the package statement of `latePackageUnit` is linked in that package. -/
theorem late_package_links_earlier_function :
    latePackageUnit.TreeShaped ∧ ∃ typed t, firstRun {} latePackageUnit = .ok typed t ∧
      typed.linkName? (.function 2) = some "a.b.helper" ∧
      ¬ FunctionsFollowPackages latePackageUnit typed := by
  have htyped : okWith (fun typed _ => typed.linkName? (.function 2))
      (firstRun {} latePackageUnit) = some (some "a.b.helper") := by decide +kernel
  obtain ⟨typed, t, hrun, hlink⟩ := exists_of_okWith htyped
  refine ⟨by decide, typed, t, hrun, hlink, fun hfollow => ?_⟩
  have hexpected := hfollow [] 2 [3, 5, 8] "helper" (by decide) (by decide)
  rw [hlink] at hexpected
  exact absurd hexpected (by decide)

end Session

end ClassLang
