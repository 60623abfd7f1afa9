import ClassLang.Proofs.Session.Packages

/-!
# The order of declarations

All names of a module are declared before anything else is looked at, so that declarations may refer
to later ones. When two units have the same declarations in different orders and both are accepted,
the types that are not generic have the same names, and functions and methods the same link names
(`names_in_any_order`).

Whether a unit is accepted can depend on the order all the same: the cases of a data type that is not
generic are bound when their data type is laid out, and until then nothing can refer to them
(`case_type_needs_order`).
-/

namespace ClassLang

namespace SyntaxTree

variable (tree : SyntaxTree)

/-- The names that a statement declares at top level, those of cases included. -/
def newNames (statement : NodeId) : List String :=
  match tree.node statement with
  | .classDef name _ _ => [name]
  | .dataDef name _ cases _ => name :: cases.filterMap fun variant =>
    match tree.node variant with
    | .caseDef name _ => some name
    | _ => none
  | .traitDef name _ => [name]
  | .methodDef name .. => [name]
  | .methodDec name .. => [name]
  | _ => []

/-- A statement that declares a class, a data type, a trait or a function. -/
def isDeclaration (statement : NodeId) : Bool :=
  match tree.node statement with
  | .classDef .. => true
  | .dataDef .. => true
  | .traitDef .. => true
  | .methodDef .. => true
  | .methodDec .. => true
  | _ => false

/-- The unit only declares types, traits and functions, and their names are different. -/
structure DeclaresApart : Prop where
  declarations : ∀ statement ∈ tree.statements tree.root, tree.isDeclaration statement
  names : ((tree.statements tree.root).flatMap tree.newNames).Nodup

/-- The other unit has the same statements in another order. -/
structure Reorders (tree' : SyntaxTree) : Prop where
  root : tree'.root = tree.root
  nodes : ∀ node, node ≠ tree.root → tree'.node node = tree.node node
  order : ∃ order order', tree.node tree.root = .seq order ∧ tree'.node tree.root = .seq order' ∧
    order'.Perm order

variable {tree} {tree' : SyntaxTree}

/-- Declarations set no package. -/
theorem packageAfter_eq_none {statements : List NodeId}
    (h : ∀ statement ∈ statements, tree.isDeclaration statement) :
    tree.packageAfter statements = none := by
  have hnone : statements.filterMap tree.package? = [] := by
    rw [List.filterMap_eq_nil_iff]
    intro statement hmem
    have hdeclares := h statement hmem
    unfold isDeclaration at hdeclares
    unfold package?
    split
    · next hnode => simp [hnode] at hdeclares
    · rfl
  simp [packageAfter, hnone]

namespace Reorders

theorem statements (h : tree.Reorders tree') :
    (tree'.statements tree'.root).Perm (tree.statements tree.root) := by
  obtain ⟨order, order', horder, horder', hperm⟩ := h.order
  simpa [SyntaxTree.statements, h.root, horder, horder'] using hperm

/-- Only the root differs, which is a sequence in both units. -/
theorem node_eq_or (h : tree.Reorders tree') (node : NodeId) : tree'.node node = tree.node node ∨
    ∃ order order', tree.node node = .seq order ∧ tree'.node node = .seq order' := by
  obtain ⟨order, order', horder, horder', -⟩ := h.order
  by_cases hnode : node = tree.root
  · subst hnode
    exact .inr ⟨order, order', horder, horder'⟩
  · exact .inl (h.nodes node hnode)

theorem typeName? (h : tree.Reorders tree') (decl : NodeId) :
    tree'.typeName? decl = tree.typeName? decl := by
  unfold SyntaxTree.typeName?
  rcases h.node_eq_or decl with heq | ⟨order, order', horder, horder'⟩
  · rw [heq]
  · rw [horder, horder']

theorem method? (h : tree.Reorders tree') (node : NodeId) :
    tree'.method? node = tree.method? node := by
  unfold SyntaxTree.method?
  rcases h.node_eq_or node with heq | ⟨order, order', horder, horder'⟩
  · rw [heq]
  · rw [horder, horder']

theorem isDeclaration (h : tree.Reorders tree') (statement : NodeId) :
    tree'.isDeclaration statement = tree.isDeclaration statement := by
  unfold SyntaxTree.isDeclaration
  rcases h.node_eq_or statement with heq | ⟨order, order', horder, horder'⟩
  · rw [heq]
  · rw [horder, horder']

end Reorders

end SyntaxTree

/-- Two declarations come from the same place in the source: from the same function, or from the same
method and the same type, which is not generic. -/
inductive Declaration.Corresponds (tree : SyntaxTree) : Declaration → Declaration → Prop
  | function (statement : NodeId) : Corresponds tree (.function statement) (.function statement)
  | method {decl : NodeId} {type : String} {owner owner' : TypeId} {visit visit' : Visit}
      (htype : tree.typeName? decl = some type) (hnode : visit.node = visit'.node) :
      Corresponds tree (.method decl 0 owner visit) (.method decl 0 owner' visit')

/-- No template is made for a type that is not generic. -/
theorem Typing.Delivered.not_template_of_typeName? {σ : Type} {ctx : TypingContext σ}
    {known : σ → String → Prop} {s : TypingState σ} (h : Delivered ctx known s) {decl : NodeId}
    {name : String} (hname : ctx.tree.typeName? decl = some name) :
    decl ∉ s.typed.templates.map (·.decl) := by
  intro hmem
  have hgeneric := (List.mem_filter.mp (h.decls ▸ hmem)).2
  unfold SyntaxTree.typeName? at hname
  split at hname
  · next hnode => simp [hnode, isGeneric] at hgeneric
  · next hnode => simp [hnode, isGeneric] at hgeneric
  · cases hname

namespace Session

variable {γ γ' : Type} {backend : Backend γ} {backend' : Backend γ'} {store store' : ModuleStore}
  {fuel fuel' : Nat} {tree tree' : SyntaxTree} {s : Pool × Session γ} {s' : Pool × Session γ'}
  {typed typed' : TypedModule} {t : TypingState (Session γ)} {t' : TypingState (Session γ')}

/-- What a unit of declarations makes of their names, which does not depend on where they stand. -/
structure NamesRead (tree : SyntaxTree) (typed : TypedModule) (p : Pool) : Prop where
  /-- A type that is not generic has the name of its declaration. -/
  types : ∀ decl ∈ tree.statements tree.root, ∀ name, tree.typeName? decl = some name →
    ∃ r, typed.table.get? ⟨0, decl⟩ = some r ∧ p.display r = name
  functions : ∀ statement ∈ tree.statements tree.root, ∀ name,
    tree.method? statement = some (name, none) →
      typed.linkName? (.function statement) = some (functionLink none name)
  methods : ∀ decl owner visit type name, typed.Has tree (.method decl 0 owner visit) →
    tree.typeName? decl = some type → tree.method? visit.node = some (name, none) →
      typed.linkName? (.method decl 0 owner visit) = some (methodLink type name)

/-- The names of a unit of declarations are read off the source, wherever in a session the unit is
typed. -/
theorem names_read (h : Begins backend store fuel tree s) (hshape : tree.TreeShaped)
    (hdeclares : ∀ statement ∈ tree.statements tree.root, tree.isDeclaration statement)
    (hrun : Typing.calculate { tree, importer := importerWithin backend store fuel }
      { pool := s.1, imports := s.2 } = .ok typed t) : NamesRead tree typed t.pool := by
  have happlied := packages_applied h hshape hrun
  obtain ⟨rfl, hdelivered, -⟩ := h.delivered hshape hrun
  have hpackage : ∀ before ⊆ tree.statements tree.root, tree.packageAfter before = none :=
    fun before hsub => SyntaxTree.packageAfter_eq_none fun statement hmem =>
      hdeclares statement (hsub hmem)
  have htypes : ∀ decl ∈ tree.statements tree.root, ∀ name, tree.typeName? decl = some name →
      ∃ r, t.typed.table.get? ⟨0, decl⟩ = some r ∧ t.pool.display r = name := by
    intro decl hmem name hname
    obtain ⟨before, after, hsplit⟩ := List.append_of_mem hmem
    obtain ⟨r, hr, hnominal⟩ := happlied.types before decl after name hsplit hname
    rw [hpackage before (by rw [hsplit]; exact List.subset_append_left _ _)] at hnominal
    exact ⟨r, hr, Pool.display_of_nominalName hnominal⟩
  refine { types := htypes, functions := fun statement hmem name hname => ?_, methods := ?_ }
  · rw [happlied.functions statement hmem name hname, hpackage _ (List.Subset.refl _)]
  · intro decl owner visit type name hd htype hname
    rw [hdelivered.linkName_eq hd (Declaration.plainName?_eq_some_iff.mpr hname)]
    obtain ⟨htop, hinstance, -⟩ := hd
    obtain ⟨r, hr, hdisplay⟩ := htypes decl htop type htype
    have htemplate := TypedModule.templateFor?_eq_none_iff.mpr
      (hdelivered.not_template_of_typeName? htype)
    simp only [TypedModule.HasInstance, htemplate, true_and] at hinstance
    obtain rfl : r = owner := Option.some.inj (hr.symm.trans hinstance)
    simp only [Declaration.spelled, Declaration.owner?, hdisplay]

/-- When two units have the same declarations in different orders and both are accepted, wherever in a
session, each type that is not generic has one name, and each function and each method of such a type
has one link name, if no attribute says what that is. -/
theorem names_in_any_order (horder : tree.Reorders tree')
    (hdeclares : ∀ statement ∈ tree.statements tree.root, tree.isDeclaration statement)
    (hshape : tree.TreeShaped) (hshape' : tree'.TreeShaped)
    (h : Begins backend store fuel tree s) (h' : Begins backend' store' fuel' tree' s')
    (hrun : Typing.calculate { tree, importer := importerWithin backend store fuel }
      { pool := s.1, imports := s.2 } = .ok typed t)
    (hrun' : Typing.calculate { tree := tree', importer := importerWithin backend' store' fuel' }
      { pool := s'.1, imports := s'.2 } = .ok typed' t') :
    (∀ decl ∈ tree.statements tree.root, (tree.typeName? decl).isSome → ∃ r r',
      typed.table.get? ⟨0, decl⟩ = some r ∧ typed'.table.get? ⟨0, decl⟩ = some r' ∧
        t.pool.display r = t'.pool.display r') ∧
      ∀ d d', typed.Has tree d → typed'.Has tree' d' → d.Corresponds tree d' →
        (d.plainName? tree).isSome →
          ∃ link, typed.linkName? d = some link ∧ typed'.linkName? d' = some link := by
  have hread := names_read h hshape hdeclares hrun
  have hread' : NamesRead tree' typed' t'.pool := names_read h' hshape' (fun statement hmem => by
    rw [horder.isDeclaration]
    exact hdeclares statement (horder.statements.mem_iff.mp hmem)) hrun'
  constructor
  · intro decl hmem hsome
    obtain ⟨name, hname⟩ := Option.isSome_iff_exists.mp hsome
    obtain ⟨r, hr, hdisplay⟩ := hread.types decl hmem name hname
    obtain ⟨r', hr', hdisplay'⟩ := hread'.types decl (horder.statements.mem_iff.mpr hmem) name
      ((horder.typeName? decl).trans hname)
    exact ⟨r, r', hr, hr', hdisplay.trans hdisplay'.symm⟩
  · intro d d' hd hd' hsame hsome
    obtain ⟨name, hname⟩ := Option.isSome_iff_exists.mp hsome
    rw [Declaration.plainName?_eq_some_iff] at hname
    cases hsame with
    | function statement =>
        exact ⟨_, hread.functions statement hd.1 name hname,
          hread'.functions statement hd'.1 name ((horder.method? statement).trans hname)⟩
    | @method decl type owner owner' visit visit' htype hnode =>
        have hname' : tree'.method? visit'.node = some (name, none) := by
          rw [horder.method?, ← hnode]
          exact hname
        exact ⟨_, hread.methods decl owner visit type name hd htype hname,
          hread'.methods decl owner' visit' type name hd' ((horder.typeName? decl).trans htype)
            hname'⟩

end Session

namespace Typing

/-- A class `A` with an instance variable of type `K`, and a data type `D` with the case `K`, in the
given order. -/
def caseUnit (statements : List NodeId) : SyntaxTree :=
  .ofStatements #[.namedType "K", .ivarDecl "c" 0, .seq [1], .classDef "A" none 2,
    .namedType "Integer", .typed "x" 4, .caseDef "K" [5], .dataDef "D" none [6] none] statements

/-- The class of `caseUnit` can only stand after the data type: the case `K` of its instance variable
gets its name when `D` is laid out. -/
theorem case_type_needs_order :
    (caseUnit [7, 3]).TreeShaped ∧ (caseUnit [7, 3]).DeclaresApart ∧ [3, 7].Perm [7, 3] ∧
      (∃ typed t, calculate ⟨caseUnit [7, 3], .none⟩ { pool := Pool.initial, imports := () } =
        .ok typed t) ∧
      ∃ t, calculate ⟨caseUnit [3, 7], .none⟩ { pool := Pool.initial, imports := () } =
        .error (.error (.uninitialized "K")) t := by
  have hlater : okWith (fun _ _ => ()) (calculate ⟨caseUnit [7, 3], .none⟩
      { pool := Pool.initial, imports := () }) = some () := by decide +kernel
  obtain ⟨typed, t, hrun, -⟩ := exists_of_okWith hlater
  have hearlier : haltOf? (calculate ⟨caseUnit [3, 7], .none⟩
      { pool := Pool.initial, imports := () }) = some (.error (.uninitialized "K")) := by
    decide +kernel
  exact ⟨by decide, ⟨by decide, by decide⟩, .swap 7 3 [], ⟨typed, t, hrun⟩,
    exists_of_haltOf? hearlier⟩

end Typing

end ClassLang
