import ClassLang.Proofs.Typing.AccountedBodies
import ClassLang.Proofs.Typing.ConfinedModules

/-!
# Modules account for their records

The steps of typing a module, down to `calculate`. While names are declared, nothing is recorded but
the types of declared types, and methods are those of imports; afterwards the module is accounted
for. In a tree-shaped unit the bodies of top-level statements are apart, so the signatures of one
statement are recorded without touching another. In the end every function, method and expansion
has been declared and walked.
-/

namespace ClassLang

open SyntaxTree (TreeShaped)

/-- All methods of the pool and all functions of modules are known. -/
structure Importer.Linked {σ : Type} (importer : Importer σ) (known : σ → String → Prop) (p : Pool)
    (imports : σ) : Prop where
  methods : ∀ t, ∀ sig ∈ (p.data t).methods, known imports sig.linkName
  functions : ∀ id e, importer.exports? imports id = some e → ∀ sig ∈ e.functions,
    known imports sig.linkName

/-- What is promised of whoever compiles imports: what a compiled import adds is known. -/
def Importer.Accountable {σ : Type} (importer : Importer σ) (known : σ → String → Prop) : Prop :=
  ∀ path dotted p imports N id p' imports', p.Territory N → importer.ExportsFit p N imports →
    importer.Linked known p imports →
    importer.resolve path dotted (p, imports) = .ok id (p', imports') →
      importer.Linked known p' imports'

/-- A frame that binds no variables and belongs to no type. -/
structure Scope.DeclaresOnly (frame : Scope) : Prop where
  names : ∀ entry ∈ frame.names, ∀ t, entry.2 ≠ .value t
  currentType : frame.currentType = none

theorem Scope.DeclaresOnly.bind {frame : Scope} {name : String} {b : Binding}
    (h : frame.DeclaresOnly) (hb : ∀ t, b ≠ .value t) : (frame.bind name b).DeclaresOnly where
  names := List.forall_mem_cons.mpr ⟨hb, h.names⟩
  currentType := h.currentType

namespace Typing

variable {σ : Type} {ctx : TypingContext σ} {known : σ → String → Prop} {G F : NodeId → Prop}
  {s t : TypingState σ}

/-! ## Names -/

/-- The declaration of a generic type. -/
def isGeneric (d : Node) : Bool :=
  match d with
  | .classDef _ (some _) _ => true
  | .dataDef _ (some _) _ _ => true
  | _ => false

/-- The trait that a statement declares. -/
def traitOf? (tree : SyntaxTree) (statement : NodeId) : Option (String × NodeId) :=
  match tree.node statement with
  | .traitDef name body => some (name, body)
  | _ => none

/-- The state of typing after the names of the statements `done` were declared. -/
structure Named (ctx : TypingContext σ) (known : σ → String → Prop) (done : List NodeId)
    (s : TypingState σ) : Prop where
  linked : ctx.importer.Linked known s.pool s.imports
  walk : s.walk = 0
  pending : s.pending = []
  functions : s.exports.functions = []
  next : s.table.nextInstance = 1
  targets : ∀ v, ¬ s.table.HasTarget v
  signatures : ∀ v, ¬ s.table.HasSignature v
  inclusions : ∀ v, s.table.inclusion? v = none
  types : ∀ v, s.table.HasType v → (ctx.tree.node v.node).declaresType = true
  declared : ∀ statement ∈ done, (ctx.tree.node statement).declaresType = true →
    s.table.HasType { walk := 0, node := statement }
  inner : s.scopes.inner = []
  base : s.scopes.base.DeclaresOnly
  traits : s.scopes.base.traits = (done.filterMap (traitOf? ctx.tree)).reverse
  templates : ∀ entry ∈ s.scopes.base.templates, entry.2 < s.templates.length
  cases : ∀ entry ∈ s.scopes.base.names, ∀ id index, entry.2 = .genericCase id index →
    id < s.templates.length
  expansions : ∀ template ∈ s.templates, template.expansions = []
  decls : s.templates.map (·.decl) = done.filter fun statement => isGeneric (ctx.tree.node statement)

namespace Named

variable {done : List NodeId}

/-- Before anything was declared. -/
theorem initial {p : Pool} {imports : σ} (h : ctx.importer.Linked known p imports) :
    Named ctx known [] { pool := p, imports } where
  linked := h
  walk := rfl
  pending := rfl
  functions := rfl
  next := rfl
  targets v := by simp [TypeTable.HasTarget]
  signatures v := by simp [TypeTable.HasSignature]
  inclusions v := by simp [TypeTable.inclusion?]
  types v := by simp [TypeTable.HasType, TypeTable.get?]
  declared := by simp
  inner := rfl
  base := ⟨by simp, rfl⟩
  traits := rfl
  templates := by simp
  cases := by simp
  expansions := by simp
  decls := rfl

/-- A statement that declares no type and no trait. -/
theorem skip {statement : NodeId} (h : Named ctx known done s)
    (hdecl : (ctx.tree.node statement).declaresType = false)
    (hgeneric : isGeneric (ctx.tree.node statement) = false)
    (htrait : traitOf? ctx.tree statement = none) : Named ctx known (done ++ [statement]) s :=
  { h with
    declared := fun other hother hdeclares => by
      rw [List.mem_append, List.mem_singleton] at hother
      rcases hother with hother | rfl
      · exact h.declared other hother hdeclares
      · rw [hdecl] at hdeclares
        cases hdeclares
    traits := by simp [h.traits, htrait]
    decls := by simp [h.decls, hgeneric] }

end Named

section Declaring

variable {done : List NodeId} {statement : NodeId}

/-- A type is declared under its name. -/
theorem Named.declareTypeName {r : TypeId} {p : Pool} {name : String}
    (h : Named ctx known done s) (hp : s.pool.AddsNoMethod p)
    (hdecl : (ctx.tree.node statement).declaresType = true)
    (hgeneric : isGeneric (ctx.tree.node statement) = false)
    (htrait : traitOf? ctx.tree statement = none) :
    (Discipline.onSuccess _ _).KeepsAt { s with pool := p }
      (Typing.declareTypeName statement name r) fun _ => Named ctx known (done ++ [statement]) := by
  have hwalk := h.walk
  refine .of_ok rfl trivial trivial { h with
    linked := ⟨fun t sig hsig => h.linked.methods t sig (hp.methods t hsig), h.linked.functions⟩
    types := fun v hv => ?_
    declared := fun other hother hdeclares => ?_
    base := h.base.bind (by simp)
    traits := h.traits.trans (by simp [htrait])
    cases := fun entry hentry id index heq => ?_
    decls := by simp [h.decls, hgeneric] }
  · rw [TypeTable.HasType, TypeTable.get?_record] at hv
    split at hv
    · next heq => exact heq ▸ hdecl
    · exact h.types v hv
  · rw [List.mem_append, List.mem_singleton] at hother
    rw [TypeTable.HasType, TypeTable.get?_record]
    split
    · rfl
    · next hne =>
        rcases hother with hother | rfl
        · exact h.declared other hother hdeclares
        · exact absurd (by simp [hwalk]) hne
  · rcases List.mem_cons.mp hentry with rfl | hentry
    · cases heq
    · exact h.cases entry hentry id index heq

/-- A generic type is declared as a template. -/
theorem Named.declareTemplate {name param : String} (h : Named ctx known done s)
    (hdecl : (ctx.tree.node statement).declaresType = false)
    (hgeneric : isGeneric (ctx.tree.node statement) = true)
    (htrait : traitOf? ctx.tree statement = none) :
    (Discipline.onSuccess _ _).KeepsAt s (Typing.declareTemplate statement name param)
      fun id t => Named ctx known (done ++ [statement]) t ∧ id < t.templates.length := by
  refine .of_ok rfl trivial trivial ⟨?_, by simp⟩
  have hscopes : s.scopes.registerTemplate name s.templates.length =
      { s.scopes with base := { s.scopes.base with
        templates := (name, s.templates.length) :: s.scopes.base.templates } } := by
    simp [ScopeChain.registerTemplate, ScopeChain.modifyInnermost, h.inner]
  have hlength : (s.templates ++ [({ name, param, decl := statement } : Template)]).length =
    s.templates.length + 1 := by simp
  refine { h with
    declared := fun other hother hdeclares => ?_
    inner := ?_
    base := ?_
    traits := ?_
    templates := fun entry hentry => ?_
    cases := fun entry hentry id index heq => ?_
    expansions := fun template htemplate => ?_
    decls := ?_ }
  · rw [List.mem_append, List.mem_singleton] at hother
    rcases hother with hother | rfl
    · exact h.declared other hother hdeclares
    · rw [hdecl] at hdeclares
      cases hdeclares
  · show (s.scopes.registerTemplate name s.templates.length).inner = []
    rw [hscopes, h.inner]
  · show (s.scopes.registerTemplate name s.templates.length).base.DeclaresOnly
    rw [hscopes]
    exact ⟨h.base.names, h.base.currentType⟩
  · show (s.scopes.registerTemplate name s.templates.length).base.traits = _
    rw [hscopes]
    exact h.traits.trans (by simp [htrait])
  · rw [hlength]
    rw [hscopes] at hentry
    rcases List.mem_cons.mp hentry with rfl | hentry
    · exact Nat.lt_succ_self _
    · exact Nat.lt_succ_of_lt (h.templates entry hentry)
  · rw [hlength]
    rw [hscopes] at hentry
    exact Nat.lt_succ_of_lt (h.cases entry hentry id index heq)
  · rw [List.mem_append, List.mem_singleton] at htemplate
    rcases htemplate with htemplate | rfl
    · exact h.expansions template htemplate
    · rfl
  · simp [h.decls, hgeneric]

/-- Binding a name in the module's frame. -/
theorem Named.bindModule {name : String} {b : Binding} (h : Named ctx known done s)
    (hvalue : ∀ t, b ≠ .value t)
    (hb : ∀ id index, b = .genericCase id index → id < s.templates.length) :
    (Discipline.onSuccess _ _).KeepsAt s (modifyScopes (·.bindModule name b)) fun _ t =>
      Named ctx known done t ∧ t.templates = s.templates := by
  refine .of_ok rfl trivial trivial ⟨{ h with
    base := h.base.bind hvalue
    cases := fun entry hentry id index heq => ?_ }, rfl⟩
  rcases List.mem_cons.mp hentry with rfl | hentry
  · exact hb id index heq
  · exact h.cases entry hentry id index heq

/-- An import is bound to its name. -/
theorem importPath_named {path : List String} (h : Named ctx known done s)
    (hlinks : ∀ dotted id p imports,
      ctx.importer.resolve path dotted (s.pool, s.imports) = .ok id (p, imports) →
        ctx.importer.Linked known p imports) :
    (Discipline.onSuccess _ _).KeepsAt s (importPath ctx path) fun _ =>
      Named ctx known done := by
  unfold importPath
  split
  · exact .of_error rfl trivial
  · next last hlast =>
      refine .bind (P := fun _ => Named ctx known done) ?_ fun id t _ _ ht =>
        (ht.bindModule (by simp) (by simp)).weaken fun _ _ _ _ h => h.1
      unfold Discipline.KeepsAt
      cases hresolve : ctx.importer.resolve path (".".intercalate path) (s.pool, s.imports) with
      | error e r =>
          simp only [hresolve]
          trivial
      | ok id r =>
          obtain ⟨q, imports⟩ := r
          simp only [hresolve]
          exact ⟨trivial, trivial, { h with linked := hlinks _ _ _ _ hresolve }⟩

/-- The names of one more statement are declared. -/
theorem declareType_named (statement : NodeId) (h : Named ctx known done s)
    (hlinks : ∀ path dotted id p imports,
      ctx.importer.resolve path dotted (s.pool, s.imports) = .ok id (p, imports) →
        ctx.importer.Linked known p imports) :
    (Discipline.onSuccess _ _).KeepsAt s (declareType ctx statement) fun _ =>
      Named ctx known (done ++ [statement]) := by
  unfold declareType
  split
  · next path hnode =>
      refine .of_ok rfl trivial trivial { (h.skip ?_ ?_ ?_) with } <;>
        simp [hnode, Node.declaresType, isGeneric, traitOf?]
  · next path hnode =>
      refine (importPath_named h (hlinks path)).weaken fun _ t _ _ ht => ht.skip ?_ ?_ ?_ <;>
        simp [hnode, Node.declaresType, isGeneric, traitOf?]
  · next name body hnode =>
      have hscopes : s.scopes.registerTrait name body = { s.scopes with base :=
          { s.scopes.base with traits := (name, body) :: s.scopes.base.traits } } := by
        simp [ScopeChain.registerTrait, ScopeChain.modifyInnermost, h.inner]
      refine .of_ok rfl trivial trivial ?_
      show Named ctx known _ { s with scopes := s.scopes.registerTrait name body }
      rw [hscopes]
      refine { h with
        declared := fun other hother hdeclares => ?_
        base := ⟨h.base.names, h.base.currentType⟩
        traits := by simp [h.traits, traitOf?, hnode]
        decls := by simp [h.decls, hnode, isGeneric] }
      rw [List.mem_append, List.mem_singleton] at hother
      rcases hother with hother | rfl
      · exact h.declared other hother hdeclares
      · simp [hnode, Node.declaresType] at hdeclares
  · next name body hnode =>
      refine .bind_read trivial (b := _) rfl ?_
      refine .bind (P := fun _ u => ∃ p, s.pool.AddsNoMethod p ∧ u = { s with pool := p })
        (.of_ok rfl trivial trivial ⟨_, .push rfl, rfl⟩) ?_
      rintro r u - - ⟨p, hp, rfl⟩
      refine h.declareTypeName hp ?_ ?_ ?_ <;>
        simp [hnode, Node.declaresType, isGeneric, traitOf?]
  · next name cases body hnode =>
      refine .bind_read trivial (b := _) rfl ?_
      refine .bind (P := fun _ u => ∃ p, s.pool.AddsNoMethod p ∧ u = { s with pool := p })
        (.of_ok rfl trivial trivial ⟨_, .push rfl, rfl⟩) ?_
      rintro r u - - ⟨p, hp, rfl⟩
      refine h.declareTypeName hp ?_ ?_ ?_ <;>
        simp [hnode, Node.declaresType, isGeneric, traitOf?]
  · next name param body hnode =>
      refine .bind (h.declareTemplate ?_ ?_ ?_)
        fun _ t _ _ ht => .pure trivial ht.1
      all_goals simp [hnode, Node.declaresType, isGeneric, traitOf?]
  · next name param cases body hnode =>
      refine .bind (h.declareTemplate ?_ ?_ ?_) fun id t _ _ ht => ?_
      iterate 3 simp [hnode, Node.declaresType, isGeneric, traitOf?]
      refine (Discipline.forM_keeps (P := fun u => Named ctx known (done ++ [statement]) u ∧
        id < u.templates.length) _ trivial ht ?_).weaken fun _ _ _ _ h => h.1
      rintro ⟨decl, index⟩ - u - - hu
      dsimp only
      split
      · refine (hu.1.bindModule (by simp) fun other index' heq => ?_).weaken
          fun _ v _ _ hv => ⟨hv.1, hv.2 ▸ hu.2⟩
        cases heq
        exact hu.2
      · exact .pure trivial hu
  · next h₁ h₂ h₃ h₄ h₅ h₆ h₇ =>
      refine .pure trivial (h.skip ?_ ?_ ?_)
      · unfold Node.declaresType
        split
        · next hnode => exact absurd hnode (h₄ _ _)
        · next hnode => exact absurd hnode (h₅ _ _ _)
        · rfl
      · unfold isGeneric
        split
        · next hnode => exact absurd hnode (h₆ _ _ _)
        · next hnode => exact absurd hnode (h₇ _ _ _ _)
        · rfl
      · unfold traitOf?
        split
        · next hnode => exact absurd hnode (h₃ _ _)
        · rfl

/-- The names of all statements are declared. -/
theorem declareTypes_named {p₀ : Pool} {N : TypeId → Prop} (hT : p₀.Territory N)
    (hlawful : ctx.importer.Lawful) (haccountable : ctx.importer.Accountable known)
    (statements : List NodeId) (hs : Confined ctx p₀ N s) (h : Named ctx known done s) :
    (confinement ctx p₀ N).KeepsAt s (statements.forM (declareType ctx)) fun _ =>
      Named ctx known (done ++ statements) := by
  induction statements generalizing s done with
  | nil => exact .pure hs (by simpa using h)
  | cons statement statements ih =>
      show (confinement ctx p₀ N).KeepsAt s
        (declareType ctx statement >>= fun _ => statements.forM (declareType ctx)) _
      have hfits := hs.exportsFit
      have hstep := declareType_named statement h
        fun _ _ _ _ _ hrun => haccountable _ _ _ _ _ _ _ _ (hs.pool.inner hT) hfits h.linked hrun
      refine .bind ((declareType_confined hT hlawful _ hs).and hstep) fun _ t ht _ hnamed => ?_
      simpa using ih ht hnamed.2

end Declaring

/-- While names are declared, there are no expansions. -/
theorem Named.expansionAt?_eq_none {done : List NodeId} (h : Named ctx known done s)
    (id index : Nat) : expansionAt? s.templates id index = none := by
  unfold expansionAt?
  cases htemplate : s.templates[id]? with
  | none => rfl
  | some template => simp [h.expansions template (List.mem_of_getElem? htemplate)]

/-- Once all names are declared, the module is accounted for. -/
theorem Named.accounted (h : Named ctx known (ctx.tree.statements ctx.tree.root) s)
    (hshape : ctx.tree.TreeShaped) : Accounted ctx known s where
  complete := by
    refine ⟨fun v hv => ?_, fun v target htarget => ?_⟩
    · have hdecl := h.types v hv
      unfold Node.declaresType at hdecl
      unfold TypeTable.PartsCovered
      split at hdecl <;> simp_all
    · exact absurd (by simp [TypeTable.HasTarget, htarget]) (h.targets v)
  walk_lt := by simp [h.walk, h.next]
  signatures_lt v hv := absurd hv (h.signatures v)
  inclusions_lt v walk hwalk := by simp [h.inclusions v] at hwalk
  inclusions_inj v w walk hwalk := by simp [h.inclusions v] at hwalk
  expansions_lt id index decl e he := by simp [h.expansionAt?_eq_none] at he
  expansions_inj id index decl e id' index' decl' e' he := by simp [h.expansionAt?_eq_none] at he
  scopes := ⟨h.templates, h.cases, h.traits, by simp [h.inner]⟩
  templates decl hdecl := by
    rw [h.decls, List.mem_filter] at hdecl
    refine ⟨hdecl.1, ?_⟩
    have hgeneric := hdecl.2
    unfold isGeneric at hgeneric
    split at hgeneric <;> simp_all [Node.declaresType]
  distinct := by
    rw [h.decls]
    exact (hshape.nodup_statements _).filter _
  methods t sig hsig := .inl (h.linked.methods t sig hsig)
  functions := by simp [h.functions]

/-! ## Layouts and signatures -/

/-- Laying out types adds no signatures. -/
theorem layOutType_accounted (hnodup : ∀ node, (ctx.tree.statements node).Nodup)
    {statement : NodeId} (hs : Accounted ctx known s)
    (hw : Writable ctx.tree G s statement)
    (htraits : ∀ entry ∈ ctx.tree.traits, Writable ctx.tree G s entry.2) :
    (accounting ctx known G F).KeepsAt s (layOutType ctx statement) fun _ _ => True := by
  unfold layOutType
  split
  · next body hnode =>
      refine .bind (recorded_accounted hs) fun r t ht hle _ => ?_
      refine .bind (collectIvarsInto_accounted (typeExpr_accounted hnodup) _ _ _ _ ht
        ((hw.child (by simp [hnode, Node.children])).mono hle)
        fun entry hentry => (htraits entry hentry).mono hle) fun ivars u hu _ _ => ?_
      exact updatePool_accounted hu fun p hp => ⟨.setIvars hp, trivial⟩
  · next cases body hnode =>
      refine .bind (recorded_accounted hs) fun r t ht hle _ => ?_
      refine .bind (addCases_accounted (typeExpr_accounted hnodup) _ _ ht fun decl hdecl =>
        (hw.child (by simp [hnode, Node.children, hdecl])).mono hle) fun added u hu _ _ => ?_
      refine Discipline.forM_keeps (P := fun _ => True) _ hu trivial fun variant _ v hv _ _ => ?_
      cases hname : v.pool.caseShortName? variant with
      | none =>
          refine .of_ok (a := ⟨⟩) (t := v) ?_ hv (.refl v) trivial
          show EStateM.Result.ok () _ = _
          simp only [hname]
      | some name =>
          refine .of_ok (a := ⟨⟩) (t := { v with
            scopes := v.scopes.bindModule name (.type variant)
            exports := v.exports.setType name variant }) ?_ ?_
            (.of_same ⟨⟨rfl, rfl, rfl, rfl⟩, .refl _, rfl, rfl⟩ rfl) trivial
          · show EStateM.Result.ok () _ = _
            simp only [hname]
          · exact { hv with scopes := hv.scopes.bindModule (by simp) }
  · exact .pure hs trivial

/-- Laying out types one after the other. -/
theorem layOutTypes_accounted (hnodup : ∀ node, (ctx.tree.statements node).Nodup)
    (statements : List NodeId) (hs : Accounted ctx known s) :
    (accounting ctx known (fun _ => True) fun _ => False).KeepsAt s
      (statements.forM (layOutType ctx)) fun _ _ => True :=
  Discipline.forM_keeps (P := fun _ => True) statements hs trivial fun _ _ _ ht _ _ =>
    layOutType_accounted hnodup ht (fun _ _ _ => trivial) fun _ _ _ _ _ => trivial

/-- The recorded signature of a function is offered under its name. -/
def Offered (tree : SyntaxTree) (s : TypingState σ) (statement : NodeId) : Prop :=
  ∃ sig, s.table.signatures[({ walk := 0, node := statement } : Visit)]? = some sig ∧
    sig ∈ s.exports.functions ∧ sig.NamedBy tree statement (functionLink s.package)

theorem Offered.mono {tree : SyntaxTree} {statement : NodeId} (h : Offered tree s statement)
    (hkeeps : Preserves G F s t) : Offered tree t statement := by
  obtain ⟨sig, hsig, hmem, hnamed⟩ := h
  exact ⟨sig, hkeeps.signatures _ _ hsig, hkeeps.functions hmem, hkeeps.package.symm ▸ hnamed⟩

/-- The name of a function is among those that are offered. -/
theorem Offered.name_mem {tree : SyntaxTree} {statement : NodeId} (h : Offered tree s statement)
    {name : String} {attr : Option Attribute} (hname : tree.method? statement = some (name, attr)) :
    ∃ sig ∈ s.exports.functions, sig.name = name := by
  obtain ⟨sig, -, hmem, ⟨attr', hname'⟩, -⟩ := h
  rw [hname] at hname'
  exact ⟨sig, hmem, (Prod.mk.inj (Option.some.inj hname')).1.symm⟩

/-- A function gets its signature and is offered, if none of its name is. -/
theorem declareFunction_accounted (hnodup : ∀ node, (ctx.tree.statements node).Nodup)
    {statement : NodeId} {name : String} {attr : Option Attribute} (hs : Accounted ctx known s)
    (hwalk : s.walk = 0) (hw : Writable ctx.tree G s statement)
    (hname : ctx.tree.method? statement = some (name, attr))
    (htop : statement ∈ ctx.tree.statements ctx.tree.root)
    (hfree : ¬ s.table.HasSignature { walk := 0, node := statement }) :
    (accounting ctx known G (· = statement)).KeepsAt s (declareFunction ctx statement name)
      fun _ u => Offered ctx.tree u statement ∧ ∀ sig ∈ s.exports.functions, sig.name ≠ name := by
  unfold declareFunction
  have hmethod : ctx.tree.IsMethod statement := SyntaxTree.isMethod_iff.mpr (by simp [hname])
  have hsig := (signatureOf_accounted (typeExpr_accounted (F := fun _ => False) hnodup) none hs
    hw).weaken
    (R := fun sig u => u.walk = 0 ∧ ¬ u.table.HasSignature { walk := 0, node := statement } ∧
      sig.NamedBy ctx.tree statement (functionLink u.package))
    fun _ u _ hle hnamed => ⟨hle.walk.trans hwalk, fun h => hfree ((hle.fresh _
      (hwalk ▸ hs.walk_lt) (by simp)).1 h), hnamed⟩
  refine .bind (weaken_accounting hsig fun _ h => h.elim)
    fun sig u hu hle ⟨hzero, hfree, hnamed⟩ => ?_
  refine .bind_read hu (b := u) rfl ?_
  dsimp only
  split
  · exact .bind (fail_accounted (Q := fun _ _ => False)) fun _ _ _ _ h => h.elim
  · next hnew =>
    rw [← hzero] at hfree
    let after : TypingState σ := { u with
      exports := u.exports.addFunction sig
      table := u.table.setSignature { walk := u.walk, node := statement } sig }
    have hkeeps : Preserves G (· = statement) u after :=
      .of_setSignature hfree rfl rfl rfl rfl (.refl _) (List.subset_append_left _ _) rfl
    have hrecorded : after.table.signatures[({ walk := 0, node := statement } : Visit)]? =
        some sig := by
      rw [TypeTable.getElem?_setSignature, if_pos (by rw [hzero])]
    refine .bind_read hu (b := ⟨u.walk, statement⟩) rfl (.of_ok (a := ⟨⟩) (t := after) rfl ?_
      ⟨hkeeps, List.Subset.refl _, fun _ _ _ _ h => .inl h, fun _ _ _ h => h⟩
      ⟨⟨sig, hrecorded, List.mem_append_right _ (by simp), hnamed⟩, fun other hother heq => ?_⟩)
    · refine { hu with
        complete := ⟨hu.complete.parts, hu.complete.receivers⟩
        signatures_lt := hu.signatures_lt_setSignature
        methods := fun r other hother => hu.method_mono hkeeps hother
        functions := fun other hother => ?_ }
      rcases List.mem_append.mp hother with hold | hnew
      · exact hu.function_mono hkeeps hold
      · rw [List.mem_singleton] at hnew
        subst hnew
        exact ⟨statement, htop, hmethod, hrecorded⟩
    · rw [Exports.function?, List.find?_isSome] at hnew
      exact hnew ⟨other, hle.functions hother, beq_iff_eq.mpr heq⟩

/-- The nodes for which a top-level statement records signatures and inclusions. -/
def Owns (tree : SyntaxTree) (statement node : NodeId) : Prop :=
  node = statement ∨ InBody tree statement node

/-- What stands in the body of a declaration stands below it. -/
theorem Owns.below {tree : SyntaxTree} {statement node : NodeId} (h : Owns tree statement node) :
    tree.Below statement node := by
  rcases h with rfl | ⟨body, hbody, hnode⟩
  · exact .refl
  · refine Relation.ReflTransGen.head (b := body) ?_ (SyntaxTree.below_of_mem_statements hnode)
    unfold SyntaxTree.bodyOf? at hbody
    split at hbody
    · next heq =>
        cases hbody
        simp [heq, Node.children]
    · next heq => simp [heq, Node.children, hbody]
    · cases hbody

/-- Nothing was recorded for a top-level statement yet. -/
def Unsigned (tree : SyntaxTree) (s : TypingState σ) (statement : NodeId) : Prop :=
  ∀ node, Owns tree statement node → ¬ s.table.HasSignature { walk := 0, node } ∧
    s.table.inclusion? { walk := 0, node } = none

/-- While names are declared and types are laid out, no signatures are recorded. -/
theorem Named.unsigned {done : List NodeId} (h : Named ctx known done s) (hs : Accounted ctx known s)
    (hle : Accounts ctx G (fun _ => False) s t) (statement : NodeId) :
    Unsigned ctx.tree t statement := by
  intro node _
  have hzero : 0 < s.table.nextInstance := Nat.lt_of_le_of_lt (Nat.zero_le _) hs.walk_lt
  have hfresh := hle.fresh { walk := 0, node } hzero fun h => h.2
  refine ⟨fun hsig => h.signatures _ (hfresh.1 hsig), ?_⟩
  by_contra hsome
  have hbefore := hfresh.2 (Option.isSome_iff_ne_none.mpr hsome)
  simp [h.inclusions] at hbefore

/-- The signatures of a top-level statement are recorded: a function is offered, and the members of
a declared type are declared. -/
structure SignedOff (tree : SyntaxTree) (s : TypingState σ) (statement : NodeId) : Prop where
  function : tree.IsMethod statement → Offered tree s statement
  members : (tree.node statement).declaresType = true → ∃ owner,
    s.table.get? { walk := 0, node := statement } = some owner ∧
      MembersDeclared tree s.table s.pool statement owner 0

theorem SignedOff.mono {tree : SyntaxTree} {statement : NodeId} (h : SignedOff tree s statement)
    (hkeeps : Preserves G F s t) (howners : KeepsOwners tree s t) : SignedOff tree t statement where
  function hmethod := (h.function hmethod).mono hkeeps
  members hdecl := by
    obtain ⟨owner, howner, hdeclared⟩ := h.members hdecl
    exact ⟨owner, howners statement hdecl owner howner, hdeclared.mono hkeeps⟩

/-- A step from `s` to `t` signs a statement off. If that is a function, none of its name was offered
before. -/
structure SignsOff (tree : SyntaxTree) (statement : NodeId) (s t : TypingState σ) : Prop where
  signed : SignedOff tree t statement
  fresh : ∀ name attr, tree.method? statement = some (name, attr) →
    ∀ sig ∈ s.exports.functions, sig.name ≠ name

/-- A statement that is no function, and declares no members, needs no step. -/
theorem SignsOff.refl {tree : SyntaxTree} {statement : NodeId}
    (hmethod : tree.method? statement = none)
    (htyped : (tree.node statement).declaresType = true →
      s.table.HasType { walk := 0, node := statement } ∧ tree.bodyOf? statement = none) :
    SignsOff tree statement s s := by
  refine ⟨⟨by simp [SyntaxTree.isMethod_iff, hmethod], fun hdecl => ?_⟩, by simp [hmethod]⟩
  obtain ⟨htype, hbody⟩ := htyped hdecl
  obtain ⟨r, hr⟩ := Option.isSome_iff_exists.mp htype
  exact ⟨r, hr, by simp [MembersDeclared, hbody]⟩

/-- Functions among the statements have different names. -/
def FunctionsApart (tree : SyntaxTree) (statements : List NodeId) : Prop :=
  ∀ a ∈ statements, ∀ b ∈ statements, a ≠ b → ∀ name attr name' attr',
    tree.method? a = some (name, attr) → tree.method? b = some (name', attr') → name ≠ name'

/-- One more statement, under a name that is not offered yet if it is a function. -/
theorem FunctionsApart.append {tree : SyntaxTree} {done : List NodeId} {statement : NodeId}
    (h : FunctionsApart tree done) (hdone : ∀ a ∈ done, SignedOff tree s a)
    (hnew : SignsOff tree statement s t) :
    FunctionsApart tree (done ++ [statement]) := by
  have hcross : ∀ a ∈ done, ∀ name attr name' attr', tree.method? a = some (name, attr) →
      tree.method? statement = some (name', attr') → name ≠ name' := by
    rintro a ha name attr _ attr' hname hname' rfl
    obtain ⟨sig, hmem, heq⟩ := Offered.name_mem
      ((hdone a ha).function (SyntaxTree.isMethod_iff.mpr (by simp [hname]))) hname
    exact hnew.fresh name attr' hname' sig hmem heq
  intro a ha b hb hne name attr name' attr' hname hname'
  rw [List.mem_append, List.mem_singleton] at ha hb
  rcases ha with ha | rfl <;> rcases hb with hb | rfl
  · exact h a ha b hb hne _ _ _ _ hname hname'
  · exact hcross a ha _ _ _ _ hname hname'
  · exact (hcross b hb _ _ _ _ hname' hname).symm
  · exact absurd rfl hne

/-- Members of a declared type are still to be declared. -/
theorem Unsigned.undeclared {statement member : NodeId} (h : Unsigned ctx.tree s statement)
    (hs : Accounted ctx known s) (hwalk : s.walk = 0)
    (htop : statement ∈ ctx.tree.statements ctx.tree.root)
    (hdecl : (ctx.tree.node statement).declaresType = true)
    (hmember : InBody ctx.tree statement member) : Undeclared ctx.tree s member := by
  have hfree := h member (.inr hmember)
  rw [← hwalk] at hfree
  obtain ⟨body, hbody, hstatement⟩ := hmember
  refine ⟨⟨statement, htop, body, 0, member, hbody, ?_, hstatement, hwalk ▸ .refl⟩, hfree.1,
    hfree.2⟩
  rw [TypedModule.isInstance_iff hs.distinct]
  refine .inr ⟨fun hmem => ?_, rfl⟩
  have hnot := (hs.templates statement hmem).2
  rw [hdecl] at hnot
  cases hnot

/-- The signatures that a top-level statement brings about are recorded. -/
theorem declareSignature_accounted (hnodup : ∀ node, (ctx.tree.statements node).Nodup)
    {statement : NodeId} (hs : Accounted ctx known s) (hwalk : s.walk = 0)
    (hw : Writable ctx.tree G s statement)
    (htop : statement ∈ ctx.tree.statements ctx.tree.root)
    (hfree : Unsigned ctx.tree s statement)
    (htyped : (ctx.tree.node statement).declaresType = true →
      s.table.HasType { walk := 0, node := statement }) :
    (accounting ctx known G (Owns ctx.tree statement)).KeepsAt s (declareSignature ctx statement)
      fun _ u => SignsOff ctx.tree statement s u := by
  have hfunction : ∀ name attr, ctx.tree.method? statement = some (name, attr) →
      (ctx.tree.node statement).declaresType = false →
      (accounting ctx known G (Owns ctx.tree statement)).KeepsAt s
        (declareFunction ctx statement name) fun _ u => SignsOff ctx.tree statement s u := by
    intro name attr hname hdecl
    refine (weaken_accounting (declareFunction_accounted hnodup hs hwalk hw hname htop
      (hfree statement (.inl rfl)).1) fun _ h => .inl h).weaken fun _ u _ _ h =>
        ⟨⟨fun _ => h.1, by simp [hdecl]⟩, fun name' attr' hname' => ?_⟩
    rw [hname] at hname'
    exact (Prod.mk.inj (Option.some.inj hname')).1 ▸ h.2
  have hmembers : ∀ body, ctx.tree.bodyOf? statement = some body →
      ctx.tree.method? statement = none → (ctx.tree.node statement).declaresType = true →
      (accounting ctx known G (Owns ctx.tree statement)).KeepsAt s
        (declareSignature.declareIn ctx statement body) fun _ u =>
          SignsOff ctx.tree statement s u := by
    intro body hbody hmethod hdecl
    have hbelow : ctx.tree.Below statement body := by
      refine .single ?_
      unfold SyntaxTree.bodyOf? at hbody
      split at hbody <;> simp_all [Node.children]
    unfold declareSignature.declareIn
    refine .bind (recorded_accounted hs) ?_
    rintro r s - - ⟨rfl, hr⟩
    rw [hwalk] at hr
    have hframe := withTypeFrame_accounted (G := G) (F := InBody ctx.tree statement) r
      (declareMethods ctx (typeExpr ctx) body r)
      (R := fun _ table p walk => table.Registers ctx.tree p r []
        ((ctx.tree.statements body).map fun member => { walk, node := member })) hs
      fun u hu htable hwalk' => ?_
    · refine (weaken_accounting hframe fun _ h => .inr h).weaken fun _ u _ hle h =>
        ⟨⟨by simp [SyntaxTree.isMethod_iff, hmethod], fun _ =>
          ⟨r, hle.owners statement hdecl r hr, fun body' hbody' => ?_⟩⟩, by simp [hmethod]⟩
      obtain rfl : body = body' := Option.some.inj (hbody.symm.trans hbody')
      rwa [hle.walk, hwalk] at h
    · have hfree' : Unsigned ctx.tree u statement := by
        unfold Unsigned
        rwa [htable]
      refine (weaken_accounting (declareMethodsWithin_accounted (typeExpr_accounted hnodup) hnodup r
        _ body u hu (fun hzero => hw.below hbelow (hwalk'.symm.trans hzero)) ?_)
        fun node hnode => ⟨body, hbody, hnode⟩).weaken
        fun _ _ _ _ h => h.mono (.refl _) (fun _ _ h => h) (fun _ _ h => h) (List.nil_subset _)
      exact fun member hmember => hfree'.undeclared hu (hwalk'.trans hwalk) htop hdecl
        ⟨body, hbody, hmember⟩
  unfold declareSignature
  split
  · next hnode =>
      exact hfunction _ none (by simp [SyntaxTree.method?, hnode])
        (by simp [hnode, Node.declaresType])
  · next attr hnode =>
      exact hfunction _ attr (by simp [SyntaxTree.method?, hnode])
        (by simp [hnode, Node.declaresType])
  · next hnode =>
      exact hmembers _ (by simp [SyntaxTree.bodyOf?, hnode]) (by simp [SyntaxTree.method?, hnode])
        (by simp [hnode, Node.declaresType])
  · next hnode =>
      exact hmembers _ (by simp [SyntaxTree.bodyOf?, hnode]) (by simp [SyntaxTree.method?, hnode])
        (by simp [hnode, Node.declaresType])
  · next h₁ h₂ h₃ h₄ =>
      refine .pure hs (.refl ?_ fun hdecl => ⟨htyped hdecl, ?_⟩)
      · unfold SyntaxTree.method?
        split
        · next hnode => exact absurd hnode (h₁ _ _ _ _)
        · next hnode => exact absurd hnode (h₂ _ _ _ _)
        · rfl
      · unfold Node.declaresType at hdecl
        split at hdecl
        · next hnode => exact absurd hnode (h₃ _ _)
        · next body hnode =>
            cases body with
            | none => simp [SyntaxTree.bodyOf?, hnode]
            | some body => exact absurd hnode (h₄ _ _ _)
        · cases hdecl

/-- The signatures of top-level statements are recorded, those of each one apart from the others,
and functions have different names. -/
theorem declareSignatures_accounted (hshape : ctx.tree.TreeShaped) (hs : Accounted ctx known s)
    (hwalk : s.walk = 0) {statements : List NodeId}
    (hsub : statements.Sublist (ctx.tree.statements ctx.tree.root))
    (hw : ∀ statement ∈ statements, Writable ctx.tree G s statement)
    (hfree : ∀ statement ∈ statements, Unsigned ctx.tree s statement)
    (htyped : ∀ statement ∈ statements, (ctx.tree.node statement).declaresType = true →
      s.table.HasType { walk := 0, node := statement }) :
    (accounting ctx known G fun node => ∃ statement ∈ statements,
        Owns ctx.tree statement node).KeepsAt s (statements.forM (declareSignature ctx)) fun _ u =>
      (∀ statement ∈ statements, SignedOff ctx.tree u statement) ∧
        FunctionsApart ctx.tree statements := by
  refine forM_owned (Owns ctx.tree) (fun statement t => Unsigned ctx.tree t statement ∧
      ((ctx.tree.node statement).declaresType = true →
        t.table.HasType { walk := 0, node := statement }))
    (I := fun done u => (∀ statement ∈ done, SignedOff ctx.tree u statement) ∧
      FunctionsApart ctx.tree done) _ [] hs ⟨by simp, by simp [FunctionsApart]⟩
    ((hshape.nodup_statements _).sublist hsub)
    (fun statement hstatement => ⟨hfree statement hstatement, htyped statement hstatement⟩) ?_ ?_
  · intro a ha b hb hne t u ht hle ⟨hfree, htyped⟩
    refine ⟨fun node hnode => ?_, fun hdecl => hle.grows.types _ (htyped hdecl)⟩
    have hnot : ¬ Owns ctx.tree a node := fun howns =>
      hshape.disjoint_statements (hsub.subset ha) (hsub.subset hb) hne howns.below hnode.below
    have hfresh := hle.fresh { walk := 0, node } (Nat.lt_of_le_of_lt (Nat.zero_le _) ht.walk_lt)
      fun h => hnot h.2
    refine ⟨fun hsig => (hfree node hnode).1 (hfresh.1 hsig), ?_⟩
    by_contra hsome
    have hbefore := hfresh.2 (Option.isSome_iff_ne_none.mpr hsome)
    simp [(hfree node hnode).2] at hbefore
  · intro done statement hstatement t ht hwalk' ⟨hfree, htyped⟩ ⟨hdone, hapart⟩
    refine (declareSignature_accounted hshape.nodup_statements ht (hwalk'.trans hwalk)
      (fun hzero => hw statement hstatement (hwalk'.symm.trans hzero)) (hsub.subset hstatement)
      hfree htyped).weaken fun _ u _ hle hnew => ⟨fun other hother => ?_, hapart.append hdone hnew⟩
    rw [List.mem_append, List.mem_singleton] at hother
    rcases hother with hother | rfl
    · exact (hdone other hother).mono hle.toPreserves hle.owners
    · exact hnew.signed

/-! ## Expansions -/

/-- The members of an expansion were typed. -/
def ExpansionWalked (ctx : TypingContext σ) (decl : NodeId) (walk : InstanceId)
    (s : TypingState σ) : Prop :=
  ∀ member, InBody ctx.tree decl member → MemberDone ctx walk member s

/-- Every expansion is declared, and it is walked or waits to be. -/
def Queued (ctx : TypingContext σ) (s : TypingState σ) : Prop :=
  ∀ id index decl e, expansionAt? s.templates id index = some (decl, e) →
    MembersDeclared ctx.tree s.table s.pool decl e.type e.walk ∧
      ((id, index) ∈ s.pending ∨ ExpansionWalked ctx decl e.walk s)

theorem ExpansionWalked.mono {decl : NodeId} {walk : InstanceId}
    (h : ExpansionWalked ctx decl walk s) (hle : Accounts ctx G F s t) :
    ExpansionWalked ctx decl walk t :=
  fun member hmember => (h member hmember).mono hle.toPreserves

/-- New expansions are queued. -/
theorem Queued.mono (h : Queued ctx s) (hle : Accounts ctx G F s t) : Queued ctx t := by
  intro id index decl e he
  rcases hle.expanded id index decl e he with hold | ⟨hpending, hdeclared⟩
  · obtain ⟨hdeclared, hwalked⟩ := h id index decl e hold
    exact ⟨hdeclared.mono hle.toPreserves,
      hwalked.imp (fun hmem => hle.pending hmem) fun hdone => hdone.mono hle⟩
  · exact ⟨hdeclared, .inl hpending⟩

theorem walkExpansion_accounted (hnodup : ∀ node, (ctx.tree.statements node).Nodup)
    (id : TemplateId) (index : Nat) (hs : Accounted ctx known s) :
    (accounting ctx known G fun _ => False).KeepsAt s (walkExpansion ctx id index) fun _ u =>
      ∀ decl e, expansionAt? s.templates id index = some (decl, e) →
        ExpansionWalked ctx decl e.walk u := by
  unfold walkExpansion
  refine .bind_read hs (b := s) rfl ?_
  dsimp only
  split
  · next body expansion hfound hexpansion =>
      have hbody : ctx.tree.bodyOf? (s.templates.getD id default).decl = some body := hfound
      have he := expansionAt?_eq_some_iff.2 ⟨rfl, hexpansion⟩
      have hlt := hs.expansions_lt id index _ expansion he
      refine (withIsolatedFrame_accounted (R := fun _ table =>
        ∀ member ∈ ctx.tree.statements body, table.Throughout ctx.tree
          (BodyCovered ctx.tree table) { walk := expansion.walk, node := member }) hs hlt.2
        (Scope.Plain.forType.bind (by simp)) fun t ht _ hwalk _ => ?_).weaken
        fun _ u _ _ h decl' e' he' member hmember => ?_
      · refine (walkMembersWithin_accounted (infer_accounted hnodup) _ body t ht
          (.of_pos (hwalk ▸ hlt.1))).weaken fun _ u _ hle h member hmember => ?_
        have hmember := h member hmember
        rw [hle.walk, hwalk] at hmember
        exact hmember
      · obtain ⟨hdecl, hat⟩ := expansionAt?_eq_some_iff.1 he'
        obtain rfl : expansion = e' := Option.some.inj (hexpansion.symm.trans hat)
        obtain ⟨body', hbody', hmember⟩ := hmember
        rw [← hdecl, hbody] at hbody'
        cases hbody'
        exact h member hmember
  · next hnone =>
      refine .pure hs fun decl e he member hmember => ?_
      obtain ⟨hdecl, hat⟩ := expansionAt?_eq_some_iff.1 he
      obtain ⟨body, hbody, -⟩ := hmember
      rw [← hdecl] at hbody
      exact absurd hat (hnone body e hbody)

/-- In the end no expansion waits to be walked. -/
theorem drainPending_accounted (hnodup : ∀ node, (ctx.tree.statements node).Nodup) (fuel : Nat)
    (hs : Accounted ctx known s) (hq : Queued ctx s) :
    (Discipline.onSuccess _ _).KeepsAt s (drainPending ctx fuel) fun _ t =>
      Accounted ctx known t ∧ Queued ctx t ∧ t.pending = [] ∧
        Preserves (fun _ => False) (fun _ => False) s t ∧ KeepsOwners ctx.tree s t := by
  induction fuel generalizing s with
  | zero =>
      unfold drainPending
      refine .bind_read trivial (b := s) rfl ?_
      split
      · exact .of_error rfl trivial
      · next hempty =>
          exact .pure trivial ⟨hs, hq, by simpa using hempty, .refl s, fun _ _ _ h => h⟩
  | succ fuel ih =>
      unfold drainPending
      refine .bind_read trivial (b := s) rfl ?_
      split
      · next hempty => exact .pure trivial ⟨hs, hq, hempty, .refl s, fun _ _ _ h => h⟩
      · next id index rest hpending =>
          let taken : TypingState σ := { s with pending := rest }
          have htaken : Accounted ctx known taken := { hs with }
          refine .bind (P := fun _ u => u = taken) (.of_ok rfl trivial trivial rfl) ?_
          rintro - _ - - rfl
          have hwalk := walkExpansion_accounted (G := fun _ => False) hnodup id index htaken
          refine .bind (P := fun _ u => Accounted ctx known u ∧ Queued ctx u ∧
            Preserves (fun _ => False) (fun _ => False) s u ∧ KeepsOwners ctx.tree s u) ?_
            fun _ u _ _ ⟨hu, hqueued, hkeeps, howners⟩ => ?_
          · unfold Discipline.KeepsAt at hwalk ⊢
            cases hrun : walkExpansion ctx id index taken with
            | error e u => trivial
            | ok a u =>
                simp only [hrun] at hwalk
                obtain ⟨hu, hle, hdone⟩ := hwalk
                refine ⟨trivial, trivial, hu, fun id' index' decl e he => ?_, ?_, hle.owners⟩
                · rcases hle.expanded id' index' decl e he with hold | ⟨hqueue, hdeclared⟩
                  · obtain ⟨hdeclared, hwaits⟩ := hq id' index' decl e hold
                    refine ⟨MembersDeclared.mono (s := taken) hdeclared hle.toPreserves, ?_⟩
                    rcases hwaits with hmem | hwalked
                    · rw [hpending] at hmem
                      rcases List.mem_cons.mp hmem with heq | hmem
                      · cases heq
                        exact .inr (hdone decl e hold)
                      · exact .inl (hle.pending hmem)
                    · exact .inr (ExpansionWalked.mono (s := taken) hwalked hle)
                  · exact ⟨hdeclared, .inl hqueue⟩
                · exact { hle.toPreserves with
                    grows := ⟨hle.grows.types, hle.grows.targets⟩ }
          · refine (ih hu hqueued).weaken fun _ v _ _ ⟨hv, hq, hempty, hrest, howners'⟩ =>
              ⟨hv, hq, hempty, ?_, fun decl hdecl r hr => ?_⟩
            · exact hkeeps.trans (.refl u) hrest (.refl v) (hrest.walk.trans hkeeps.walk)
                fun _ _ _ h => h.elim
            · exact howners' decl hdecl r (howners decl hdecl r hr)

/-! ## The whole module -/

/-- What typing a module leaves behind: everything is declared and typed. -/
structure Delivered (ctx : TypingContext σ) (known : σ → String → Prop) (s : TypingState σ) :
    Prop where
  accounted : Accounted ctx known s
  /-- The functions of imported modules are known. -/
  imported : ∀ id e, ctx.importer.exports? s.imports id = some e → ∀ sig ∈ e.functions,
    known s.imports sig.linkName
  decls : s.templates.map (·.decl) = (ctx.tree.statements ctx.tree.root).filter fun statement =>
    isGeneric (ctx.tree.node statement)
  declared : ∀ statement ∈ ctx.tree.statements ctx.tree.root,
    (ctx.tree.node statement).declaresType = true →
      s.table.HasType { walk := 0, node := statement }
  signed : ∀ statement ∈ ctx.tree.statements ctx.tree.root, SignedOff ctx.tree s statement
  functions : FunctionsApart ctx.tree (ctx.tree.statements ctx.tree.root)
  typed : ∀ statement ∈ ctx.tree.statements ctx.tree.root,
    s.table.Covers ctx.tree { walk := 0, node := statement }
  walked : ∀ statement ∈ ctx.tree.statements ctx.tree.root,
    (ctx.tree.node statement).declaresType = true → ∀ member, InBody ctx.tree statement member →
      MemberDone ctx 0 member s
  expanded : ∀ id index decl e, expansionAt? s.templates id index = some (decl, e) →
    MembersDeclared ctx.tree s.table s.pool decl e.type e.walk ∧ ExpansionWalked ctx decl e.walk s

/-- What was found while names were declared stays as it is. -/
structure Since (tree : SyntaxTree) (s t : TypingState σ) : Prop where
  package : t.package = s.package
  pool : s.pool.Evolves t.pool
  owners : KeepsOwners tree s t

theorem Since.of_preserves {tree : SyntaxTree} {u : TypingState σ} (h : Since tree s t)
    (hkeeps : Preserves G F t u) (howners : KeepsOwners tree t u) : Since tree s u :=
  ⟨hkeeps.package.trans h.package, h.pool.trans hkeeps.pool,
    fun decl hdecl r hr => howners decl hdecl r (h.owners decl hdecl r hr)⟩

/-- A tree-shaped unit is typed completely, and what was found while names were declared stays as it
is. -/
theorem calculate_delivered_since (ctx : TypingContext σ) {p₀ : Pool} {N : TypeId → Prop}
    (hT : p₀.Territory N) (hlawful : ctx.importer.Lawful) (haccountable : ctx.importer.Accountable known)
    (hshape : ctx.tree.TreeShaped) {imports : σ} (hfits : ctx.importer.ExportsFit p₀ N imports)
    (hlinked : ctx.importer.Linked known p₀ imports) :
    (Discipline.onSuccess _ _).KeepsAt { pool := p₀, imports } (calculate ctx) fun typed t =>
      typed = t.typed ∧ Delivered ctx known t ∧
        ∃ s, (ctx.tree.statements ctx.tree.root).forM (declareType ctx) { pool := p₀, imports } =
          .ok () s ∧ Since ctx.tree s t := by
  have hnodup := hshape.nodup_statements
  have hnames := declareTypes_named hT hlawful haccountable (ctx.tree.statements ctx.tree.root)
    (Confined.initial hT hfits) (Named.initial hlinked)
  unfold calculate
  refine .bind (hnames.succeeds.and (Discipline.onSuccess_run _ _)) ?_
  rintro _ s - - ⟨⟨-, -, hnamed⟩, hrun⟩
  have hs := hnamed.accounted hshape
  -- any node may be written
  have hw : ∀ (u : TypingState σ) node, Writable ctx.tree (fun _ => True) u node :=
    fun _ _ _ _ _ => trivial
  refine .bind (layOutTypes_accounted hnodup _ hs).succeeds ?_
  rintro _ t - - ⟨ht, hst, -⟩
  have hsignatures := declareSignatures_accounted hshape ht (hst.walk.trans hnamed.walk) (.refl _)
    (fun _ _ => hw t _) (fun statement _ => hnamed.unsigned hs hst statement)
    fun statement hstatement hdecl => hst.grows.types _ (hnamed.declared statement hstatement hdecl)
  refine .bind hsignatures.succeeds ?_
  rintro _ u - - ⟨hu, htu, hsigned, hapart⟩
  have hbodies := inferStatements_accounted hnodup hu (hw u ctx.tree.root)
  refine .bind hbodies.succeeds ?_
  rintro _ v - - ⟨hv, huv, hdone⟩
  have hqueued : Queued ctx s := by
    intro id index decl e he
    simp [hnamed.expansionAt?_eq_none] at he
  refine .bind (drainPending_accounted hnodup _ hv (((hqueued.mono hst).mono htu).mono huv)) ?_
  rintro _ w - - ⟨hw', hq, hempty, hvw, howners⟩
  have hwalk : v.walk = 0 := ((huv.walk.trans htu.walk).trans hst.walk).trans hnamed.walk
  have hstart : Since ctx.tree s s := ⟨rfl, .refl _, fun _ _ _ h => h⟩
  have hsince : Since ctx.tree s w := (((hstart.of_preserves hst.toPreserves hst.owners).of_preserves
    htu.toPreserves htu.owners).of_preserves huv.toPreserves huv.owners).of_preserves hvw howners
  refine .bind_read trivial (b := w) rfl
    (.pure trivial ⟨rfl, ⟨hw', ?_, ?_, ?_, ?_, hapart, ?_, ?_, ?_⟩, s, hrun, hsince⟩)
  · have himports : w.imports = s.imports := by
      rw [hvw.imports, huv.imports, htu.imports, hst.imports]
    rw [himports]
    exact hnamed.linked.functions
  · rw [hvw.decls, huv.decls, htu.decls, hst.decls]
    exact hnamed.decls
  · intro statement hstatement hdecl
    have hgrows := ((hst.grows.trans htu.grows).trans huv.grows).trans hvw.grows
    exact hgrows.types _ (hnamed.declared statement hstatement hdecl)
  · exact fun statement hstatement =>
      ((hsigned statement hstatement).mono huv.toPreserves huv.owners).mono hvw howners
  · intro statement hstatement
    have hcovers := (hdone statement hstatement).1
    unfold Done at hcovers
    rw [hwalk] at hcovers
    exact hcovers.mono hvw.grows
  · rintro statement hstatement hdecl member ⟨body, hbody, hmember⟩
    have hmember := (hdone statement hstatement).2 hdecl body hbody member hmember
    rw [hwalk] at hmember
    exact hmember.mono hvw
  · intro id index decl e he
    obtain ⟨hdeclared, hwaits⟩ := hq id index decl e he
    refine ⟨hdeclared, hwaits.resolve_left ?_⟩
    simp [hempty]

/-- A tree-shaped unit is typed completely. -/
theorem calculate_delivered (ctx : TypingContext σ) {p₀ : Pool} {N : TypeId → Prop}
    (hT : p₀.Territory N) (hlawful : ctx.importer.Lawful) (haccountable : ctx.importer.Accountable known)
    (hshape : ctx.tree.TreeShaped) {imports : σ} (hfits : ctx.importer.ExportsFit p₀ N imports)
    (hlinked : ctx.importer.Linked known p₀ imports) :
    (Discipline.onSuccess _ _).KeepsAt { pool := p₀, imports } (calculate ctx) fun typed t =>
      typed = t.typed ∧ Delivered ctx known t :=
  (calculate_delivered_since ctx hT hlawful haccountable hshape hfits hlinked).weaken
    fun _ _ _ _ h => ⟨h.1, h.2.1⟩

end Typing

end ClassLang
