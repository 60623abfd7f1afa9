import ClassLang.Proofs.Typing.AccountedModules
import ClassLang.Proofs.Typing.Provisions

/-!
# Internal errors while a module is typed

Code never stops with an internal error where all is provided that typing relies on. Declarations
rely on more: the type that was recorded under their name, the signatures of methods and the walks of
inclusions. All of this was found before, as the module accounts for its records. So a unit in which
everything stands in its place is typed without internal errors, except for those that its imports
end in.
-/

namespace ClassLang

/-- Internal errors are among those in `P`. -/
def Discipline.blaming (S : Type) (P : Halt → Prop) : Discipline Halt S where
  inv _ := True
  le _ _ := True
  fails _ h _ := h.IsInternal → P h
  refl _ := trivial
  trans _ _ := trivial
  fails_trans _ h := h

/-- What is promised of whoever compiles the imports in `R`, while `I` holds of what was imported: a
module that is resolved has exports, and internal errors are among those in `P`. -/
structure Importer.Provides {σ : Type} (importer : Importer σ) (I : σ → Prop)
    (R : List String → Pool × σ → Prop) (P : Halt → Prop) : Prop where
  resolved : ∀ path p imports N id after, R path (p, imports) → p.Territory N →
    importer.ExportsFit p N imports → I imports →
      importer.resolve path (".".intercalate path) (p, imports) = .ok id after →
        I after.2 ∧ (importer.exports? after.2 id).isSome
  failed : ∀ path p imports N h after, R path (p, imports) → p.Territory N →
    importer.ExportsFit p N imports → I imports →
      importer.resolve path (".".intercalate path) (p, imports) = .error h after →
        h.IsInternal → P h

theorem Importer.Provides.mono {σ : Type} {importer : Importer σ} {I : σ → Prop}
    {R R' : List String → Pool × σ → Prop} {P : Halt → Prop} (h : importer.Provides I R P)
    (hR : ∀ path r, R' path r → R path r) : importer.Provides I R' P where
  resolved path p imports N id after hr := h.resolved path p imports N id after (hR _ _ hr)
  failed path p imports N halt after hr := h.failed path p imports N halt after (hR _ _ hr)

namespace Typing

/-- Typing that begins in the state comes to the import of a path, with this pool and these
imports. -/
def ComesToImport {σ : Type} (ctx : TypingContext σ) (s : TypingState σ) (path : List String)
    (r : Pool × σ) : Prop :=
  ∃ before statement after t, ctx.tree.statements ctx.tree.root = before ++ statement :: after ∧
    before.forM (declareType ctx) s = .ok () t ∧ ctx.tree.node statement = .importModule path ∧
    r = (t.pool, t.imports)

open WalkRules (KindFits)

variable {σ : Type} {ctx : TypingContext σ} {P : Halt → Prop} {I : σ → Prop} {p₀ : Pool}
  {R : List String → Pool × σ → Prop} {N : TypeId → Prop} {s t : TypingState σ}

/-! ## Names -/

/-- Declaring a statement leaves the types of other declarations recorded, and gives it its own. -/
structure DeclaresOwner (tree : SyntaxTree) (statement : NodeId) (s t : TypingState σ) : Prop where
  walk : t.walk = s.walk
  others : ∀ decl, decl ≠ statement →
    t.table.get? ⟨s.walk, decl⟩ = s.table.get? ⟨s.walk, decl⟩
  fits : OwnerFits tree t statement

/-- A statement that declares no plain type records nothing. -/
theorem DeclaresOwner.of_same {tree : SyntaxTree} {statement : NodeId}
    (hdecl : (tree.node statement).declaresType = false) (htable : t.table = s.table)
    (hwalk : t.walk = s.walk) : DeclaresOwner tree statement s t where
  walk := hwalk
  others _ _ := by rw [htable]
  fits h := absurd (hdecl.symm.trans h) (by simp)

/-- The types of declarations keep their kinds. -/
theorem OwnerFits.mono {tree : SyntaxTree} {decl : NodeId} (h : OwnerFits tree s decl)
    (hwalk : t.walk = s.walk) (hpool : s.pool.Evolves t.pool)
    (htable : (tree.node decl).declaresType = true → ∀ r, s.table.get? ⟨s.walk, decl⟩ = some r →
      t.table.get? ⟨s.walk, decl⟩ = some r) : OwnerFits tree t decl := by
  intro hdecl
  obtain ⟨r, hr, hfits⟩ := h hdecl
  exact ⟨r, hwalk ▸ htable hdecl r hr, hfits.mono hpool⟩

/-- Another import keeps what is provided. -/
theorem Provided.import (hs : Provided ctx s) {p : Pool} {imports : σ}
    (hextends : ctx.importer.Extends s.imports imports) :
    Provided ctx { s with pool := p, imports } where
  known := hs.known
  nominal := hs.nominal
  names := hs.names.mono fun _ b hb => by
    cases b with
    | module id =>
        obtain ⟨e, he⟩ := Option.isSome_iff_exists.mp hb
        exact Option.isSome_iff_exists.mpr ⟨e, hextends id e he⟩
    | _ => exact hb

/-- An import is bound to a module that has exports. -/
theorem importPath_provided (hT : p₀.Territory N) (hlawful : ctx.importer.Lawful)
    (himporter : ctx.importer.Provides I R P) {path : List String} (hpath : path ≠ [])
    (hcomes : R path (s.pool, s.imports)) (hconfined : Confined ctx p₀ N s) (hs : Provided ctx s)
    (hI : I s.imports) :
    (Discipline.blaming _ P).KeepsAt s (importPath ctx path) fun _ t =>
      Provided ctx t ∧ I t.imports ∧ t.table = s.table ∧ t.walk = s.walk := by
  have hterritory := hconfined.pool.inner hT
  have hfits := hconfined.exportsFit
  have himport := hlawful path (".".intercalate path) s.pool s.imports _ hterritory hfits
  unfold importPath
  cases hlast : path.getLast? with
  | none => exact absurd (List.getLast?_eq_none_iff.mp hlast) hpath
  | some last =>
      refine .bind (P := fun id t => Provided ctx t ∧ I t.imports ∧
        (ctx.importer.exports? t.imports id).isSome ∧ t.table = s.table ∧ t.walk = s.walk) ?_ ?_
      · cases hresolve : ctx.importer.resolve path (".".intercalate path) (s.pool, s.imports) with
        | error h after =>
            refine .of_error (e := h) (t := { s with pool := after.1, imports := after.2 }) ?_ ?_
            · simp only [hresolve]
            · exact himporter.failed _ _ _ _ _ _ hcomes hterritory hfits hI hresolve
        | ok id after =>
            rw [hresolve] at himport
            obtain ⟨hafter, hexports⟩ :=
              himporter.resolved _ _ _ _ _ _ hcomes hterritory hfits hI hresolve
            refine .of_ok (a := id) (t := { s with pool := after.1, imports := after.2 }) ?_ trivial
              trivial ⟨hs.import himport.2.2.2, hafter, hexports, rfl, rfl⟩
            simp only [hresolve]
      · rintro id t - - ⟨ht, hI, hexports, htable, hwalk⟩
        exact .of_ok rfl trivial trivial ⟨{ ht with
          known := ht.known.bindModule (by simp)
          names := ht.names.bindModule hexports }, hI, htable, hwalk⟩

/-- A plain type is declared under its name, with a type of its kind. -/
theorem declareTypeName_provided {statement : NodeId} {name : String} {f : Pool → TypeId × Pool}
    (hs : Provided ctx s)
    (hfits : KindFits (ctx.tree.node statement) (f s.pool).2 (f s.pool).1) :
    (Discipline.blaming _ P).KeepsAt s (do declareTypeName statement name (← makeType f))
      fun _ t => Provided ctx t ∧ t.imports = s.imports ∧ DeclaresOwner ctx.tree statement s t := by
  refine .of_ok rfl trivial trivial ⟨{ hs with
    known := hs.known.bindModule (by simp)
    names := hs.names.bindModule trivial }, rfl, rfl, fun decl hne => ?_, fun _ => ⟨_, ?_, hfits⟩⟩
  · refine (s.table.get?_record _ _ _).trans (if_neg fun heq => hne ?_)
    exact congrArg Visit.node heq
  · exact (s.table.get?_record _ _ _).trans (if_pos rfl)

/-- A generic type is declared as a template. -/
theorem declareTemplate_provided {statement : NodeId} {name param : String}
    (hs : Provided ctx s) (hnominal : (ctx.tree.node statement).isNominal) :
    (Discipline.blaming _ P).KeepsAt s (declareTemplate statement name param) fun id t =>
      Provided ctx t ∧ t.imports = s.imports ∧ t.table = s.table ∧ t.walk = s.walk ∧
        (t.templates.map (·.decl))[id]? = some statement := by
  have hcount : s.templates.length <
      (s.templates ++ [({ name, param, decl := statement } : Template)]).length := by simp
  refine .of_ok rfl trivial trivial ⟨⟨?_, ?_, ?_⟩, rfl, rfl, rfl, by simp⟩
  · exact (hs.known.mono (Nat.le_of_lt hcount)).registerTemplate hcount
  · simpa [or_imp, forall_and] using ⟨by simpa using hs.nominal, hnominal⟩
  · refine ScopeChain.Binds.registerTemplate (hs.names.mono fun _ b hb => ?_)
    cases b with
    | genericCase id index =>
        obtain ⟨decl, hdecl, hindex⟩ := hb
        refine ⟨decl, ?_, hindex⟩
        rw [List.map_append, List.getElem?_append_left (List.getElem?_eq_some_iff.mp hdecl).1]
        exact hdecl
    | _ => exact hb

theorem declareType_provided (hT : p₀.Territory N) (hlawful : ctx.importer.Lawful)
    (himporter : ctx.importer.Provides I R P) (hregular : ctx.tree.Regular) (statement : NodeId)
    (hcomes : ∀ path, ctx.tree.node statement = .importModule path → R path (s.pool, s.imports))
    (hconfined : Confined ctx p₀ N s) (hs : Provided ctx s) (hI : I s.imports) :
    (Discipline.blaming _ P).KeepsAt s (declareType ctx statement) fun _ t =>
      Provided ctx t ∧ I t.imports ∧ DeclaresOwner ctx.tree statement s t := by
  have hkind := hregular.kind statement
  unfold declareType
  split
  · next hnode =>
      exact .of_ok rfl trivial trivial ⟨hs.congr rfl rfl rfl, hI,
        .of_same (by simp [hnode, Node.declaresType]) rfl rfl⟩
  · next path hnode =>
      have hpath : path ≠ [] := by simpa [hnode, SyntaxTree.kindsFit] using hkind
      refine (importPath_provided hT hlawful himporter hpath (hcomes path hnode) hconfined hs
        hI).weaken ?_
      rintro _ t - - ⟨ht, hI, htable, hwalk⟩
      exact ⟨ht, hI, .of_same (by simp [hnode, Node.declaresType]) htable hwalk⟩
  · next hnode =>
      exact .of_ok rfl trivial trivial ⟨{ hs with
        known := hs.known.registerTrait
        names := hs.names.registerTrait }, hI,
        .of_same (by simp [hnode, Node.declaresType]) rfl rfl⟩
  · next hnode =>
      refine .bind_read trivial (b := _) rfl ?_
      refine (declareTypeName_provided (f := (·.newReference _)) hs ?_).weaken
        fun _ t _ _ h => ⟨h.1, h.2.1 ▸ hI, h.2.2⟩
      simp only [hnode, KindFits]
      exact ⟨_, _, _, Pool.data_push_self _ _⟩
  · next hnode =>
      refine .bind_read trivial (b := _) rfl ?_
      refine (declareTypeName_provided (f := (·.newData _)) hs ?_).weaken
        fun _ t _ _ h => ⟨h.1, h.2.1 ▸ hI, h.2.2⟩
      simp only [hnode, KindFits]
      exact ⟨_, _, _, Pool.data_push_self _ _, Nat.le_refl _⟩
  · next hnode =>
      refine .bind (declareTemplate_provided hs (by simp [hnode, Node.isNominal])) ?_
      rintro id t - - ⟨ht, himports, htable, hwalk, -⟩
      exact .pure trivial ⟨ht, himports ▸ hI,
        .of_same (by simp [hnode, Node.declaresType]) htable hwalk⟩
  · next cases _ hnode =>
      refine .bind (declareTemplate_provided hs (by simp [hnode, Node.isNominal])) ?_
      rintro id t - - ⟨ht, himports, htable, hwalk, hid⟩
      refine (Discipline.forM_keeps (P := fun u => Provided ctx u ∧ u.imports = s.imports ∧
        u.table = s.table ∧ u.walk = s.walk ∧ u.templates = t.templates) _ trivial
        ⟨ht, himports, htable, hwalk, rfl⟩ ?_).weaken ?_
      · rintro ⟨decl, index⟩ hmem u - - ⟨hu, himports, htable, hwalk, htemplates⟩
        dsimp only
        split
        · have hindex : index < (ctx.tree.node statement).caseCount := by
            simpa [hnode, Node.caseCount] using (List.mem_zipIdx hmem).2.1
          have hid' : (u.templates.map (·.decl))[id]? = some statement := by rw [htemplates, hid]
          refine .of_ok rfl trivial trivial ⟨{ hu with
            known := hu.known.bindModule fun _ _ heq => ?_
            names := hu.names.bindModule ⟨statement, hid', hindex⟩ },
            himports, htable, hwalk, htemplates⟩
          cases heq
          simpa using (List.getElem?_eq_some_iff.mp hid').1
        · exact .pure trivial ⟨hu, himports, htable, hwalk, htemplates⟩
      · rintro _ u - - ⟨hu, himports, htable, hwalk, -⟩
        exact ⟨hu, himports ▸ hI, .of_same (by simp [hnode, Node.declaresType]) htable hwalk⟩
  · next _ _ _ hclass hdata _ _ =>
      refine .pure trivial ⟨hs, hI, .of_same ?_ rfl rfl⟩
      unfold Node.declaresType
      split
      · next hnode => exact absurd hnode (hclass _ _)
      · next hnode => exact absurd hnode (hdata _ _ _)
      · rfl

/-- All names are declared, and all declarations of plain types have types of their kinds. -/
theorem declareTypes_provided (hT : p₀.Territory N) (hlawful : ctx.importer.Lawful)
    (himporter : ctx.importer.Provides I R P) (hregular : ctx.tree.Regular)
    (done statements : List NodeId)
    (hcomes : ∀ before statement after t, statements = before ++ statement :: after →
      before.forM (declareType ctx) s = .ok () t → ∀ path,
        ctx.tree.node statement = .importModule path → R path (t.pool, t.imports))
    (hconfined : Confined ctx p₀ N s) (hs : Provided ctx s) (hI : I s.imports)
    (howners : ∀ decl ∈ done, OwnerFits ctx.tree s decl) :
    (Discipline.blaming _ P).KeepsAt s (statements.forM (declareType ctx)) fun _ t =>
      Provided ctx t ∧ I t.imports ∧ ∀ decl ∈ done ++ statements, OwnerFits ctx.tree t decl := by
  induction statements generalizing s done with
  | nil => exact .pure trivial ⟨hs, hI, by simpa using howners⟩
  | cons statement statements ih =>
      show (Discipline.blaming _ P).KeepsAt s
        (declareType ctx statement >>= fun _ => statements.forM (declareType ctx)) _
      have hstep := (declareType_provided hT hlawful himporter hregular statement
        (hcomes [] statement statements s rfl rfl) hconfined hs hI).and
          (declareType_confined hT hlawful statement hconfined).succeeds
      refine .bind (hstep.and (Discipline.onSuccess_run _ s)) ?_
      rintro ⟨⟩ t - - ⟨⟨⟨ht, hI, howner⟩, hconfined, hadvances, -⟩, hrun⟩
      have hcomes' : ∀ before other after u, statements = before ++ other :: after →
          before.forM (declareType ctx) t = .ok () u → ∀ path,
            ctx.tree.node other = .importModule path → R path (u.pool, u.imports) := by
        intro before other after u hsplit hbefore
        refine hcomes (statement :: before) other after u (by rw [hsplit, List.cons_append]) ?_
        show (declareType ctx statement >>= fun _ => before.forM (declareType ctx)) s = _
        rw [bind_of_ok hrun]
        exact hbefore
      refine (ih (done ++ [statement]) hcomes' hconfined ht hI fun decl hdecl => ?_).weaken
        fun _ u _ _ h => by simpa using h
      by_cases heq : decl = statement
      · exact heq ▸ howner.fits
      · have hmem : decl ∈ done := by simpa [heq] using hdecl
        exact (howners decl hmem).mono howner.walk hadvances.evolves fun _ r hr =>
          (howner.others decl heq).trans hr

/-! ## Layouts and signatures -/

/-- The types of declarations keep their kinds while records are kept. -/
theorem OwnerFits.of_accounts {decl : NodeId} {G F : NodeId → Prop}
    (h : OwnerFits ctx.tree s decl) (hwalk : s.walk = 0) (hle : Accounts ctx G F s t) :
    OwnerFits ctx.tree t decl :=
  h.mono hle.walk hle.pool fun hdecl r hr => by
    rw [hwalk] at hr ⊢
    exact hle.owners decl hdecl r hr

section Declared

variable {known : σ → String → Prop} (hregular : ctx.tree.Regular) (hshape : ctx.tree.TreeShaped)

include hshape

/-- All types are laid out. -/
theorem layOutTypes_provided (hs : ProvidedFor ctx .any s) (ha : Accounted ctx known s)
    (hwalk : s.walk = 0)
    (howners : ∀ decl ∈ ctx.tree.statements ctx.tree.root, OwnerFits ctx.tree s decl) :
    ((providing ctx hregular).discipline .any).KeepsAt s
      ((ctx.tree.statements ctx.tree.root).forM (layOutType ctx)) fun _ _ => True := by
  refine Discipline.forM_keeps_reached _ hs fun before statement after heq t hreach ht => ?_
  -- what was declared under the statement is still recorded when it is reached
  refine (providing ctx hregular).layOutType_keeps statement ht fun _ => ?_
  have hbefore := layOutTypes_accounted hshape.nodup_statements before ha
  exact (howners statement (by simp [heq])).of_accounts hwalk (hbefore.ok hreach).2.1

/-- All signatures are declared. -/
theorem declareSignatures_provided (hs : ProvidedFor ctx .any s) (ha : Accounted ctx known s)
    (hwalk : s.walk = 0)
    (hfree : ∀ statement ∈ ctx.tree.statements ctx.tree.root, Unsigned ctx.tree s statement)
    (howners : ∀ decl ∈ ctx.tree.statements ctx.tree.root, OwnerFits ctx.tree s decl) :
    ((providing ctx hregular).discipline .any).KeepsAt s
      ((ctx.tree.statements ctx.tree.root).forM (declareSignature ctx)) fun _ _ => True := by
  refine Discipline.forM_keeps_reached _ hs fun before statement after heq t hreach ht => ?_
  refine (providing ctx hregular).declareSignature_keeps statement ht fun _ => ?_
  have hsub : before.Sublist (ctx.tree.statements ctx.tree.root) :=
    heq ▸ List.sublist_append_left _ _
  have hbefore := declareSignatures_accounted (G := fun _ => True) hshape ha hwalk hsub
    (fun _ _ _ _ _ => trivial) (fun statement h => hfree statement (hsub.subset h))
    fun statement h hdecl => by
      obtain ⟨r, hr, -⟩ := howners statement (hsub.subset h) hdecl
      exact Option.isSome_iff_exists.mpr ⟨r, hwalk ▸ hr⟩
  exact (howners statement (by simp [heq])).of_accounts hwalk (hbefore.ok hreach).2.1

end Declared

/-! ## Members -/

/-- What a statement in the body of a type comes to was declared: methods have signatures. -/
def MemberSigned (tree : SyntaxTree) (s : TypingState σ) (statement : NodeId) : Prop :=
  s.table.Throughout tree s.table.HasSignature ⟨s.walk, statement⟩

theorem MemberSigned.mono {tree : SyntaxTree} {statement : NodeId} {G F : NodeId → Prop}
    (h : MemberSigned tree s statement) (hle : Preserves G F s t) :
    MemberSigned tree t statement := by
  unfold MemberSigned
  rw [hle.walk]
  exact TypeTable.Throughout.mono h (fun _ => hle.hasSignature) hle.inclusions

/-- The members of a declared type are signed in the walk in which they were declared. -/
theorem MembersDeclared.signed {tree : SyntaxTree} {decl body statement : NodeId} {owner : TypeId}
    (h : MembersDeclared tree s.table s.pool decl owner s.walk) (hbody : tree.bodyOf? decl = some body)
    (hstatement : statement ∈ tree.statements body) : MemberSigned tree s statement :=
  ((h body hbody).methods _ (List.mem_map_of_mem hstatement)).mono (fun _ hv => hv.hasSignature)
    fun _ _ h => h

/-- The statements in the body of a class, data type or trait may be members. -/
theorem isMember_of_bodyOf? (hregular : ctx.tree.Regular) {decl body statement : NodeId}
    (hbody : ctx.tree.bodyOf? decl = some body) (hstatement : statement ∈ ctx.tree.statements body) :
    ctx.tree.IsMember statement := by
  have hmember : (ctx.tree.node decl).memberBody? = some body := by
    unfold SyntaxTree.bodyOf? at hbody
    unfold Node.memberBody?
    split at hbody <;> simp_all
  exact hregular.member hmember hstatement

theorem isMember_of_trait (hregular : ctx.tree.Regular) {name : String} {body statement : NodeId}
    (hbody : ctx.tree.traits.lookup name = some body)
    (hstatement : statement ∈ ctx.tree.statements body) : ctx.tree.IsMember statement := by
  have hmem := mem_of_lookup_eq_some hbody
  rw [SyntaxTree.traits, List.mem_reverse, List.mem_filterMap] at hmem
  obtain ⟨decl, -, hdecl⟩ := hmem
  split at hdecl
  · next hnode =>
      cases hdecl
      have hmember : (ctx.tree.node decl).memberBody? = some body := by
        simp [hnode, Node.memberBody?]
      exact hregular.member hmember hstatement
  · cases hdecl

section Members

variable {known : σ → String → Prop} {G : NodeId → Prop} (hregular : ctx.tree.Regular)
  {infer : NodeId → Typing σ TypeId}

/-- Bodies of types in which all members were declared are walked. -/
def WalksDeclared (known : σ → String → Prop) (step : NodeId → Typing σ Unit) : Prop :=
  ∀ body s, ProvidedFor ctx .any s → Accounted ctx known s →
    (∀ statement ∈ ctx.tree.statements body,
      MemberSigned ctx.tree s statement ∧ ctx.tree.IsMember statement) →
    ((providing ctx hregular).discipline .any).KeepsAt s (step body) fun _ _ => True

theorem walkMember_provided (hbodies : (providing ctx hregular).InfersCode infer)
    {inner : NodeId → Typing σ Unit} (hinner : WalksDeclared hregular known inner)
    {statement : NodeId} (hs : ProvidedFor ctx .any s) (ha : Accounted ctx known s)
    (hsigned : MemberSigned ctx.tree s statement) (hmember : ctx.tree.IsMember statement) :
    ((providing ctx hregular).discipline .any).KeepsAt s (walkMember ctx infer inner statement)
      fun _ _ => True := by
  unfold walkMember
  dsimp only
  split
  · next hnode =>
      refine .bind (WalkRules.walkMethod_keeps hbodies hs trivial fun _ =>
        ⟨by simp [hnode, Node.isMethodDef],
          hsigned.method (by simp [SyntaxTree.IsMethod, hnode])⟩) fun _ t ht _ _ => ?_
      exact WalkRules.Keeps.record statement .void (by rw [hnode]; rfl) t ht
  · next name hnode =>
      cases hsigned with
      | single hnot => exact absurd hnode (hnot name)
      | @inclusion _ _ walk body hnode' hincluded hbody hthrough =>
          cases hnode.symm.trans hnode'
          have hfind : findTrait name s = .ok body s := by
            rw [findTrait_run, ha.scopes.findTrait_eq, hbody]
          refine .bind_read hs hfind (.bind_read hs (b := ⟨s.walk, statement⟩) rfl
            (.bind_read hs (b := s) rfl ?_))
          rw [hincluded]
          -- the body of the trait is entered under the walk in which its members were declared
          have hentered := ((providing ctx hregular).walk hs hincluded (.inl trivial)).enters
          have hwalked := hinner body { s with walk } hentered
            (ha.setWalk s.returnType (ha.inclusions_lt _ _ hincluded).2)
            fun statement hstatement => ⟨hthrough statement hstatement,
              isMember_of_trait hregular hbody hstatement⟩
          exact .bind (WalkRules.Keeps.withWalk hs hincluded (.inl trivial) hwalked)
            fun _ t ht _ _ => WalkRules.Keeps.record statement .void (by rw [hnode]; rfl) t ht
  · next hnode => exact WalkRules.keepType_keeps (by rw [hnode]; rfl) s hs
  · next hnode => exact WalkRules.keepType_keeps (by rw [hnode]; rfl) s hs
  · next hdef _ _ _ =>
      refine .bind (hbodies statement (fun _ => hmember.resolve_left fun hmethod => ?_)
        trivial s hs)
        fun _ t ht _ _ => .pure ht trivial
      unfold Node.isMethodDef at hmethod
      split at hmethod
      · next hnode => exact hdef _ _ _ _ hnode
      · cases hmethod

/-- Members whose signatures and inclusions were declared are walked without internal errors. -/
theorem walkMembersWithin_provided (hbodies : (providing ctx hregular).InfersCode infer)
    (hinfer : Infers ctx known (fun _ => True) (fun _ => False) infer) (fuel : Nat) :
    WalksDeclared hregular known (walkMembersWithin ctx infer fuel) := by
  induction fuel with
  | zero => exact fun _ s hs _ _ => WalkRules.Keeps.outOfFuel s hs
  | succ fuel ih =>
      intro body s hs ha hmembers
      rw [walkMembersWithin_succ]
      refine (Discipline.forM_keeps (P := fun t => Accounted ctx known t ∧
        Accounts ctx (fun _ => True) (fun _ => False) s t) _ hs ⟨ha, .refl s⟩
        fun statement hstatement t ht _ ⟨hat, hle⟩ => ?_).trivial
      obtain ⟨hsigned, hmember⟩ := hmembers statement hstatement
      refine ((walkMember_provided hregular hbodies ih ht hat (hsigned.mono hle.toPreserves)
        hmember).and (walkMember_accounted hinfer (walkMembersWithin_accounted hinfer fuel) hat
          fun _ _ _ => trivial).succeeds).weaken ?_
      rintro _ u - - ⟨-, hau, hle', -⟩
      exact ⟨hau, hle.trans hle'⟩

/-- The declaration of a plain type is walked without internal errors. -/
theorem walkDeclaredType_provided (hbodies : (providing ctx hregular).InfersCode infer)
    (hinfer : Infers ctx known (fun _ => True) (fun _ => False) infer) {decl : NodeId}
    {typeParam : Option String} (hs : ProvidedFor ctx .any s) (ha : Accounted ctx known s)
    (hwalk : s.walk = 0) (hdecl : (ctx.tree.node decl).declaresType = true)
    (hsigned : SignedOff ctx.tree s decl) :
    ((providing ctx hregular).discipline .any).KeepsAt s
      (walkDeclaredType ctx infer decl typeParam (ctx.tree.bodyOf? decl)) fun r t =>
        typeParam = none → (providing ctx hregular).le .any s t ∧
          s.table.get? ⟨s.walk, decl⟩ = some r := by
  obtain ⟨owner, howner, hdeclared⟩ := hsigned.members hdecl
  unfold walkDeclaredType
  split
  · next hsome => exact .pure hs fun hnone => by simp [hnone] at hsome
  · have hrecorded : recorded decl s = .ok owner s := by
      show ofExcept (s.table.typeOf ⟨s.walk, decl⟩) s = _
      simp only [hwalk, TypeTable.typeOf, howner]
      rfl
    have hget : s.table.get? ⟨s.walk, decl⟩ = some owner := by rw [hwalk, howner]
    refine .bind_read hs hrecorded ?_
    cases hbody : ctx.tree.bodyOf? decl with
    | none => exact .pure hs fun _ => ⟨(providing ctx hregular).refl .any s, hget⟩
    | some body =>
        refine .bind (WalkRules.Keeps.withTypeFrame owner hs trivial ?_) fun _ t ht hle _ =>
          .pure ht fun _ => ⟨hle, hget⟩
        rintro t rfl ht
        have hdeclared : MembersDeclared ctx.tree s.table s.pool decl owner s.walk := hwalk ▸ hdeclared
        exact walkMembersWithin_provided hregular hbodies hinfer _ body _ ht
          (ha.setScopes (ha.scopes.push .forType)) fun statement hstatement =>
            ⟨hdeclared.signed hbody hstatement, isMember_of_bodyOf? hregular hbody hstatement⟩

end Members

/-! ## Top-level statements -/

section TopLevel

variable {known : σ → String → Prop} (hregular : ctx.tree.Regular) (hshape : ctx.tree.TreeShaped)

theorem inferWithin_infersCode (fuel : Nat) :
    (providing ctx hregular).InfersCode (inferWithin ctx fuel) :=
  fun body hcode _ => WalkRules.inferWithin_keeps fuel body hcode (fun _ _ => trivial) trivial

include hshape

/-- A statement at top level whose signatures were declared is typed without internal errors. -/
theorem inferTopLevel_provided (fuel : Nat) {statement : NodeId} (hs : ProvidedFor ctx .any s)
    (ha : Accounted ctx known s) (hwalk : s.walk = 0) (htop : ctx.tree.IsTopLevel statement)
    (hsigned : SignedOff ctx.tree s statement) :
    ((providing ctx hregular).discipline .any).KeepsAt s (inferWithin ctx fuel statement)
      fun _ _ => True := by
  cases fuel with
  | zero => exact WalkRules.Keeps.outOfFuel s hs
  | succ fuel =>
      have hbodies := inferWithin_infersCode hregular fuel
      have hinfer : Infers ctx known (fun _ => True) (fun _ => False) (inferWithin ctx fuel) :=
        infers_inferWithin hshape.nodup_statements fuel
      rcases htop with hdecl | hmethod | hcode
      · refine .bind (P := fun r t => (providing ctx hregular).le .any s t ∧
          s.table.get? ⟨s.walk, statement⟩ = some r) ?_ fun r t ht _ ⟨hle, hr⟩ =>
            .bind (WalkRules.Keeps.record_at ht (.of_declaresType hdecl hs hle hr))
              fun _ u hu _ _ => .pure hu trivial
        have hwalked : ((providing ctx hregular).discipline .any).KeepsAt s
            (walkDeclaredType ctx (inferWithin ctx fuel) statement none (ctx.tree.bodyOf? statement))
            fun r t => (providing ctx hregular).le .any s t ∧
              s.table.get? ⟨s.walk, statement⟩ = some r :=
          (walkDeclaredType_provided hregular hbodies hinfer hs ha hwalk hdecl hsigned).weaken
            fun _ _ _ _ h => h rfl
        unfold Node.declaresType at hdecl
        unfold inferNode
        split at hdecl
        · next hnode => simpa [hnode, SyntaxTree.bodyOf?] using hwalked
        · next hnode => simpa [hnode, SyntaxTree.bodyOf?] using hwalked
        · cases hdecl
      · have hany : (ctx.tree.node statement).takesAnyType = true := by
          unfold Node.isMethodDef at hmethod
          split at hmethod
          · next hnode => rw [hnode]; rfl
          · cases hmethod
        refine .bind (P := fun _ _ => True) ?_ fun r t ht _ _ =>
          (WalkRules.Keeps.record statement r hany).bind (fun _ => .pure r) t ht
        have hsignature : s.table.HasSignature ⟨s.walk, statement⟩ := by
          have hdef : ctx.tree.IsMethod statement := by
            unfold Node.isMethodDef at hmethod
            unfold SyntaxTree.IsMethod
            split at hmethod <;> simp_all
          obtain ⟨sig, hsig, -⟩ := hsigned.function hdef
          exact Option.isSome_iff_exists.mpr ⟨sig, hwalk ▸ hsig⟩
        have hwalked := WalkRules.walkMethod_keeps hbodies hs trivial fun _ =>
          ⟨hmethod, hsignature⟩
        unfold Node.isMethodDef at hmethod
        unfold inferNode
        split at hmethod
        · next hnode =>
            simp only [hnode]
            exact .bind hwalked fun _ t ht _ _ => .pure ht trivial
        · cases hmethod
      · exact inferWithin_infersCode hregular (fuel + 1) statement (fun _ => hcode) trivial s hs

/-- All statements at top level are typed without internal errors. -/
theorem inferStatements_provided (hs : ProvidedFor ctx .any s) (ha : Accounted ctx known s)
    (hwalk : s.walk = 0)
    (hsigned : ∀ statement ∈ ctx.tree.statements ctx.tree.root, SignedOff ctx.tree s statement) :
    ((providing ctx hregular).discipline .any).KeepsAt s (Typing.infer ctx ctx.tree.root)
      fun _ _ => True := by
  have htop := hregular.topLevel
  obtain ⟨fuel, hfuel⟩ : ∃ fuel, ctx.tree.walkBudget = fuel + 1 :=
    Nat.exists_eq_succ_of_ne_zero (Nat.pos_iff_ne_zero.mp (Nat.pow_pos (by omega)))
  unfold Typing.infer
  unfold SyntaxTree.statements at htop hsigned
  rw [hfuel]
  split at htop
  · next statements hnode =>
      -- the root is no code: its statements are typed one by one, and what was signed stays signed
      simp only [hnode] at hsigned
      unfold inferWithin inferNode
      simp only [hnode]
      refine .bind (P := fun _ _ => True) ?_ fun r t ht _ _ =>
        (WalkRules.Keeps.record _ r (by rw [hnode]; rfl)).bind (fun _ => .pure r) t ht
      refine (Discipline.foldlM_keeps (P := fun _ t => Accounted ctx known t ∧
        Accounts ctx (fun _ => True) (fun _ => False) s t) statements hs ⟨ha, .refl s⟩ ?_).trivial
      rintro statement hstatement - t ht - ⟨hat, hle⟩
      refine ((inferTopLevel_provided hregular hshape fuel ht hat (hle.walk.trans hwalk)
        (htop statement hstatement) ((hsigned statement hstatement).mono hle.toPreserves
          hle.owners)).and (inferWithin_accounted hshape.nodup_statements fuel statement t hat
            fun _ _ _ => trivial).succeeds).weaken ?_
      rintro _ u - - ⟨-, hau, hle', -⟩
      exact ⟨hau, hle.trans hle'⟩
  · next hnot =>
      refine inferTopLevel_provided hregular hshape (fuel + 1) hs ha hwalk (htop _ (by simp))
        (hsigned _ ?_)
      split
      · next statements hnode => exact absurd hnode (hnot statements)
      · simp

end TopLevel

/-! ## Expansions -/

/-- The members of all expansions were declared. -/
def ExpansionsDeclared (ctx : TypingContext σ) (s : TypingState σ) : Prop :=
  ∀ id index decl e, expansionAt? s.templates id index = some (decl, e) →
    MembersDeclared ctx.tree s.table s.pool decl e.type e.walk

theorem ExpansionsDeclared.mono {G F : NodeId → Prop} (h : ExpansionsDeclared ctx s)
    (hle : Accounts ctx G F s t) : ExpansionsDeclared ctx t := by
  intro id index decl e he
  rcases hle.expanded id index decl e he with hold | ⟨-, hdeclared⟩
  · exact (h id index decl e hold).mono hle.toPreserves
  · exact hdeclared

section Expansions

variable {known : σ → String → Prop} (hregular : ctx.tree.Regular) (hshape : ctx.tree.TreeShaped)

include hshape

/-- The member bodies of an expansion are walked without internal errors. -/
theorem walkExpansion_provided (id : TemplateId) (index : Nat) (hs : ProvidedFor ctx .any s)
    (ha : Accounted ctx known s) (hdeclared : ExpansionsDeclared ctx s) :
    ((providing ctx hregular).discipline .any).KeepsAt s (walkExpansion ctx id index)
      fun _ _ => True := by
  unfold walkExpansion
  refine .bind_read hs (b := s) rfl ?_
  dsimp only
  split
  · next body expansion hfound hexpansion =>
      have hbody : ctx.tree.bodyOf? (s.templates.getD id default).decl = some body := hfound
      have he := expansionAt?_eq_some_iff.2 ⟨rfl, hexpansion⟩
      let entered := s.relocate {
        inner := [(Scope.forType expansion.type (s.pool.ivars expansion.type)).bind
          (s.templates.getD id default).param (.type (expansion.args.headD .void))]
        walk := expansion.walk
        returnType := none }
      have hentered : ProvidedFor ctx .any entered := ⟨hs.1.isolate _ _ _ _ _, hs.2⟩
      have haccounted : Accounted ctx known entered :=
        (ha.setScopes (ha.scopes.isolate.push (Scope.Plain.forType.bind (by simp)))).setWalk none
          (ha.expansions_lt id index _ expansion he).2
      have hmembers : MembersDeclared ctx.tree entered.table entered.pool _ expansion.type
          entered.walk := hdeclared id index _ expansion he
      have hwalked := walkMembersWithin_provided hregular (inferWithin_infersCode hregular _)
        (infer_accounted hshape.nodup_statements) (ctx.tree.size + 1) body entered hentered
        haccounted fun statement hstatement =>
          ⟨hmembers.signed hbody hstatement, isMember_of_bodyOf? hregular hbody hstatement⟩
      refine WalkRules.within_keeps ⟨hentered, fun t ht hle => ?_, fun _ _ => trivial⟩ hwalked
      exact ⟨⟨hs.1.goBack ht.1 { hle with }, ht.2⟩, { hle with }⟩
  · exact .pure hs trivial

/-- The queue is worked off without internal errors. -/
theorem drainPending_provided (fuel : Nat) (hs : ProvidedFor ctx .any s)
    (ha : Accounted ctx known s) (hdeclared : ExpansionsDeclared ctx s) :
    ((providing ctx hregular).discipline .any).KeepsAt s (drainPending ctx fuel) fun _ _ => True := by
  induction fuel generalizing s with
  | zero =>
      unfold drainPending
      refine .bind_read hs (b := s) rfl ?_
      split
      · exact WalkRules.Keeps.outOfFuel s hs
      · exact .pure hs trivial
  | succ fuel ih =>
      unfold drainPending
      refine .bind_read hs (b := s) rfl ?_
      split
      · exact .pure hs trivial
      · next id index rest _ =>
          let taken : TypingState σ := { s with pending := rest }
          have htaken : ProvidedFor ctx .any taken := ⟨hs.1.congr rfl rfl rfl, hs.2⟩
          have hataken : Accounted ctx known taken := { ha with }
          refine .of_later (t := taken) (walkExpansion ctx id index >>= fun _ =>
            drainPending ctx fuel) rfl (.of_same (.refl _) rfl rfl) ?_
          refine .bind ((walkExpansion_provided hregular hshape id index htaken hataken hdeclared).and
            (walkExpansion_accounted (G := fun _ => True) hshape.nodup_statements id index
              hataken).succeeds) ?_
          rintro _ t ht - ⟨-, hat, hle, -⟩
          exact ih ht hat (ExpansionsDeclared.mono (s := taken) hdeclared hle)

end Expansions

/-! ## The whole module -/

/-- What never stops with an internal error does not do so with one that is not in `P`. -/
theorem blames_of_provided {α : Type} {step : Typing σ α} {Q : α → TypingState σ → Prop}
    {hregular : ctx.tree.Regular} (h : ((providing ctx hregular).discipline .any).KeepsAt s step Q) :
    (Discipline.blaming _ P).KeepsAt s step fun _ t => ProvidedFor ctx .any t ∧ Sustains ctx s t := by
  cases hrun : step s with
  | error e t => exact .of_error hrun fun hinternal => absurd hinternal ((h.error hrun).2 trivial)
  | ok a t => exact .of_ok hrun trivial trivial ⟨(h.ok hrun).1, (h.ok hrun).2.1⟩

/-- A regular unit is typed without internal errors, except for those that its imports end in. -/
theorem calculate_blames (ctx : TypingContext σ) (hT : p₀.Territory N)
    (hlawful : ctx.importer.Lawful) {imports : σ}
    (himporter : ctx.importer.Provides I (ComesToImport ctx { pool := p₀, imports }) P)
    (hshape : ctx.tree.TreeShaped) (hregular : ctx.tree.Regular)
    (hfits : ctx.importer.ExportsFit p₀ N imports) (hI : I imports) :
    (Discipline.blaming _ P).KeepsAt { pool := p₀, imports } (calculate ctx) fun _ t =>
      I t.imports := by
  let statements := ctx.tree.statements ctx.tree.root
  have hinitial : Provided ctx { pool := p₀, imports } :=
    ⟨⟨⟨by simp, by simp⟩, by simp⟩, by simp, ⟨by simp [Scope.Binds], by simp⟩⟩
  have hconfined : Confined ctx p₀ N { pool := p₀, imports } := .initial hT hfits
  -- any method and any function may be known
  have hlinked (p : Pool) (imports : σ) : ctx.importer.Linked (fun _ _ => True) p imports :=
    ⟨fun _ _ _ => trivial, fun _ _ _ _ _ => trivial⟩
  have hnames := (declareTypes_provided hT hlawful himporter hregular [] statements
    (fun before statement after t hsplit hbefore path hnode =>
      ⟨before, statement, after, t, hsplit, hbefore, hnode, rfl⟩)
    hconfined hinitial hI (by simp)).and (declareTypes_named hT hlawful
      (fun _ _ _ _ _ _ _ _ _ _ _ _ => hlinked _ _) statements hconfined
        (Named.initial (hlinked _ _))).succeeds
  unfold calculate
  refine .bind hnames ?_
  rintro _ s - - ⟨⟨hprovided, hI, howners⟩, -, -, hnamed⟩
  have hs : ProvidedFor ctx .any s :=
    ⟨hprovided, fun _ _ id index decl e he => by simp [hnamed.expansionAt?_eq_none] at he⟩
  have ha := hnamed.accounted hshape
  have hlayouts := layOutTypes_provided hregular hshape hs ha hnamed.walk howners
  refine .bind ((blames_of_provided hlayouts).and
    (layOutTypes_accounted hshape.nodup_statements statements ha).succeeds) ?_
  rintro _ t - - ⟨⟨ht, hst⟩, hat, hle, -⟩
  have howners' (decl) (hdecl : decl ∈ statements) : OwnerFits ctx.tree t decl :=
    (howners decl hdecl).of_accounts hnamed.walk hle
  have hwalk := hle.walk.trans hnamed.walk
  have hunsigned (statement) (_ : statement ∈ statements) : Unsigned ctx.tree t statement :=
    hnamed.unsigned ha hle statement
  have hsignatures := declareSignatures_provided hregular hshape ht hat hwalk hunsigned howners'
  refine .bind ((blames_of_provided hsignatures).and (declareSignatures_accounted
    (G := fun _ => True) hshape hat hwalk (.refl _) (fun _ _ _ _ _ => trivial) hunsigned
    fun statement hstatement hdecl => ?_).succeeds) ?_
  · obtain ⟨r, hr, -⟩ := howners' statement hstatement hdecl
    exact Option.isSome_iff_exists.mpr ⟨r, hwalk ▸ hr⟩
  rintro _ u - - ⟨⟨hu, htu⟩, hau, hle', hsigned, -⟩
  have hwalk' := hle'.walk.trans hwalk
  have hbodies := inferStatements_provided hregular hshape hu hau hwalk' hsigned
  refine .bind ((blames_of_provided hbodies).and (infer_accounted (G := fun _ => True)
    hshape.nodup_statements ctx.tree.root u hau fun _ _ _ => trivial).succeeds) ?_
  rintro _ v - - ⟨⟨hv, huv⟩, hav, hle'', -⟩
  have hdeclared : ExpansionsDeclared ctx s := by
    intro id index decl e he
    simp [hnamed.expansionAt?_eq_none] at he
  refine .bind (blames_of_provided (drainPending_provided hregular hshape _ hv hav
    (((hdeclared.mono hle).mono hle').mono hle''))) ?_
  rintro _ w - - ⟨-, hvw⟩
  refine .bind_read trivial (b := w) rfl (.pure trivial ?_)
  rw [hvw.imports, huv.imports, htu.imports, hst.imports]
  exact hI

end Typing

end ClassLang
