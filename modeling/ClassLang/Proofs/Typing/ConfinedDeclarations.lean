import ClassLang.Proofs.Typing.Confinement
import ClassLang.Typing.TypeExpr

/-!
# Declarations and type expressions stay in the territory

Every type expression denotes a type that declarations may mention: it is closed, and belongs to
the territory. Laying out a type and declaring its members changes no type but that one, which is
one the module itself declares.
-/

namespace ClassLang.Typing

variable {σ : Type} {ctx : TypingContext σ} {p₀ : Pool} {N : TypeId → Prop} {s : TypingState σ}

/-- Type expressions denote types that declarations may mention. -/
def TypeExprConfined (ctx : TypingContext σ) (p₀ : Pool) (N : TypeId → Prop)
    (typeExpr : NodeId → Typing σ TypeId) : Prop :=
  ∀ node s, Confined ctx p₀ N s →
    (confinement ctx p₀ N).KeepsAt s (typeExpr node) fun t u => u.pool.Declarable N t

/-- What declarations may mention stays so. -/
theorem stable_declarable (t : TypeId) :
    (confinement ctx p₀ N).Stable fun s => s.pool.Declarable N t :=
  fun _ _ _ hle _ h => h.mono hle.evolves

/-- What values may have as their type stays so. -/
theorem stable_usable (t : TypeId) : (confinement ctx p₀ N).Stable fun s => s.pool.Usable N t :=
  fun _ _ _ hle _ h => h.mono hle.evolves

/-! ## Members -/

theorem findTrait_confined {name : String} (hs : Confined ctx p₀ N s) :
    (confinement ctx p₀ N).KeepsAt s (findTrait name) fun _ _ => True := by
  refine .bind_read hs (b := s) rfl ?_
  split
  · exact .pure hs True.intro
  · exact fail_confined hs (not_misused_of_kind (by simp))

theorem spell_confined {t : TypeId} (hs : Confined ctx p₀ N s) :
    (confinement ctx p₀ N).KeepsAt s (spell t) fun _ _ => True :=
  .bind_read hs (b := s) rfl (.pure hs True.intro)

theorem qualified_confined {name : String} (hs : Confined ctx p₀ N s) :
    (confinement ctx p₀ N).KeepsAt s (qualified name) fun _ _ => True :=
  .bind_read hs (b := s) rfl (.pure hs True.intro)

variable {typeExpr : NodeId → Typing σ TypeId}

theorem collectIvarsInto_confined (htype : TypeExprConfined ctx p₀ N typeExpr) (fuel : Nat)
    {body : NodeId} {recording : Bool} {ivars : List (String × TypeId)}
    (hs : Confined ctx p₀ N s) (hivars : ∀ entry ∈ ivars, s.pool.Declarable N entry.2) :
    (confinement ctx p₀ N).KeepsAt s (collectIvarsInto ctx typeExpr fuel body recording ivars)
      fun ivars u => ∀ entry ∈ ivars, u.pool.Declarable N entry.2 := by
  induction fuel generalizing s body recording ivars with
  | zero => exact outOfFuel_confined hs
  | succ fuel ih =>
      unfold collectIvarsInto
      refine Discipline.foldlM_keeps _ hs hivars fun statement _ ivars t ht _ hivars => ?_
      dsimp only
      split
      · next name type hnode =>
          refine .bind (htype type t ht) fun declared u hu hle hdeclared => ?_
          have hadded : ∀ entry ∈ ivars ++ [(name, declared)], u.pool.Declarable N entry.2 := by
            intro entry hentry
            rw [List.mem_append, List.mem_singleton] at hentry
            rcases hentry with hentry | rfl
            · exact (hivars entry hentry).mono hle.evolves
            · exact hdeclared
          split
          · exact .bind (mismatch_confined (Q := fun _ _ => False) hu) fun _ _ _ _ h => h.elim
          · split
            · refine .bind (record_confined (Q := fun _ v => v.pool = u.pool) hu
                hdeclared.usable (by simp [hnode, Node.declaresType]) fun _ h => h)
                fun _ v hv _ hpool => .pure hv ?_
              rwa [hpool]
            · exact .pure hu hadded
      · refine .bind (findTrait_confined ht) fun traitBody u hu hle _ => ?_
        exact ih hu fun entry hentry => (hivars entry hentry).mono hle.evolves
      · exact .pure ht hivars

theorem caseFields_confined (htype : TypeExprConfined ctx p₀ N typeExpr) {caseName : String}
    {fields : List NodeId} (hs : Confined ctx p₀ N s) :
    (confinement ctx p₀ N).KeepsAt s (caseFields ctx typeExpr caseName fields)
      fun fields u => ∀ entry ∈ fields, u.pool.Declarable N entry.2 := by
  unfold caseFields
  refine Discipline.mapM_keeps_all
    (P := fun (entry : String × TypeId) (u : TypingState σ) => u.pool.Declarable N entry.2) _ hs
    (fun entry => stable_declarable entry.2) fun field _ t ht _ => ?_
  split
  · next name type hnode =>
      refine .bind (htype type t ht) fun declared u hu _ hdeclared => ?_
      refine .bind (record_confined (Q := fun _ v => v.pool = u.pool) hu hdeclared.usable
        (by simp [hnode, Node.declaresType]) fun _ h => h) fun _ v hv _ hpool => .pure hv ?_
      rwa [hpool]
  · exact mismatch_confined ht

/-- Appending a case to a type of the module, and going on with it. -/
theorem addCase_confined (hT : p₀.Territory N) {owner : TypeId} {name shortName : String}
    {fields : List (String × TypeId)} {α : Type} {Q : α → TypingState σ → Prop}
    (next : TypeId → Typing σ α) (hs : Confined ctx p₀ N s) (howner : p₀.size ≤ owner)
    (hfields : ∀ entry ∈ fields, s.pool.Declarable N entry.2)
    (hnext : ∀ t u, Confined ctx p₀ N u → u.pool.Declarable N t →
      (confinement ctx p₀ N).KeepsAt u (next t) Q) :
    (confinement ctx p₀ N).KeepsAt s (do
      let s ← get
      let added ← ofExcept (s.pool.addCase owner name shortName fields)
      set { s with pool := added.2 }
      next added.1) Q := by
  refine .bind_read hs (b := s) rfl (.bind (ofExcept_confined hs (Q := fun r u =>
    s.pool.addCase owner name shortName fields = .ok r ∧ u = s) (fun _ h => ⟨h, rfl⟩) ?_) ?_)
  · intro e he
    unfold Pool.addCase at he
    split at he
    · cases he
    · cases he
      exact not_misused_of_text (by decide)
  · rintro ⟨added, q⟩ u - - ⟨hadded, rfl⟩
    obtain ⟨hkept, hclosed, hlate⟩ := hs.pool.addCase hT howner hfields hadded
    have hle : Advances ctx p₀ N u { u with pool := q } :=
      ⟨.single (.addCase hadded) hkept, List.Subset.refl _, fun _ _ h => h⟩
    refine .bind (.of_ok (Q := fun _ v => v = { u with pool := q }) rfl (hs.setPool hkept hle) hle
      rfl) ?_
    rintro - _ hv - rfl
    exact hnext added _ hv ⟨hclosed, hT.later _ hlate⟩

theorem addCases_confined (hT : p₀.Territory N) (htype : TypeExprConfined ctx p₀ N typeExpr)
    {owner : TypeId} {cases : List NodeId} (hs : Confined ctx p₀ N s) (howner : p₀.size ≤ owner) :
    (confinement ctx p₀ N).KeepsAt s (addCases ctx typeExpr owner cases)
      fun added u => ∀ t ∈ added, u.pool.Declarable N t := by
  unfold addCases
  refine .bind (spell_confined hs) fun ownerName t ht _ _ => ?_
  refine Discipline.mapM_keeps_all
    (P := fun (t : TypeId) (u : TypingState σ) => u.pool.Declarable N t) _ ht
    stable_declarable fun decl _ u hu _ => ?_
  split
  · next name fields hnode =>
      refine .bind (caseFields_confined htype hu) fun declared v hv _ hdeclared => ?_
      refine addCase_confined hT (fun t => do record decl t; pure t) hv howner hdeclared
        fun t w hw ht => ?_
      refine .bind (record_confined (Q := fun _ x => x.pool = w.pool) hw ht.usable
        (by simp [hnode, Node.declaresType]) fun _ h => h) fun _ x hx _ hpool => .pure hx ?_
      rwa [hpool]
  · exact fail_confined hu (not_misused_of_text (by decide))

/-! ## Signatures -/

theorem declaredParams_confined (htype : TypeExprConfined ctx p₀ N typeExpr) {method : String}
    {params : List NodeId} (hs : Confined ctx p₀ N s) :
    (confinement ctx p₀ N).KeepsAt s (declaredParams ctx typeExpr method params)
      fun declared u => ∀ param ∈ declared.1, u.pool.Declarable N param.type := by
  unfold declaredParams
  refine Discipline.foldlM_keeps _ hs (by simp) ?_
  rintro ⟨param, i⟩ - ⟨declared, varargs⟩ t ht - hdeclared
  dsimp only
  split
  · next name type hnode =>
      refine .bind (htype type t ht) fun paramType u hu hle hparam => ?_
      refine .bind (record_confined (Q := fun _ v => v.pool = u.pool) hu hparam.usable
        (by simp [hnode, Node.declaresType]) fun _ h => h) fun _ v hv _ hpool => .pure hv ?_
      intro p hp
      rw [List.mem_append, List.mem_singleton] at hp
      rw [hpool]
      rcases hp with hp | rfl
      · exact (hdeclared p hp).mono hle.evolves
      · exact hparam
  · split
    · exact .pure ht hdeclared
    · exact mismatch_confined ht
  · exact mismatch_confined ht

theorem linkName_confined {owner : Option TypeId} {attr : Option Attribute} {name : String}
    (hs : Confined ctx p₀ N s) :
    (confinement ctx p₀ N).KeepsAt s (linkName owner attr name) fun _ _ => True := by
  unfold linkName
  split
  · exact .pure hs True.intro
  · exact .bind (spell_confined hs) fun _ _ ht _ _ => .pure ht True.intro
  · split
    · exact .pure hs True.intro
    · exact qualified_confined hs

theorem signatureOf_confined (hT : p₀.Territory N) (htype : TypeExprConfined ctx p₀ N typeExpr)
    {node : NodeId} {owner : Option TypeId} (hs : Confined ctx p₀ N s) :
    (confinement ctx p₀ N).KeepsAt s (signatureOf ctx typeExpr node owner)
      fun sig u => sig.Declarable u.pool N := by
  have hbuild : ∀ name params result attr, (confinement ctx p₀ N).KeepsAt s
      (signatureOf.build ctx typeExpr owner name params result attr)
      fun sig u => sig.Declarable u.pool N := by
    intro name params result attr
    unfold signatureOf.build
    refine .bind (declaredParams_confined htype hs) ?_
    rintro ⟨declared, varargs⟩ t ht - hdeclared
    have hrest : ∀ r u, Confined ctx p₀ N u → Advances ctx p₀ N t u → u.pool.Declarable N r →
        (confinement ctx p₀ N).KeepsAt u (do
          let linkName ← linkName owner attr name
          pure ({ name, linkName, params := declared, result := r, varargs } : Signature))
          fun sig u => sig.Declarable u.pool N := by
      intro r u hu hle hr
      refine .bind (linkName_confined hu) fun link v hv hle' _ => .pure hv ?_
      intro w hw
      simp only [Signature.types, Signature.paramTypes, List.mem_cons, List.mem_map] at hw
      rcases hw with rfl | ⟨param, hparam, rfl⟩
      · exact hr.mono hle'.evolves
      · exact ((hdeclared param hparam).mono hle.evolves).mono hle'.evolves
    cases result with
    | some result => exact .bind (htype result t ht) hrest
    | none =>
        exact hrest _ t ht ((confinement ctx p₀ N).refl t) (ht.pool.builtin hT (by decide))
  unfold signatureOf
  split
  · exact hbuild _ _ _ _
  · exact hbuild _ _ _ _
  · exact fail_confined hs (not_misused_of_text (by decide))

/-- Recording the signature of a declaration. -/
theorem Confined.setSignature (h : Confined ctx p₀ N s) {v : Visit} {sig : Signature}
    (hsig : sig.Declarable s.pool N) :
    Confined ctx p₀ N { s with table := s.table.setSignature v sig } := by
  refine ⟨h.pool, h.imports, h.scopes, h.exports, h.returnType, h.templates, h.types,
    fun w other hother => ?_, h.targets⟩
  simp only [TypeTable.setSignature, getElem?_insert_visit] at hother
  split at hother
  · cases hother
    exact hsig
  · exact h.signatures w other hother

/-- A change of the table that leaves types, targets and signatures alone. -/
theorem Confined.setTable (h : Confined ctx p₀ N s) {table : TypeTable}
    (htypes : table.types = s.table.types) (htargets : table.targets = s.table.targets)
    (hsignatures : table.signatures = s.table.signatures) :
    Confined ctx p₀ N { s with table } := by
  refine ⟨h.pool, h.imports, h.scopes, h.exports, h.returnType, h.templates, fun v t ht => ?_,
    fun v sig hsig => ?_, fun v target htarget => ?_⟩
  · refine h.types v t ?_
    simpa [TypeTable.get?, htypes] using ht
  · exact h.signatures v sig (hsignatures ▸ hsig)
  · exact h.targets v target (htargets ▸ htarget)

/-- A new walk number. -/
theorem freshInstance_confined (hs : Confined ctx p₀ N s) :
    (confinement ctx p₀ N).KeepsAt s (modifyGet fun s : TypingState σ =>
      let (walk, table) := s.table.freshInstance
      (walk, { s with table })) fun _ u => u.pool = s.pool :=
  .of_ok rfl (hs.setTable rfl rfl rfl) (.of_eq rfl rfl rfl) rfl

theorem declareMethodsWithin_confined (hT : p₀.Territory N)
    (htype : TypeExprConfined ctx p₀ N typeExpr) (fuel : Nat) {body : NodeId} {owner : TypeId}
    (hs : Confined ctx p₀ N s) (howner : p₀.size ≤ owner) :
    (confinement ctx p₀ N).KeepsAt s (declareMethodsWithin ctx typeExpr fuel body owner)
      fun _ _ => True := by
  induction fuel generalizing s body with
  | zero => exact outOfFuel_confined hs
  | succ fuel ih =>
      have hdeclare : ∀ statement t, Confined ctx p₀ N t → (confinement ctx p₀ N).KeepsAt t (do
          let sig ← signatureOf ctx typeExpr statement (some owner)
          updatePool (·.addMethod owner sig)
          let v ← visit statement
          modifyTable (·.setSignature v sig)) fun _ _ => True := by
        intro statement t ht
        refine .bind (signatureOf_confined hT htype ht) fun sig u hu _ hsig => ?_
        refine .bind (updatePool_confined (Q := fun _ v => sig.Declarable v.pool N) hu ?_ ?_) ?_
        · intro p hp
          have hchange : u.pool.Change p := .addMethod hp
          exact ⟨hchange, hu.pool.addMethod hT howner hsig hp, hsig.mono hchange.evolves⟩
        · intro e he
          unfold Pool.addMethod at he
          dsimp only at he
          split at he
          · split at he <;> cases he
            exact not_misused_of_kind (by simp)
          · split at he <;> cases he
            exact not_misused_of_kind (by simp)
          · cases he
            exact not_misused_of_head (by simp [ToString.toString])
        · intro _ v hv _ hsig
          refine .bind_read hv (b := ⟨v.walk, statement⟩) rfl ?_
          exact .of_ok rfl (hv.setSignature hsig) (.of_eq rfl rfl rfl) True.intro
      unfold declareMethodsWithin
      refine Discipline.forM_keeps (P := fun _ => True) _ hs True.intro
        fun statement _ t ht _ _ => ?_
      dsimp only
      split
      · exact hdeclare statement t ht
      · exact hdeclare statement t ht
      · refine .bind (findTrait_confined ht) fun traitBody u hu _ _ => ?_
        refine .bind (freshInstance_confined hu) fun included v hv _ _ => ?_
        refine .bind_read hv (b := ⟨v.walk, statement⟩) rfl ?_
        refine .bind (.of_ok (Q := fun _ _ => True) rfl (hv.setTable rfl rfl rfl)
          (.of_eq rfl rfl rfl) True.intro) fun _ w hw _ _ => ?_
        exact withWalk_confined (Q := fun _ _ => True) hw fun x hx _ => ih hx
      · exact .pure ht True.intro

/-! ## Expansions -/

theorem addExpansion_confined {id : TemplateId} {expansion : Expansion}
    {Q : Nat → TypingState σ → Prop} (hs : Confined ctx p₀ N s)
    (htype : s.pool.Nominal N expansion.type)
    (hargs : ∀ t ∈ expansion.args, s.pool.Declarable N t) (hQ : ∀ i u, u.pool = s.pool → Q i u) :
    (confinement ctx p₀ N).KeepsAt s (addExpansion id expansion) Q := by
  refine .of_ok rfl ⟨hs.pool, hs.imports, hs.scopes, hs.exports, hs.returnType,
    fun template htemplate e he => ?_, hs.types, hs.signatures, hs.targets⟩ (.of_eq rfl rfl rfl)
    (hQ _ _ rfl)
  rcases List.mem_or_eq_of_mem_set htemplate with htemplate | rfl
  · exact hs.templates template htemplate e he
  · simp only [List.mem_append, List.mem_singleton] at he
    rcases he with he | rfl
    · rw [List.getD_eq_getElem?_getD] at he
      cases hid : s.templates[id]? with
      | none =>
          rw [hid] at he
          simp [default] at he
      | some template =>
          rw [hid] at he
          exact hs.templates template (List.mem_of_getElem? hid) e he
    · exact ⟨htype, hargs⟩

/-- Laying out a class of the module. -/
theorem setIvars_confined (hT : p₀.Territory N) {t : TypeId} {ivars : List (String × TypeId)}
    (hs : Confined ctx p₀ N s) (ht : p₀.size ≤ t)
    (hivars : ∀ entry ∈ ivars, s.pool.Declarable N entry.2) :
    (confinement ctx p₀ N).KeepsAt s (updatePool (·.setIvars t ivars)) fun _ _ => True := by
  refine updatePool_confined hs
    (fun p hp => ⟨.setIvars hp, hs.pool.setIvars hT ht hivars hp, True.intro⟩) fun e he => ?_
  unfold Pool.setIvars at he
  split at he <;> cases he
  exact not_misused_of_text (by decide)

theorem declareExpanded_confined (hT : p₀.Territory N) (htype : TypeExprConfined ctx p₀ N typeExpr)
    {decl : NodeId} {t : TypeId} (hs : Confined ctx p₀ N s) (ht : p₀.size ≤ t) :
    (confinement ctx p₀ N).KeepsAt s (declareExpanded ctx typeExpr decl t) fun _ _ => True := by
  unfold declareExpanded
  split
  · refine .bind (collectIvarsInto_confined htype _ hs (by simp)) fun ivars u hu _ hivars => ?_
    refine .bind (modifyScopes_confined (Q := fun _ v => v.pool = u.pool) hu
      (hu.scopes.foldl_addIvar hivars) rfl) fun _ v hv _ hpool => ?_
    rw [← hpool] at hivars
    refine .bind (setIvars_confined hT hv ht hivars) fun _ w hw _ _ => ?_
    exact declareMethodsWithin_confined hT htype _ hw ht
  · next body _ =>
      refine .bind (addCases_confined hT htype hs ht) fun _ u hu _ _ => ?_
      cases body with
      | some body => exact declareMethodsWithin_confined hT htype _ hu ht
      | none => exact .pure hu True.intro
  · exact .pure hs True.intro

/-- A new class or data type is one of the module, and may be mentioned at once. -/
theorem newNominal_confined (hT : p₀.Territory N) {f : Pool → TypeId × Pool} {d : TypeData}
    (hs : Confined ctx p₀ N s) (hf : f s.pool = s.pool.push d)
    (hchange : s.pool.Change (f s.pool).2) (hd : d.mentions = [])
    (hname : d.nominalName?.isSome) :
    (confinement ctx p₀ N).KeepsAt s (makeType f) fun t u => u.pool.Nominal N t ∧ p₀.size ≤ t := by
  have hvar : d.isVar = false := by
    cases d <;> first | rfl | cases hname
  have hnil : d.parts = [] := by
    simp only [TypeData.mentions, List.append_eq_nil_iff] at hd
    exact hd.1.1
  refine makeType_confined hs hchange ?_ fun u hu => ?_
  · rw [hf]
    refine hs.pool.push_blank hd ?_
    rintro target rfl
    cases hvar
  · rw [hf] at hu
    rw [hf, Pool.fst_push, hu]
    refine ⟨⟨⟨.of_no_parts (by simp) ?_ ?_, hs.pool.mem_later hT (Nat.le_refl _)⟩, ?_⟩,
      hs.pool.agrees.size_le⟩ <;> rw [Pool.data_push, if_pos rfl]
    · exact hvar
    · exact hnil
    · exact hname

theorem newReference_confined (hT : p₀.Territory N) {name : String} (hs : Confined ctx p₀ N s) :
    (confinement ctx p₀ N).KeepsAt s (makeType (·.newReference name))
      fun t u => u.pool.Nominal N t ∧ p₀.size ≤ t :=
  newNominal_confined hT hs rfl (.newReference _ _) rfl rfl

theorem newData_confined (hT : p₀.Territory N) {name : String} (hs : Confined ctx p₀ N s) :
    (confinement ctx p₀ N).KeepsAt s (makeType (·.newData name))
      fun t u => u.pool.Nominal N t ∧ p₀.size ≤ t :=
  newNominal_confined hT hs rfl (.newData _ _) rfl rfl

theorem expand_confined (hT : p₀.Territory N) (htype : TypeExprConfined ctx p₀ N typeExpr)
    {id : TemplateId} {args : List TypeId} (hs : Confined ctx p₀ N s)
    (hargs : ∀ t ∈ args, s.pool.Declarable N t) :
    (confinement ctx p₀ N).KeepsAt s (expand ctx typeExpr id args)
      fun t u => u.pool.Declarable N t := by
  unfold expand
  refine .bind_read hs (b := s) rfl ?_
  dsimp only
  split
  · next expansion hfound =>
      have hmem := List.mem_of_find?_eq_some hfound
      rw [List.getD_eq_getElem?_getD] at hmem
      cases hid : s.templates[id]? with
      | none =>
          rw [hid] at hmem
          simp [default] at hmem
      | some template =>
          rw [hid] at hmem
          exact .pure hs (hs.templates template (List.mem_of_getElem? hid) _ hmem).1.1
  · split
    · next arg _ =>
        refine .bind (qualified_confined hs) fun q u hu hle _ => ?_
        refine .bind (spell_confined hu) fun shown v hv hle' _ => ?_
        refine .bind (freshInstance_confined hv) fun walk w hw hle'' _ => ?_
        have harg : w.pool.Declarable N arg :=
          (((hargs arg (by simp)).mono hle.evolves).mono hle'.evolves).mono hle''.evolves
        have hrest : ∀ t x, Confined ctx p₀ N x → Advances ctx p₀ N w x →
            x.pool.Nominal N t ∧ p₀.size ≤ t → (confinement ctx p₀ N).KeepsAt x (do
              let index ← addExpansion id { args := [arg], type := t, walk }
              modifyScopes (·.bindModule
                (q ++ "<" ++ shown ++ ">") (.type t))
              modifyTable (·.record { walk, node := (s.templates.getD id default).decl } t)
              withIsolatedFrame walk
                ((Scope.forType t []).bind (s.templates.getD id default).param (.type arg))
                (declareExpanded ctx typeExpr (s.templates.getD id default).decl t)
              modify fun s => { s with pending := s.pending ++ [(id, index)] }
              pure t) fun t u => u.pool.Declarable N t := by
          rintro t x hx hle ⟨ht, hlate⟩
          refine .bind (addExpansion_confined (Q := fun _ y => y.pool = x.pool) hx ht
            (by simpa using harg.mono hle.evolves) fun _ _ h => h) fun index y hy hxy _ => ?_
          replace ht := ht.mono hxy.evolves
          refine .bind (modifyScopes_confined (Q := fun _ z => z.pool = y.pool) hy
            (hy.scopes.bindModule ht.1) rfl) fun _ z hz hyz hpool => ?_
          rw [← hpool] at ht
          refine .bind (.of_ok (Q := fun _ z' => z'.pool = z.pool) rfl
            (hz.record (v := ⟨walk, _⟩) ht.1.usable fun _ => ⟨hlate, ht⟩) (.of_eq rfl rfl rfl) rfl)
            fun _ z' hz' hzz' _ => ?_
          have harg' : z'.pool.Declarable N arg :=
            (((harg.mono hle.evolves).mono hxy.evolves).mono hyz.evolves).mono hzz'.evolves
          refine .bind (withIsolatedFrame_confined (Q := fun _ _ => True) hz'
            ((Scope.Fits.forType (ht.mono hzz'.evolves) (by simp)).bind harg') fun a ha _ _ =>
              declareExpanded_confined hT htype ha hlate) fun _ a ha hza _ => ?_
          refine .bind (.of_ok (Q := fun _ b => b.pool = a.pool) rfl
            ⟨ha.pool, ha.imports, ha.scopes, ha.exports, ha.returnType, ha.templates, ha.types,
              ha.signatures, ha.targets⟩ (.of_eq rfl rfl rfl) rfl) fun _ b hb _ hpool => ?_
          refine .pure hb ?_
          rw [hpool]
          exact ((ht.mono hzz'.evolves).mono hza.evolves).1
        split
        · exact .bind (newReference_confined hT hw) hrest
        · exact .bind (newData_confined hT hw) hrest
        · exact .bind (fail_confined (Q := fun _ _ => False) hw (not_misused_of_text (by decide)))
            fun _ _ _ _ h => h.elim
    · exact mismatch_confined hs

/-! ## Type expressions -/

theorem namedType_confined (hT : p₀.Territory N) {name : String} (hs : Confined ctx p₀ N s) :
    (confinement ctx p₀ N).KeepsAt s (namedType name) fun t u => u.pool.Declarable N t := by
  unfold namedType
  refine .bind_read hs (b := s) rfl ?_
  dsimp only
  split
  · next t ht => exact .pure hs (hs.scopes.lookup hT hs.pool ht)
  · exact mismatch_confined hs
  · split
    · exact mismatch_confined hs
    · exact fail_confined hs (not_misused_of_kind (by simp))

/-- The pointer to a type that may be mentioned may be mentioned. -/
theorem pointer_confined (hT : p₀.Territory N) {target : TypeId} (hs : Confined ctx p₀ N s)
    (htarget : s.pool.Declarable N target) :
    (confinement ctx p₀ N).KeepsAt s (makeType (·.pointer target))
      fun t u => u.pool.Declarable N t := by
  obtain ⟨hkept, hlt, hmem, hdata⟩ := hs.pool.pointer hT htarget.1.lt_size htarget.2
  have hchange : s.pool.Change (s.pool.pointer target).2 := .pointer _ _
  refine makeType_confined hs hchange hkept fun u hu => ?_
  rw [hu]
  refine ⟨.intro hlt (by simp [hdata, TypeData.isVar]) fun v hv => ?_, hmem⟩
  rw [hdata, htarget.1.resolve_eq] at hv
  simp only [TypeData.parts, List.mem_singleton] at hv
  rw [hv]
  exact htarget.1.mono hchange.evolves

/-- A closure type made of types that may be mentioned may be mentioned. -/
theorem closureType_confined (hT : p₀.Territory N) {params : List TypeId} {result : TypeId}
    (hs : Confined ctx p₀ N s) (hparams : ∀ t ∈ params, s.pool.Declarable N t)
    (hresult : s.pool.Declarable N result) :
    (confinement ctx p₀ N).KeepsAt s (makeType (·.closure params result []))
      fun t u => u.pool.Declarable N t := by
  have hparts : ∀ t ∈ params ++ [result], s.pool.Declarable N t := by
    intro t ht
    rw [List.mem_append, List.mem_singleton] at ht
    rcases ht with ht | rfl
    · exact hparams t ht
    · exact hresult
  obtain ⟨hkept, hlt, hmem, hdata⟩ := hs.pool.closure hT
    (fun u hu => (hparts u hu).usable) fun u hu => .inl (hparams u hu).1
  have hchange : s.pool.Change (s.pool.closure params result []).2 := .closure _ _ _ _
  refine makeType_confined hs hchange hkept fun u hu => ?_
  rw [hu]
  refine ⟨.intro hlt (by simp [hdata, TypeData.isVar]) fun v hv => ?_, hmem⟩
  rw [hdata] at hv
  exact (hparts v hv).1.mono hchange.evolves

/-- Type expressions denote types that declarations may mention. -/
theorem typeExprWithin_confined (hT : p₀.Territory N) (fuel : Nat) :
    TypeExprConfined ctx p₀ N (typeExprWithin ctx fuel) := by
  induction fuel with
  | zero => exact fun _ s hs => outOfFuel_confined hs
  | succ fuel ih =>
      intro node s hs
      have hrecord : (ctx.tree.node node).declaresType = false → ∀ t u, Confined ctx p₀ N u →
          Advances ctx p₀ N s u → u.pool.Declarable N t →
          (confinement ctx p₀ N).KeepsAt u (do record node t; pure t)
            fun t u => u.pool.Declarable N t := by
        intro hnode t u hu _ ht
        refine .bind (record_confined (Q := fun _ v => v.pool = u.pool) hu ht.usable
          (by simp [hnode]) fun _ h => h) fun _ v hv _ hpool => .pure hv ?_
        rwa [hpool]
      unfold typeExprWithin
      dsimp only
      split
      · next hnode =>
          exact .bind (namedType_confined hT hs) (hrecord (by simp [hnode, Node.declaresType]))
      · next target hnode =>
          refine .bind (ih target s hs) fun t u hu hle ht => ?_
          refine .bind (pointer_confined hT hu ht) fun p v hv hle' hp => ?_
          exact hrecord (by simp [hnode, Node.declaresType]) p v hv
            ((confinement ctx p₀ N).trans hle hle') hp
      · next name args hnode =>
          refine .bind_read hs (b := s) rfl ?_
          split
          · exact .bind (mismatch_confined (Q := fun _ _ => False) hs) fun _ _ _ _ h => h.elim
          · next id _ =>
              refine .bind (Discipline.mapM_keeps_all
                (P := fun (t : TypeId) (u : TypingState σ) => u.pool.Declarable N t) args hs
                stable_declarable fun arg _ t ht _ => ih arg t ht) fun types u hu hle htypes => ?_
              refine .bind (expand_confined hT ih hu htypes) fun t v hv hle' ht => ?_
              exact hrecord (by simp [hnode, Node.declaresType]) t v hv
                ((confinement ctx p₀ N).trans hle hle') ht
      · next params result hnode =>
          refine .bind (Discipline.mapM_keeps_all
            (P := fun (t : TypeId) (u : TypingState σ) => u.pool.Declarable N t) params hs
            stable_declarable fun arg _ t ht _ => ih arg t ht) fun types u hu hle htypes => ?_
          refine .bind (ih result u hu) fun r v hv hle' hr => ?_
          refine .bind (closureType_confined hT hv (fun t ht => (htypes t ht).mono hle'.evolves) hr)
            fun t w hw hle'' ht => ?_
          exact hrecord (by simp [hnode, Node.declaresType]) t w hw
            ((confinement ctx p₀ N).trans hle ((confinement ctx p₀ N).trans hle' hle'')) ht
      · next type hnode =>
          exact .bind (ih type s hs) (hrecord (by simp [hnode, Node.declaresType]))
      · exact .bind (fail_confined (Q := fun _ _ => False) hs (not_misused_of_text (by decide)))
          fun _ _ _ _ h => h.elim

/-- Type expressions denote types that declarations may mention. -/
theorem typeExpr_confined (hT : p₀.Territory N) : TypeExprConfined ctx p₀ N (Typing.typeExpr ctx) :=
  typeExprWithin_confined hT _

end ClassLang.Typing
