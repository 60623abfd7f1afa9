import ClassLang.Proofs.Typing.ConfinedBodies
import ClassLang.Typing.Calculate

/-!
# Modules stay in their territory

The steps of typing a module, down to `calculate`. Imports are compiled by an importer that is
trusted to be `Lawful`; it works inside the territory that the importing module has left to it.
-/

namespace ClassLang.Typing

variable {σ : Type} {ctx : TypingContext σ} {p₀ : Pool} {N : TypeId → Prop} {s : TypingState σ}

/-! ## Names -/

theorem declareTypeName_confined {decl : NodeId} {name : String} {t : TypeId}
    (hs : Confined ctx p₀ N s) (ht : s.pool.Nominal N t ∧ p₀.size ≤ t) :
    (confinement ctx p₀ N).KeepsAt s (declareTypeName decl name t) fun _ _ => True := by
  unfold declareTypeName
  refine .bind (.of_ok (Q := fun _ u => u.pool = s.pool) rfl
    ⟨hs.pool, hs.imports, hs.scopes.bindModule ht.1.1, hs.exports.setType ht.1.1, hs.returnType,
      hs.templates, hs.types, hs.signatures, hs.targets⟩
    ⟨.refl _, List.Subset.refl _, fun _ _ h => h⟩ rfl) fun _ u hu _ hpool => ?_
  have hnominal : u.pool.Nominal N t := hpool ▸ ht.1
  exact record_confined hu hnominal.1.usable (fun _ => ⟨ht.2, hnominal⟩) fun _ _ => True.intro

theorem declareTemplate_confined {decl : NodeId} {name param : String}
    (hs : Confined ctx p₀ N s) :
    (confinement ctx p₀ N).KeepsAt s (declareTemplate decl name param) fun _ _ => True := by
  refine .of_ok rfl ⟨hs.pool, hs.imports, hs.scopes.registerTemplate, hs.exports, hs.returnType,
    fun template htemplate e he => ?_, hs.types, hs.signatures, hs.targets⟩ (.of_eq rfl rfl rfl)
    True.intro
  rw [List.mem_append, List.mem_singleton] at htemplate
  rcases htemplate with htemplate | rfl
  · exact hs.templates template htemplate e he
  · simp at he

/-- What an import leaves behind is confined: it worked in an inner territory. -/
theorem Confined.imported (hT : p₀.Territory N) (hs : Confined ctx p₀ N s) {q : Pool}
    {imports : σ} (hkept : s.pool.Kept (Pool.Inner N s.pool) q)
    (hpasses : Pool.Passes (s.pool.Kept (Pool.Inner N s.pool)) s.pool q)
    (hfits : ctx.importer.ExportsFit q (Pool.Inner N s.pool) imports)
    (hextends : ctx.importer.Extends s.imports imports) :
    Confined ctx p₀ N { s with pool := q, imports } ∧
      Advances ctx p₀ N s { s with pool := q, imports } := by
  have hmem (t : TypeId) (ht : Pool.Inner N s.pool t) : N t := hs.pool.mem_of_inner hT ht
  have hle : Advances ctx p₀ N s { s with pool := q, imports } :=
    ⟨hpasses.mono fun r hr => hs.pool.of_inner hT hr, List.Subset.refl _, hextends⟩
  have he : s.pool.Evolves q := hle.evolves
  refine ⟨⟨hs.pool.of_inner hT hkept,
    fun id e hid => (hfits id e hid).weaken fun t _ ht => hmem t ht, hs.scopes.mono he,
    hs.exports.mono he, fun t ht => ?_, fun template htemplate e hexp => ?_, fun v t ht => ?_, fun v sig hsig => ?_,
    fun v target htarget sig hsig => ?_⟩, hle⟩
  · exact (hs.returnType t ht).mono he
  · exact ⟨(hs.templates template htemplate e hexp).1.mono he,
      fun t ht => ((hs.templates template htemplate e hexp).2 t ht).mono he⟩
  · exact ⟨(hs.types v t ht).1.mono he, fun hdecl =>
      ⟨((hs.types v t ht).2 hdecl).1, ((hs.types v t ht).2 hdecl).2.mono he⟩⟩
  · exact (hs.signatures v sig hsig).mono he
  · exact (hs.targets v target htarget sig hsig).mono hle

/-- What imported modules offer lies in the territory of the next import. -/
theorem Confined.exportsFit (hs : Confined ctx p₀ N s) :
    ctx.importer.ExportsFit s.pool (Pool.Inner N s.pool) s.imports :=
  fun id e he => (hs.imports id e he).weaken fun _ hclosed ht => .inr ⟨ht, hclosed⟩

theorem importPath_confined (hT : p₀.Territory N) (hlawful : ctx.importer.Lawful)
    {path : List String} (hs : Confined ctx p₀ N s) :
    (confinement ctx p₀ N).KeepsAt s (importPath ctx path) fun _ _ => True := by
  unfold importPath
  split
  · exact fail_confined hs (not_misused_of_text (by decide))
  · next last hlast =>
      refine .bind (P := fun _ _ => True) ?_ fun id t ht _ _ =>
        modifyScopes_confined ht (ht.scopes.bindModule True.intro) True.intro
      have hfits := hs.exportsFit
      have himport := hlawful path (".".intercalate path) s.pool s.imports (Pool.Inner N s.pool)
        (hs.pool.inner hT) hfits
      unfold Discipline.KeepsAt
      cases hresolve : ctx.importer.resolve path (".".intercalate path) (s.pool, s.imports) with
      | ok id r =>
          obtain ⟨q, imports⟩ := r
          simp only [hresolve, finalState] at himport ⊢
          obtain ⟨hkept, hpasses, hfits', hextends⟩ := himport
          obtain ⟨hconfined, hle⟩ := hs.imported hT hkept hpasses hfits' hextends
          exact ⟨hconfined, hle, True.intro⟩
      | error h r =>
          obtain ⟨q, imports⟩ := r
          simp only [hresolve, finalState] at himport ⊢
          obtain ⟨hkept, hpasses, hfits', hextends⟩ := himport
          obtain ⟨hconfined, hle⟩ := hs.imported hT hkept hpasses hfits' hextends
          exact ⟨hconfined, hle, fun _ => ⟨_, _, _, _, _, _, hs.pool.inner hT, hfits, hresolve⟩⟩

theorem declareType_confined (hT : p₀.Territory N) (hlawful : ctx.importer.Lawful)
    (statement : NodeId) (hs : Confined ctx p₀ N s) :
    (confinement ctx p₀ N).KeepsAt s (declareType ctx statement) fun _ _ => True := by
  unfold declareType
  split
  · exact .of_ok rfl ⟨hs.pool, hs.imports, hs.scopes, hs.exports, hs.returnType, hs.templates,
      hs.types, hs.signatures, hs.targets⟩ (.of_eq rfl rfl rfl) True.intro
  · exact importPath_confined hT hlawful hs
  · exact modifyScopes_confined hs hs.scopes.registerTrait True.intro
  · refine .bind (qualified_confined hs) fun link t ht _ _ => ?_
    exact .bind (newReference_confined hT ht) fun r u hu _ hr => declareTypeName_confined hu hr
  · refine .bind (qualified_confined hs) fun link t ht _ _ => ?_
    exact .bind (newData_confined hT ht) fun r u hu _ hr => declareTypeName_confined hu hr
  · exact .bind (declareTemplate_confined hs) fun _ t ht _ _ => .pure ht True.intro
  · refine .bind (declareTemplate_confined hs) fun template t ht _ _ => ?_
    refine Discipline.forM_keeps (P := fun _ => True) _ ht True.intro ?_
    rintro ⟨decl, index⟩ - u hu - -
    dsimp only
    split
    · exact modifyScopes_confined hu (hu.scopes.bindModule True.intro) True.intro
    · exact .pure hu True.intro
  · exact .pure hs True.intro

/-! ## Layouts and signatures -/

theorem layOutType_confined (hT : p₀.Territory N) {statement : NodeId}
    (hs : Confined ctx p₀ N s) :
    (confinement ctx p₀ N).KeepsAt s (layOutType ctx statement) fun _ _ => True := by
  unfold layOutType
  split
  · next body hnode =>
      refine .bind (recorded_confined hs) fun t u hu _ ht => ?_
      have hlate := (ht.2 (by simp [hnode, Node.declaresType])).1
      refine .bind (collectIvarsInto_confined (typeExpr_confined hT) _ hu (by simp))
        fun ivars v hv _ hivars => ?_
      exact setIvars_confined hT hv hlate hivars
  · next cases body hnode =>
      refine .bind (recorded_confined hs) fun t u hu _ ht => ?_
      have hlate := (ht.2 (by simp [hnode, Node.declaresType])).1
      refine .bind (addCases_confined hT (typeExpr_confined hT) hu hlate)
        fun added v hv _ hadded => ?_
      refine Discipline.forM_keeps (P := fun _ => True) _ hv True.intro
        fun variant hvariant w hw hle _ => ?_
      have hdeclarable := (hadded variant hvariant).mono hle.evolves
      cases hname : w.pool.caseShortName? variant with
      | none =>
          refine .of_ok (a := ⟨⟩) (t := w) ?_ hw ((confinement ctx p₀ N).refl w) True.intro
          show EStateM.Result.ok () _ = _
          simp only [hname]
      | some name =>
          refine .of_ok (a := ⟨⟩) (t := { w with
            scopes := w.scopes.bindModule name (.type variant)
            exports := w.exports.setType name variant }) ?_
            ⟨hw.pool, hw.imports, hw.scopes.bindModule hdeclarable, hw.exports.setType hdeclarable,
              hw.returnType, hw.templates, hw.types, hw.signatures, hw.targets⟩
            ⟨.refl _, List.Subset.refl _, fun _ _ h => h⟩ True.intro
          show EStateM.Result.ok () _ = _
          simp only [hname]
  · exact .pure hs True.intro

theorem declareFunction_confined (hT : p₀.Territory N) {statement : NodeId} {name : String}
    (hs : Confined ctx p₀ N s) :
    (confinement ctx p₀ N).KeepsAt s (declareFunction ctx statement name) fun _ _ => True := by
  unfold declareFunction
  refine .bind (signatureOf_confined hT (typeExpr_confined hT) hs) fun sig t ht _ hsig => ?_
  refine .bind_read ht (b := t) rfl ?_
  dsimp only
  split
  · exact .bind (mismatch_confined (Q := fun _ _ => False) ht) fun _ _ _ _ h => h.elim
  · refine .bind_read ht (b := ⟨t.walk, statement⟩) rfl ?_
    have hsub : t.exports.functions ⊆ (t.exports.addFunction sig).functions :=
      List.subset_append_left _ _
    have hexports : (t.exports.addFunction sig).Fits t.pool N := by
      refine ⟨fun other hother => ?_, ht.exports.types⟩
      simp only [Exports.addFunction, List.mem_append, List.mem_singleton] at hother
      rcases hother with hother | rfl
      · exact ht.exports.functions other hother
      · exact hsig
    have hset := ht.setSignature (v := ⟨t.walk, statement⟩) hsig
    have hadvances : Advances ctx p₀ N t { t with
        exports := t.exports.addFunction sig
        table := t.table.setSignature ⟨t.walk, statement⟩ sig } :=
      ⟨.refl _, hsub, fun _ _ h => h⟩
    exact .of_ok rfl ⟨hset.pool, hset.imports, hset.scopes, hexports, hset.returnType,
      hset.templates, hset.types, hset.signatures, fun v target htarget other hother =>
        (ht.targets v target htarget other hother).mono hadvances⟩ hadvances True.intro

theorem declareSignature_confined (hT : p₀.Territory N) {statement : NodeId}
    (hs : Confined ctx p₀ N s) :
    (confinement ctx p₀ N).KeepsAt s (declareSignature ctx statement) fun _ _ => True := by
  have hdeclareIn : (ctx.tree.node statement).declaresType = true → ∀ body,
      (confinement ctx p₀ N).KeepsAt s (declareSignature.declareIn ctx statement body)
        fun _ _ => True := by
    intro hnode body
    unfold declareSignature.declareIn
    refine .bind (recorded_confined hs) fun t u hu _ ht => ?_
    obtain ⟨hlate, hnominal⟩ := ht.2 hnode
    exact withTypeFrame_confined (Q := fun _ _ => True) hT hu hnominal fun v hv _ =>
      declareMethodsWithin_confined hT (typeExpr_confined hT) _ hv hlate
  unfold declareSignature
  split
  · exact declareFunction_confined hT hs
  · exact declareFunction_confined hT hs
  · next hnode => exact hdeclareIn (by simp [hnode, Node.declaresType]) _
  · next hnode => exact hdeclareIn (by simp [hnode, Node.declaresType]) _
  · exact .pure hs True.intro

/-! ## Bodies -/

variable {infer : NodeId → Typing σ TypeId}

/-- The frame of a method holds its parameters. -/
theorem methodFrame_fits {params : List NodeId} {sig : Signature} {p : Pool}
    (hsig : sig.Declarable p N) : (methodFrame ctx params sig).Fits p N := by
  refine Scope.Fits.empty.bindValues fun value hvalue => ?_
  obtain ⟨⟨node, param⟩, hparam, hvalue⟩ := List.mem_filterMap.1 hvalue
  have hdeclarable : p.Declarable N param.type :=
    hsig _ (List.mem_cons_of_mem _ (List.mem_map.2 ⟨param, (List.of_mem_zip hparam).2, rfl⟩))
  dsimp only at hvalue
  split at hvalue
  · cases hvalue
    exact hdeclarable.usable
  · cases hvalue

theorem walkMethod_confined (hinfer : InferConfined ctx p₀ N infer) {node : NodeId}
    (hs : Confined ctx p₀ N s) :
    (confinement ctx p₀ N).KeepsAt s (walkMethod ctx infer node) fun _ _ => True := by
  unfold walkMethod
  split
  · next params result body hnode =>
      refine .bind_read hs (b := ⟨s.walk, node⟩) rfl (.bind_read hs (b := s) rfl ?_)
      refine .bind (ofExcept_confined (Q := fun sig t => sig.Declarable t.pool N) hs
        (fun sig hsig => ?_) fun e he => ?_) fun sig t ht _ hsig => ?_
      · unfold TypeTable.signature at hsig
        split at hsig
        · next found hfound =>
            cases hsig
            exact hs.signatures _ _ hfound
        · cases hsig
      · unfold TypeTable.signature at he
        split at he <;> cases he
        exact not_misused_of_head (by simp [ToString.toString])
      · refine .bind (withFrame_confined (Q := fun _ _ => True) ht (methodFrame_fits hsig)
          fun u hu hle => withReturnType_confined (Q := fun _ _ => True) hu (fun r hr => ?_)
            fun v hv _ => (hinfer body v hv).trivial) fun r u hu _ _ => ?_
        · cases hr
          exact (hsig sig.result (by simp [Signature.types])).mono hle.evolves
        · refine .bind_read hu (b := u) rfl ?_
          dsimp only
          split
          · exact mismatch_confined hu
          · exact .pure hu True.intro
  · exact fail_confined hs (not_misused_of_text (by decide))

/-- One member of a body, given how the bodies of included traits are walked. -/
theorem walkMember_confined (hT : p₀.Territory N) (hinfer : InferConfined ctx p₀ N infer)
    {inner : NodeId → Typing σ Unit} {statement : NodeId}
    (hinner : ∀ body t, Confined ctx p₀ N t →
      (confinement ctx p₀ N).KeepsAt t (inner body) fun _ _ => True)
    (hs : Confined ctx p₀ N s) :
    (confinement ctx p₀ N).KeepsAt s (walkMember ctx infer inner statement) fun _ _ => True := by
  have hrecord : ∀ t, (ctx.tree.node statement).declaresType = false → Confined ctx p₀ N t →
      (confinement ctx p₀ N).KeepsAt t (record statement .void) fun _ _ => True := by
    intro t hnode ht
    exact record_confined ht (ht.builtin_usable hT (by decide)) (by simp [hnode])
      fun _ _ => True.intro
  have hkeep : (ctx.tree.node statement).declaresType = false →
      (confinement ctx p₀ N).KeepsAt s (do
        let v ← visit statement
        if ((← get).table.get? v).isNone then record statement .void) fun _ _ => True := by
    intro hnode
    refine .bind_read hs (b := ⟨s.walk, statement⟩) rfl (.bind_read hs (b := s) rfl ?_)
    split
    · exact hrecord s hnode hs
    · exact .pure hs True.intro
  unfold walkMember
  dsimp only
  split
  · next hnode =>
      refine .bind (walkMethod_confined hinfer hs) fun _ u hu _ _ => ?_
      exact hrecord u (by simp [hnode, Node.declaresType]) hu
  · next name hnode =>
      refine .bind (findTrait_confined hs) fun traitBody u hu _ _ => ?_
      refine .bind_read hu (b := ⟨u.walk, statement⟩) rfl (.bind_read hu (b := u) rfl ?_)
      split
      · exact fail_confined hu (not_misused_of_text (by decide))
      · refine .bind (withWalk_confined (Q := fun _ _ => True) hu fun v hv _ =>
          hinner traitBody v hv) fun _ v hv _ _ => ?_
        exact hrecord v (by simp [hnode, Node.declaresType]) hv
  · next hnode => exact hkeep (by simp [hnode, Node.declaresType])
  · next hnode => exact hkeep (by simp [hnode, Node.declaresType])
  · exact .bind (hinfer statement s hs) fun _ u hu _ _ => .pure hu True.intro

theorem walkMembersWithin_confined (hT : p₀.Territory N) (hinfer : InferConfined ctx p₀ N infer)
    (fuel : Nat) {body : NodeId} (hs : Confined ctx p₀ N s) :
    (confinement ctx p₀ N).KeepsAt s (walkMembersWithin ctx infer fuel body)
      fun _ _ => True := by
  induction fuel generalizing s body with
  | zero => exact outOfFuel_confined hs
  | succ fuel ih =>
      rw [walkMembersWithin_succ]
      exact Discipline.forM_keeps (P := fun _ => True) _ hs True.intro fun statement _ t ht _ _ =>
        walkMember_confined hT hinfer (fun _ _ hu => ih hu) ht

theorem walkDeclaredType_confined (hT : p₀.Territory N) (hinfer : InferConfined ctx p₀ N infer)
    {decl : NodeId} {typeParam : Option String} {body : Option NodeId}
    (hnode : typeParam = none → (ctx.tree.node decl).declaresType = true)
    (hs : Confined ctx p₀ N s) :
    (confinement ctx p₀ N).KeepsAt s (walkDeclaredType ctx infer decl typeParam body)
      fun t u => u.pool.Usable N t ∧
        (typeParam = none → p₀.size ≤ t ∧ u.pool.Nominal N t) := by
  unfold walkDeclaredType
  cases typeParam with
  | some param => exact .pure hs ⟨hs.builtin_usable hT (by decide), by simp⟩
  | none =>
      refine .bind (recorded_confined hs) fun t u hu _ ht => ?_
      obtain ⟨hlate, hnominal⟩ := ht.2 (hnode rfl)
      cases body with
      | none => exact .pure hu ⟨hnominal.1.usable, fun _ => ⟨hlate, hnominal⟩⟩
      | some body =>
          refine .bind (withTypeFrame_confined (Q := fun _ _ => True) hT hu hnominal fun v hv _ =>
            walkMembersWithin_confined hT hinfer _ hv) fun _ v hv hle _ => ?_
          have hnominal' := hnominal.mono hle.evolves
          exact .pure hv ⟨hnominal'.1.usable, fun _ => ⟨hlate, hnominal'⟩⟩

/-- The type of a node is usable, and that of a declared type is the module's own. -/
theorem inferNode_confined (hT : p₀.Territory N) (hinfer : InferConfined ctx p₀ N infer)
    {node : NodeId} (hs : Confined ctx p₀ N s) :
    (confinement ctx p₀ N).KeepsAt s (inferNode ctx infer node) fun t u => u.pool.Usable N t ∧
      ((ctx.tree.node node).declaresType = true → p₀.size ≤ t ∧ u.pool.Nominal N t) := by
  -- of all nodes only classes and data types that are not generic declare a type
  have hplain : ∀ {d : Node} {step : Typing σ TypeId}, d.declaresType = false →
      (confinement ctx p₀ N).KeepsAt s step (fun t u => u.pool.Usable N t) →
      (confinement ctx p₀ N).KeepsAt s step fun t u => u.pool.Usable N t ∧
        (d.declaresType = true → p₀.size ≤ t ∧ u.pool.Nominal N t) :=
    fun hnode h => h.weaken fun _ _ _ _ ht => ⟨ht, by simp [hnode]⟩
  have hbuiltin : ∀ t < Pool.initial.size, ∀ u, Confined ctx p₀ N u →
      (confinement ctx p₀ N).KeepsAt u (pure t) fun t u => u.pool.Usable N t :=
    fun t ht u hu => .pure hu (hu.builtin_usable hT ht)
  have htype : ∀ type, (confinement ctx p₀ N).KeepsAt s (typeExpr ctx type)
      fun t u => u.pool.Usable N t :=
    fun type => (typeExpr_confined hT type s hs).weaken fun _ _ _ _ ht => ht.usable
  unfold inferNode
  cases hnode : ctx.tree.node node with
  | classDef name typeParam body | dataDef name typeParam cases body =>
      refine (walkDeclaredType_confined hT hinfer ?_ hs).weaken fun t u _ _ ht =>
        ⟨ht.1, fun hdecl => ht.2 ?_⟩
      · rintro rfl
        simp [hnode, Node.declaresType]
      · cases typeParam with
        | none => rfl
        | some => simp [Node.declaresType] at hdecl
  | seq statements =>
      refine hplain rfl ?_
      exact Discipline.foldlM_keeps (P := fun t (u : TypingState σ) => u.pool.Usable N t) _ hs
        (hs.builtin_usable hT (by decide)) fun statement _ _ u hu _ _ => hinfer statement u hu
  | number => exact hplain rfl (hbuiltin TypeId.integer (by decide) s hs)
  | bool => exact hplain rfl (hbuiltin TypeId.boolean (by decide) s hs)
  | text => exact hplain rfl (hbuiltin TypeId.string (by decide) s hs)
  | ident name => exact hplain rfl (inferIdent_confined hT hs)
  | ivar name => exact hplain rfl (ivarInScope_confined hs)
  | selfRef =>
      refine hplain rfl (.bind_read hs (b := s) rfl ?_)
      split
      · next t ht => exact .pure hs (hs.scopes.currentType ht).1.usable
      · exact fail_confined hs (not_misused_of_kind (by simp))
  | varargs | methodDec | traitDef | importModule | package =>
      exact hplain rfl (hbuiltin TypeId.void (by decide) s hs)
  | typed | namedType | pointerType | templatedType | closureType => exact hplain rfl (htype node)
  | methodDef =>
      refine hplain rfl (.bind (walkMethod_confined hinfer hs) fun _ t ht _ _ => ?_)
      exact hbuiltin TypeId.void (by decide) t ht
  | caseDef => exact hplain rfl ((recorded_confined hs).weaken fun _ _ _ _ ht => ht.1)
  | ivarDecl name type => exact hplain rfl (htype type)
  | inclusion => exact mismatch_confined hs
  | var => exact hplain rfl (inferVar_confined hT hinfer hs)
  | assign => exact hplain rfl (inferAssign_confined hT hinfer hs)
  | call receiver method args =>
      cases receiver with
      | some receiver => exact hplain rfl (inferReceiverCall_confined hT hinfer hs)
      | none => exact hplain rfl (inferBareCall_confined hT hinfer hs)
  | namedArg name value => exact hplain rfl (hinfer value s hs)
  | templatedInstance => exact hplain rfl (inferTemplatedInstance_confined hT hinfer hs)
  | binary => exact hplain rfl (inferBinary_confined hT hinfer hs)
  | unary => exact hplain rfl (inferUnary_confined hT hinfer hs)
  | branch cond yes no =>
      refine hplain rfl (.bind (inferCondition_confined hinfer hs) fun _ t ht _ _ => ?_)
      refine .bind (hinfer yes t ht) fun _ u hu _ _ => ?_
      cases no with
      | none => exact hbuiltin TypeId.void (by decide) u hu
      | some no =>
          show (confinement ctx p₀ N).KeepsAt u ((infer no >>= fun _ => pure PUnit.unit) >>=
            fun _ => pure TypeId.void) _
          refine .bind (P := fun _ _ => True) ?_ fun _ v hv _ _ => hbuiltin TypeId.void (by decide) v hv
          exact .bind (hinfer no u hu) fun _ v hv _ _ => .pure hv True.intro
  | loop cond body =>
      refine hplain rfl (.bind (inferCondition_confined hinfer hs) fun _ t ht _ _ => ?_)
      exact .bind (hinfer body t ht) fun _ u hu _ _ => hbuiltin TypeId.void (by decide) u hu
  | select => exact hplain rfl (inferSelect_confined hT hinfer hs)
  | arm | pattern => exact fail_confined hs (not_misused_of_text (by decide))
  | ret => exact hplain rfl (inferReturn_confined hT hinfer hs)
  | lambda => exact hplain rfl (inferLambda_confined hT hinfer hs)

/-- Expressions have types of the territory. -/
theorem inferWithin_confined (hT : p₀.Territory N) (fuel : Nat) :
    InferConfined ctx p₀ N (inferWithin ctx fuel) := by
  induction fuel with
  | zero => exact fun _ s hs => outOfFuel_confined hs
  | succ fuel ih =>
      intro node s hs
      unfold inferWithin
      refine .bind (inferNode_confined hT ih hs) fun t u hu _ ht => ?_
      refine .bind (record_confined (Q := fun _ v => v.pool = u.pool) hu ht.1 ht.2 fun _ h => h)
        fun _ v hv _ hpool => .pure hv ?_
      rw [hpool]
      exact ht.1

/-! ## The whole module -/

/-- The frame in which the members of an expansion are typed. -/
theorem expansionFrame_fits (hT : p₀.Territory N) (hs : Confined ctx p₀ N s) {id : TemplateId}
    {index : Nat} {expansion : Expansion}
    (hexpansion : (s.templates.getD id default).expansions[index]? = some expansion) :
    ((Scope.forType expansion.type (s.pool.ivars expansion.type)).bind
      (s.templates.getD id default).param (.type (expansion.args.headD .void))).Fits s.pool N := by
  have hmem : expansion ∈ (s.templates.getD id default).expansions :=
    List.mem_of_getElem? hexpansion
  rw [List.getD_eq_getElem?_getD] at hmem
  cases hid : s.templates[id]? with
  | none =>
      rw [hid] at hmem
      simp [default] at hmem
  | some template =>
      rw [hid] at hmem
      obtain ⟨hnominal, hargs⟩ :=
        hs.templates template (List.mem_of_getElem? hid) expansion hmem
      have harg : s.pool.Declarable N (expansion.args.headD .void) := by
        cases h : expansion.args with
        | nil => exact hs.pool.builtin hT (by decide)
        | cons arg rest => exact hargs arg (by simp [h])
      exact (Scope.Fits.forType hnominal (ivars_declarable hT hs hnominal.1.usable)).bind harg

theorem walkExpansion_confined (hT : p₀.Territory N) {id : TemplateId} {index : Nat}
    (hs : Confined ctx p₀ N s) :
    (confinement ctx p₀ N).KeepsAt s (walkExpansion ctx id index) fun _ _ => True := by
  unfold walkExpansion
  refine .bind_read hs (b := s) rfl ?_
  dsimp only
  split
  · next body expansion _ hexpansion =>
      refine withIsolatedFrame_confined (Q := fun _ _ => True) hs
        (expansionFrame_fits hT hs hexpansion) fun t ht _ _ => ?_
      exact walkMembersWithin_confined hT (inferWithin_confined hT _) _ ht
  · exact .pure hs True.intro

theorem drainPending_confined (hT : p₀.Territory N) (fuel : Nat) (hs : Confined ctx p₀ N s) :
    (confinement ctx p₀ N).KeepsAt s (drainPending ctx fuel) fun _ _ => True := by
  induction fuel generalizing s with
  | zero =>
      unfold drainPending
      refine .bind_read hs (b := s) rfl ?_
      split
      · exact outOfFuel_confined hs
      · exact .pure hs True.intro
  | succ fuel ih =>
      unfold drainPending
      refine .bind_read hs (b := s) rfl ?_
      split
      · exact .pure hs True.intro
      · refine .bind (.of_ok (Q := fun _ _ => True) rfl ⟨hs.pool, hs.imports, hs.scopes, hs.exports,
          hs.returnType, hs.templates, hs.types, hs.signatures, hs.targets⟩ (.of_eq rfl rfl rfl)
          True.intro) fun _ t ht _ _ => ?_
        exact .bind (walkExpansion_confined hT ht) fun _ u hu _ _ => ih hu

/-- Typing a module stays in its territory. What it offers is confined, and what its calls mean
can be called. -/
theorem calculate_confined (hT : p₀.Territory N) (hlawful : ctx.importer.Lawful)
    (hs : Confined ctx p₀ N s) :
    (confinement ctx p₀ N).KeepsAt s (calculate ctx) fun typed u =>
      typed = { table := u.table, templates := u.templates, exports := u.exports } := by
  unfold calculate
  refine .bind (Discipline.forM_keeps (P := fun _ => True) _ hs True.intro
    fun statement _ t ht _ _ => declareType_confined hT hlawful statement ht) fun _ t ht _ _ => ?_
  refine .bind (Discipline.forM_keeps (P := fun _ => True) _ ht True.intro
    fun statement _ u hu _ _ => layOutType_confined hT hu) fun _ u hu _ _ => ?_
  refine .bind (Discipline.forM_keeps (P := fun _ => True) _ hu True.intro
    fun statement _ v hv _ _ => declareSignature_confined hT hv) fun _ v hv _ _ => ?_
  refine .bind (inferWithin_confined hT _ _ v hv) fun _ w hw _ _ => ?_
  refine .bind (drainPending_confined hT _ hw) fun _ x hx _ _ => ?_
  exact .bind_read hx (b := x) rfl (.pure hx rfl)

/-- A calculation begins confined: nothing is in scope yet, and nothing is recorded. -/
theorem Confined.initial (hT : p₀.Territory N) {imports : σ}
    (hfits : ctx.importer.ExportsFit p₀ N imports) :
    Confined ctx p₀ N { pool := p₀, imports } where
  pool := ⟨hT.sound, ⟨Nat.le_refl _, fun _ _ => rfl⟩, hT.respects⟩
  imports := hfits
  scopes := .of_frames .empty (by simp)
  exports := ⟨by simp, by simp⟩
  returnType := by simp
  templates := by simp
  types v t ht := by simp [TypeTable.get?] at ht
  signatures v sig hsig := by simp at hsig
  targets v target htarget := by simp at htarget

end ClassLang.Typing
