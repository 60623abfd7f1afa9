import ClassLang.Proofs.Typing.ArgumentBodies
import ClassLang.Proofs.Typing.CheckedModules

/-!
# Calls of a module are checked

A node is typed by the step for its kind, and a call is checked when its step ends: what it means
was recorded after its arguments were compared. Declarations and layouts leave arguments alone, and
when typing begins no call means anything yet. So when a module is typed, each of its calls in each
walk was checked.
-/

namespace ClassLang.Typing

variable {σ : Type} {ctx : TypingContext σ} {O W : Visit → Prop} {p₀ : Pool} {N : TypeId → Prop}
  {s t : TypingState σ} {node : NodeId} {infer : NodeId → Typing σ TypeId}

/-! ## Nodes -/

theorem withTypeFrame_checks {α : Type} {R : α → TypeTable → Pool → Prop} {step : Typing σ α}
    (owner : TypeId) (hs : CallsChecked ctx O s)
    (hstep : CallsChecked ctx O { s with
        scopes := s.scopes.push (Scope.forType owner (s.pool.ivars owner)) } →
      (checking ctx O W).KeepsAt { s with
          scopes := s.scopes.push (Scope.forType owner (s.pool.ivars owner)) } step
        fun a t => R a t.table t.pool) :
    (checking ctx O W).KeepsAt s (withTypeFrame owner step) fun a t => R a t.table t.pool :=
  .bind_read hs (b := s) rfl (withFrame_checks hs .forType hstep)

/-- The members of a declared type are walked in the frame of the type. -/
theorem walkDeclaredType_checks (hT : p₀.Territory N) (htree : ctx.tree.TreeShaped)
    (hconfined : InferConfined ctx p₀ N infer) (hinfer : InferChecks ctx p₀ N infer)
    {typeParam : Option String} {body : Option NodeId}
    (hnode : typeParam = none → (ctx.tree.node node).declaresType = true)
    (hno : ctx.tree.callArgs? node = none) (hbody : body.toList ⊆ (ctx.tree.node node).children)
    (hc : Confined ctx p₀ N s) (hs : CallsChecked ctx O s) (hw : Walkable ctx W s.walk node) :
    (checking ctx O W).KeepsAt s (walkDeclaredType ctx infer node typeParam body)
      fun _ _ => True := by
  unfold walkDeclaredType
  cases typeParam with
  | some param => exact .pure hs trivial
  | none =>
      refine .bind ((recorded_checks node s hs).and (recorded_confined hc).succeeds) ?_
      rintro r t ht hle ⟨-, hct, -, hr⟩
      cases body with
      | none => exact .pure ht trivial
      | some body =>
          have hchild : body ∈ (ctx.tree.node node).children := hbody (by simp)
          refine .bind (withTypeFrame_checks (R := fun _ _ _ => True) r ht fun hu => ?_)
            fun _ u hu _ _ => .pure hu trivial
          have hnominal := (hr.2 (hnode rfl)).2
          exact walkMembersWithin_checks hT htree hconfined hinfer _
            (hct.setScopes (hct.scopes.push
              (.forType hnominal (ivars_declarable hT hct hnominal.1.usable)))) hu
            (hle.walk ▸ hw.child hchild) (htree.not_isArg_child hno hchild)

/-- Once a node is typed, it is checked if it is a call. -/
theorem inferNode_closes (hT : p₀.Territory N) (htree : ctx.tree.TreeShaped) {fuel : Nat}
    (hinfer : InferChecks ctx p₀ N (inferWithin ctx fuel)) (hc : Confined ctx p₀ N s)
    (hs : CallsChecked ctx O s) (hnode : Enterable ctx O W s.walk node) (hopen : O ⟨s.walk, node⟩) :
    (checking ctx O W).KeepsAt s (inferNode ctx (inferWithin ctx fuel) node) fun _ t =>
      Closes ctx node t := by
  have hconfined : InferConfined ctx p₀ N (inferWithin ctx fuel) := inferWithin_confined hT fuel
  have hw := hnode.walkable
  have hcall : Entered ctx O W s.walk node := ⟨hnode.below, hopen, hnode.region⟩
  -- nodes without arguments are checked whatever is recorded
  have hplain {step : Typing σ TypeId} (hno : ctx.tree.callArgs? node = none)
      (h : (checking ctx O W).KeepsAt s step fun _ _ => True) :
      (checking ctx O W).KeepsAt s step fun _ t => Closes ctx node t :=
    h.weaken fun _ _ _ _ _ _ args _ _ hargs => by simp [hno] at hargs
  have htype (hno : ctx.tree.callArgs? node = none) :
      (checking ctx O W).KeepsAt s (typeExpr ctx node) fun _ t => Closes ctx node t :=
    hplain hno (typeExprWithin_checks htree _ hs hnode.annotatable).trivial
  unfold inferNode
  cases hn : ctx.tree.node node with
  | call receiver method args =>
      cases receiver with
      | some receiver => exact inferReceiverCall_checks hT htree hinfer hn hc hs hcall
      | none => exact inferBareCall_checks htree hinfer method (by simp [SyntaxTree.callArgs?, hn]) hc hs hcall
  | templatedInstance => exact inferTemplatedInstance_checks hT htree hinfer hn hc hs hcall
  | classDef name typeParam body =>
      have hno : ctx.tree.callArgs? node = none := by simp [SyntaxTree.callArgs?, hn]
      refine hplain hno (walkDeclaredType_checks hT htree hconfined hinfer ?_ hno ?_ hc hs hw)
      · rintro rfl
        simp [hn, Node.declaresType]
      · simp [hn, Node.children]
  | dataDef name typeParam cases body =>
      have hno : ctx.tree.callArgs? node = none := by simp [SyntaxTree.callArgs?, hn]
      refine hplain hno (walkDeclaredType_checks hT htree hconfined hinfer ?_ hno ?_ hc hs hw)
      · rintro rfl
        simp [hn, Node.declaresType]
      · simp [hn, Node.children]
  | seq statements =>
      have hno : ctx.tree.callArgs? node = none := by simp [SyntaxTree.callArgs?, hn]
      refine hplain hno (Discipline.foldlM_keeps (P := fun _ => Confined ctx p₀ N) _ hs hc
        fun statement hstatement _ t ht hle hct => ?_).trivial
      exact (infer_part htree hinfer hct ht (hle.walk ▸ hw) hno
        (by simp [hn, Node.children, hstatement])).weaken fun _ _ _ _ h => h.1
  | branch cond yes no =>
      have hno : ctx.tree.callArgs? node = none := by simp [SyntaxTree.callArgs?, hn]
      refine hplain hno (.bind (inferCondition_checks htree hinfer hc hs hw hno
        (by simp [hn, Node.children])) ?_)
      rintro _ t ht - ⟨hct, hwt⟩
      refine .bind (infer_part htree hinfer hct ht hwt hno (by simp [hn, Node.children])) ?_
      rintro _ u hu - ⟨hcu, hwu⟩
      cases no with
      | none => exact .pure hu trivial
      | some no =>
          refine .bind (P := fun _ _ => True) (.bind (infer_part htree hinfer hcu hu hwu hno
            (by simp [hn, Node.children])) fun _ v hv _ _ => .pure hv trivial)
            fun _ v hv _ _ => .pure hv trivial
  | loop cond body =>
      have hno : ctx.tree.callArgs? node = none := by simp [SyntaxTree.callArgs?, hn]
      refine hplain hno (.bind (inferCondition_checks htree hinfer hc hs hw hno
        (by simp [hn, Node.children])) ?_)
      rintro _ t ht - ⟨hct, hwt⟩
      exact .bind (infer_part htree hinfer hct ht hwt hno (by simp [hn, Node.children]))
        fun _ u hu _ _ => .pure hu trivial
  | namedArg name value =>
      have hno : ctx.tree.callArgs? node = none := by simp [SyntaxTree.callArgs?, hn]
      exact hplain hno
        (infer_part htree hinfer hc hs hw hno (by simp [hn, Node.children])).trivial
  | ivarDecl name type =>
      have hno : ctx.tree.callArgs? node = none := by simp [SyntaxTree.callArgs?, hn]
      exact hplain hno (typeExpr_checks htree type
        (htree.not_isArg_child hno (by simp [hn, Node.children])) s hs)
  | typed | namedType | pointerType | templatedType | closureType =>
      exact htype (by simp [SyntaxTree.callArgs?, hn])
  | var => exact hplain (by simp [SyntaxTree.callArgs?, hn]) (inferVar_checks htree hinfer hc hs hw hn)
  | assign => exact hplain (by simp [SyntaxTree.callArgs?, hn]) (inferAssign_checks htree hinfer hc hs hw hn)
  | binary => exact hplain (by simp [SyntaxTree.callArgs?, hn]) (inferBinary_checks htree hinfer hc hs hw hn)
  | unary => exact hplain (by simp [SyntaxTree.callArgs?, hn]) (inferUnary_checks htree hinfer hc hs hw hn)
  | ret => exact hplain (by simp [SyntaxTree.callArgs?, hn]) (inferReturn_checks htree hinfer hc hs hw hn)
  | select =>
      exact hplain (by simp [SyntaxTree.callArgs?, hn]) (inferSelect_checks hT htree hconfined hinfer hc hs hw hn)
  | lambda =>
      exact hplain (by simp [SyntaxTree.callArgs?, hn]) (inferLambda_checks hT htree hinfer hc hs hw hn)
  | methodDef =>
      exact hplain (by simp [SyntaxTree.callArgs?, hn]) (.bind (walkMethod_checks htree hinfer hc hs hw)
        fun _ t ht _ _ => .pure ht trivial)
  | ident name => exact hplain (by simp [SyntaxTree.callArgs?, hn]) (inferIdent_checks node name s hs)
  | ivar name => exact hplain (by simp [SyntaxTree.callArgs?, hn]) (ivarInScope_checks name s hs)
  | caseDef => exact hplain (by simp [SyntaxTree.callArgs?, hn]) (recorded_checks node s hs)
  | selfRef =>
      refine hplain (by simp [SyntaxTree.callArgs?, hn]) (.bind_read hs (b := s) rfl ?_)
      split
      · exact .pure hs trivial
      · exact fail_checks _
  | number | bool | text | varargs | methodDec | traitDef | importModule | package =>
      exact hplain (by simp [SyntaxTree.callArgs?, hn]) (.pure hs trivial)
  | inclusion => exact mismatch_checks _
  | arm | pattern => exact fail_checks _

/-- Typing a node keeps calls checked, those inside the node and the node itself included. -/
theorem inferWithin_checksCalls (hT : p₀.Territory N) (htree : ctx.tree.TreeShaped) (fuel : Nat) :
    InferChecks ctx p₀ N (inferWithin ctx fuel) := by
  induction fuel with
  | zero => exact fun _ _ _ _ _ _ _ => stop_checks _
  | succ fuel ih =>
      intro O W node s hc hs hnode
      have hstep : (checking ctx O W).KeepsAt s (inferNode ctx (inferWithin ctx fuel) node)
          fun _ _ => True := by
        refine close_checking (v := ⟨s.walk, node⟩) hs fun hopened => ?_
        have hnode' : Enterable ctx (fun v => O v ∨ v = ⟨s.walk, node⟩) W s.walk node :=
          ⟨hnode.below, fun call harg => .inl (hnode.opened call harg), hnode.region⟩
        have hclosed := inferNode_closes hT htree ih hc hopened hnode' (.inr rfl)
        refine (hclosed.and (inferNode_confined hT (inferWithin_confined hT fuel) hc).succeeds).weaken ?_
        rintro r t - hle ⟨hcloses, hct, -, -⟩
        exact ⟨trivial, hle.walk ▸ hcloses hct.pool.sound.founded⟩
      have hrun : (checking ctx O W).KeepsAt s (inferWithin ctx (fuel + 1) node) fun r t =>
          t.table.get? ⟨t.walk, node⟩ = some r :=
        .bind hstep fun r t ht hle _ => .bind (record_at ht (hle.walk ▸ hnode.annotatable)
          (Q := fun _ u => u.table.get? ⟨u.walk, node⟩ = some r) (TypeTable.get?_record_self _ _ _))
          fun _ u hu _ h => .pure hu h
      exact (hrun.and (inferWithin_confined hT _ node s hc).succeeds).weaken
        fun _ _ _ _ ⟨hrecorded, hct, _, _⟩ => ⟨hct, hrecorded⟩

/-! ## Layouts and signatures -/

theorem layOutType_checks (htree : ctx.tree.TreeShaped) (statement : NodeId) :
    (checking ctx O W).Keeps (layOutType ctx statement) fun _ => True := by
  unfold layOutType
  split
  · next name body hnode =>
      have hbodyOf : ctx.tree.bodyOf? statement = some body := by simp [SyntaxTree.bodyOf?, hnode]
      have hbody := htree.not_isArg_body hbodyOf
      refine (recorded_checks statement).seq fun r => ?_
      refine (collectIvarsInto_checks htree (typeExpr_checks htree) _ _ _ hbody).seq fun ivars => ?_
      exact updatePool_checks fun p q hq => (Pool.Change.setIvars hq).evolves
  · next name cases body hnode =>
      refine (recorded_checks statement).seq fun r => ?_
      have hno : ctx.tree.callArgs? statement = none := by simp [SyntaxTree.callArgs?, hnode]
      refine (addCases_checks htree (typeExpr_checks htree) r hno fun case hcase => by simp [hnode, Node.children, hcase]).seq fun added => ?_
      refine .forM fun variant _ u hu => ?_
      cases hname : u.pool.caseShortName? variant with
      | none =>
          refine .of_ok (a := ⟨⟩) (t := u) ?_ hu (.refl u) trivial
          show EStateM.Result.ok () _ = _
          simp only [hname]
      | some name =>
          refine .of_ok (a := ⟨⟩) (t := { u with
            scopes := u.scopes.bindModule name (.type variant)
            exports := u.exports.setType name variant }) ?_
            { hu with scopes := hu.scopes.bindModule (by simp) } (.of_same rfl rfl rfl (.refl _)) trivial
          show EStateM.Result.ok () _ = _
          simp only [hname]
  · exact .pure trivial

theorem declareFunction_checks (htree : ctx.tree.TreeShaped) (statement : NodeId) (name : String) :
    (checking ctx O W).Keeps (declareFunction ctx statement name) fun _ => True := by
  refine (signatureOf_checks htree (typeExpr_checks htree) _ _).seq fun sig => .get fun u _ => ?_
  dsimp only
  split
  · exact fun _ _ => mismatch_then_checks _ _
  · intro v hv
    exact .of_ok (t := { v with
      exports := v.exports.addFunction sig
      table := v.table.setSignature { walk := v.walk, node := statement } sig }) rfl
      (hv.setFindings { hv with } hv.later rfl rfl rfl rfl)
      { (Spares.refl v : Spares ctx W v v) with } trivial

theorem declareSignature_checks (htree : ctx.tree.TreeShaped) (statement : NodeId) :
    (checking ctx O W).Keeps (declareSignature ctx statement) fun _ => True := by
  have hmembers (body : NodeId) (hbody : ctx.tree.bodyOf? statement = some body) :
      (checking ctx O W).Keeps (declareSignature.declareIn ctx statement body) fun _ => True :=
    (recorded_checks statement).seq fun r _ hu => withTypeFrame_checks (R := fun _ _ _ => True) r hu
      fun hv => declareMethodsWithin_checks htree (typeExpr_checks htree) r _
        (htree.not_isArg_body hbody) _ hv
  unfold declareSignature
  split
  · exact declareFunction_checks htree _ _
  · exact declareFunction_checks htree _ _
  · next hnode => exact hmembers _ (by simp [SyntaxTree.bodyOf?, hnode])
  · next hnode => exact hmembers _ (by simp [SyntaxTree.bodyOf?, hnode])
  · exact .pure trivial

/-! ## Expansions -/

/-- In any walk, everything may be written. -/
theorem Walkable.of_below_root {walk : InstanceId} (h : ctx.tree.Below ctx.tree.root node) :
    Walkable ctx (fun _ => True) walk node :=
  ⟨h, fun _ _ => trivial⟩

theorem walkExpansion_checks (hT : p₀.Territory N) (htree : ctx.tree.TreeShaped) (id : TemplateId)
    (index : Nat) (hc : Confined ctx p₀ N s) (hs : CallsChecked ctx O s) :
    (checking ctx O fun _ => True).KeepsAt s (walkExpansion ctx id index) fun _ _ => True := by
  unfold walkExpansion
  refine .bind_read hs (b := s) rfl ?_
  dsimp only
  split
  · next body expansion hfound hexpansion =>
      have hbody : ctx.tree.bodyOf? (s.templates.getD id default).decl = some body := hfound
      have he := expansionAt?_eq_some_iff.2 ⟨rfl, hexpansion⟩
      have hdecl := hs.templates _ (decl_mem_of_expansionAt? he)
      refine withIsolatedFrame_checks (R := fun _ _ _ => True) hs
        (hs.expansions_lt id index _ _ he) (Scope.Plain.forType.bind (by simp)) fun t ht heq => ?_
      have hct : Confined ctx p₀ N t := by
        rw [heq]
        exact (hc.setScopes (hc.scopes.isolate.push (expansionFrame_fits hT hc hexpansion))).setWalk
          (by simp)
      exact walkMembersWithin_checks hT htree (inferWithin_confined hT _)
        (inferWithin_checksCalls hT htree _) _ hct ht
        (.of_below_root ((SyntaxTree.below_of_mem_statements hdecl).tail
          (SyntaxTree.mem_children_of_bodyOf hbody))) (htree.not_isArg_body hbody)
  · exact .pure hs trivial

theorem drainPending_checks (hT : p₀.Territory N) (htree : ctx.tree.TreeShaped) (fuel : Nat)
    (hc : Confined ctx p₀ N s) (hs : CallsChecked ctx O s) :
    (checking ctx O fun _ => True).KeepsAt s (drainPending ctx fuel) fun _ _ => True := by
  induction fuel generalizing s with
  | zero =>
      unfold drainPending
      refine .bind_read hs (b := s) rfl ?_
      split
      · exact stop_checks _
      · exact .pure hs trivial
  | succ fuel ih =>
      unfold drainPending
      refine .bind_read hs (b := s) rfl ?_
      split
      · exact .pure hs trivial
      · next id index rest _ =>
          have hct : Confined ctx p₀ N { s with pending := rest } := { hc with }
          refine .bind (P := fun _ u => u = { s with pending := rest })
            (.of_ok rfl { hs with } (.of_same rfl rfl rfl (.refl _)) rfl) ?_
          rintro - _ ht - rfl
          refine .bind ((walkExpansion_checks hT htree id index hct ht).and
            (walkExpansion_confined hT hct).succeeds) ?_
          rintro - u hu - ⟨-, hcu, -, -⟩
          exact ih hcu hu

/-! ## The whole module -/

/-- Every call of a unit was checked, in a pool that is founded. -/
structure ModuleCallsChecked (ctx : TypingContext σ) (table : TypeTable) (p : Pool) : Prop where
  founded : p.Founded
  calls : ∀ v : Visit, ctx.tree.Below ctx.tree.root v.node → CallChecked ctx table p v

/-- When the names of a module are declared, no call means anything yet. -/
theorem Named.callsChecked {known : σ → String → Prop}
    (h : Named ctx known (ctx.tree.statements ctx.tree.root) s) :
    CallsChecked ctx (fun _ => False) s where
  toOrderly := h.orderly
  later v walk hwalk := by simp [h.inclusions v] at hwalk
  templates decl hdecl := by
    rw [h.decls] at hdecl
    exact List.mem_of_mem_filter hdecl
  calls v _ _ args target sig _ htarget _ := by
    refine absurd ?_ (h.targets v)
    simp [TypeTable.HasTarget, htarget]

theorem typeNamed_checksCalls {known : σ → String → Prop} (hT : p₀.Territory N)
    (htree : ctx.tree.TreeShaped) (hc : Confined ctx p₀ N s)
    (h : Named ctx known (ctx.tree.statements ctx.tree.root) s) :
    (checking ctx (fun _ => False) fun _ => True).KeepsAt s (typeNamed ctx) fun typed t =>
      typed = t.typed ∧ ModuleCallsChecked ctx t.table t.pool := by
  unfold typeNamed
  refine .bind (((Discipline.Keeps.forM fun statement _ => layOutType_checks htree statement)
    s h.callsChecked).and (Discipline.forM_keeps (P := fun _ => True) _ hc trivial
      fun statement _ t ht _ _ => layOutType_confined hT ht).succeeds) ?_
  rintro - t ht - ⟨-, hct, -, -⟩
  refine .bind (((Discipline.Keeps.forM fun statement _ => declareSignature_checks htree statement)
    t ht).and (Discipline.forM_keeps (P := fun _ => True) _ hct trivial
      fun statement _ u hu _ _ => declareSignature_confined hT hu).succeeds) ?_
  rintro - u hu - ⟨-, hcu, -, -⟩
  refine .bind (inferWithin_checksCalls hT htree _ _ _ _ u hcu hu
    ((Walkable.of_below_root .refl).enterable htree.not_isArg_root)) ?_
  rintro _ v hv - ⟨hcv, -⟩
  refine .bind ((drainPending_checks hT htree _ hcv hv).and (drainPending_confined hT _ hcv).succeeds) ?_
  rintro - w hw - ⟨-, hcw, -, -⟩
  refine .bind_read hw (b := w) rfl (.pure hw ⟨rfl, hcw.pool.sound.founded, ?_⟩)
  exact fun v hv => hw.calls v hv id

/-- Every importer knows enough for names that are all known. -/
theorem accountable_true (importer : Importer σ) : importer.Accountable fun _ _ => True :=
  fun _ _ _ _ _ _ _ _ _ _ _ _ => ⟨fun _ _ _ => trivial, fun _ _ _ _ _ => trivial⟩

/-- When typing a module succeeds, every call of the unit was checked. -/
theorem calculate_checksCalls (hT : p₀.Territory N) (hlawful : ctx.importer.Lawful)
    (htree : ctx.tree.TreeShaped) (hc : Confined ctx p₀ N s)
    (h : Named ctx (fun _ _ => True) [] s) {typed : TypedModule}
    (hrun : calculate ctx s = .ok typed t) :
    typed = t.typed ∧ ModuleCallsChecked ctx t.table t.pool := by
  rw [calculate_eq] at hrun
  obtain ⟨_, u, hdeclare, hrest⟩ := bind_eq_ok.mp hrun
  obtain ⟨hcu, -, hnamed⟩ := (declareTypes_named hT hlawful (accountable_true _)
    (ctx.tree.statements ctx.tree.root) hc h).ok hdeclare
  exact ((typeNamed_checksCalls hT htree hcu hnamed).ok hrest).2.2

end ClassLang.Typing
