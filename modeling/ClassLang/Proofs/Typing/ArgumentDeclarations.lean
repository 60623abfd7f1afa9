import ClassLang.Proofs.Typing.ArgumentChecks
import ClassLang.Proofs.Typing.SteadyDeclarations

/-!
# Declarations leave arguments alone

Type expressions, members, signatures and expansions record types for the nodes of declarations and
type expressions only. None of these is an argument of a call, so calls that were checked stay
checked.
-/

namespace ClassLang.Typing

variable {σ : Type} {ctx : TypingContext σ} {O W : Visit → Prop} {s : TypingState σ}
  {node body decl statement : NodeId}

/-- What is read as a type, and is no argument, leaves arguments alone. -/
def TypeExprSpares (ctx : TypingContext σ) (O W : Visit → Prop)
    (typeExpr : NodeId → Typing σ TypeId) : Prop :=
  ∀ node, ¬ ctx.tree.IsArg node → (checking ctx O W).Keeps (typeExpr node) fun _ => True

variable {typeExpr : NodeId → Typing σ TypeId}

/-! ## Members -/

/-- The trait that is found is the one of the tree. -/
theorem findTrait_checks (name : String) :
    (checking ctx O W).Keeps (findTrait name) fun body =>
      ctx.tree.traits.lookup name = some body := by
  refine .get fun s hs => ?_
  split
  · next body hbody => exact .pure ((hs.scopes.findTrait_eq name).symm.trans hbody)
  · exact fun t _ => fail_checks _

theorem collectIvarsInto_checks (htree : ctx.tree.TreeShaped)
    (htype : TypeExprSpares ctx O W typeExpr) (fuel : Nat) (recording : Bool)
    (ivars : List (String × TypeId)) (hbody : ¬ ctx.tree.IsArg body) :
    (checking ctx O W).Keeps (collectIvarsInto ctx typeExpr fuel body recording ivars)
      fun _ => True := by
  induction fuel generalizing body recording ivars with
  | zero => exact fun _ _ => stop_checks _
  | succ fuel ih =>
      unfold collectIvarsInto
      refine .foldlM fun ivars statement hstatement => ?_
      have hno := htree.not_isArg_statement hbody hstatement
      dsimp only
      split
      · next name type hnode =>
          have hnone : ctx.tree.callArgs? statement = none := by simp [SyntaxTree.callArgs?, hnode]
          have htypeNo : ¬ ctx.tree.IsArg type :=
            htree.not_isArg_child hnone (by simp [hnode, Node.children])
          refine (htype type htypeNo).seq fun declared => ?_
          split
          · exact fun _ _ => mismatch_then_checks _ _
          · split
            · exact (record_checks hno).seq fun _ => .pure trivial
            · exact .pure trivial
      · exact (findTrait_checks _).bind fun traitBody htrait =>
          ih _ _ (htree.not_isArg_trait htrait)
      · exact .pure trivial

theorem caseFields_checks (htree : ctx.tree.TreeShaped) (htype : TypeExprSpares ctx O W typeExpr)
    (caseName : String) {fields : List NodeId} (hdecl : ctx.tree.callArgs? decl = none)
    (hfields : ∀ field ∈ fields, field ∈ (ctx.tree.node decl).children) :
    (checking ctx O W).Keeps (caseFields ctx typeExpr caseName fields) fun _ => True := by
  refine .mapM fun field hfield => ?_
  split
  · next name type hnode =>
      have hnone : ctx.tree.callArgs? field = none := by simp [SyntaxTree.callArgs?, hnode]
      have htypeNo : ¬ ctx.tree.IsArg type :=
        htree.not_isArg_child hnone (by simp [hnode, Node.children])
      refine (htype type htypeNo).seq fun _ => ?_
      refine (record_checks (htree.not_isArg_child hdecl (hfields field hfield))).seq fun _ => ?_
      exact .pure trivial
  · exact fun _ _ => mismatch_checks _

theorem addCases_checks (htree : ctx.tree.TreeShaped) (htype : TypeExprSpares ctx O W typeExpr)
    (owner : TypeId) {cases : List NodeId} (hdecl : ctx.tree.callArgs? decl = none)
    (hcases : ∀ case ∈ cases, case ∈ (ctx.tree.node decl).children) :
    (checking ctx O W).Keeps (addCases ctx typeExpr owner cases) fun _ => True := by
  refine (spell_checks owner).seq fun ownerName => .mapM fun case hcase => ?_
  have hno := htree.not_isArg_child hdecl (hcases case hcase)
  split
  · next name fields hnode =>
      have hnone : ctx.tree.callArgs? case = none := by simp [SyntaxTree.callArgs?, hnode]
      refine (caseFields_checks htree htype _ hnone (by simp [hnode, Node.children])).seq
        fun fields s hs => ?_
      refine .bind_read hs (b := s) rfl (.bind (ofExcept_checks (Q := fun r u =>
        s.pool.addCase owner (ownerName ++ "." ++ name) name fields = .ok r ∧ u = s) hs
        fun r hr => ⟨hr, rfl⟩) ?_)
      rintro ⟨t, p⟩ u - - ⟨hadded, rfl⟩
      have he : u.pool.Evolves p := (Pool.Change.addCase hadded).evolves
      have hset : (checking ctx O W).KeepsAt u (set { u with pool := p }) fun _ _ => True :=
        .of_ok rfl (hs.setPool he) (.of_same rfl rfl rfl he) trivial
      exact .bind hset fun _ v hv _ _ =>
        ((record_checks hno).seq fun _ => .pure trivial : (checking ctx O W).Keeps _ _) v hv
  · exact fun _ _ => fail_checks _

/-! ## Signatures -/

theorem declaredParams_checks (htree : ctx.tree.TreeShaped)
    (htype : TypeExprSpares ctx O W typeExpr) (method : String) {params : List NodeId}
    (hdecl : ctx.tree.callArgs? decl = none)
    (hparams : ∀ param ∈ params, param ∈ (ctx.tree.node decl).children) :
    (checking ctx O W).Keeps (declaredParams ctx typeExpr method params) fun _ => True := by
  refine .foldlM ?_
  rintro ⟨declared, varargs⟩ ⟨param, i⟩ hparam
  have hchild := hparams param (List.fst_mem_of_mem_zipIdx hparam)
  dsimp only
  split
  · next name type hnode =>
      have hnone : ctx.tree.callArgs? param = none := by simp [SyntaxTree.callArgs?, hnode]
      have htypeNo : ¬ ctx.tree.IsArg type :=
        htree.not_isArg_child hnone (by simp [hnode, Node.children])
      refine (htype type htypeNo).seq fun _ => ?_
      exact (record_checks (htree.not_isArg_child hdecl hchild)).seq fun _ => .pure trivial
  · split
    · exact .pure trivial
    · exact fun _ _ => mismatch_checks _
  · exact fun _ _ => mismatch_checks _

theorem linkName_checks (owner : Option TypeId) (attr : Option Attribute) (name : String) :
    (checking ctx O W).Keeps (linkName owner attr name) fun _ => True := by
  unfold linkName
  split
  · exact .pure trivial
  · exact (spell_checks _).seq fun _ => .pure trivial
  · split
    · exact .pure trivial
    · exact qualified_checks _

theorem signatureOf_checks (htree : ctx.tree.TreeShaped) (htype : TypeExprSpares ctx O W typeExpr)
    (node : NodeId) (owner : Option TypeId) :
    (checking ctx O W).Keeps (signatureOf ctx typeExpr node owner) fun _ => True := by
  have hbuild (name : String) (params : List NodeId) (written : Option NodeId)
      (attr : Option Attribute) (hnode : ctx.tree.callArgs? node = none)
      (hchildren : ∀ part ∈ params ++ written.toList, part ∈ (ctx.tree.node node).children) :
      (checking ctx O W).Keeps (signatureOf.build ctx typeExpr owner name params written attr)
        fun _ => True := by
    refine (declaredParams_checks htree htype _ hnode fun param hparam =>
      hchildren param (List.mem_append_left _ hparam)).seq fun declared => ?_
    have hlink (r : TypeId) : (checking ctx O W).Keeps (do
        let linkName ← linkName owner attr name
        pure (Signature.mk name linkName declared.1 r declared.2)) fun _ => True :=
      (linkName_checks _ _ _).seq fun _ => .pure trivial
    dsimp only
    cases written with
    | none => exact hlink .void
    | some written =>
        refine (htype written (htree.not_isArg_child hnode (hchildren written ?_))).seq hlink
        simp
  unfold signatureOf
  split
  · next hnode =>
      exact hbuild _ _ _ _ (by simp [SyntaxTree.callArgs?, hnode])
        fun part hpart => by
          rw [hnode]
          exact List.mem_append_left _ hpart
  · next hnode =>
      exact hbuild _ _ _ _ (by simp [SyntaxTree.callArgs?, hnode]) (by simp [hnode, Node.children])
  · exact fun _ _ => fail_checks _

/-! ## Methods -/

/-- Findings that are neither types nor meanings. -/
theorem CallsChecked.setFindings (hs : CallsChecked ctx O s) {t : TypingState σ}
    (horderly : Orderly ctx t)
    (hlater : ∀ v walk, t.table.inclusion? v = some walk → v.walk < walk)
    (htemplates : t.templates = s.templates) (htypes : t.table.types = s.table.types)
    (htargets : t.table.targets = s.table.targets) (hpool : t.pool = s.pool) :
    CallsChecked ctx O t := by
  refine { horderly with later := hlater, templates := htemplates ▸ hs.templates, calls := ?_ }
  intro v hv hnot
  refine (hs.calls v hv hnot).mono (by rw [htargets]) (fun _ _ _ _ => ?_) (hpool ▸ .refl _)
  simp only [TypeTable.get?, htypes]

/-- Recording a signature. -/
theorem setSignature_checks (statement : NodeId) (sig : Signature) :
    (checking ctx O W).Keeps (do
      let v ← visit statement
      modifyTable (·.setSignature v sig)) fun _ => True :=
  fun s hs => .of_ok (t := { s with
      table := s.table.setSignature { walk := s.walk, node := statement } sig }) rfl
    (hs.setFindings { hs with } hs.later rfl rfl rfl rfl)
    { (Spares.refl s : Spares ctx W s s) with } trivial

/-- The walk of an inclusion is later than all others. -/
theorem CallsChecked.openInclusion (hs : CallsChecked ctx O s) (statement : NodeId) :
    CallsChecked ctx O { openInclusion s statement with walk := s.table.nextInstance } := by
  refine hs.setFindings (hs.toOrderly.openInclusion statement) (fun v walk hwalk => ?_) rfl rfl rfl
    rfl
  have hwalk : (Typing.openInclusion s statement).table.inclusion? v = some walk := hwalk
  rw [inclusion?_openInclusion] at hwalk
  split at hwalk
  · next heq =>
      cases hwalk
      exact heq ▸ hs.walk_lt
  · exact hs.later v walk hwalk

/-- An inclusion is given a fresh walk, in which the methods of the trait are declared. -/
theorem inclusion_checks {step : Typing σ Unit} (statement : NodeId)
    (hstep : (checking ctx O W).Keeps step fun _ => True) :
    (checking ctx O W).Keeps (do
      let included ← modifyGet fun s =>
        let (walk, table) := s.table.freshInstance
        (walk, { s with table })
      let v ← visit statement
      modifyTable (·.setInclusion v included)
      withWalk included step) fun _ => True := by
  intro s hs
  have hopened := hs.openInclusion statement
  have hlt : s.walk < (openInclusion s statement).table.nextInstance := Nat.lt_succ_of_lt hs.walk_lt
  have hopen : CallsChecked ctx O (openInclusion s statement) :=
    hopened.setWalk s.returnType hlt
  have hle : Spares ctx W s (openInclusion s statement) :=
    { (Spares.refl s : Spares ctx W s s) with next_le := Nat.le_succ _ }
  refine .of_later (t := openInclusion s statement) (withWalk s.table.nextInstance step) rfl hle ?_
  exact withWalk_checks (R := fun _ _ _ => True) hopen (Nat.lt_succ_self _) fun h => hstep _ h

theorem declareMethodsWithin_checks (htree : ctx.tree.TreeShaped)
    (htype : TypeExprSpares ctx O W typeExpr) (owner : TypeId) (fuel : Nat)
    (hbody : ¬ ctx.tree.IsArg body) :
    (checking ctx O W).Keeps (declareMethodsWithin ctx typeExpr fuel body owner)
      fun _ => True := by
  induction fuel generalizing body with
  | zero => exact fun _ _ => stop_checks _
  | succ fuel ih =>
      unfold declareMethodsWithin
      refine .forM fun statement _ => ?_
      have hmethod : (checking ctx O W).Keeps (do
          let sig ← signatureOf ctx typeExpr statement (some owner)
          updatePool (·.addMethod owner sig)
          let v ← visit statement
          modifyTable (·.setSignature v sig)) fun _ => True :=
        (signatureOf_checks htree htype _ _).seq fun sig =>
          (updatePool_checks fun p q hq => (Pool.Change.addMethod hq).evolves).seq fun _ =>
            setSignature_checks statement sig
      dsimp only
      split
      · exact hmethod
      · exact hmethod
      · exact (findTrait_checks _).bind fun traitBody htrait =>
          inclusion_checks statement (ih (htree.not_isArg_trait htrait))
      · exact .pure trivial

/-! ## Expansions -/

/-- The members of an expanded type are declared. -/
theorem declareExpanded_checks (htree : ctx.tree.TreeShaped)
    (htype : TypeExprSpares ctx O W typeExpr) (decl : NodeId) (r : TypeId) :
    (checking ctx O W).Keeps (declareExpanded ctx typeExpr decl r) fun _ => True := by
  unfold declareExpanded
  split
  · next name param body hnode =>
      have hbodyOf : ctx.tree.bodyOf? decl = some body := by simp [SyntaxTree.bodyOf?, hnode]
      have hbody := htree.not_isArg_body hbodyOf
      refine (collectIvarsInto_checks htree htype _ _ _ hbody).seq fun ivars => ?_
      refine (modifyScopes_checks fun c count hc => hc.foldl_addIvar).seq fun _ => ?_
      refine (updatePool_checks fun p q hq => (Pool.Change.setIvars hq).evolves).seq fun _ => ?_
      exact declareMethodsWithin_checks htree htype r _ hbody
  · next name param cases body hnode =>
      have hno : ctx.tree.callArgs? decl = none := by simp [SyntaxTree.callArgs?, hnode]
      refine (addCases_checks htree htype r hno fun case hcase => by simp [hnode, Node.children, hcase]).seq fun added => ?_
      cases body with
      | some body =>
          have hbodyOf : ctx.tree.bodyOf? decl = some body := by simp [SyntaxTree.bodyOf?, hnode]
          exact declareMethodsWithin_checks htree htype r _ (htree.not_isArg_body hbodyOf)
      | none => exact .pure trivial
  · exact .pure trivial

section OpenExpansion

variable {id : TemplateId} {template : Template} {name : String} {arg r : TypeId} {p : Pool}

/-- The declaration of a template is no argument. -/
theorem CallsChecked.not_isArg_template (htree : ctx.tree.TreeShaped) (hs : CallsChecked ctx O s)
    (hid : s.templates[id]? = some template) : ¬ ctx.tree.IsArg template.decl :=
  htree.not_isArg_statement htree.not_isArg_root
    (hs.templates _ (List.mem_map.2 ⟨template, List.mem_of_getElem? hid, rfl⟩))

/-- An expansion is registered. -/
theorem CallsChecked.openExpansion (htree : ctx.tree.TreeShaped) (hs : CallsChecked ctx O s)
    (he : s.pool.Evolves p) (hid : s.templates[id]? = some template) :
    CallsChecked ctx O (Typing.openExpansion s id template name arg r p) := by
  have hno := hs.not_isArg_template htree hid
  have hdecls : (Typing.openExpansion s id template name arg r p).templates.map (·.decl) =
      s.templates.map (·.decl) := decls_openExpansion hid
  refine { hs.toOrderly.openExpansion hid with
    later := hs.later, templates := hdecls ▸ hs.templates, calls := ?_ }
  · intro v hv hnot
    refine (hs.calls v hv hnot).mono rfl (fun args hargs arg harg => ?_) he
    refine TypeTable.get?_record_of_ne _ _ fun heq => ?_
    rw [Visit.mk.injEq] at heq
    exact hno (heq.2 ▸ ⟨v.node, hv, args, hargs, harg⟩)

/-- Registering an expansion records a type for the declaration only. -/
theorem spares_openExpansion (htree : ctx.tree.TreeShaped) (hs : CallsChecked ctx O s)
    (he : s.pool.Evolves p) (hid : s.templates[id]? = some template) :
    Spares ctx W s (openExpansion s id template name arg r p) := by
  refine { (Spares.refl s : Spares ctx W s s) with
    next_le := Nat.le_succ _, decls := decls_openExpansion hid, pool := he, types := ?_ }
  intro v hv _
  refine TypeTable.get?_record_of_ne _ _ fun heq => ?_
  subst heq
  exact hs.not_isArg_template htree hid hv

/-- An expansion is registered, declared in a fresh walk and queued. -/
theorem makeExpansion_checks (htree : ctx.tree.TreeShaped)
    (htype : TypeExprSpares ctx O W typeExpr) (name : String) (arg : TypeId)
    {f : Pool → TypeId × Pool} (hf : ∀ p : Pool, p.Evolves (f p).2) (hs : CallsChecked ctx O s)
    (hid : s.templates[id]? = some template) :
    (checking ctx O W).KeepsAt s (makeExpansion ctx typeExpr id template name arg f)
      fun _ _ => True := by
  have hfound : s.templates.getD id default = template := by simp [List.getD, hid]
  let opened := openExpansion s id template name arg (f s.pool).1 (f s.pool).2
  have hopened : CallsChecked ctx O opened := hs.openExpansion htree (hf s.pool) hid
  have hframe : ((Scope.forType (f s.pool).1 []).bind template.param (.type arg)).Plain :=
    Scope.Plain.forType.bind (by simp)
  refine .of_later (t := opened) _ (makeExpansion_eq hfound) (spares_openExpansion htree hs (hf s.pool) hid) ?_
  refine .bind (withIsolatedFrame_checks (R := fun _ _ _ => True) hopened (Nat.lt_succ_self _)
    hframe fun t ht _ => declareExpanded_checks htree htype _ _ t ht) fun _ t ht _ _ => ?_
  have hqueue : (checking ctx O W).KeepsAt t (modify fun s : TypingState σ => { s with
      pending := s.pending ++ [(id, template.expansions.length)] }) fun _ _ => True :=
    .of_ok rfl { ht with } { (Spares.refl t : Spares ctx W t t) with } trivial
  exact .bind hqueue fun _ u hu _ _ => .pure hu trivial

end OpenExpansion

theorem expand_checks (htree : ctx.tree.TreeShaped) (htype : TypeExprSpares ctx O W typeExpr)
    {id : TemplateId} {args : List TypeId} (hs : CallsChecked ctx O s)
    (hid : id < s.templates.length) :
    (checking ctx O W).KeepsAt s (expand ctx typeExpr id args) fun _ _ => True := by
  obtain ⟨template, htemplate⟩ : ∃ template, s.templates[id]? = some template :=
    ⟨_, List.getElem?_eq_getElem hid⟩
  refine .bind_read hs (b := s) rfl ?_
  have hget : s.templates.getD id default = template := by simp [List.getD, htemplate]
  rw [hget]
  dsimp only
  split
  · exact .pure hs trivial
  · split
    · next arg _ =>
        refine .bind_read hs (b := _) rfl (.bind_read hs (b := _) rfl ?_)
        split
        · exact makeExpansion_checks htree htype _ arg
            (fun p => (Pool.Change.newReference p _).evolves) hs htemplate
        · exact makeExpansion_checks htree htype _ arg
            (fun p => (Pool.Change.newData p _).evolves) hs htemplate
        · exact .of_error rfl trivial
    · exact mismatch_checks _

/-! ## Type expressions -/

theorem namedType_checks (name : String) :
    (checking ctx O W).Keeps (namedType name) fun _ => True := by
  refine .get fun s _ => ?_
  dsimp only
  split
  · exact .pure trivial
  · exact fun _ _ => mismatch_checks _
  · split
    · exact fun _ _ => mismatch_checks _
    · exact fun _ _ => fail_checks _

/-- A type expression records types for itself and its parts, which are no arguments. -/
theorem typeExprWithin_checks (htree : ctx.tree.TreeShaped) (fuel : Nat) {node : NodeId}
    (hs : CallsChecked ctx O s) (hnode : Annotatable ctx O W s.walk node) :
    (checking ctx O W).KeepsAt s (typeExprWithin ctx fuel node) fun t u =>
      u.table.get? ⟨u.walk, node⟩ = some t := by
  induction fuel generalizing s node with
  | zero => exact stop_checks _
  | succ fuel ih =>
      have htype : TypeExprSpares ctx O W (typeExprWithin ctx fuel) := fun part hpart t ht =>
        (ih ht (.of_not_isArg hpart)).trivial
      have hpart (part : NodeId) (h : ctx.tree.callArgs? node = none)
          (hchild : part ∈ (ctx.tree.node node).children) :
          (checking ctx O W).Keeps (typeExprWithin ctx fuel part) fun _ => True :=
        htype part (htree.not_isArg_child h hchild)
      have hrecord (r : TypeId) (t : TypingState σ) (ht : CallsChecked ctx O t)
          (hle : Spares ctx W s t) : (checking ctx O W).KeepsAt t (do record node r; pure r)
            fun t u => u.table.get? ⟨u.walk, node⟩ = some t :=
        .bind (record_at ht (hle.walk ▸ hnode)
          (Q := fun _ u => u.table.get? ⟨u.walk, node⟩ = some r) (TypeTable.get?_record_self _ _ _))
          fun _ u hu _ h => .pure hu h
      unfold typeExprWithin
      dsimp only
      split
      · exact .bind (namedType_checks _ s hs) fun r t ht hle _ => hrecord r t ht hle
      · next target hn =>
          refine .bind (hpart target (by simp [SyntaxTree.callArgs?, hn])
            (by simp [hn, Node.children]) s hs) fun target t ht hle _ => ?_
          exact .bind (makeType_checks (fun p => (Pool.Change.pointer p target).evolves) t ht)
            fun r u hu hle' _ => hrecord r u hu (hle.trans hle')
      · next name args hn =>
          refine .bind_read hs (b := s) rfl ?_
          split
          · exact mismatch_then_checks _ _
          · next id hid =>
              have hargs : (checking ctx O W).Keeps (args.mapM (typeExprWithin ctx fuel))
                  fun _ => True := .mapM fun arg harg =>
                hpart arg (by simp [SyntaxTree.callArgs?, hn]) (by simp [hn, Node.children, harg])
              refine .bind (hargs s hs) fun types t ht hle _ => ?_
              have hlt : id < t.templates.length :=
                hle.count.symm ▸ hs.scopes.findTemplate_lt hid
              exact .bind (expand_checks htree htype ht hlt) fun r u hu hle' _ =>
                hrecord r u hu (hle.trans hle')
      · next params result hn =>
          have hno : ctx.tree.callArgs? node = none := by simp [SyntaxTree.callArgs?, hn]
          have hparams : (checking ctx O W).Keeps (params.mapM (typeExprWithin ctx fuel))
              fun _ => True := .mapM fun param hparam =>
            hpart param hno (by simp [hn, Node.children, hparam])
          refine .bind (hparams s hs) fun types t ht hle _ => ?_
          refine .bind (hpart result hno (by simp [hn, Node.children]) t ht) fun r u hu hle' _ => ?_
          exact .bind (makeType_checks (fun p => (Pool.Change.closure p types r []).evolves) u hu)
            fun r v hv hle₃ _ => hrecord r v hv ((hle.trans hle').trans hle₃)
      · next name type hn =>
          refine .bind (hpart type (by simp [SyntaxTree.callArgs?, hn]) (by simp [hn, Node.children])
            s hs) fun r t ht hle _ => hrecord r t ht hle
      · exact .of_error rfl trivial

theorem typeExpr_checks (htree : ctx.tree.TreeShaped) :
    TypeExprSpares ctx O W (Typing.typeExpr ctx) :=
  fun _ hnode _ hs => (typeExprWithin_checks htree _ hs (.of_not_isArg hnode)).trivial

end ClassLang.Typing
