import ClassLang.Proofs.Typing.AccountedBodies
import ClassLang.Proofs.Typing.ArgumentCalls
import ClassLang.Proofs.Typing.ConfinedModules

/-!
# Typing bodies keeps calls checked

Only calls have arguments. Every other node is typed by typing its parts, which are no arguments,
in a region inside its own; what it records besides lies in that region as well. Members of types
and of included traits are typed in the same way, those of traits in the later walk that their
inclusion has opened.
-/

namespace ClassLang.Typing

variable {σ : Type} (ctx : TypingContext σ) (W : Visit → Prop)

/-- What stands below the node may be written in the walk. -/
structure Walkable (walk : InstanceId) (node : NodeId) : Prop where
  below : ctx.tree.Below ctx.tree.root node
  region : ∀ v, ctx.tree.Region walk node v → W v

variable {ctx W} {O : Visit → Prop} {p₀ : Pool} {N : TypeId → Prop} {s t : TypingState σ}
  {walk : InstanceId} {node part body : NodeId} {infer : NodeId → Typing σ TypeId}

theorem Enterable.walkable (h : Enterable ctx O W walk node) : Walkable ctx W walk node :=
  ⟨h.below, h.region⟩

namespace Walkable

/-- What stands below may be written as well. -/
theorem of_below (h : Walkable ctx W walk node) (hpart : ctx.tree.Below node part) :
    Walkable ctx W walk part where
  below := h.below.trans hpart
  region v hv := h.region v (SyntaxTree.Region.above hpart hv)

theorem child (h : Walkable ctx W walk node) (hpart : part ∈ (ctx.tree.node node).children) :
    Walkable ctx W walk part :=
  h.of_below (.single hpart)

/-- What is no argument can be typed wherever it may be written. -/
theorem enterable (h : Walkable ctx W walk node) (hnode : ¬ ctx.tree.IsArg node) :
    Enterable ctx O W walk node :=
  .of_not_isArg h.below hnode h.region

/-- In a later walk everything may be written. -/
theorem later (h : Walkable ctx W walk node) {walk' : InstanceId} (hlt : walk < walk')
    (hbody : ctx.tree.Below ctx.tree.root body) : Walkable ctx W walk' body where
  below := hbody
  region v hv := h.region v (.inl (hv.elim (Nat.lt_trans hlt) fun h => h.1 ▸ hlt))

end Walkable

section Parts

variable (htree : ctx.tree.TreeShaped) (hinfer : InferChecks ctx p₀ N infer)
  (hc : Confined ctx p₀ N s) (hs : CallsChecked ctx O s) (hw : Walkable ctx W s.walk node)

include htree hinfer hc hs hw in
/-- A part of a node that is no call is typed. -/
theorem infer_part (hno : ctx.tree.callArgs? node = none)
    (hpart : part ∈ (ctx.tree.node node).children) :
    (checking ctx O W).KeepsAt s (infer part) fun _ t =>
      Confined ctx p₀ N t ∧ Walkable ctx W t.walk node := by
  have h := hinfer O W part s hc hs
    ((hw.child hpart).enterable (htree.not_isArg_child hno hpart))
  exact h.weaken fun _ t _ hle ⟨hct, _⟩ => ⟨hct, hle.walk ▸ hw⟩

/-! ## Names -/

theorem inferIdent_checks (node : NodeId) (name : String) :
    (checking ctx O W).Keeps (inferIdent node name) fun _ => True := by
  refine .get fun s _ => ?_
  split
  · exact (setTarget_checks rfl).seq fun _ => .pure trivial
  · split
    · exact (setTarget_checks rfl).seq fun _ => .pure trivial
    · exact fun _ _ => mismatch_checks _
    · exact fun _ _ => mismatch_checks _
  · exact fun _ _ => mismatch_checks _
  · exact fun _ _ => mismatch_checks _
  · exact fun _ _ => fail_checks _

theorem ivarInScope_checks (name : String) :
    (checking ctx O W).Keeps (ivarInScope name) fun _ => True := by
  refine .get fun s _ => ?_
  split
  · exact .pure trivial
  · exact fun _ _ => fail_checks _

include htree hinfer hc hs hw in
theorem inferVar_checks {name : String} {declared : Option NodeId} {value : NodeId}
    (hnode : ctx.tree.node node = .var name declared value) :
    (checking ctx O W).KeepsAt s (inferVar ctx infer name declared value) fun _ _ => True := by
  have hno : ctx.tree.callArgs? node = none := by simp [SyntaxTree.callArgs?, hnode]
  have hbind (r : TypeId) : (checking ctx O W).Keeps (do
      modifyScopes (·.bind name (.value r))
      pure r) fun _ => True :=
    (modifyScopes_checks fun _ _ h => h.bind (by simp)).seq fun _ => .pure trivial
  refine .bind (infer_part htree hinfer hc hs hw hno (by simp [hnode, Node.children]))
    fun given t ht _ _ => ?_
  refine .bind_read ht (b := t) rfl ?_
  dsimp only
  split
  · exact mismatch_then_checks _ _
  · cases declared with
    | none => exact hbind given t ht
    | some declared =>
        have hdeclared : ¬ ctx.tree.IsArg declared :=
          htree.not_isArg_child hno (by simp [hnode, Node.children])
        refine .bind (typeExpr_checks htree declared hdeclared t ht) fun wanted u hu _ _ => ?_
        refine .bind_read hu (b := u) rfl ?_
        split
        · exact mismatch_then_checks _ _
        · exact hbind wanted u hu

include htree hinfer hc hs hw in
theorem inferAssign_checks {target value : NodeId}
    (hnode : ctx.tree.node node = .assign target value) :
    (checking ctx O W).KeepsAt s (inferAssign ctx infer target value) fun _ _ => True := by
  have hno : ctx.tree.callArgs? node = none := by simp [SyntaxTree.callArgs?, hnode]
  have htarget : ¬ ctx.tree.IsArg target :=
    htree.not_isArg_child hno (by simp [hnode, Node.children])
  refine .bind (infer_part htree hinfer hc hs hw hno (by simp [hnode, Node.children]))
    fun given t ht _ _ => ?_
  have hrecord (r : TypeId) : (checking ctx O W).Keeps (do record target r; pure given)
      fun _ => True := (record_checks htarget).seq fun _ => .pure trivial
  dsimp only
  split
  · refine .bind (ivarInScope_checks _ t ht) fun r u hu _ _ => .bind_read hu (b := u) rfl ?_
    split
    · exact mismatch_then_checks _ _
    · exact hrecord r u hu
  · refine .bind_read ht (b := t) rfl ?_
    split
    · exact .of_error rfl trivial
    · next r _ =>
        refine .bind_read ht (b := t) rfl ?_
        split
        · exact mismatch_then_checks _ _
        · exact .bind (setTarget_checks rfl t ht) fun _ u hu _ _ => hrecord r u hu
  · exact mismatch_then_checks _ _

/-! ## Operators -/

include htree hinfer hc hs hw in
theorem inferBinary_checks {op : BinaryOp} {lhs rhs : NodeId}
    (hnode : ctx.tree.node node = .binary op lhs rhs) :
    (checking ctx O W).KeepsAt s (inferBinary infer op lhs rhs) fun _ _ => True := by
  have hno : ctx.tree.callArgs? node = none := by simp [SyntaxTree.callArgs?, hnode]
  refine .bind (infer_part htree hinfer hc hs hw hno (by simp [hnode, Node.children])) ?_
  rintro l t ht - ⟨hct, hwt⟩
  refine .bind (infer_part htree hinfer hct ht hwt hno (by simp [hnode, Node.children]))
    fun r u hu _ _ => ?_
  refine .bind_read hu (b := u) rfl ?_
  dsimp only
  split
  · exact makeType_checks (fun p => (Pool.Change.derive p l op r).evolves) u hu
  · split
    · exact makeType_checks (fun p => (Pool.Change.derive p r op l).evolves) u hu
    · exact ofExcept_checks hu fun _ _ => trivial

include htree hinfer hc hs hw in
theorem inferUnary_checks {op : UnaryOp} {operand : NodeId}
    (hnode : ctx.tree.node node = .unary op operand) :
    (checking ctx O W).KeepsAt s (inferUnary infer op operand) fun _ _ => True := by
  have hno : ctx.tree.callArgs? node = none := by simp [SyntaxTree.callArgs?, hnode]
  refine .bind (infer_part htree hinfer hc hs hw hno (by simp [hnode, Node.children]))
    fun r t ht _ _ => ?_
  refine .bind_read ht (b := t) rfl ?_
  cases op with
  | stack =>
      refine .bind_read ht (b := ⟨t.walk, operand⟩) rfl ?_
      split
      · exact .pure ht trivial
      · exact .pure ht trivial
      · exact mismatch_checks _
  | not =>
      dsimp only
      split
      · exact .pure ht trivial
      · exact fail_checks _

include htree hinfer hc hs hw in
theorem inferCondition_checks {cond : NodeId} (hno : ctx.tree.callArgs? node = none)
    (hcond : cond ∈ (ctx.tree.node node).children) :
    (checking ctx O W).KeepsAt s (inferCondition infer cond) fun _ t =>
      Confined ctx p₀ N t ∧ Walkable ctx W t.walk node := by
  refine .bind (infer_part htree hinfer hc hs hw hno hcond) fun r t ht _ h => ?_
  refine .bind_read ht (b := t) rfl ?_
  dsimp only
  split
  · exact mismatch_checks _
  · exact .pure ht h

/-! ## Cases -/

theorem patternCase_checks {type : NodeId} (htype : ¬ ctx.tree.IsArg type) (owner : TypeId) :
    (checking ctx O W).Keeps (patternCase ctx type owner) fun _ => True := by
  unfold patternCase
  split
  · refine .get fun s _ => ?_
    dsimp only
    split
    · exact fun _ _ => mismatch_checks _
    · exact (record_checks htype).seq fun _ => .pure trivial
  · exact fun _ _ => mismatch_checks _

theorem caseFrame_checks (r : TypeId) (binders : List String) :
    (checking ctx O W).Keeps (caseFrame r binders) fun frame => frame.Plain := by
  refine .get fun s _ => ?_
  dsimp only
  split
  · exact .pure .empty
  · split
    · exact fun _ _ => mismatch_checks _
    · exact .pure (.bindValues .empty)

theorem inferPattern_checks (htree : ctx.tree.TreeShaped) {type : NodeId}
    (htype : ¬ ctx.tree.IsArg type) (scrutinee : TypeId) (onDynamic : Bool)
    (binder : Option String) (fields : List String) :
    (checking ctx O W).Keeps (inferPattern ctx scrutinee onDynamic type binder fields)
      fun r => r.1.Plain := by
  unfold inferPattern
  dsimp only
  split
  · refine (typeExpr_checks htree type htype).seq fun r => ?_
    split
    · exact fun _ _ => mismatch_then_checks _ _
    · exact .pure (.bindValues .empty)
  · exact (patternCase_checks htype scrutinee).seq fun r =>
      (caseFrame_checks r fields).bind fun frame hframe => .pure hframe.bindValues

/-- The body of an arm is typed in a frame of its own. -/
theorem inferArm_checks (hT : p₀.Territory N) (htree : ctx.tree.TreeShaped)
    (hinfer : InferChecks ctx p₀ N infer) {scrutinee : TypeId} {onDynamic : Bool}
    (hc : Confined ctx p₀ N s) (hs : CallsChecked ctx O s)
    (hw : Walkable ctx W s.walk node) (hnode : ¬ ctx.tree.IsArg node)
    (hscrutinee : s.pool.Usable N scrutinee) :
    (checking ctx O W).KeepsAt s (inferArm ctx infer scrutinee onDynamic node)
      fun _ _ => True := by
  unfold inferArm
  split
  · next pattern body harm =>
      have hno : ctx.tree.callArgs? node = none := by simp [SyntaxTree.callArgs?, harm]
      have hpattern : pattern ∈ (ctx.tree.node node).children := by simp [harm, Node.children]
      have hbody : body ∈ (ctx.tree.node node).children := by simp [harm, Node.children]
      split
      · next type binder fields hmatched =>
          have hnone : ctx.tree.callArgs? pattern = none := by simp [SyntaxTree.callArgs?, hmatched]
          have htype : ¬ ctx.tree.IsArg type :=
            htree.not_isArg_child hnone (by simp [hmatched, Node.children])
          refine .bind ((inferPattern_checks htree htype scrutinee onDynamic binder fields s hs).and
            (inferPattern_confined hT hc hscrutinee).succeeds) ?_
          rintro ⟨frame, r⟩ t ht hle ⟨hplain, hct, -, hfits, hr⟩
          refine .bind ((record_checks (htree.not_isArg_child hno hpattern) t ht).and
            (record_confined (Q := fun _ u => u.pool = t.pool) hct hr
              (by simp [hmatched, Node.declaresType]) fun _ h => h).succeeds) ?_
          rintro _ u hu hle' ⟨-, hcu, -, hpool⟩
          refine .bind (withFrame_checks (R := fun _ _ _ => True) hu hplain fun hv => ?_)
            fun _ v hv _ _ => record_checks hnode v hv
          have hcv := hcu.setScopes (hcu.scopes.push (hpool ▸ hfits))
          have hwv : Walkable ctx W u.walk node := hle'.walk ▸ hle.walk ▸ hw
          exact (infer_part htree hinfer hcv hv hwv hno hbody).trivial
      · exact fail_checks _
  · exact fail_checks _

theorem inferSelect_checks (hT : p₀.Territory N) (htree : ctx.tree.TreeShaped)
    (hconfined : InferConfined ctx p₀ N infer) (hinfer : InferChecks ctx p₀ N infer)
    (hc : Confined ctx p₀ N s) (hs : CallsChecked ctx O s) (hw : Walkable ctx W s.walk node)
    {cond : NodeId} {arms : List NodeId} (hnode : ctx.tree.node node = .select cond arms) :
    (checking ctx O W).KeepsAt s (inferSelect ctx infer cond arms) fun _ _ => True := by
  have hno : ctx.tree.callArgs? node = none := by simp [SyntaxTree.callArgs?, hnode]
  refine .bind ((infer_part htree hinfer hc hs hw hno (by simp [hnode, Node.children])).and
    (hconfined cond s hc).succeeds) ?_
  rintro given t ht hle ⟨⟨hct, hwt⟩, -, -, hgiven⟩
  refine .bind_read ht (b := t) rfl ?_
  have hscrutinee : t.pool.Usable N (t.pool.resolve given) := hct.pool.resolve_usable hT hgiven
  have harms (onDynamic : Bool) : (checking ctx O W).KeepsAt t (do
      arms.forM (inferArm ctx infer (t.pool.resolve given) onDynamic)
      pure TypeId.void) fun _ _ => True := by
    refine .bind (Discipline.forM_keeps (P := Confined ctx p₀ N) arms ht hct
      fun arm harm u hu htu hcu => ?_) fun _ u hu _ _ => .pure hu trivial
    have hchild : arm ∈ (ctx.tree.node node).children := by simp [hnode, Node.children, harm]
    have husable : u.pool.Usable N (t.pool.resolve given) := hscrutinee.mono htu.pool
    exact ((inferArm_checks hT htree hinfer hcu hu (htu.walk ▸ hwt.child hchild)
      (htree.not_isArg_child hno hchild) husable).and
      (inferArm_confined hT hconfined hcu husable).succeeds).weaken fun _ _ _ _ h => h.2.1
  dsimp only
  split
  · exact harms false
  · exact harms true
  · exact mismatch_then_checks _ _

/-! ## Returns and lambdas -/

include htree hinfer hc hs hw in
theorem inferReturn_checks {value : Option NodeId} (hnode : ctx.tree.node node = .ret value) :
    (checking ctx O W).KeepsAt s (inferReturn infer value) fun _ _ => True := by
  have hno : ctx.tree.callArgs? node = none := by simp [SyntaxTree.callArgs?, hnode]
  refine .bind_read hs (b := s) rfl ?_
  dsimp only
  split
  · exact mismatch_then_checks _ _
  · split
    · exact .bind_read hs (b := s) rfl (mismatch_then_checks _ _)
    · exact .pure hs trivial
  · next value _ =>
      refine .bind (infer_part htree hinfer hc hs hw hno (by simp [hnode, Node.children]))
        fun r t ht _ _ => ?_
      split
      · exact mismatch_then_checks _ _
      · refine .bind_read ht (b := t) rfl ?_
        split
        · exact mismatch_then_checks _ _
        · exact .pure ht trivial

theorem lambdaParams_checks (htree : ctx.tree.TreeShaped) (hno : ctx.tree.callArgs? node = none)
    {params : List NodeId} (hparams : ∀ param ∈ params, param ∈ (ctx.tree.node node).children) :
    (checking ctx O W).Keeps (lambdaParams ctx params) fun _ => True := by
  refine .mapM fun param hparam => ?_
  have hrecord (name : String) (r : TypeId) : (checking ctx O W).Keeps (do
      record param r
      pure (name, r)) fun _ => True :=
    (record_checks (htree.not_isArg_child hno (hparams param hparam))).seq fun _ => .pure trivial
  dsimp only
  split
  · next name type hparam =>
      have hnone : ctx.tree.callArgs? param = none := by simp [SyntaxTree.callArgs?, hparam]
      have htype : ¬ ctx.tree.IsArg type :=
        htree.not_isArg_child hnone (by simp [hparam, Node.children])
      exact (typeExpr_checks htree type htype).seq (hrecord name)
  · exact (makeType_checks fun p => (Pool.Change.freshVar p).evolves).seq (hrecord _)
  · exact fun _ _ => .of_error rfl trivial

theorem lambdaCaptures_checks (captures : List String) :
    (checking ctx O W).Keeps (lambdaCaptures captures) fun _ => True := by
  refine .mapM fun name _ => .get fun s _ => ?_
  split
  · exact .pure trivial
  · exact fun _ _ => fail_checks _

/-- The body of a lambda is typed in a frame with its parameters and what it captures. -/
theorem inferLambda_checks (hT : p₀.Territory N) (htree : ctx.tree.TreeShaped)
    (hinfer : InferChecks ctx p₀ N infer) (hc : Confined ctx p₀ N s) (hs : CallsChecked ctx O s)
    (hw : Walkable ctx W s.walk node) {params : List NodeId} {captures : List String}
    {body : NodeId} (hnode : ctx.tree.node node = .lambda params captures body) :
    (checking ctx O W).KeepsAt s (inferLambda ctx infer params captures body)
      fun _ _ => True := by
  have hno : ctx.tree.callArgs? node = none := by simp [SyntaxTree.callArgs?, hnode]
  refine .bind ((lambdaParams_checks htree hno (fun param hparam => by
    simp [hnode, Node.children, hparam]) s hs).and (lambdaParams_confined hT hc).succeeds) ?_
  rintro named t ht hle ⟨-, hct, -, hnamed⟩
  refine .bind ((lambdaCaptures_checks captures t ht).and
    (lambdaCaptures_confined hT hct).succeeds) ?_
  rintro captured u hu hle' ⟨-, hcu, -, hcaptured⟩
  refine .bind (withFrame_checks (R := fun _ _ _ => True) hu (.bindValues .empty) fun hv =>
    withReturnType_checks (R := fun _ _ _ => True) hv fun hv' => ?_) fun result v hv _ _ =>
      makeType_checks (fun p => (Pool.Change.closure p _ result _).evolves) v hv
  have hfits : (Scope.bindValues {} (named ++ captured)).Fits u.pool N := by
    refine Scope.Fits.empty.bindValues fun entry hentry => ?_
    rw [List.mem_append] at hentry
    exact hentry.elim (fun h => ((hnamed entry h).1).mono hle'.pool) (hcaptured entry)
  have hcv : Confined ctx p₀ N
      { u with scopes := u.scopes.push (.bindValues {} (named ++ captured)), returnType := none } :=
    (hcu.setScopes (hcu.scopes.push hfits)).setWalk (by simp)
  have hwv : Walkable ctx W u.walk node := hle'.walk ▸ hle.walk ▸ hw
  exact (infer_part htree hinfer hcv hv' hwv hno (by simp [hnode, Node.children])).trivial

end Parts

/-! ## Members -/

/-- The body of a method is typed in a frame with its parameters. -/
theorem walkMethod_checks (htree : ctx.tree.TreeShaped)
    (hinfer : InferChecks ctx p₀ N infer) (hc : Confined ctx p₀ N s) (hs : CallsChecked ctx O s)
    (hw : Walkable ctx W s.walk node) :
    (checking ctx O W).KeepsAt s (walkMethod ctx infer node) fun _ _ => True := by
  unfold walkMethod
  split
  · next name params result body hnode =>
      have hno : ctx.tree.callArgs? node = none := by simp [SyntaxTree.callArgs?, hnode]
      refine .bind_read hs (b := ⟨s.walk, node⟩) rfl (.bind_read hs (b := s) rfl ?_)
      refine .bind (ofExcept_checks (Q := fun sig t => sig.Declarable s.pool N ∧ t = s) hs
        fun sig hsig => ⟨?_, rfl⟩) ?_
      · unfold TypeTable.signature at hsig
        split at hsig
        · next found hfound =>
            cases hsig
            exact hc.signatures _ _ hfound
        · cases hsig
      rintro sig t - - ⟨hsig, rfl⟩
      refine .bind (withFrame_checks (R := fun _ _ _ => True) hs methodFrame_plain fun hu =>
        withReturnType_checks (R := fun _ _ _ => True) hu fun hv => ?_) fun r u hu _ _ => ?_
      · have hcv : Confined ctx p₀ N { t with
            scopes := t.scopes.push (methodFrame ctx params sig), returnType := some sig.result } :=
          (hc.setScopes (hc.scopes.push (methodFrame_fits hsig))).setWalk fun r hr => by
            cases hr
            exact hsig sig.result (by simp [Signature.types])
        exact (infer_part htree hinfer hcv hv hw hno (by simp [hnode, Node.children])).trivial
      · refine .bind_read hu (b := u) rfl ?_
        dsimp only
        split
        · exact mismatch_checks _
        · exact .pure hu trivial
  · exact fail_checks _

/-- One member of a body, given how the bodies of included traits are walked. -/
theorem walkMember_checks (htree : ctx.tree.TreeShaped)
    (hinfer : InferChecks ctx p₀ N infer) {inner : NodeId → Typing σ Unit}
    (hinner : ∀ body s, Confined ctx p₀ N s → CallsChecked ctx O s →
      Walkable ctx W s.walk body → ¬ ctx.tree.IsArg body →
      (checking ctx O W).KeepsAt s (inner body) fun _ _ => True)
    (hc : Confined ctx p₀ N s) (hs : CallsChecked ctx O s) (hw : Walkable ctx W s.walk node)
    (hnode : ¬ ctx.tree.IsArg node) :
    (checking ctx O W).KeepsAt s (walkMember ctx infer inner node) fun _ _ => True := by
  have hkeep : (checking ctx O W).KeepsAt s (do
      let v ← visit node
      if ((← get).table.get? v).isNone then record node .void) fun _ _ => True := by
    refine .bind_read hs (b := ⟨s.walk, node⟩) rfl (.bind_read hs (b := s) rfl ?_)
    split
    · exact record_checks hnode s hs
    · exact .pure hs trivial
  unfold walkMember
  dsimp only
  split
  · exact .bind (walkMethod_checks htree hinfer hc hs hw) fun _ t ht _ _ =>
      record_checks hnode t ht
  · refine .bind ((findTrait_checks _ s hs).and (findTrait_confined hc).succeeds) ?_
    rintro body t ht hle ⟨hbody, hct, -, -⟩
    refine .bind_read ht (b := ⟨t.walk, node⟩) rfl (.bind_read ht (b := t) rfl ?_)
    split
    · exact fail_checks _
    · next included hincluded =>
        refine .bind (withWalk_checks (R := fun _ _ _ => True) ht
          (ht.inclusions_lt _ _ hincluded).2 fun hu => ?_) fun _ u hu _ _ => record_checks hnode u hu
        -- the inclusion has opened a later walk, in which everything may be written
        have hlater : t.walk < included := ht.later ⟨t.walk, node⟩ included hincluded
        exact hinner body _ (hct.setWalk hct.returnType) hu
          ((hle.walk ▸ hw).later hlater (SyntaxTree.below_trait hbody))
          (htree.not_isArg_trait hbody)
  · exact hkeep
  · exact hkeep
  · exact .bind (hinfer O W node s hc hs (hw.enterable hnode)) fun _ t ht _ _ => .pure ht trivial

theorem walkMembersWithin_checks (hT : p₀.Territory N) (htree : ctx.tree.TreeShaped)
    (hconfined : InferConfined ctx p₀ N infer) (hinfer : InferChecks ctx p₀ N infer) (fuel : Nat)
    (hc : Confined ctx p₀ N s) (hs : CallsChecked ctx O s) (hw : Walkable ctx W s.walk body)
    (hbody : ¬ ctx.tree.IsArg body) :
    (checking ctx O W).KeepsAt s (walkMembersWithin ctx infer fuel body) fun _ _ => True := by
  induction fuel generalizing s body with
  | zero => exact stop_checks _
  | succ fuel ih =>
      rw [walkMembersWithin_succ]
      refine (Discipline.forM_keeps (P := Confined ctx p₀ N) _ hs hc
        fun statement hstatement t ht hle hct => ?_).trivial
      have hmember := walkMember_checks htree hinfer
        (fun body s hc hs hw hbody => ih hc hs hw hbody) hct ht
        (hle.walk ▸ hw.of_below (SyntaxTree.below_of_mem_statements hstatement))
        (htree.not_isArg_statement hbody hstatement)
      exact (hmember.and (walkMember_confined hT hconfined
        (fun _ _ hu => walkMembersWithin_confined hT hconfined fuel hu) hct).succeeds).weaken
          fun _ _ _ _ h => h.2.1

end ClassLang.Typing
