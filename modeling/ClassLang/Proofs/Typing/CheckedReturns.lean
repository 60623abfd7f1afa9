import ClassLang.Proofs.Syntax.Returns
import ClassLang.Proofs.Typing.AccountedBodies
import ClassLang.Proofs.Typing.SteadyDeclarations

/-!
# Typing checks every return

Typing a body visits all nodes whose code is part of the body, so every `return` is checked against
the declared result of the enclosing method; a lambda has no declared result and may not return.
Typing bodies is steady, so the signature that a method was checked against is the one that is
recorded in the end.
-/

namespace ClassLang.Typing

variable {σ : Type} {ctx : TypingContext σ} {free : Prop} {result : Option TypeId}
  {s t : TypingState σ}

/-- Typing a node is steady and checks the returns in its code. -/
def ChecksReturns (ctx : TypingContext σ) (free : Prop) (infer : NodeId → Typing σ TypeId) : Prop :=
  ∀ result node, IsSteady ctx free result (infer node) fun _ => ctx.tree.ReturnsFit result node

variable {infer : NodeId → Typing σ TypeId}

/-! ## Calls -/

theorem unifyClosureParams_steady (given wanted : TypeId) :
    IsSteady ctx free result (unifyClosureParams given wanted) fun _ => True := by
  refine .get fun s _ _ => ?_
  dsimp only
  split
  · split
    · refine (IsSteady.forM (P := fun _ => True) ?_).trivial
      rintro ⟨var, target⟩ -
      refine .get fun t _ _ => ?_
      dsimp only
      split
      · exact .updatePool fun p => p.unify_free var target
      · exact .pure True.intro
    · exact .pure True.intro
  · exact .pure True.intro

/-- The returns in all arguments of a call are checked. -/
theorem checkArguments_returns (hinfer : ChecksReturns ctx free infer) (sig : Signature)
    (args : List NodeId) :
    IsSteady ctx free result (checkArguments ctx infer sig args) fun _ =>
      ∀ arg ∈ args, ctx.tree.ReturnsFit result arg := by
  have htyped : IsSteady ctx free result
      (args.mapM fun arg => return (argumentLabel ctx arg, ← infer arg)) fun _ =>
        ∀ arg ∈ args, ctx.tree.ReturnsFit result arg :=
    .mapM fun arg _ => (hinfer result arg).bind fun _ harg => .pure harg
  refine htyped.bind fun typed hargs => ?_
  refine (IsSteady.ofExcept (R := fun _ => True) (orderArguments_free _ _)
    fun _ _ => True.intro).seq fun ordered => ?_
  refine IsSteady.seq (IsSteady.forM (P := fun _ => True) ?_).trivial fun _ => ?_
  · rintro ⟨⟨given, param⟩, i⟩ -
    refine (unifyClosureParams_steady _ _).seq fun _ => .get fun u _ _ => ?_
    dsimp only
    split
    · exact .mismatch _
    · exact .pure True.intro
  · refine (IsSteady.forM (P := fun _ => True) fun extra _ => ?_).mono fun _ _ => hargs
    refine .get fun u _ _ => ?_
    refine (IsSteady.ofExcept (R := fun _ => True) (Pool.resolveStrict_free _ _)
      fun _ _ => True.intro).seq fun r => ?_
    split
    · exact .mismatch _
    · exact .pure True.intro

/-- A call whose arguments are checked before its meaning is recorded. -/
theorem checkedCall_returns (hinfer : ChecksReturns ctx free infer) (node : NodeId)
    (sig : Signature) (args : List NodeId) (target : Target) (r : TypeId) :
    IsSteady ctx free result (do
      checkArguments ctx infer sig args
      setTarget node target
      pure r) fun _ => ∀ arg ∈ args, ctx.tree.ReturnsFit result arg :=
  (checkArguments_returns hinfer sig args).bind fun _ hargs =>
    (IsSteady.setTarget node target).seq fun _ => .pure hargs

theorem inferConstruction_returns (hinfer : ChecksReturns ctx free infer) (node : NodeId)
    (r : TypeId) (args : List NodeId) :
    IsSteady ctx free result (inferConstruction ctx infer node r args) fun _ =>
      ∀ arg ∈ args, ctx.tree.ReturnsFit result arg := by
  refine .get fun s _ _ => ?_
  dsimp only
  split
  · next methods _ =>
      cases methods.find? (·.name == "initialize") with
      | some init => exact checkedCall_returns hinfer _ _ _ _ _
      | none =>
          dsimp only
          split
          · refine IsSteady.seq (IsSteady.forM (P := fun _ => True) fun arg _ => ?_).trivial
              fun _ => .stop (.fail (by simp))
            exact (hinfer result arg).trivial.seq fun _ => .pure True.intro
          · next hempty =>
              obtain rfl : args = [] := by simpa using hempty
              exact (IsSteady.setTarget _ _).seq fun _ => .pure (by simp)
  · exact checkedCall_returns hinfer _ _ _ _ _
  · exact .mismatch _

theorem importedModule_steady (receiver : NodeId) :
    IsSteady ctx free result (inferReceiverCall.importedModule ctx receiver) fun found =>
      found.isSome → ∃ name, ctx.tree.node receiver = .ident name := by
  unfold inferReceiverCall.importedModule
  split
  · next name hnode =>
      refine .get fun s _ _ => ?_
      split
      · exact .pure fun _ => ⟨name, hnode⟩
      · exact .pure (by simp)
  · exact .pure (by simp)

theorem inferReceiverCall_returns (hinfer : ChecksReturns ctx free infer)
    (node receiver : NodeId) (method : String) (args : List NodeId) :
    IsSteady ctx free result (inferReceiverCall ctx infer node receiver method args) fun _ =>
      ∀ part ∈ receiver :: args, ctx.tree.ReturnsFit result part := by
  unfold inferReceiverCall
  refine (importedModule_steady receiver).bind fun found hfound => ?_
  split
  · obtain ⟨name, hident⟩ := hfound rfl
    have hreceiver : ctx.tree.ReturnsFit result receiver := by
      refine .of_leaf ?_ ?_ ?_ <;> simp [hident, SyntaxTree.inlineParts]
    have hall : (∀ arg ∈ args, ctx.tree.ReturnsFit result arg) →
        ∀ part ∈ receiver :: args, ctx.tree.ReturnsFit result part :=
      fun hargs => List.forall_mem_cons.mpr ⟨hreceiver, hargs⟩
    refine (IsSteady.record _ _).seq fun _ => .get fun s _ _ => ?_
    split
    · exact .fail (by simp)
    · split
      · exact (checkedCall_returns hinfer _ _ _ _ _).mono fun _ => hall
      · exact (inferConstruction_returns hinfer _ _ _).mono fun _ => hall
      · exact .mismatch _
  · refine (hinfer result receiver).bind fun given hreceiver => .get fun s _ _ => ?_
    refine (IsSteady.ofExcept (R := fun _ => True) (Pool.resolveStrict_free _ _)
      fun _ _ => True.intro).seq fun r => .get fun t _ _ => ?_
    dsimp only
    split
    · exact .mismatch _
    · refine (checkArguments_returns hinfer _ _).bind fun _ hargs => .get fun u _ _ => ?_
      refine (IsSteady.ofExcept (R := fun _ => True) (Pool.findOperation_free _ _ _)
        fun _ _ => True.intro).seq fun op => ?_
      have hall := List.forall_mem_cons.mpr ⟨hreceiver, hargs⟩
      split
      · exact (IsSteady.setTarget _ _).seq fun _ => .pure hall
      · exact (IsSteady.setTarget _ _).seq fun _ => .pure hall

theorem inferBuiltin_returns (hinfer : ChecksReturns ctx free infer) (node : NodeId)
    (builtin : Builtin) (args : List NodeId) :
    IsSteady ctx free result (inferBuiltin infer node builtin args) fun _ =>
      ∀ arg ∈ args, ctx.tree.ReturnsFit result arg := by
  unfold inferBuiltin
  split
  · next object =>
      refine (hinfer result object).bind fun r hobject => .get fun s _ _ => ?_
      dsimp only
      split
      · exact .stop (.mismatch _)
      · exact (IsSteady.setTarget _ _).seq fun _ => .pure (by simpa using hobject)
  · exact .stop (.fail (by simp))

theorem inferBareCall_returns (hinfer : ChecksReturns ctx free infer) (node : NodeId)
    (method : String) (args : List NodeId) :
    IsSteady ctx free result (inferBareCall ctx infer node method args) fun _ =>
      ∀ arg ∈ args, ctx.tree.ReturnsFit result arg := by
  refine .get fun s _ _ => ?_
  dsimp only
  split
  · split
    · exact checkedCall_returns hinfer _ _ _ _ _
    · exact .mismatch _
  · split
    · exact checkedCall_returns hinfer _ _ _ _ _
    · exact checkedCall_returns hinfer _ _ _ _ _
    · split
      · exact inferConstruction_returns hinfer _ _ _
      · exact .mismatch _
      · exact .mismatch _
      · exact .mismatch _
      · split
        · exact inferBuiltin_returns hinfer _ _ _
        · exact .mismatch _

theorem inferTemplatedInstance_returns (hinfer : ChecksReturns ctx free infer) (node : NodeId)
    (name : String) (typeArgs args : List NodeId) :
    IsSteady ctx free result (inferTemplatedInstance ctx infer node name typeArgs args) fun _ =>
      ∀ arg ∈ args, ctx.tree.ReturnsFit result arg := by
  refine IsSteady.seq (IsSteady.mapM fun arg _ => typeExpr_steady result arg).trivial
    fun types => ?_
  intro s hs hresult
  have hconstruct (r : TypeId) (u : TypingState σ) (hu : Orderly ctx u)
      (hle : Steady free s u) : (steadily ctx free).KeepsAt u
        (inferConstruction ctx infer node r args) fun _ _ =>
          ∀ arg ∈ args, ctx.tree.ReturnsFit result arg :=
    inferConstruction_returns hinfer node r args u hu (hle.returnType.trans hresult)
  refine .bind_read hs (b := s) rfl ?_
  dsimp only
  split
  · next id hid =>
      exact .bind (expand_steady typeExpr_steady hs (hs.scopes.findTemplate_lt hid))
        fun r u hu hle _ => hconstruct r u hu hle
  · split
    · next id index hid =>
        refine .bind (expand_steady typeExpr_steady hs (hs.scopes.lookup_lt hid))
          fun r u hu hle _ => ?_
        refine .bind_read hu (b := u) rfl ?_
        split
        · exact hconstruct _ u hu hle
        · exact fail_steadily (by simp)
    · exact mismatch_steadily _

/-! ## Expressions and statements -/

theorem inferIdent_steady (node : NodeId) (name : String) :
    IsSteady ctx free result (inferIdent node name) fun _ => True := by
  refine .get fun s _ _ => ?_
  have htarget (target : Target) (r : TypeId) :
      IsSteady ctx free result (do setTarget node target; pure r) fun _ => True :=
    (IsSteady.setTarget node target).seq fun _ => .pure True.intro
  split
  · exact htarget _ _
  · split
    · exact htarget _ _
    · exact .mismatch _
    · exact .mismatch _
  · exact .mismatch _
  · exact .mismatch _
  · exact .fail (by simp)

theorem ivarInScope_steady (name : String) :
    IsSteady ctx free result (ivarInScope name) fun _ => True := by
  refine .get fun s _ _ => ?_
  split
  · exact .pure True.intro
  · exact .fail (by simp)

theorem inferVar_returns (hinfer : ChecksReturns ctx free infer) (name : String)
    (declared : Option NodeId) (value : NodeId) :
    IsSteady ctx free result (inferVar ctx infer name declared value) fun _ =>
      ctx.tree.ReturnsFit result value := by
  refine (hinfer result value).bind fun given hvalue => .get fun s _ _ => ?_
  have hbind (r : TypeId) : IsSteady ctx free result (do
      modifyScopes (·.bind name (.value r))
      pure r) fun _ => ctx.tree.ReturnsFit result value :=
    (IsSteady.modifyScopes fun c count hc => hc.bind (by simp)).seq fun _ => .pure hvalue
  dsimp only
  split
  · exact .stop (.mismatch _)
  · cases declared with
    | none => exact hbind given
    | some declared =>
        refine (typeExpr_steady result declared).seq fun wanted => .get fun t _ _ => ?_
        split
        · exact .stop (.mismatch _)
        · exact hbind wanted

theorem inferAssign_returns (hinfer : ChecksReturns ctx free infer) (target value : NodeId) :
    IsSteady ctx free result (inferAssign ctx infer target value) fun _ =>
      ctx.tree.ReturnsFit result value := by
  refine (hinfer result value).bind fun given hvalue => ?_
  have hrecord (r : TypeId) : IsSteady ctx free result (do
      record target r
      pure given) fun _ => ctx.tree.ReturnsFit result value :=
    (IsSteady.record target r).seq fun _ => .pure hvalue
  dsimp only
  split
  · refine (ivarInScope_steady _).seq fun r => .get fun s _ _ => ?_
    split
    · exact .stop (.mismatch _)
    · exact hrecord r
  · refine .get fun s _ _ => ?_
    split
    · exact .stop (.fail (by simp))
    · refine .get fun t _ _ => ?_
      split
      · exact .stop (.mismatch _)
      · exact (IsSteady.setTarget _ _).seq fun _ => hrecord _
  · exact .stop (.mismatch _)

theorem inferBinary_returns (hinfer : ChecksReturns ctx free infer) (op : BinaryOp)
    (lhs rhs : NodeId) :
    IsSteady ctx free result (inferBinary infer op lhs rhs) fun _ =>
      ctx.tree.ReturnsFit result lhs ∧ ctx.tree.ReturnsFit result rhs := by
  refine (hinfer result lhs).bind fun l hl => (hinfer result rhs).bind fun r hr => ?_
  refine .get fun s _ _ => ?_
  dsimp only
  split
  · exact IsSteady.makeType.mono fun _ _ => ⟨hl, hr⟩
  · split
    · exact IsSteady.makeType.mono fun _ _ => ⟨hl, hr⟩
    · exact .ofExcept (Pool.operatorResult_free _ _ _ _) fun _ _ => ⟨hl, hr⟩

theorem inferUnary_returns (hinfer : ChecksReturns ctx free infer) (op : UnaryOp)
    (operand : NodeId) :
    IsSteady ctx free result (inferUnary infer op operand) fun _ =>
      ctx.tree.ReturnsFit result operand := by
  refine (hinfer result operand).bind fun r hoperand => .get fun s _ _ => ?_
  cases op with
  | stack =>
      intro t ht hresult
      refine .bind_read ht (b := ⟨t.walk, operand⟩) rfl ?_
      split
      · exact .pure ht hoperand
      · exact .pure ht hoperand
      · exact mismatch_steadily _
  | not =>
      dsimp only
      split
      · exact .pure hoperand
      · exact .fail (by simp)

theorem inferCondition_returns (hinfer : ChecksReturns ctx free infer) (cond : NodeId) :
    IsSteady ctx free result (inferCondition infer cond) fun _ =>
      ctx.tree.ReturnsFit result cond := by
  refine (hinfer result cond).bind fun r hcond => .get fun s _ _ => ?_
  dsimp only
  split
  · exact .mismatch _
  · exact .pure hcond

/-! ## Cases, returns and lambdas -/

theorem patternCase_steady (type : NodeId) (owner : TypeId) :
    IsSteady ctx free result (patternCase ctx type owner) fun _ => True := by
  unfold patternCase
  split
  · refine .get fun s _ _ => ?_
    dsimp only
    split
    · exact .mismatch _
    · exact (IsSteady.record _ _).seq fun _ => .pure True.intro
  · exact .mismatch _

/-- The frame of a case declares neither templates nor traits. -/
theorem caseFrame_steady (r : TypeId) (binders : List String) :
    IsSteady ctx free result (caseFrame r binders) Scope.Plain := by
  refine .get fun s _ _ => ?_
  dsimp only
  split
  · exact .pure .empty
  · split
    · exact .mismatch _
    · exact .pure Scope.Plain.empty.bindValues

theorem inferPattern_steady (scrutinee : TypeId) (onDynamic : Bool) (type : NodeId)
    (binder : Option String) (fields : List String) :
    IsSteady ctx free result (inferPattern ctx scrutinee onDynamic type binder fields)
      fun r => r.1.Plain := by
  unfold inferPattern
  dsimp only
  split
  · refine (typeExpr_steady result type).seq fun t => ?_
    split
    · exact .stop (.mismatch _)
    · exact .pure Scope.Plain.empty.bindValues
  · refine (patternCase_steady type scrutinee).seq fun t => ?_
    exact (caseFrame_steady t fields).bind fun frame hframe => .pure hframe.bindValues

/-- The returns in the body of an arm fit. -/
def ArmFits (tree : SyntaxTree) (result : Option TypeId) (arm : NodeId) : Prop :=
  ∀ matched body, tree.node arm = .arm matched body → tree.ReturnsFit result body

theorem inferArm_returns (hinfer : ChecksReturns ctx free infer) (scrutinee : TypeId)
    (onDynamic : Bool) (arm : NodeId) :
    IsSteady ctx free result (inferArm ctx infer scrutinee onDynamic arm) fun _ =>
      ArmFits ctx.tree result arm := by
  unfold inferArm
  split
  · next matched body harm =>
      split
      · refine (inferPattern_steady _ _ _ _ _).bind ?_
        rintro ⟨frame, r⟩ hframe
        refine (IsSteady.record _ _).seq fun _ => ?_
        refine ((hinfer result body).withFrame hframe).bind fun _ hbody => ?_
        refine (IsSteady.record _ _).mono fun _ _ matched' body' harm' => ?_
        rw [harm] at harm'
        cases harm'
        exact hbody
      · exact .fail (by simp)
  · exact .fail (by simp)

theorem inferSelect_returns (hinfer : ChecksReturns ctx free infer) (cond : NodeId)
    (arms : List NodeId) :
    IsSteady ctx free result (inferSelect ctx infer cond arms) fun _ =>
      ctx.tree.ReturnsFit result cond ∧ ∀ arm ∈ arms, ArmFits ctx.tree result arm := by
  refine (hinfer result cond).bind fun given hcond => .get fun s _ _ => ?_
  have hloop : ∀ onDynamic, IsSteady ctx free result (do
      arms.forM (inferArm ctx infer (s.pool.resolve given) onDynamic)
      pure TypeId.void) fun _ =>
        ctx.tree.ReturnsFit result cond ∧ ∀ arm ∈ arms, ArmFits ctx.tree result arm := by
    intro onDynamic
    refine (IsSteady.forM fun arm _ => ?_).bind fun _ harms => .pure ⟨hcond, harms⟩
    exact inferArm_returns hinfer _ onDynamic arm
  dsimp only
  split
  · exact hloop false
  · exact hloop true
  · exact .stop (.mismatch _)

/-- A `return` without a value stands only where nothing is to be returned. -/
theorem inferReturn_returns (hinfer : ChecksReturns ctx free infer) (value : Option NodeId) :
    IsSteady ctx free result (inferReturn infer value) fun _ =>
      (value = none → result = some .void) ∧
        ∀ part ∈ value.toList, ctx.tree.ReturnsFit result part := by
  refine .get fun s _ hresult => ?_
  dsimp only
  split
  · exact .stop (.mismatch _)
  · next expected hexpected =>
      split
      · exact .get fun t _ _ => .stop (.mismatch _)
      · next hvoid =>
          refine .pure ⟨fun _ => ?_, by simp⟩
          rw [← hresult, hexpected, not_not.mp hvoid]
  · next expected value _ =>
      refine (hinfer result value).bind fun r hvalue => ?_
      split
      · exact .stop (.mismatch _)
      · refine .get fun t _ _ => ?_
        split
        · exact .stop (.mismatch _)
        · exact .pure ⟨by simp, by simpa using hvalue⟩

theorem lambdaParams_steady (params : List NodeId) :
    IsSteady ctx free result (lambdaParams ctx params) fun _ => True := by
  refine (IsSteady.mapM (P := fun _ => True) fun param _ => ?_).trivial
  have hrecord (name : String) (r : TypeId) :
      IsSteady ctx free result (do record param r; pure (name, r)) fun _ => True :=
    (IsSteady.record param r).seq fun _ => .pure True.intro
  dsimp only
  split
  · exact (typeExpr_steady result _).seq fun r => hrecord _ r
  · exact IsSteady.makeType.seq fun r => hrecord _ r
  · exact .stop (.fail (by simp))

theorem lambdaCaptures_steady (captures : List String) :
    IsSteady ctx free result (lambdaCaptures captures) fun _ => True := by
  refine (IsSteady.mapM (P := fun _ => True) fun name _ => .get fun s _ _ => ?_).trivial
  split
  · exact .pure True.intro
  · exact .fail (by simp)

/-- In the body of a lambda there is no declared result. -/
theorem inferLambda_returns (hinfer : ChecksReturns ctx free infer) (params : List NodeId)
    (captures : List String) (body : NodeId) :
    IsSteady ctx free result (inferLambda ctx infer params captures body) fun _ =>
      ctx.tree.ReturnsFit none body := by
  refine (lambdaParams_steady params).seq fun named => ?_
  refine (lambdaCaptures_steady captures).seq fun captured => ?_
  refine ((hinfer none body).withReturnType.withFrame Scope.Plain.empty.bindValues).bind
    fun r hbody => ?_
  exact IsSteady.makeType.mono fun _ _ => hbody

/-! ## Members -/

/-- The visit belongs to a walk that exists, and the returns of a method are checked against the
signature that is recorded for it. -/
def MethodChecked (tree : SyntaxTree) (table : TypeTable) (v : Visit) : Prop :=
  v.walk < table.nextInstance ∧ ∀ sig, table.signatures[v]? = some sig →
    ∀ name params result body, tree.node v.node = .methodDef name params result body →
      tree.ReturnsFit (some sig.result) body

/-- All methods that a statement of a type body comes to are checked. -/
def MemberChecked (ctx : TypingContext σ) (walk : InstanceId) (statement : NodeId)
    (table : TypeTable) : Prop :=
  table.Throughout ctx.tree (MethodChecked ctx.tree table) { walk, node := statement }

theorem MethodChecked.mono {tree : SyntaxTree} {v : Visit} (h : MethodChecked tree s.table v)
    (hle : Steady False s t) : MethodChecked tree t.table v := by
  refine ⟨Nat.lt_of_lt_of_le h.1 hle.next_le, fun sig hsig => h.2 sig ?_⟩
  rwa [(hle.records v h.1 False.elim).1] at hsig

/-- An inclusion that is known stays known. -/
theorem Steady.inclusion (hle : Steady False s t) (hs : Orderly ctx s) {v : Visit}
    {walk : InstanceId} (h : s.table.inclusion? v = some walk) :
    t.table.inclusion? v = some walk := by
  rw [(hle.records v (hs.inclusions_lt v walk h).1 False.elim).2]
  exact h

theorem MemberChecked.mono {walk : InstanceId} {statement : NodeId}
    (h : MemberChecked ctx walk statement s.table) (hs : Orderly ctx s) (hle : Steady False s t) :
    MemberChecked ctx walk statement t.table :=
  TypeTable.Throughout.mono h (fun _ hv => hv.mono hle) fun _ _ hwalk => hle.inclusion hs hwalk

/-- A visit to a node without a body of its own. -/
theorem Orderly.methodChecked (hs : Orderly ctx s) {node : NodeId}
    (hnode : ∀ name params result body, ctx.tree.node node ≠ .methodDef name params result body) :
    MethodChecked ctx.tree s.table { walk := s.walk, node } :=
  ⟨hs.walk_lt, fun _ _ name params result body h => absurd h (hnode name params result body)⟩

/-- The returns of a method are checked against its recorded signature. -/
theorem walkMethod_returns (hinfer : ChecksReturns ctx False infer) (node : NodeId)
    (hs : Orderly ctx s) :
    (steadily ctx False).KeepsAt s (walkMethod ctx infer node) fun _ u =>
      MethodChecked ctx.tree u.table { walk := u.walk, node } := by
  unfold walkMethod
  split
  · next name params result body hnode =>
      refine .bind_read hs (b := ⟨s.walk, node⟩) rfl (.bind_read hs (b := s) rfl ?_)
      cases hsignature : s.table.signature ⟨s.walk, node⟩ with
      | error e =>
          exact .bind (.of_error (Q := fun _ _ => False) rfl
            ⟨(TypeTable.signature_free _ _).noCycle hsignature, rfl⟩) fun _ _ _ _ h => h.elim
      | ok sig =>
          have hbody : IsSteady ctx False s.returnType (withFrame (methodFrame ctx params sig)
              (withReturnType (some sig.result) (infer body))) fun _ =>
                ctx.tree.ReturnsFit (some sig.result) body :=
            (hinfer (some sig.result) body).withReturnType.withFrame methodFrame_plain
          refine .bind_read hs rfl (.bind (hbody s hs rfl) fun r u hu hle hfits => ?_)
          have hchecked : MethodChecked ctx.tree u.table { walk := u.walk, node } := by
            refine ⟨hu.walk_lt, fun sig' hsig' name' params' result' body' hnode' => ?_⟩
            rw [hnode] at hnode'
            cases hnode'
            rw [hle.walk, (hle.records _ hs.walk_lt False.elim).1] at hsig'
            rw [TypeTable.signature, hsig'] at hsignature
            cases hsignature
            exact hfits
          refine .bind_read hu (b := u) rfl ?_
          dsimp only
          split
          · exact mismatch_steadily _
          · exact .pure hu hchecked
  · exact fail_steadily (by simp)

/-- The members of a body are checked, those of included traits in the walks of the inclusions. -/
theorem walkMembersWithin_returns (hinfer : ChecksReturns ctx False infer) (fuel : Nat)
    (body : NodeId) (hs : Orderly ctx s) :
    (steadily ctx False).KeepsAt s (walkMembersWithin ctx infer fuel body) fun _ u =>
      ∀ statement ∈ ctx.tree.statements body, MemberChecked ctx s.walk statement u.table := by
  induction fuel generalizing s body with
  | zero => exact outOfFuel_steadily
  | succ fuel ih =>
      unfold walkMembersWithin
      refine Discipline.forM_keeps_each (D := steadily ctx False)
        (P := fun statement u => MemberChecked ctx s.walk statement u.table) _ hs
        (fun statement _ t u ht hle _ h => h.mono ht hle) fun statement _ t ht hle => ?_
      rw [← hle.walk]
      -- a statement that is neither an inclusion nor a method with a body has nothing to check
      have hsingle : ∀ u : TypingState σ, Orderly ctx u → u.walk = t.walk →
          (∀ name, ctx.tree.node statement ≠ .inclusion name) →
          (∀ name params result body,
            ctx.tree.node statement ≠ .methodDef name params result body) →
          MemberChecked ctx t.walk statement u.table :=
        fun u hu hwalk hnot hdef => .single hnot fun _ => hwalk ▸ hu.methodChecked hdef
      have hrecord : IsSteady ctx False t.returnType (do
          let v ← visit statement
          if ((← get).table.get? v).isNone then record statement .void) fun _ => True := by
        intro u hu hresult
        refine .bind_read hu (b := ⟨u.walk, statement⟩) rfl (.bind_read hu (b := u) rfl ?_)
        split
        · exact IsSteady.record _ _ u hu hresult
        · exact .pure hu True.intro
      have hkeep := hrecord t ht rfl
      dsimp only
      split
      · next name params result methodBody hnode =>
          refine .bind (walkMethod_returns hinfer statement ht) fun _ u hu hle' hchecked => ?_
          refine (IsSteady.record _ _ u hu rfl).weaken fun _ v _ hle'' _ => ?_
          refine .single (by simp [hnode]) fun _ => ?_
          rw [hle'.walk] at hchecked
          exact hchecked.mono hle''
      · next name hnode =>
          refine .bind (findTrait_steady name t ht rfl) fun traitBody u hu hle' htrait => ?_
          refine .bind_read hu (b := ⟨u.walk, statement⟩) rfl (.bind_read hu (b := u) rfl ?_)
          split
          · exact fail_steadily (by simp)
          · next included hincluded =>
              refine .bind (withWalk_steady (R := fun _ table =>
                ∀ inner ∈ ctx.tree.statements traitBody, MemberChecked ctx included inner table)
                hu (hu.inclusions_lt _ _ hincluded).2 fun v hv _ hwalk => ?_)
                fun _ v hv hle'' hinner => ?_
              · rw [← hwalk]
                exact ih traitBody hv
              · have hmember : MemberChecked ctx t.walk statement v.table := by
                  refine .inclusion hnode ?_ htrait hinner
                  rw [← hle'.walk]
                  exact hle''.inclusion hu hincluded
                exact (IsSteady.record _ _ v hv rfl).weaken fun _ w _ hle₃ _ =>
                  hmember.mono hv hle₃
      · next hnode =>
          exact hkeep.weaken fun _ u hu hle' _ => hsingle u hu hle'.walk (by simp [hnode])
            (by simp [hnode])
      · next hnode =>
          exact hkeep.weaken fun _ u hu hle' _ => hsingle u hu hle'.walk (by simp [hnode])
            (by simp [hnode])
      · next hdef hincl _ _ =>
          refine .bind (hinfer t.returnType statement t ht rfl) fun _ u hu hle' _ => ?_
          exact .pure hu (hsingle u hu hle'.walk hincl hdef)

/-- The members of a declared type are checked. -/
theorem walkDeclaredType_returns (hinfer : ChecksReturns ctx False infer) (decl : NodeId)
    (typeParam : Option String) (body : Option NodeId) (hs : Orderly ctx s) :
    (steadily ctx False).KeepsAt s (walkDeclaredType ctx infer decl typeParam body) fun _ u =>
      typeParam = none → ∀ body' ∈ body, ∀ statement ∈ ctx.tree.statements body',
        MemberChecked ctx s.walk statement u.table := by
  unfold walkDeclaredType
  split
  · next hparam => exact .pure hs fun h => by simp [h] at hparam
  · refine .bind (IsSteady.recorded decl s hs rfl) fun r t ht hle _ => ?_
    cases body with
    | none => exact .pure ht (by simp)
    | some body =>
        refine .bind (withTypeFrame_steady (R := fun _ table =>
          ∀ statement ∈ ctx.tree.statements body, MemberChecked ctx s.walk statement table) _ ht
          fun u hu _ hwalk _ => ?_) fun _ u hu _ h => .pure hu fun _ body' hbody' => ?_
        · rw [← hle.walk, ← hwalk]
          exact walkMembersWithin_returns hinfer _ body hu
        · cases hbody'
          exact h

/-! ## Nodes -/

/-- The returns in the code of a node are checked if those of its parts are. -/
theorem inferNode_returns (hinfer : ChecksReturns ctx False infer) (node : NodeId) :
    IsSteady ctx False result (inferNode ctx infer node) fun _ =>
      ctx.tree.ReturnsFit result node := by
  -- a node other than a `return` and a lambda fits if its parts do
  have hfits (h : ctx.tree.node node ≠ .ret none ∧
        ∀ params captures body, ctx.tree.node node ≠ .lambda params captures body)
      (hparts : ∀ part ∈ ctx.tree.inlineParts node, ctx.tree.ReturnsFit result part) :
      ctx.tree.ReturnsFit result node :=
    .intro (fun hret => absurd hret h.1) hparts fun params captures body hlambda =>
      absurd hlambda (h.2 params captures body)
  have hleaf {step : Typing σ TypeId} (h : ctx.tree.inlineParts node = [] ∧
        ctx.tree.node node ≠ .ret none ∧
        ∀ params captures body, ctx.tree.node node ≠ .lambda params captures body)
      (hstep : IsSteady ctx False result step fun _ => True) :
      IsSteady ctx False result step fun _ => ctx.tree.ReturnsFit result node :=
    hstep.mono fun _ _ => hfits h.2 (by simp [h.1])
  have hdecl (typeParam : Option String) (body : Option NodeId) :
      IsSteady ctx False result (walkDeclaredType ctx infer node typeParam body) fun _ => True :=
    fun s hs _ => (walkDeclaredType_returns hinfer node typeParam body hs).trivial
  unfold inferNode
  cases hnode : ctx.tree.node node with
  | seq statements =>
      refine (IsSteady.foldlM fun _ statement _ => hinfer result statement).mono fun _ h => ?_
      exact hfits (by simp [hnode]) (by simpa [SyntaxTree.inlineParts, hnode] using h)
  | number | bool | text | varargs | methodDec | traitDef | importModule | package =>
      exact hleaf (by simp [SyntaxTree.inlineParts, hnode]) (.pure True.intro)
  | ident name =>
      exact hleaf (by simp [SyntaxTree.inlineParts, hnode]) (inferIdent_steady node name)
  | ivar name =>
      exact hleaf (by simp [SyntaxTree.inlineParts, hnode]) (ivarInScope_steady name)
  | selfRef =>
      refine hleaf (by simp [SyntaxTree.inlineParts, hnode]) (.get fun s _ _ => ?_)
      split
      · exact .pure True.intro
      · exact .fail (by simp)
  | typed | namedType | pointerType | templatedType | closureType | ivarDecl =>
      exact hleaf (by simp [SyntaxTree.inlineParts, hnode]) (typeExpr_steady result _)
  | methodDef =>
      refine hleaf (by simp [SyntaxTree.inlineParts, hnode]) ?_
      refine IsSteady.seq (fun s hs _ => (walkMethod_returns hinfer node hs).trivial) fun _ => ?_
      exact .pure True.intro
  | classDef name typeParam body =>
      exact hleaf (by simp [SyntaxTree.inlineParts, hnode]) (hdecl typeParam (some body))
  | dataDef name typeParam cases body =>
      exact hleaf (by simp [SyntaxTree.inlineParts, hnode]) (hdecl typeParam body)
  | caseDef => exact hleaf (by simp [SyntaxTree.inlineParts, hnode]) (.recorded node)
  | inclusion => exact .mismatch _
  | arm | pattern => exact .fail (by simp)
  | var name type value =>
      refine (inferVar_returns hinfer name type value).mono fun _ h => ?_
      exact hfits (by simp [hnode]) (by simpa [SyntaxTree.inlineParts, hnode] using h)
  | assign target value =>
      refine (inferAssign_returns hinfer target value).mono fun _ h => ?_
      exact hfits (by simp [hnode]) (by simpa [SyntaxTree.inlineParts, hnode] using h)
  | call receiver method args =>
      cases receiver with
      | none =>
          refine (inferBareCall_returns hinfer node method args).mono fun _ h => ?_
          exact hfits (by simp [hnode]) (by simpa [SyntaxTree.inlineParts, hnode] using h)
      | some receiver =>
          refine (inferReceiverCall_returns hinfer node receiver method args).mono fun _ h => ?_
          exact hfits (by simp [hnode]) (by simpa [SyntaxTree.inlineParts, hnode] using h)
  | namedArg name value =>
      refine (hinfer result value).mono fun _ h => ?_
      exact hfits (by simp [hnode]) (by simpa [SyntaxTree.inlineParts, hnode] using h)
  | templatedInstance name typeArgs args =>
      refine (inferTemplatedInstance_returns hinfer node name typeArgs args).mono fun _ h => ?_
      exact hfits (by simp [hnode]) (by simpa [SyntaxTree.inlineParts, hnode] using h)
  | binary op lhs rhs =>
      refine (inferBinary_returns hinfer op lhs rhs).mono fun _ h => ?_
      exact hfits (by simp [hnode]) (by simpa [SyntaxTree.inlineParts, hnode] using h)
  | unary op operand =>
      refine (inferUnary_returns hinfer op operand).mono fun _ h => ?_
      exact hfits (by simp [hnode]) (by simpa [SyntaxTree.inlineParts, hnode] using h)
  | branch cond yes no =>
      refine (inferCondition_returns hinfer cond).bind fun _ hcond => ?_
      refine (hinfer result yes).bind fun _ hyes => ?_
      cases no with
      | none =>
          exact .pure (hfits (by simp [hnode]) (by simp [SyntaxTree.inlineParts, hnode, hcond, hyes]))
      | some no =>
          refine IsSteady.bind (P := fun _ => ctx.tree.ReturnsFit result no)
            ((hinfer result no).bind fun _ hno => .pure hno) fun _ hno => ?_
          exact .pure (hfits (by simp [hnode])
            (by simp [SyntaxTree.inlineParts, hnode, hcond, hyes, hno]))
  | loop cond body =>
      refine (inferCondition_returns hinfer cond).bind fun _ hcond => ?_
      refine (hinfer result body).bind fun _ hbody => ?_
      exact .pure (hfits (by simp [hnode]) (by simp [SyntaxTree.inlineParts, hnode, hcond, hbody]))
  | select cond arms =>
      refine (inferSelect_returns hinfer cond arms).mono fun _ ⟨hcond, harms⟩ => ?_
      refine hfits (by simp [hnode]) fun part hpart => ?_
      simp only [SyntaxTree.inlineParts, hnode, List.mem_cons, List.mem_filterMap] at hpart
      rcases hpart with rfl | ⟨arm, harm, hpart⟩
      · exact hcond
      · split at hpart
        · next hnode' =>
            cases hpart
            exact harms arm harm _ _ hnode'
        · cases hpart
  | ret value =>
      refine (inferReturn_returns hinfer value).mono fun _ ⟨hbare, hparts⟩ => ?_
      refine .intro (fun h => hbare ?_) ?_ fun _ _ _ h => by simp [hnode] at h
      · rw [hnode] at h
        exact Node.ret.inj h
      · simpa [SyntaxTree.inlineParts, hnode] using hparts
  | lambda params captures body =>
      refine (inferLambda_returns hinfer params captures body).mono fun _ hbody => ?_
      refine .intro (fun h => by simp [hnode] at h) (by simp [SyntaxTree.inlineParts, hnode]) ?_
      intro params' captures' body' h
      rw [hnode] at h
      cases h
      exact hbody

/-- Typing a node checks the returns in its code. -/
theorem inferWithin_returns (fuel : Nat) : ChecksReturns ctx False (inferWithin ctx fuel) := by
  induction fuel with
  | zero => exact fun _ _ => .outOfFuel
  | succ fuel ih =>
      intro result node
      unfold inferWithin
      refine (inferNode_returns ih node).bind fun r hfits => ?_
      exact (IsSteady.record node r).seq fun _ => .pure hfits

/-! ## Statements -/

/-- What is checked when a statement at top level is typed: the body of a function, or the members
of a declared type. -/
def StatementChecked (ctx : TypingContext σ) (walk : InstanceId) (statement : NodeId)
    (table : TypeTable) : Prop :=
  MethodChecked ctx.tree table { walk, node := statement } ∧
    ((ctx.tree.node statement).declaresType = true → ∀ body,
      ctx.tree.bodyOf? statement = some body → ∀ member ∈ ctx.tree.statements body,
        MemberChecked ctx walk member table)

theorem StatementChecked.mono {walk : InstanceId} {statement : NodeId}
    (h : StatementChecked ctx walk statement s.table) (hs : Orderly ctx s)
    (hle : Steady False s t) : StatementChecked ctx walk statement t.table :=
  ⟨h.1.mono hle, fun hdecl body hbody member hmember =>
    (h.2 hdecl body hbody member hmember).mono hs hle⟩

/-- Typing a statement checks it. -/
theorem inferNode_checks (hinfer : ChecksReturns ctx False infer) (node : NodeId)
    (hs : Orderly ctx s) :
    (steadily ctx False).KeepsAt s (inferNode ctx infer node) fun _ u =>
      StatementChecked ctx s.walk node u.table := by
  have hplain (hdef : ∀ name params result body,
        ctx.tree.node node ≠ .methodDef name params result body)
      (hdecl : (ctx.tree.node node).declaresType = false) :
      (steadily ctx False).KeepsAt s (inferNode ctx infer node) fun _ u =>
        StatementChecked ctx s.walk node u.table :=
    (inferNode_returns hinfer node s hs rfl).weaken fun _ u hu hle _ =>
      ⟨hle.walk ▸ hu.methodChecked hdef, by simp [hdecl]⟩
  have htype (typeParam : Option String) (body : Option NodeId)
      (hdef : ∀ name params result body,
        ctx.tree.node node ≠ .methodDef name params result body)
      (hparam : (ctx.tree.node node).declaresType = true → typeParam = none)
      (hbody : ctx.tree.bodyOf? node = body) :
      (steadily ctx False).KeepsAt s (walkDeclaredType ctx infer node typeParam body) fun _ u =>
        StatementChecked ctx s.walk node u.table :=
    (walkDeclaredType_returns hinfer node typeParam body hs).weaken fun _ u hu hle h =>
      ⟨hle.walk ▸ hu.methodChecked hdef, fun hdecl body' hbody' =>
        h (hparam hdecl) body' (hbody.symm.trans hbody')⟩
  cases hnode : ctx.tree.node node with
  | methodDef =>
      rw [inferNode, hnode]
      refine .bind (walkMethod_returns hinfer node hs) fun _ u hu hle hchecked => ?_
      exact .pure hu ⟨hle.walk ▸ hchecked, by simp [hnode, Node.declaresType]⟩
  | classDef name typeParam body =>
      rw [inferNode, hnode]
      refine htype typeParam (some body) (by simp [hnode]) ?_ (by simp [SyntaxTree.bodyOf?, hnode])
      cases typeParam <;> simp [hnode, Node.declaresType]
  | dataDef name typeParam cases body =>
      rw [inferNode, hnode]
      refine htype typeParam body (by simp [hnode]) ?_ (by simp [SyntaxTree.bodyOf?, hnode])
      cases typeParam <;> simp [hnode, Node.declaresType]
  | _ => exact hplain (by simp [hnode]) (by simp [hnode, Node.declaresType])

theorem inferWithin_checks (fuel : Nat) (node : NodeId) (hs : Orderly ctx s) :
    (steadily ctx False).KeepsAt s (inferWithin ctx fuel node) fun _ u =>
      StatementChecked ctx s.walk node u.table := by
  cases fuel with
  | zero => exact outOfFuel_steadily
  | succ fuel =>
      refine .bind (inferNode_checks (inferWithin_returns fuel) node hs) fun r t ht _ h => ?_
      refine .bind (IsSteady.record node r t ht rfl) fun _ u hu hle _ => ?_
      exact .pure hu (h.mono ht hle)

/-- The statements of a sequence are checked one after the other. -/
theorem inferAll_checks (fuel : Nat) (statements : List NodeId) (r : TypeId)
    (hs : Orderly ctx s) :
    (steadily ctx False).KeepsAt s
      (statements.foldlM (fun _ statement => inferWithin ctx fuel statement) r) fun _ u =>
        ∀ statement ∈ statements, StatementChecked ctx s.walk statement u.table := by
  induction statements generalizing s r with
  | nil => exact .pure hs (by simp)
  | cons statement statements ih =>
      rw [List.foldlM_cons]
      refine .bind (inferWithin_checks fuel statement hs) fun r' t ht hle h => ?_
      refine (ih r' ht).weaken fun _ u _ hle' hrest => List.forall_mem_cons.mpr ⟨h.mono ht hle', ?_⟩
      rwa [hle.walk] at hrest

/-- Typing the whole tree checks all statements at top level. -/
theorem infer_checks (hs : Orderly ctx s) :
    (steadily ctx False).KeepsAt s (Typing.infer ctx ctx.tree.root) fun _ u =>
      ∀ statement ∈ ctx.tree.statements ctx.tree.root,
        StatementChecked ctx s.walk statement u.table := by
  unfold Typing.infer SyntaxTree.statements
  split
  · next statements hnode =>
      cases ctx.tree.walkBudget with
      | zero => exact outOfFuel_steadily
      | succ fuel =>
          rw [inferWithin, inferNode, hnode]
          refine .bind (inferAll_checks fuel statements .void hs) fun r t ht _ h => ?_
          refine .bind (IsSteady.record _ r t ht rfl) fun _ u hu hle _ => .pure hu ?_
          exact fun statement hstatement => (h statement hstatement).mono ht hle
  · refine (inferWithin_checks _ ctx.tree.root hs).weaken fun _ u _ _ h => ?_
    simpa using h

end ClassLang.Typing
