import ClassLang.Proofs.Lowering.Faults
import ClassLang.Proofs.Typing.Arguments

/-!
# Generating prepared nodes

Generating a node of a `Prepared` set stops only as allowed: each construct asks for the findings
that `NodeReady` lists, and goes on with nodes of the set.
-/

namespace ClassLang.Lower

open IR (Build KeepsShared Value)

variable {Allowed : Halt → Prop} {declared : String → Prop} {ctx : LoweringContext}
  {walk : InstanceId} {S : NodeId → Prop} {lower : NodeId → Lower (Option Value)}

/-- All nodes of the set can be generated. -/
def LowersAll (ctx : LoweringContext) (Allowed : Halt → Prop) (declared : String → Prop)
    (walk : InstanceId) (S : NodeId → Prop) (lower : NodeId → Lower (Option Value)) : Prop :=
  ∀ node, S node → Safe ctx Allowed declared walk (lower node)

section Constructs

variable (hA : Tolerant Allowed) (hlower : LowersAll ctx Allowed declared walk S lower)

include hA hlower

theorem lowerValue_safe {node : NodeId} (h : S node) :
    Safe ctx Allowed declared walk (lowerValue lower node) := by
  refine (hlower node h).bind fun result => ?_
  split
  · exact .pure _
  · exact .broken hA (by simp [faultHeads, ToString.toString])

/-! ## Expressions -/

theorem lowerBinary_safe {node lhs rhs : NodeId} {op : BinaryOp}
    (hl : PartReady Allowed ctx walk S lhs) (hr : PartReady Allowed ctx walk S rhs) :
    Safe ctx Allowed declared walk (lowerBinary ctx lower node op lhs rhs) := by
  refine (typeOf_safe hA hl.1).bind fun lhsType => (typeOf_safe hA hr.1).bind fun rhsType => ?_
  refine (lowerValue_safe hA hlower hl.2).bind fun l => ?_
  refine (lowerValue_safe hA hlower hr.2).bind fun r => (convert_safe hA _ _ _).bind fun r => ?_
  split
  · exact .lift (.program hA (by simp))
  · split
    · exact .build (.binary _ _ _ _)
    · exact .broken hA (by decide)
  · split
    · exact .build (.compareOf _ _ _ _ _)
    · exact .broken hA (by decide)
  · exact .broken hA (by simp [faultHeads, ToString.toString])

omit hlower in
theorem lowerIdent_safe {node : NodeId} {name : String}
    (h : TargetKnown Allowed declared ctx walk node) :
    Safe ctx Allowed declared walk (lowerIdent ctx node name) := by
  refine target_safe h fun found _ => ?_
  split
  · exact loadLocal_safe hA _
  · exact .lift (Emit.singleton_safe hA _)
  · exact .broken hA (by simp [faultHeads, ToString.toString])

omit hlower in
theorem ivarSlot_safe {name : String} : Safe ctx Allowed declared walk (ivarSlot ctx name) := by
  refine .get_bind fun b _ => ?_
  dsimp only
  split
  · split
    · split
      · refine (Safe.lift (Emit.layout_safe hA _)).bind fun struct => ?_
        refine (Safe.lift (Emit.valueType_safe hA _)).bind fun type => ?_
        exact (Safe.build (.structField _ _ _ _)).bind fun slot => .pure _
      · exact .lift (.program hA (by simp))
    · exact .mismatch hA
  · exact .mismatch hA

omit hlower in
theorem lowerIvar_safe {name : String} : Safe ctx Allowed declared walk (lowerIvar ctx name) :=
  (ivarSlot_safe hA).bind fun _ => .build (.load _ _ _)

theorem lowerVar_safe {node value : NodeId} {name : String}
    (hnode : TypeKnown Allowed ctx walk node) (hvalue : PartReady Allowed ctx walk S value) :
    Safe ctx Allowed declared walk (lowerVar ctx lower node name value) := by
  refine (typeOf_safe hA hvalue.1).bind fun valueType => (typeOf_safe hA hnode).bind fun varType => ?_
  refine (lowerValue_safe hA hlower hvalue.2).bind fun v => (convert_safe hA _ _ _).bind fun v => ?_
  exact (bindLocal_safe hA _ _ _).bind fun _ => .pure _

theorem lowerAssign_safe {target value : NodeId} (htarget : TypeKnown Allowed ctx walk target)
    (hvalue : PartReady Allowed ctx walk S value) :
    Safe ctx Allowed declared walk (lowerAssign ctx lower target value) := by
  refine (typeOf_safe hA hvalue.1).bind fun valueType => ?_
  refine (typeOf_safe hA htarget).bind fun targetType => ?_
  refine (lowerValue_safe hA hlower hvalue.2).bind fun v => (convert_safe hA _ _ _).bind fun c => ?_
  have hend : ∀ _ : PUnit, Safe ctx Allowed declared walk (pure v) := fun _ => .pure v
  dsimp only
  split
  · exact (ivarSlot_safe hA).bind fun slot => (Safe.build (.store _ _)).bind hend
  · refine .get_bind fun b _ => ?_
    split
    · exact (Safe.build (.store _ _)).bind hend
    · exact Safe.bind (.mismatch hA) hend
    · exact Safe.bind (.broken hA (by simp [faultHeads, ToString.toString])) hend
  · exact Safe.bind (.broken hA (by decide)) hend

/-! ## Calls and constructions -/

theorem lowerArgs_safe {sig : Signature} {args : List NodeId}
    (hargs : ∀ arg ∈ args, PartReady Allowed ctx walk S arg) :
    Safe ctx Allowed declared walk (lowerArgs ctx lower sig args) := by
  refine (Safe.lift (.ofExcept fun e he => hA.program e ?_)).bind fun ordered => ?_
  · rcases orderArguments_error he with ⟨_, _, rfl⟩ | ⟨_, rfl⟩ <;> simp
  · refine (Safe.mapM fun arg harg => ?_).bind fun lowered => ?_
    · refine (lowerValue_safe hA hlower (hargs arg harg).2).bind fun value => ?_
      exact (typeOf_safe hA (hargs arg harg).1).bind fun _ => .pure _
    · refine (Safe.mapM fun item _ => convert_safe hA _ _ _).bind fun fixed => ?_
      refine (Safe.mapM fun item _ => ?_).bind fun extra => .pure _
      exact .ite (convert_safe hA _ _ _) (.pure _)

theorem callFunction_safe {sig : Signature} {receiver : Option Value} {args : List NodeId}
    (hsig : FunctionKnown Allowed declared sig)
    (hargs : ∀ arg ∈ args, PartReady Allowed ctx walk S arg) :
    Safe ctx Allowed declared walk (callFunction ctx lower sig receiver args) := by
  refine (Safe.lift (Emit.functionFor_safe hsig)).bind fun function => ?_
  exact (lowerArgs_safe hA hlower hargs).bind fun values => .build (.call _ _ _)

theorem lowerElement_safe {node receiver : NodeId} {method : String} {index : Nat}
    (hnode : TypeKnown Allowed ctx walk node) (hreceiver : PartReady Allowed ctx walk S receiver) :
    Safe ctx Allowed declared walk (lowerElement ctx lower node receiver method index) := by
  refine (typeOf_safe hA hreceiver.1).bind fun receiverType => ?_
  refine (typeOf_safe hA hnode).bind fun resultType => ?_
  refine (lowerValue_safe hA hlower hreceiver.2).bind fun object => ?_
  refine (Safe.lift (Emit.layout_safe hA _)).bind fun struct => ?_
  refine (Safe.lift (Emit.valueType_safe hA _)).bind fun type => .build ?_
  exact (KeepsShared.structField _ _ _ _).bind fun _ => .load _ _ _

theorem callClosure_safe {name : String} {sig : Signature} {args : List NodeId}
    (hargs : ∀ arg ∈ args, PartReady Allowed ctx walk S arg) :
    Safe ctx Allowed declared walk (callClosure ctx lower name sig args) := by
  refine (loadLocal_safe hA name).bind fun closure => ?_
  refine (Safe.lift (Emit.closureLayout_safe hA _ _ _)).bind fun header => ?_
  refine (Safe.lift (Emit.closureFnType_safe hA _ _)).bind fun type => ?_
  refine (lowerArgs_safe hA hlower hargs).bind fun values => .build ?_
  refine (KeepsShared.structField _ _ _ _).bind fun _ => ?_
  exact (KeepsShared.load _ _ _).bind fun _ => .callIndirect _ _ _ _

theorem constructObject_safe {t : TypeId} {init : Option Signature} {args : List NodeId}
    {onStack : Bool} (hinit : ∀ sig ∈ init, FunctionKnown Allowed declared sig)
    (hargs : ∀ arg ∈ args, PartReady Allowed ctx walk S arg) :
    Safe ctx Allowed declared walk (constructObject ctx lower t init args onStack) := by
  refine (Safe.lift (Emit.layout_safe hA _)).bind fun struct => ?_
  refine (allocate_safe hA _ _ _).bind fun object => ?_
  have hend : ∀ _ : PUnit, Safe ctx Allowed declared walk (pure object) := fun _ => .pure object
  dsimp only
  cases init with
  | some init =>
      refine (Safe.lift (Emit.functionFor_safe (hinit init rfl))).bind fun function => ?_
      refine (lowerArgs_safe hA hlower hargs).bind fun values => ?_
      exact (Safe.build (.call _ _ _)).bind fun _ => .pure _
  | none => exact .ite (Safe.bind (.broken hA (by decide)) hend) (.pure object)

theorem constructCase_safe {t : TypeId} {sig : Signature} {args : List NodeId} {onStack : Bool}
    (hargs : ∀ arg ∈ args, PartReady Allowed ctx walk S arg) :
    Safe ctx Allowed declared walk (constructCase ctx lower t sig args onStack) := by
  refine (Safe.lift (Emit.caseParts_safe hA t)).bind fun parts => ?_
  refine (lowerArgs_safe hA hlower hargs).bind fun values => ?_
  refine (Safe.lift (Emit.layout_safe hA t)).bind fun struct => ?_
  refine (Safe.lift (Emit.dataLayout_safe hA _)).bind fun envelopeStruct => ?_
  refine (allocate_safe hA _ _ _).bind fun object => (Safe.build ?_).bind fun _ => .pure _
  refine (KeepsShared.structField _ _ _ _).bind fun envelope => ?_
  refine (KeepsShared.structField _ _ _ _).bind fun tagSlot => ?_
  refine (KeepsShared.store _ _).bind fun _ => .forM fun item => ?_
  exact (KeepsShared.structField _ _ _ _).bind fun slot => .store _ _

theorem lowerConstruction_safe {node : NodeId} {args : List NodeId} {onStack : Bool}
    (h : CallReady Allowed declared ctx walk S node args) :
    Safe ctx Allowed declared walk (lowerConstruction ctx lower node args onStack) := by
  refine target_safe h.1 fun found hfound => ?_
  have hcallees := h.1.2 found hfound
  split
  · next t init =>
      refine constructObject_safe hA hlower (fun sig hsig => ?_) h.2
      rw [Option.mem_def] at hsig
      subst hsig
      exact hcallees sig (by simp [Target.callees])
  · exact constructCase_safe hA hlower h.2
  · exact .broken hA (by simp [faultHeads, ToString.toString])

theorem lowerUnary_safe {op : UnaryOp} {operand : NodeId} (hoperand : S operand)
    (hready : NodeReady Allowed declared ctx walk S operand) :
    Safe ctx Allowed declared walk (lowerUnary ctx lower op operand) := by
  unfold lowerUnary
  cases op with
  | not => exact (lowerValue_safe hA hlower hoperand).bind fun value => .build (.not _ _)
  | stack =>
      unfold NodeReady at hready
      dsimp only
      split
      · next args hnode =>
          rw [hnode] at hready
          exact lowerConstruction_safe hA hlower hready.2.1
      · next args hnode =>
          rw [hnode] at hready
          exact lowerConstruction_safe hA hlower hready
      · exact .mismatch hA

theorem lowerCall_safe {node : NodeId} {receiver : Option NodeId} {method : String}
    {args : List NodeId} (hnode : TypeKnown Allowed ctx walk node)
    (hcall : CallReady Allowed declared ctx walk S node args)
    (hreceiver : ∀ target, ctx.typed.table.target { walk, node } = .ok target →
      (∃ sig, target = .method sig) ∨ (∃ index, target = .element index) →
        ∀ object ∈ receiver, PartReady Allowed ctx walk S object) :
    Safe ctx Allowed declared walk (lowerCall ctx lower node receiver method args) := by
  refine target_safe hcall.1 fun found hfound => ?_
  have hcallees := hcall.1.2 found hfound
  have hobject := hreceiver found hfound
  have hconstruct : Safe ctx Allowed declared walk (do
      return some (← lowerConstruction ctx lower node args false)) :=
    (lowerConstruction_safe hA hlower hcall).bind fun _ => .pure _
  split
  · next sig => exact callFunction_safe hA hlower (hcallees sig (by simp [Target.callees])) hcall.2
  · next sig =>
      have hsig := hcallees sig (by simp [Target.callees])
      cases receiver with
      | none => exact .broken_bind hA (by decide)
      | some object =>
          refine .pure_bind ((lowerValue_safe hA hlower ?_).bind fun object => ?_)
          · exact (hobject (.inl ⟨sig, rfl⟩) object rfl).2
          · exact callFunction_safe hA hlower hsig hcall.2
  · next sig =>
      refine (receiver_safe hA).bind fun object => ?_
      exact callFunction_safe hA hlower (hcallees sig (by simp [Target.callees])) hcall.2
  · next index =>
      cases receiver with
      | none => exact .broken_bind hA (by decide)
      | some object =>
          have hready := hobject (.inr ⟨index, rfl⟩) object rfl
          exact .pure_bind ((lowerElement_safe hA hlower hnode hready).bind fun _ => .pure _)
  · exact callClosure_safe hA hlower hcall.2
  · exact hconstruct
  · exact hconstruct
  · split
    · next object =>
        refine (lowerValue_safe hA hlower (hcall.2 object (by simp)).2).bind fun object => ?_
        exact Safe.getOutput.bind fun o => (Safe.build (.call _ _ _)).bind fun _ => .pure _
    · exact .broken hA (by decide)
  · exact .broken hA (by simp [faultHeads, ToString.toString])

/-! ## Lambdas -/

theorem lambdaBody_safe {struct : IR.Ty} {params : List (NodeId × TypeId)}
    {captures : List (String × TypeId)} {body : NodeId}
    (hbody : PartReady Allowed ctx walk S body) :
    Safe ctx Allowed declared walk (lambdaBody ctx lower struct params captures body) := by
  refine .get_bind fun b _ => (Safe.build (.setParamName _ _ _)).bind fun _ => ?_
  refine Safe.getOutput.bind fun o => (Safe.forM ?_).bind fun _ => ?_
  · rintro ⟨⟨param, t⟩, index⟩ -
    dsimp only
    split
    · exact bindParam_safe hA _ _ _
    · exact bindParam_safe hA _ _ _
    · exact .broken hA (by decide)
  · refine (Safe.forM fun item _ => ?_).bind fun _ => finish_safe hA (hlower body hbody.2) hbody.1
    refine (Safe.lift (Emit.valueType_safe hA _)).bind fun type => (Safe.build ?_).bind fun value => ?_
    · exact (KeepsShared.structField _ _ _ _).bind fun _ => .load _ _ _
    · exact bindLocal_safe hA _ _ _

theorem lowerLambda_safe {node body : NodeId} {params : List NodeId} {captures : List String}
    (hnode : TypeKnown Allowed ctx walk node) (hbody : PartReady Allowed ctx walk S body) :
    Safe ctx Allowed declared walk (lowerLambda ctx lower node params captures body) := by
  refine (typeOf_safe hA hnode).bind fun t => ?_
  split
  · refine (Safe.lift (Emit.layout_safe hA t)).bind fun struct => ?_
    refine (Safe.lift (Emit.closureFnType_safe hA _ _)).bind fun type => ?_
    refine Safe.bind (.lift fun o ho => ?_) fun name => ?_
    · exact .of_ok rfl ho ⟨fun _ h => h, .code .refl ⟨fun key => by cases key <;> rfl, rfl, rfl⟩⟩
        True.intro
    refine (Safe.build (.declareFunction _ _)).bind fun function => ?_
    refine Safe.getOutput.bind fun o => .get_bind fun b hb => ?_
    refine .nested (fun u hu => hb ▸ start_safe hA _ _ _ _ _ hu) (lambdaBody_safe hA hlower hbody) ?_
    refine (Safe.build (.restore _)).bind fun _ => (allocate_safe hA _ _ _).bind fun object => ?_
    refine (Safe.build ?_).bind fun _ => (Safe.forM ?_).bind fun _ => .pure _
    · exact (KeepsShared.structField _ _ _ _).bind fun slot => .store _ _
    · rintro ⟨name, index⟩ -
      refine (loadLocal_safe hA name).bind fun value => .build ?_
      exact (KeepsShared.structField _ _ _ _).bind fun slot => .store _ _
  · exact .broken hA (by decide)

/-! ## Control flow -/

omit hA in
theorem lowerSeq_safe {statements : List NodeId} (h : ∀ statement ∈ statements, S statement) :
    Safe ctx Allowed declared walk (lowerSeq lower statements) :=
  .foldlM _ fun _ statement hstatement => terminated_safe.bind fun _ =>
    .ite (.pure _) (hlower statement (h statement hstatement))

theorem condition_safe {cond : NodeId} (h : PartReady Allowed ctx walk S cond) :
    Safe ctx Allowed declared walk (condition ctx lower cond) := by
  refine (typeOf_safe hA h.1).bind fun t => (lowerValue_safe hA hlower h.2).bind fun value => ?_
  exact .ite (.build (.compareOf _ _ _ _ _)) (.pure _)

omit hA hlower in
theorem joinAt_safe (merge : Option IR.BlockRef) : Safe ctx Allowed declared walk (joinAt merge) := by
  have hjump : ∀ target, Safe ctx Allowed declared walk (do
      build (Build.jump target)
      pure (some target)) := fun target => (Safe.build (.jump _)).bind fun _ => .pure _
  refine terminated_safe.bind fun ended => .ite (.pure _) ?_
  cases merge with
  | some target => exact hjump target
  | none => exact (block_safe _).bind hjump

omit hA hlower in
/-- Going on where branches meet, if they do. -/
theorem meet_safe (merge : Option IR.BlockRef) : Safe ctx Allowed declared walk (match merge with
    | some merge => build do
      Build.moveBlockToEnd merge
      Build.positionAtEnd merge
    | none => pure ()) := by
  cases merge with
  | some merge => exact .build ((KeepsShared.moveBlockToEnd _).bind fun _ => .positionAtEnd _)
  | none => exact .pure _

theorem lowerBranch_safe {cond yes : NodeId} {no : Option NodeId}
    (hcond : PartReady Allowed ctx walk S cond) (hyes : S yes) (hno : ∀ no' ∈ no, S no') :
    Safe ctx Allowed declared walk (lowerBranch ctx lower cond yes no) := by
  refine (condition_safe hA hlower hcond).bind fun cond => (block_safe _).bind fun yesBlock => ?_
  have hopen : ∀ noBlock : IR.BlockRef, KeepsShared (do
      Build.branch cond yesBlock noBlock
      Build.positionAtEnd yesBlock) :=
    fun noBlock => (KeepsShared.branch _ _ _).bind fun _ => .positionAtEnd _
  dsimp only
  cases no with
  | some no =>
      refine (block_safe _).bind fun noBlock => .pure_bind ((Safe.build (hopen _)).bind fun _ => ?_)
      refine (hlower yes hyes).bind fun _ => (joinAt_safe _).bind fun merge => ?_
      refine (Safe.build (.positionAtEnd _)).bind fun _ => (hlower no (hno no rfl)).bind fun _ => ?_
      exact (joinAt_safe _).bind meet_safe
  | none =>
      refine (block_safe _).bind fun merge => .pure_bind ((Safe.build (hopen _)).bind fun _ => ?_)
      refine (hlower yes hyes).bind fun _ => (joinAt_safe _).bind fun merge => ?_
      exact .pure_bind (meet_safe merge)

theorem lowerLoop_safe {cond body : NodeId} (hcond : PartReady Allowed ctx walk S cond)
    (hbody : S body) : Safe ctx Allowed declared walk (lowerLoop ctx lower cond body) := by
  refine (block_safe _).bind fun condBlock => (block_safe _).bind fun bodyBlock => ?_
  refine (block_safe _).bind fun endBlock => (Safe.build ?_).bind fun _ => ?_
  · exact (KeepsShared.jump _).bind fun _ => .positionAtEnd _
  · refine (condition_safe hA hlower hcond).bind fun cond => (Safe.build ?_).bind fun _ => ?_
    · exact (KeepsShared.branch _ _ _).bind fun _ => .positionAtEnd _
    · have hend : ∀ _ : PUnit, Safe ctx Allowed declared walk (build do
          Build.moveBlockToEnd endBlock
          Build.positionAtEnd endBlock) :=
        fun _ => .build ((KeepsShared.moveBlockToEnd _).bind fun _ => .positionAtEnd _)
      refine (hlower body hbody).bind fun _ => terminated_safe.bind fun ended => ?_
      exact .ite ((Safe.build (.jump _)).bind hend) (hend ⟨⟩)

theorem lowerReturn_safe {value : Option NodeId}
    (h : ∀ value' ∈ value, PartReady Allowed ctx walk S value') :
    Safe ctx Allowed declared walk (lowerReturn ctx lower value) := by
  unfold lowerReturn
  cases value with
  | none => exact returnVoid_safe
  | some value =>
      have hvalue := h value rfl
      have hrest : ∀ _ : PUnit, Safe ctx Allowed declared walk (do
          let t ← typeOf ctx value
          let v ← lowerValue lower value
          if !(← terminated) then returnValue ctx v t) := by
        intro _
        refine (typeOf_safe hA hvalue.1).bind fun t => ?_
        refine (lowerValue_safe hA hlower hvalue.2).bind fun v => terminated_safe.bind fun ended => ?_
        exact .ite (returnValue_safe hA _ _) (.pure _)
      refine Safe.bind (.get_bind fun b _ => .pure _) fun isVoid => ?_
      exact .ite (Safe.bind (.broken hA (by decide)) hrest) (hrest ⟨⟩)

/-! ## Case -/

omit hlower in
theorem tagMatches_safe (tag : Value) (t : TypeId) :
    Safe ctx Allowed declared walk (tagMatches ctx tag t) :=
  (Safe.lift (Emit.caseParts_safe hA t)).bind fun _ => .build (.compareOf _ _ _ _ _)

omit hlower in
/-- The fields of a matched case become locals. -/
theorem bindFields_safe (value : Value) (t : TypeId) (fields : List String) :
    Safe ctx Allowed declared walk (bindFields ctx value t fields) := by
  refine (Safe.lift (Emit.caseParts_safe hA t)).bind fun parts => ?_
  refine (Safe.lift (Emit.layout_safe hA t)).bind fun struct => .forM ?_
  rintro ⟨⟨name, _, fieldType⟩, index⟩ -
  refine (Safe.lift (Emit.valueType_safe hA _)).bind fun type => ?_
  refine (Safe.build ?_).bind fun loaded => bind_safe _ _
  exact (KeepsShared.structField _ _ _ _).bind fun _ => .load _ _ _

omit hlower in
theorem bindPattern_safe (value : Value) (t : TypeId) (onDynamic : Bool) (binder : Option String)
    (fields : List String) :
    Safe ctx Allowed declared walk (bindPattern ctx value t onDynamic binder fields) := by
  unfold bindPattern
  dsimp only
  split
  · split
    · exact (unboxDynamic_safe hA _ _).bind fun _ => bind_safe _ _
    · exact .pure _
  · split
    · exact (bind_safe _ _).bind fun _ => .ite (bindFields_safe hA value t fields) (.pure _)
    · exact .ite (bindFields_safe hA value t fields) (.pure _)

theorem lowerArm_safe {value : Value} {tag : Option Value} {endBlock : IR.BlockRef} {arm : NodeId}
    (harm : ∀ matched body, ctx.tree.node arm = .arm matched body →
      TypeKnown Allowed ctx walk matched ∧ S body) :
    Safe ctx Allowed declared walk (lowerArm ctx lower value tag endBlock arm) := by
  unfold lowerArm
  split
  · next matched body hnode =>
      obtain ⟨hmatched, hbody⟩ := harm matched body hnode
      split
      · next type binder fields hpattern =>
          refine (typeOf_safe hA hmatched).bind fun t => ?_
          have hrest : ∀ found, Safe ctx Allowed declared walk (do
              let armBlock ← block "when"
              let nextBlock ← block "when.next"
              build do
                Build.branch found armBlock nextBlock
                Build.positionAtEnd armBlock
              let outer := (← get).scope
              bindPattern ctx value t tag.isNone binder fields
              let _ ← lower body
              modify fun b => { b with scope := outer }
              if !(← terminated) then build (Build.jump endBlock)
              build (Build.positionAtEnd nextBlock)) := by
            intro found
            refine (block_safe _).bind fun armBlock => (block_safe _).bind fun nextBlock => ?_
            refine (Safe.build ?_).bind fun _ => .get_bind fun b _ => ?_
            · exact (KeepsShared.branch _ _ _).bind fun _ => .positionAtEnd _
            · have hnext : ∀ _ : PUnit, Safe ctx Allowed declared walk
                  (build (Build.positionAtEnd nextBlock)) := fun _ => .build (.positionAtEnd _)
              refine (bindPattern_safe hA _ _ _ _ _).bind fun _ => (hlower body hbody).bind fun _ => ?_
              refine Safe.bind (.update fun _ => rfl) fun _ => terminated_safe.bind fun ended => ?_
              exact .ite ((Safe.build (.jump _)).bind hnext) (hnext ⟨⟩)
          cases tag with
          | some tag => exact (tagMatches_safe hA _ _).bind hrest
          | none => exact (dynamicHolds_safe hA _ _).bind hrest
      · exact .broken hA (by decide)
  · exact .broken hA (by decide)

theorem lowerSelect_safe {cond : NodeId} {arms : List NodeId}
    (hcond : PartReady Allowed ctx walk S cond)
    (harms : ∀ arm ∈ arms, ∀ matched body, ctx.tree.node arm = .arm matched body →
      TypeKnown Allowed ctx walk matched ∧ S body) :
    Safe ctx Allowed declared walk (lowerSelect ctx lower cond arms) := by
  refine (typeOf_safe hA hcond.1).bind fun t => (lowerValue_safe hA hlower hcond.2).bind fun value => ?_
  have hrest : ∀ tag, Safe ctx Allowed declared walk (do
      let endBlock ← block "case.end"
      arms.forM (lowerArm ctx lower value tag endBlock)
      build do
        Build.jump endBlock
        Build.moveBlockToEnd endBlock
        Build.positionAtEnd endBlock) := by
    intro tag
    refine (block_safe _).bind fun endBlock => (Safe.forM fun arm harm => ?_).bind fun _ => .build ?_
    · exact lowerArm_safe hA hlower (harms arm harm)
    · refine (KeepsShared.jump _).bind fun _ => (KeepsShared.moveBlockToEnd _).bind fun _ => ?_
      exact .positionAtEnd _
  dsimp only
  refine .ite (.pure_bind (hrest none)) ?_
  refine (Safe.lift (Emit.layout_safe hA _)).bind fun envelope => (Safe.build ?_).bind hrest
  refine (KeepsShared.structField _ _ _ _).bind fun slot => ?_
  exact (KeepsShared.load _ _ _).bind fun _ => .pure _

end Constructs

/-! ## Nodes -/

theorem lowerNode_safe (hA : Tolerant Allowed) (hS : Prepared Allowed declared ctx walk S)
    (hlower : LowersAll ctx Allowed declared walk S lower) {node : NodeId} (hnode : S node) :
    Safe ctx Allowed declared walk (lowerNode ctx lower node) := by
  have hready := hS node hnode
  unfold NodeReady at hready
  unfold lowerNode
  cases hkind : ctx.tree.node node with
  | seq statements =>
      rw [hkind] at hready
      exact lowerSeq_safe hlower hready
  | number n => exact .ite (.pure _) (.mismatch hA)
  | bool b => exact .pure _
  | text s => exact (Safe.lift (Emit.stringLiteral_safe hA s)).bind fun _ => .pure _
  | ident name =>
      rw [hkind] at hready
      exact (lowerIdent_safe hA hready).bind fun _ => .pure _
  | ivar name => exact (lowerIvar_safe hA).bind fun _ => .pure _
  | selfRef => exact (receiver_safe hA).bind fun _ => .pure _
  | typed | varargs | namedType | pointerType | templatedType | closureType => exact .pure _
  | methodDef | methodDec | classDef | dataDef | caseDef | ivarDecl | traitDef | inclusion
  | importModule | package => exact .mismatch hA
  | var name type value =>
      rw [hkind] at hready
      exact (lowerVar_safe hA hlower hready.1 hready.2).bind fun _ => .pure _
  | assign target value =>
      rw [hkind] at hready
      exact (lowerAssign_safe hA hlower hready.1 hready.2).bind fun _ => .pure _
  | call receiver method args =>
      rw [hkind] at hready
      exact lowerCall_safe hA hlower hready.1 hready.2.1 hready.2.2
  | namedArg name value =>
      rw [hkind] at hready
      exact hlower value hready
  | templatedInstance name typeArgs args =>
      rw [hkind] at hready
      exact (lowerConstruction_safe hA hlower hready).bind fun _ => .pure _
  | binary op lhs rhs =>
      rw [hkind] at hready
      exact (lowerBinary_safe hA hlower hready.1 hready.2).bind fun _ => .pure _
  | unary op operand =>
      rw [hkind] at hready
      exact (lowerUnary_safe hA hlower hready (hS operand hready)).bind fun _ => .pure _
  | branch cond yes no =>
      rw [hkind] at hready
      exact (lowerBranch_safe hA hlower hready.1 hready.2.1 hready.2.2).bind fun _ => .pure _
  | loop cond body =>
      rw [hkind] at hready
      exact (lowerLoop_safe hA hlower hready.1 hready.2).bind fun _ => .pure _
  | select cond arms =>
      rw [hkind] at hready
      exact (lowerSelect_safe hA hlower hready.1 hready.2).bind fun _ => .pure _
  | arm | pattern => exact .broken hA (by decide)
  | ret value =>
      rw [hkind] at hready
      exact (lowerReturn_safe hA hlower hready).bind fun _ => .pure _
  | lambda params captures body =>
      rw [hkind] at hready
      exact (lowerLambda_safe hA hlower hready.1 hready.2).bind fun _ => .pure _

/-- Generating a node of a prepared set stops only as allowed. -/
theorem lowerWithin_safe (hA : Tolerant Allowed) (hS : Prepared Allowed declared ctx walk S)
    (fuel : Nat) : LowersAll ctx Allowed declared walk S (lowerWithin ctx fuel) := by
  induction fuel with
  | zero => exact fun _ _ => .lift (.throw hA.outOfFuel)
  | succ fuel ih => exact fun node hnode => lowerNode_safe hA hS ih hnode

end ClassLang.Lower
