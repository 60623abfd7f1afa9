import ClassLang.Proofs.Lowering.Storage

/-!
# Generating scoped nodes

Generating a node that is scoped stops otherwise than for lack of storage: each construct reads the
names that `NodeScoped` allows, goes on with parts that are scoped, and leaves storage for the names
it declares.
-/

namespace ClassLang.Lower

open IR (Build KeepsShared Ty Value)

variable {strict : Prop} {ctx : LoweringContext} {walk : InstanceId} {names : List String}
  {S : List String → NodeId → Prop} {lower : NodeId → Lower (Option Value)}

/-- All nodes in `S` can be generated where there is storage for their names, and then there is
storage for what they declare. -/
def ScopedAll (strict : Prop) (ctx : LoweringContext) (walk : InstanceId)
    (S : List String → NodeId → Prop) (lower : NodeId → Lower (Option Value)) : Prop :=
  ∀ names node, S names node →
    Scoped strict walk names (ctx.declares node ++ names) (lower node)

section Constructs

variable (hlower : ScopedAll strict ctx walk S lower)

include hlower

/-- A part of a node: what it declares is not asked for. -/
theorem part_scoped {node : NodeId} (h : S names node) :
    Scoped strict walk names names (lower node) :=
  (hlower names node h).drop (List.subset_append_right _ _)

theorem lowerValue_scoped {node : NodeId} (h : S names node) :
    Scoped strict walk names names (lowerValue lower node) := by
  refine (part_scoped hlower h).bind fun result => ?_
  split
  · exact .pure _
  · exact .broken (by simp [ToString.toString])

/-! ## Expressions -/

theorem lowerBinary_scoped {node lhs rhs : NodeId} {op : BinaryOp} (hl : S names lhs)
    (hr : S names rhs) :
    Scoped strict walk names names (lowerBinary ctx lower node op lhs rhs) := by
  refine typeOf_scoped fun lhsType _ => typeOf_scoped fun rhsType _ => ?_
  refine (lowerValue_scoped hlower hl).bind fun l => ?_
  refine (lowerValue_scoped hlower hr).bind fun r => (convert_scoped _ _ _).bind fun r => ?_
  split
  · exact .program (by simp)
  · split
    · exact .build (.binary _ _ _ _)
    · exact .broken (by decide)
  · split
    · exact .build (.compareOf _ _ _ _ _)
    · exact .broken (by decide)
  · exact .broken (by simp [ToString.toString])

omit hlower in
theorem lowerIdent_scoped {node : NodeId} {name : String}
    (h : ctx.typed.table.target { walk, node } = .ok .localVar → strict → name ∈ names) :
    Scoped strict walk names names (lowerIdent ctx node name) := by
  refine target_scoped fun found hfound => ?_
  split
  · exact loadLocal_scoped (h hfound)
  · exact .lift (Emit.singleton_lays _).registers
  · exact .broken (by simp [ToString.toString])

omit hlower in
theorem ivarSlot_scoped {name : String} : Scoped strict walk names names (ivarSlot ctx name) := by
  refine .get_bind fun b _ => ?_
  dsimp only
  split
  · split
    · split
      · refine (Scoped.lift (Emit.layout_lays _).registers).bind fun struct => ?_
        refine (Scoped.lift (Emit.valueType_lays _).registers).bind fun type => ?_
        exact (Scoped.build (.structField _ _ _ _)).bind fun slot => .pure _
      · exact .program (by simp)
    · exact .mismatch
  · exact .mismatch

omit hlower in
theorem lowerIvar_scoped {name : String} : Scoped strict walk names names (lowerIvar ctx name) :=
  ivarSlot_scoped.bind fun _ => .build (.load _ _ _)

/-- A declaration leaves storage for its name. -/
theorem lowerVar_scoped {node value : NodeId} {name : String} (hvalue : S names value) :
    Scoped strict walk names (name :: names) (lowerVar ctx lower node name value) := by
  refine typeOf_scoped fun valueType _ => typeOf_scoped fun varType _ => ?_
  refine (lowerValue_scoped hlower hvalue).bind fun v => (convert_scoped _ _ _).bind fun v => ?_
  exact (bindLocal_scoped _ _ _).bind fun _ => .pure _

theorem lowerAssign_scoped {target value : NodeId} (hvalue : S names value)
    (htarget : ∀ name, ctx.tree.node target = .ident name → strict → name ∈ names) :
    Scoped strict walk names names (lowerAssign ctx lower target value) := by
  refine typeOf_scoped fun valueType _ => typeOf_scoped fun targetType _ => ?_
  refine (lowerValue_scoped hlower hvalue).bind fun v => (convert_scoped _ _ _).bind fun c => ?_
  have hend : ∀ _ : PUnit, Scoped strict walk names names (pure v) := fun _ => .pure v
  dsimp only
  split
  · exact ivarSlot_scoped.bind fun slot => (Scoped.build (.store _ _)).bind hend
  · next name hnode =>
      refine .get_bind fun b hb => ?_
      split
      · exact (Scoped.build (.store _ _)).bind hend
      · exact Scoped.bind .mismatch hend
      · next hnone => exact (Scoped.unstored hb (htarget name hnode) hnone).bind hend
  · exact Scoped.bind (.broken (by decide)) hend

/-! ## Calls and constructions -/

theorem lowerArgs_scoped {sig : Signature} {args : List NodeId}
    (hargs : ∀ arg ∈ args, S names arg) :
    Scoped strict walk names names (lowerArgs ctx lower sig args) := by
  refine (Scoped.lift (.ofExcept fun e he => ?_)).bind fun ordered => ?_
  · rcases orderArguments_error he with ⟨_, _, rfl⟩ | ⟨_, rfl⟩ <;>
      exact Halt.not_unstored_of_program (by simp)
  · refine (Scoped.mapM fun arg harg => ?_).bind fun lowered => ?_
    · refine (lowerValue_scoped hlower (hargs arg harg)).bind fun value => ?_
      exact typeOf_scoped fun _ _ => .pure _
    · refine (Scoped.mapM fun item _ => convert_scoped _ _ _).bind fun fixed => ?_
      refine (Scoped.mapM fun item _ => ?_).bind fun extra => .pure _
      exact .ite (convert_scoped _ _ _) (.pure _)

theorem callFunction_scoped {sig : Signature} {receiver : Option Value} {args : List NodeId}
    (hargs : ∀ arg ∈ args, S names arg) :
    Scoped strict walk names names (callFunction ctx lower sig receiver args) := by
  refine (Scoped.lift (Emit.functionFor_registers sig)).bind fun function => ?_
  exact (lowerArgs_scoped hlower hargs).bind fun values => .build (.call _ _ _)

theorem lowerElement_scoped {node receiver : NodeId} {method : String} {index : Nat}
    (hreceiver : S names receiver) :
    Scoped strict walk names names (lowerElement ctx lower node receiver method index) := by
  refine typeOf_scoped fun receiverType _ => typeOf_scoped fun resultType _ => ?_
  refine (lowerValue_scoped hlower hreceiver).bind fun object => ?_
  refine (Scoped.lift (Emit.layout_lays _).registers).bind fun struct => ?_
  refine (Scoped.lift (Emit.valueType_lays _).registers).bind fun type => .build ?_
  exact (KeepsShared.structField _ _ _ _).bind fun _ => .load _ _ _

theorem callClosure_scoped {name : String} {sig : Signature} {args : List NodeId}
    (hname : strict → name ∈ names) (hargs : ∀ arg ∈ args, S names arg) :
    Scoped strict walk names names (callClosure ctx lower name sig args) := by
  refine (loadLocal_scoped hname).bind fun closure => ?_
  refine (Scoped.lift (Emit.closureLayout_lays _ _ _).registers).bind fun header => ?_
  refine (Scoped.lift (Emit.closureFnType_lays _ _).registers).bind fun type => ?_
  refine (lowerArgs_scoped hlower hargs).bind fun values => .build ?_
  refine (KeepsShared.structField _ _ _ _).bind fun _ => ?_
  exact (KeepsShared.load _ _ _).bind fun _ => .callIndirect _ _ _ _

theorem constructObject_scoped {t : TypeId} {init : Option Signature} {args : List NodeId}
    {onStack : Bool} (hargs : ∀ arg ∈ args, S names arg) :
    Scoped strict walk names names (constructObject ctx lower t init args onStack) := by
  refine (Scoped.lift (Emit.layout_lays _).registers).bind fun struct => ?_
  refine (allocate_scoped _ _ _).bind fun object => ?_
  dsimp only
  cases init with
  | some init =>
      refine (Scoped.lift (Emit.functionFor_registers init)).bind fun function => ?_
      refine (lowerArgs_scoped hlower hargs).bind fun values => ?_
      exact (Scoped.build (.call _ _ _)).bind fun _ => .pure _
  | none => exact .ite (.broken_bind (by decide)) (.pure object)

theorem constructCase_scoped {t : TypeId} {sig : Signature} {args : List NodeId} {onStack : Bool}
    (hargs : ∀ arg ∈ args, S names arg) :
    Scoped strict walk names names (constructCase ctx lower t sig args onStack) := by
  refine (Scoped.lift (Emit.caseParts_lays t).registers).bind fun parts => ?_
  refine (lowerArgs_scoped hlower hargs).bind fun values => ?_
  refine (Scoped.lift (Emit.layout_lays t).registers).bind fun struct => ?_
  refine (Scoped.lift (Emit.dataLayout_lays _).registers).bind fun envelopeStruct => ?_
  refine (allocate_scoped _ _ _).bind fun object => (Scoped.build ?_).bind fun _ => .pure _
  refine (KeepsShared.structField _ _ _ _).bind fun envelope => ?_
  refine (KeepsShared.structField _ _ _ _).bind fun tagSlot => ?_
  refine (KeepsShared.store _ _).bind fun _ => .forM fun item => ?_
  exact (KeepsShared.structField _ _ _ _).bind fun slot => .store _ _

theorem lowerConstruction_scoped {node : NodeId} {args : List NodeId} {onStack : Bool}
    (hargs : ∀ arg ∈ args, S names arg) :
    Scoped strict walk names names (lowerConstruction ctx lower node args onStack) := by
  refine target_scoped fun found _ => ?_
  split
  · exact constructObject_scoped hlower hargs
  · exact constructCase_scoped hlower hargs
  · exact .broken (by simp [ToString.toString])

theorem lowerUnary_scoped {op : UnaryOp} {operand : NodeId}
    (h : match op with
      | .not => S names operand
      | .stack => ∀ arg ∈ ctx.constructionArgs operand, S names arg) :
    Scoped strict walk names names (lowerUnary ctx lower op operand) := by
  unfold lowerUnary
  cases op with
  | not => exact (lowerValue_scoped hlower h).bind fun value => .build (.not _ _)
  | stack =>
      dsimp only [LoweringContext.constructionArgs] at h ⊢
      split
      · next hnode => exact lowerConstruction_scoped hlower (by rwa [hnode] at h)
      · next hnode => exact lowerConstruction_scoped hlower (by rwa [hnode] at h)
      · exact .mismatch

/-- A call, by what it means. -/
theorem lowerCall_scoped {node : NodeId} {receiver : Option NodeId} {method : String}
    {args : List NodeId} (hargs : ∀ arg ∈ args, S names arg)
    (htarget : match ctx.typed.table.target { walk, node } with
      | .ok (.closure _) => strict → method ∈ names
      | .ok (.method _) => ∀ object ∈ receiver, S names object
      | .ok (.element _) => ∀ object ∈ receiver, S names object
      | _ => True) :
    Scoped strict walk names names (lowerCall ctx lower node receiver method args) := by
  refine target_scoped fun found hfound => ?_
  rw [hfound] at htarget
  have hconstruct : Scoped strict walk names names (do
      return some (← lowerConstruction ctx lower node args false)) :=
    (lowerConstruction_scoped hlower hargs).bind fun _ => .pure _
  split
  · exact callFunction_scoped hlower hargs
  · cases receiver with
    | none => exact .broken_bind (by decide)
    | some object =>
        refine .pure_bind ((lowerValue_scoped hlower (htarget object rfl)).bind fun object => ?_)
        exact callFunction_scoped hlower hargs
  · exact receiver_scoped.bind fun object => callFunction_scoped hlower hargs
  · cases receiver with
    | none => exact .broken_bind (by decide)
    | some object =>
        exact .pure_bind ((lowerElement_scoped hlower (htarget object rfl)).bind fun _ => .pure _)
  · exact callClosure_scoped hlower htarget hargs
  · exact hconstruct
  · exact hconstruct
  · split
    · next object =>
        refine (lowerValue_scoped hlower (hargs object (by simp))).bind fun object => ?_
        exact Scoped.getOutput.bind fun o => (Scoped.build (.call _ _ _)).bind fun _ => .pure _
    · exact .brokenFor (by decide)
  · exact .broken (by simp [ToString.toString])

/-! ## Lambdas -/

omit hlower in
/-- The parameters of a lambda become locals. -/
theorem lambdaParams_scoped {params : List (NodeId × TypeId)} :
    Scoped strict walk names ((params.flatMap fun p => ctx.paramNames p.1) ++ names)
      (params.zipIdx.forM fun ((param, t), index) => do
        match ctx.tree.node param with
        | .ident name => bindParam ctx (index + 1) name t
        | .typed name _ => bindParam ctx (index + 1) name t
        | _ => broken "lambda parameter is not a name") := by
  refine .forM_zipIdx_binds _ ?_
  rintro ⟨param, t⟩ - index names
  dsimp only
  split
  · next name hnode =>
      rw [show ctx.paramNames param = [name] by simp [LoweringContext.paramNames, hnode]]
      exact bindParam_scoped _ _ _
  · next name _ hnode =>
      rw [show ctx.paramNames param = [name] by simp [LoweringContext.paramNames, hnode]]
      exact bindParam_scoped _ _ _
  · exact .broken (by decide)

omit hlower in
/-- The captured values become locals. -/
theorem lambdaCaptures_scoped {struct : Ty} {closure : Value} {captures : List (String × TypeId)} :
    Scoped strict walk names (captures.map (·.1) ++ names)
      (captures.zipIdx.forM fun ((name, t), index) => do
        let type ← Emit.valueType ctx t
        let value ← build do
          let slot ← Build.structField struct closure (index + 1) (name ++ ".ptr")
          Build.load type slot name
        bindLocal ctx name value t) := by
  rw [List.map_eq_flatMap]
  refine .forM_zipIdx_binds _ ?_
  rintro ⟨name, t⟩ - index names
  refine (Scoped.lift (Emit.valueType_lays _).registers).bind fun type => ?_
  refine (Scoped.build ?_).bind fun value => ?_
  · exact (KeepsShared.structField _ _ _ _).bind fun _ => .load _ _ _
  · exact bindLocal_scoped _ _ _

/-- The function of a lambda has storage for the parameters and captures when its body begins. -/
theorem lambdaBody_scoped {struct : Ty} {params : List NodeId} {captures : List String}
    {paramTypes captureTypes : List TypeId} {body : NodeId}
    (hbody : S (ctx.lambdaNames params captures paramTypes captureTypes) body) :
    Scoped strict walk []
      (ctx.declares body ++ ctx.lambdaNames params captures paramTypes captureTypes)
      (lambdaBody ctx lower struct (params.zip paramTypes) (captures.zip captureTypes) body) := by
  refine .get_bind fun b _ => (Scoped.build (.setParamName _ _ _)).bind fun _ => ?_
  refine Scoped.getOutput.bind fun o => lambdaParams_scoped.bind fun _ => ?_
  refine lambdaCaptures_scoped.bind fun _ => finish_scoped ?_
  rw [List.append_nil]
  exact hlower _ body hbody

/-- The values that a lambda captures are read where it is made. -/
theorem lowerLambda_scoped {node body : NodeId} {params : List NodeId} {captures : List String}
    (hcaptures : ∀ name ∈ captures, strict → name ∈ names)
    (hbody : match (ctx.recordedType walk node).map ctx.pool.view with
      | .ok (.closure paramTypes _ captureTypes) =>
        S (ctx.lambdaNames params captures paramTypes captureTypes) body
      | _ => True) :
    Scoped strict walk names names (lowerLambda ctx lower node params captures body) := by
  refine typeOf_scoped fun t ht => ?_
  rw [ht] at hbody
  split
  · next paramTypes result captureTypes hview =>
      rw [Except.map, hview] at hbody
      refine (Scoped.lift (Emit.layout_lays t).registers).bind fun struct => ?_
      refine (Scoped.lift (Emit.closureFnType_lays _ _).registers).bind fun type => ?_
      refine Scoped.bind (.lift fun o ho => ?_) fun name => ?_
      -- numbering the lambda changes neither records nor globals
      · exact .of_ok rfl (Output.Registered.of_eq ho rfl (Nat.le_refl _))
          ⟨fun _ _ h => h, fun _ => rfl, id⟩ True.intro
      refine (Scoped.build (.declareFunction _ _)).bind fun function => ?_
      refine Scoped.getOutput.bind fun o => .get_bind fun b hb => ?_
      refine .nested (fun u hu => hb.walk ▸ start_scoped _ _ _ _ hu)
        (lambdaBody_scoped hlower hbody) ?_
      refine (Scoped.build (.restore _)).bind fun _ => (allocate_scoped _ _ _).bind fun object => ?_
      refine (Scoped.build ?_).bind fun _ => (Scoped.forM ?_).bind fun _ => .pure _
      · exact (KeepsShared.structField _ _ _ _).bind fun slot => .store _ _
      · rintro ⟨name, index⟩ hname
        have hmem := List.fst_mem_of_mem_zipIdx hname
        refine (loadLocal_scoped (hcaptures name hmem)).bind fun value => .build ?_
        exact (KeepsShared.structField _ _ _ _).bind fun slot => .store _ _
  · exact .broken (by decide)

/-! ## Control flow -/

/-- The rest of a sequence, when either the current block has ended or there is storage for all that
was declared so far. -/
theorem statements_scoped {statements : List NodeId} {seen : List String} {last : Option Value}
    (h : ctx.SeqScoped S seen statements) (hsub : names ⊆ seen) {b : Body}
    (hb : b.Stores walk names) {o : Output} (ho : o.Registered)
    (hseen : o.builder.isTerminated = true ∨ b.Stores walk seen) :
    (registering strict False).KeepsAt o ((statements.foldlM (fun last statement => do
      if ← terminated then pure last else lower statement) last : Lower (Option Value)).run b)
      fun r _ => r.2.Stores walk names := by
  -- a statement behind a `return` is not generated and leaves no storage, but then nothing after it
  -- is generated either
  induction statements generalizing seen last b o with
  | nil => exact .pure ho hb
  | cons statement rest ih =>
      rw [List.foldlM_cons]
      have hstep : (registering strict False).KeepsAt o
          ((do if ← terminated then pure last else lower statement : Lower (Option Value)).run b)
          fun r u => r.2.Stores walk names ∧ (u.builder.isTerminated = true ∨
            r.2.Stores walk (ctx.declares statement ++ seen)) := by
        show (registering strict False).KeepsAt o (terminated.run b >>= fun r =>
          (if r.1 then pure last else lower statement : Lower (Option Value)).run r.2) _
        refine .bind_read ho (b := (o.builder.isTerminated, b)) rfl ?_
        cases hended : o.builder.isTerminated with
        | true => exact .pure ho ⟨hb, .inl hended⟩
        | false =>
            have hstored := hseen.resolve_left (by simp [hended])
            refine (hlower seen statement h.1 b hstored o ho).weaken fun r _ _ _ hr => ?_
            exact ⟨hr.mono (List.Subset.trans hsub (List.subset_append_right _ _)), .inr hr⟩
      refine .bind hstep fun r u hu _ hr => ?_
      exact ih h.2 (List.Subset.trans hsub (List.subset_append_right _ _)) hr.1 hu hr.2

/-- A statement may read what the ones before it in its sequence declare. -/
theorem lowerSeq_scoped {statements : List NodeId} (h : ctx.SeqScoped S names statements) :
    Scoped strict walk names names (lowerSeq lower statements) :=
  fun _ hb _ ho => statements_scoped hlower h (List.Subset.refl _) hb ho (.inr hb)

theorem condition_scoped {cond : NodeId} (h : S names cond) :
    Scoped strict walk names names (condition ctx lower cond) := by
  refine typeOf_scoped fun t _ => (lowerValue_scoped hlower h).bind fun value => ?_
  exact .ite (.build (.compareOf _ _ _ _ _)) (.pure _)

omit hlower in
theorem joinAt_scoped (merge : Option IR.BlockRef) :
    Scoped strict walk names names (joinAt merge) := by
  have hjump : ∀ target, Scoped strict walk names names (do
      build (Build.jump target)
      pure (some target)) := fun target => (Scoped.build (.jump _)).bind fun _ => .pure _
  refine terminated_scoped.bind fun ended => .ite (.pure _) ?_
  cases merge with
  | some target => exact hjump target
  | none => exact (block_scoped _).bind hjump

omit hlower in
/-- Going on where branches meet, if they do. -/
theorem meet_scoped (merge : Option IR.BlockRef) :
    Scoped strict walk names names (match merge with
      | some merge => build do
        Build.moveBlockToEnd merge
        Build.positionAtEnd merge
      | none => pure ()) := by
  cases merge with
  | some merge => exact .build ((KeepsShared.moveBlockToEnd _).bind fun _ => .positionAtEnd _)
  | none => exact .pure _

theorem lowerBranch_scoped {cond yes : NodeId} {no : Option NodeId} (hcond : S names cond)
    (hyes : S names yes) (hno : ∀ no' ∈ no, S names no') :
    Scoped strict walk names names (lowerBranch ctx lower cond yes no) := by
  refine (condition_scoped hlower hcond).bind fun cond => (block_scoped _).bind fun yesBlock => ?_
  have hopen : ∀ noBlock : IR.BlockRef, KeepsShared (do
      Build.branch cond yesBlock noBlock
      Build.positionAtEnd yesBlock) :=
    fun noBlock => (KeepsShared.branch _ _ _).bind fun _ => .positionAtEnd _
  have hyes' := part_scoped hlower hyes
  dsimp only
  cases no with
  | some no =>
      have hno' := part_scoped hlower (hno no rfl)
      refine (block_scoped _).bind fun noBlock => ?_
      refine .pure_bind ((Scoped.build (hopen _)).bind fun _ => ?_)
      refine hyes'.bind fun _ => (joinAt_scoped _).bind fun merge => ?_
      refine (Scoped.build (.positionAtEnd _)).bind fun _ => hno'.bind fun _ => ?_
      exact (joinAt_scoped _).bind meet_scoped
  | none =>
      refine (block_scoped _).bind fun merge => ?_
      refine .pure_bind ((Scoped.build (hopen _)).bind fun _ => ?_)
      refine hyes'.bind fun _ => (joinAt_scoped _).bind fun merge => ?_
      exact .pure_bind (meet_scoped merge)

theorem lowerLoop_scoped {cond body : NodeId} (hcond : S names cond) (hbody : S names body) :
    Scoped strict walk names names (lowerLoop ctx lower cond body) := by
  refine (block_scoped _).bind fun condBlock => (block_scoped _).bind fun bodyBlock => ?_
  refine (block_scoped _).bind fun endBlock => (Scoped.build ?_).bind fun _ => ?_
  · exact (KeepsShared.jump _).bind fun _ => .positionAtEnd _
  · refine (condition_scoped hlower hcond).bind fun cond => (Scoped.build ?_).bind fun _ => ?_
    · exact (KeepsShared.branch _ _ _).bind fun _ => .positionAtEnd _
    · have hend : ∀ _ : PUnit, Scoped strict walk names names (build do
          Build.moveBlockToEnd endBlock
          Build.positionAtEnd endBlock) :=
        fun _ => .build ((KeepsShared.moveBlockToEnd _).bind fun _ => .positionAtEnd _)
      refine (part_scoped hlower hbody).bind fun _ => terminated_scoped.bind fun ended => ?_
      exact .ite ((Scoped.build (.jump _)).bind hend) (hend ⟨⟩)

theorem lowerReturn_scoped {value : Option NodeId} (h : ∀ value' ∈ value, S names value') :
    Scoped strict walk names names (lowerReturn ctx lower value) := by
  unfold lowerReturn
  cases value with
  | none => exact returnVoid_scoped
  | some value =>
      have hrest : Scoped strict walk names names (do
          let t ← typeOf ctx value
          let v ← lowerValue lower value
          if !(← terminated) then returnValue ctx v t) := by
        refine typeOf_scoped fun t _ => ?_
        refine (lowerValue_scoped hlower (h value rfl)).bind fun v => ?_
        exact terminated_scoped.bind fun ended => .ite (returnValue_scoped _ _) (.pure _)
      refine Scoped.bind (.get_bind fun b _ => .pure _) fun isVoid => ?_
      exact .ite (.broken_bind (by decide)) hrest

/-! ## Case -/

omit hlower in
theorem tagMatches_scoped (tag : Value) (t : TypeId) :
    Scoped strict walk names names (tagMatches ctx tag t) :=
  (Scoped.lift (Emit.caseParts_lays t).registers).bind fun _ => .build (.compareOf _ _ _ _ _)

omit hlower in
/-- The fields of a matched case become locals under the names of the pattern. -/
theorem bindFields_scoped (value : Value) (t : TypeId) (fields : List String) :
    Scoped strict walk names ((fields.zip (ctx.pool.caseFields t)).map (·.1) ++ names)
      (bindFields ctx value t fields) := by
  refine caseParts_scoped fun parts hparts => ?_
  refine (Scoped.lift (Emit.layout_lays t).registers).bind fun struct => ?_
  rw [← hparts, List.map_eq_flatMap]
  refine .forM_zipIdx_binds _ ?_
  rintro ⟨name, _, fieldType⟩ - index names
  refine (Scoped.lift (Emit.valueType_lays _).registers).bind fun type => ?_
  refine (Scoped.build ?_).bind fun loaded => bind_scoped _ _
  exact (KeepsShared.structField _ _ _ _).bind fun _ => .load _ _ _

omit hlower in
theorem bindPattern_scoped (value : Value) (t : TypeId) (onDynamic : Bool) (binder : Option String)
    (fields : List String) :
    Scoped strict walk names (ctx.patternNames t onDynamic binder fields ++ names)
      (bindPattern ctx value t onDynamic binder fields) := by
  unfold bindPattern LoweringContext.patternNames
  dsimp only
  cases onDynamic with
  | true =>
      cases binder with
      | none => exact .pure _
      | some name => exact (unboxDynamic_scoped _ _).bind fun _ => bind_scoped _ _
  | false =>
      have hfields : Scoped strict walk (binder.toList ++ names)
          ((fields.zip (ctx.pool.caseFields t)).map (·.1) ++ (binder.toList ++ names))
          (if !fields.isEmpty then bindFields ctx value t fields else pure ()) := by
        cases fields with
        | nil => exact .pure _
        | cons _ _ => exact bindFields_scoped _ _ _
      simp only [Bool.false_eq_true, if_false, List.append_assoc]
      cases binder with
      | none => exact hfields
      | some name => exact (bind_scoped _ _).bind fun _ => hfields

/-- The body of an arm may read what its pattern binds; afterwards the scope is as before. -/
theorem lowerArm_scoped {value : Value} {tag : Option Value} {endBlock : IR.BlockRef} {arm : NodeId}
    (harm : ctx.ArmScoped walk S tag.isNone names arm) :
    Scoped strict walk names names (lowerArm ctx lower value tag endBlock arm) := by
  unfold lowerArm
  unfold LoweringContext.ArmScoped at harm
  split
  · next matched body hnode =>
      rw [hnode] at harm
      dsimp only at harm
      split
      · next type binder fields hpattern =>
          rw [hpattern] at harm
          refine typeOf_scoped fun t ht => ?_
          rw [ht] at harm
          have hrest : ∀ found, Scoped strict walk names names (do
              let armBlock ← block "when"
              let nextBlock ← block "when.next"
              build do
                Build.branch found armBlock nextBlock
                Build.positionAtEnd armBlock
              let outer := (← get).scope
              bindPattern ctx value t tag.isNone binder fields
              let _ ← lower body
              modify fun b => { b with scope := outer }
              if !(← terminated) then build (Build.jump endBlock)
              build (Build.positionAtEnd nextBlock)) := by
            intro found
            refine (block_scoped _).bind fun armBlock => (block_scoped _).bind fun nextBlock => ?_
            refine (Scoped.build ?_).bind fun _ => .get_bind fun b hb => ?_
            · exact (KeepsShared.branch _ _ _).bind fun _ => .positionAtEnd _
            · have hnext : ∀ _ : PUnit, Scoped strict walk names names
                  (build (Build.positionAtEnd nextBlock)) := fun _ => .build (.positionAtEnd _)
              refine (bindPattern_scoped _ _ _ _ _).bind fun _ => ?_
              refine (hlower _ body harm).bind fun _ => ?_
              -- the scope of the arm ends here, and the names around it are back
              refine Scoped.bind (.update fun _ hb' => ⟨hb'.walk, hb.names⟩) fun _ => ?_
              refine terminated_scoped.bind fun ended => ?_
              exact .ite ((Scoped.build (.jump _)).bind hnext) (hnext ⟨⟩)
          cases tag with
          | some tag => exact (tagMatches_scoped _ _).bind hrest
          | none => exact (dynamicHolds_scoped _ _).bind hrest
      · exact .brokenFor (by decide)
  · exact .broken (by decide)

theorem lowerSelect_scoped {cond : NodeId} {arms : List NodeId} (hcond : S names cond)
    (harms : ∀ arm ∈ arms, ctx.ArmScoped walk S (ctx.isDynamic walk cond) names arm) :
    Scoped strict walk names names (lowerSelect ctx lower cond arms) := by
  refine typeOf_scoped fun t ht => (lowerValue_scoped hlower hcond).bind fun value => ?_
  have hrest : ∀ tag : Option Value, tag.isNone = decide (t = .dynamic) →
      Scoped strict walk names names (do
      let endBlock ← block "case.end"
      arms.forM (lowerArm ctx lower value tag endBlock)
      build do
        Build.jump endBlock
        Build.moveBlockToEnd endBlock
        Build.positionAtEnd endBlock) := by
    intro tag htag
    refine (block_scoped _).bind fun endBlock => ?_
    refine (Scoped.forM fun arm harm => ?_).bind fun _ => .build ?_
    · refine lowerArm_scoped hlower ?_
      have hdynamic : ctx.isDynamic walk cond = tag.isNone := by
        rw [htag, LoweringContext.isDynamic, ht]
        simp [Except.toOption]
      exact hdynamic ▸ harms arm harm
    · refine (KeepsShared.jump _).bind fun _ => (KeepsShared.moveBlockToEnd _).bind fun _ => ?_
      exact .positionAtEnd _
  dsimp only
  by_cases hdynamic : t = .dynamic
  · rw [if_pos hdynamic]
    exact .pure_bind (hrest none (by simp [hdynamic]))
  · rw [if_neg hdynamic]
    refine (Scoped.lift (Emit.layout_lays _).registers).bind fun envelope => ?_
    have htag : KeepsShared (do
        let slot ← Build.structField envelope value 0 "tag.ptr"
        Build.load .i32 slot "tag") := (KeepsShared.structField _ _ _ _).bind fun _ => .load _ _ _
    exact (Scoped.build htag).bind fun tag => hrest (some tag) (by simp [hdynamic])

end Constructs

/-! ## Nodes -/

/-- Generating a scoped node leaves storage for what it declares. -/
theorem lowerNode_scoped (hlower : ScopedAll strict ctx walk S lower) {node : NodeId}
    (h : ctx.NodeScoped walk strict S names node) :
    Scoped strict walk names (ctx.declares node ++ names) (lowerNode ctx lower node) := by
  unfold LoweringContext.NodeScoped at h
  unfold lowerNode LoweringContext.declares
  cases hkind : ctx.tree.node node with
  | seq statements =>
      rw [hkind] at h
      exact lowerSeq_scoped hlower h
  | number n => exact .ite (.pure _) .mismatch
  | bool b => exact .pure _
  | text s => exact (Scoped.lift (Emit.stringLiteral_lays s).registers).bind fun _ => .pure _
  | ident name =>
      rw [hkind] at h
      refine (lowerIdent_scoped fun hlocal => ?_).bind fun _ => .pure _
      rwa [hlocal] at h
  | ivar name => exact lowerIvar_scoped.bind fun _ => .pure _
  | selfRef => exact receiver_scoped.bind fun _ => .pure _
  | typed | varargs | namedType | pointerType | templatedType | closureType => exact .pure _
  | methodDef | methodDec | classDef | dataDef | caseDef | ivarDecl | traitDef | inclusion
  | importModule | package => exact .mismatch
  | var name type value =>
      rw [hkind] at h
      exact (lowerVar_scoped hlower h).bind fun _ => .pure _
  | assign target value =>
      rw [hkind] at h
      refine (lowerAssign_scoped hlower h.1 fun name hname => ?_).bind fun _ => .pure _
      have htarget := h.2
      rwa [hname] at htarget
  | call receiver method args =>
      rw [hkind] at h
      exact lowerCall_scoped hlower h.1 h.2
  | namedArg name value =>
      rw [hkind] at h
      exact part_scoped hlower h
  | templatedInstance name typeArgs args =>
      rw [hkind] at h
      exact (lowerConstruction_scoped hlower h).bind fun _ => .pure _
  | binary op lhs rhs =>
      rw [hkind] at h
      exact (lowerBinary_scoped hlower h.1 h.2).bind fun _ => .pure _
  | unary op operand =>
      rw [hkind] at h
      exact (lowerUnary_scoped hlower h).bind fun _ => .pure _
  | branch cond yes no =>
      rw [hkind] at h
      exact (lowerBranch_scoped hlower h.1 h.2.1 h.2.2).bind fun _ => .pure _
  | loop cond body =>
      rw [hkind] at h
      exact (lowerLoop_scoped hlower h.1 h.2).bind fun _ => .pure _
  | select cond arms =>
      rw [hkind] at h
      exact (lowerSelect_scoped hlower h.1 h.2).bind fun _ => .pure _
  | arm | pattern => exact .broken (by decide)
  | ret value =>
      rw [hkind] at h
      exact (lowerReturn_scoped hlower h).bind fun _ => .pure _
  | lambda params captures body =>
      rw [hkind] at h
      exact (lowerLambda_scoped hlower h.1 h.2).bind fun _ => .pure _

/-- Generating a node that is scoped as deep as it is generated. -/
theorem lowerWithin_scoped (fuel : Nat) :
    ScopedAll strict ctx walk (ctx.ScopedWithin walk strict fuel) (lowerWithin ctx fuel) := by
  induction fuel with
  | zero => exact fun _ _ _ _ _ _ ho => .of_error rfl ⟨fun _ => Halt.not_unstored_outOfFuel, ho, id⟩
  | succ fuel ih => exact fun _ _ h => lowerNode_scoped ih h

end ClassLang.Lower
