import ClassLang.Proofs.Lowering.Traces
import ClassLang.Proofs.Typing.ConfinedViews

/-!
# What stops the generator

Generating code for a module stops with an error of the program, at the end of its budget, or
because an invariant of the compiler is broken. Of the broken invariants some are about the findings
of typing: a node without a recorded type or meaning, a declaration without a signature, an
inclusion without a walk, a function that was never declared. `Lowerable` says that none of these
can arise below a node. The lemmas here show that generating a lowerable node stops only as
`Allowed`, that declared functions stay declared, and that all that is shared comes from requests.
-/

namespace ClassLang

open IR (Build KeepsShared Value)

/-- The beginnings of the errors that are about the findings of typing or the use of type
variables. -/
def faultHeads : List (List Char) :=
  ["no ", "inc", "tra", "fun", "uni", "typ"].map (·.toList)

/-- Errors of the program, broken invariants of other kinds and the end of the budget are
allowed. -/
structure Tolerant (Allowed : Halt → Prop) : Prop where
  outOfFuel : Allowed .outOfFuel
  program : ∀ e, (∀ text, e ≠ .internal text) → Allowed (.error e)
  broken : ∀ text : String, text.toList.take 3 ∉ faultHeads → Allowed (.error (.internal text))

/-- Generating code keeps the functions in `declared` declared, consists of code and requests, and
stops only as allowed. -/
def emission (ctx : LoweringContext) (Allowed : Halt → Prop) (declared : String → Prop) :
    Discipline Halt Output where
  inv o := ∀ name, declared name → (o.builder.function? name).isSome
  le o o' := (∀ name, (o.builder.function? name).isSome → (o'.builder.function? name).isSome) ∧
    o.Trace ctx o'
  fails _ h _ := Allowed h
  refl _ := ⟨fun _ h => h, .refl⟩
  trans h h' := ⟨fun name hname => h'.1 name (h.1 name hname), h.2.trans h'.2⟩
  fails_trans _ h := h

variable {ctx : LoweringContext} {Allowed : Halt → Prop} {declared : String → Prop} {α β : Type}

/-! ## Steps of generating -/

/-- The step keeps declared functions declared, consists of code and requests, and stops only as
allowed. -/
def Emit.Safe (ctx : LoweringContext) (Allowed : Halt → Prop) (declared : String → Prop)
    (step : Emit α) : Prop :=
  ∀ o, (emission ctx Allowed declared).inv o →
    (emission ctx Allowed declared).KeepsAt o step fun _ _ => True

namespace Emit.Safe

theorem pure (a : α) : Safe ctx Allowed declared (Pure.pure a) :=
  fun _ ho => .pure ho True.intro

theorem bind {step : Emit α} {next : α → Emit β} (h : Safe ctx Allowed declared step)
    (hnext : ∀ a, Safe ctx Allowed declared (next a)) : Safe ctx Allowed declared (step >>= next) :=
  fun o ho => .bind (h o ho) fun a u hu _ _ => hnext a u hu

theorem fail {e : CompileError} (h : Allowed (.error e)) :
    Safe ctx Allowed declared (Emit.fail e : Emit α) :=
  fun _ _ => .of_error rfl h

theorem throw {h : Halt} (hh : Allowed h) : Safe ctx Allowed declared (MonadExcept.throw h : Emit α) :=
  fun _ _ => .of_error rfl hh

theorem broken (hA : Tolerant Allowed) {text : String} (h : text.toList.take 3 ∉ faultHeads) :
    Safe ctx Allowed declared (Emit.broken text : Emit α) :=
  fail (hA.broken text h)

theorem program (hA : Tolerant Allowed) {e : CompileError} (h : ∀ text, e ≠ .internal text) :
    Safe ctx Allowed declared (Emit.fail e : Emit α) :=
  fail (hA.program e h)

theorem ofExcept {r : Except CompileError α} (h : ∀ e, r = .error e → Allowed (.error e)) :
    Safe ctx Allowed declared (Emit.ofExcept r) := by
  cases r with
  | ok a => exact pure a
  | error e => exact fail (h e rfl)

theorem get : Safe ctx Allowed declared (MonadState.get : Emit Output) :=
  fun _ ho => .of_ok rfl ho ((emission ctx Allowed declared).refl _) True.intro

theorem build {step : Build α} (h : KeepsShared step) : Safe ctx Allowed declared (Emit.build step) :=
  fun o ho => .of_ok rfl (fun name hname => h.declared o.builder name (ho name hname))
    ⟨h.declared o.builder, Output.Trace.refl.code (.of_build h o)⟩ True.intro

theorem forM {items : List β} {body : β → Emit PUnit}
    (h : ∀ item ∈ items, Safe ctx Allowed declared (body item)) :
    Safe ctx Allowed declared (items.forM body) :=
  fun _ ho => (Discipline.forM_keeps (P := fun _ => True) items ho True.intro
    fun item hitem u hu _ _ => h item hitem u hu).trivial

end Emit.Safe

/-! ## Steps of generating a body -/

/-- The step of a body in the given walk stays in the walk, and is safe as a step of generating. -/
def Lower.Safe (ctx : LoweringContext) (Allowed : Halt → Prop) (declared : String → Prop)
    (walk : InstanceId) (step : Lower α) : Prop :=
  ∀ b : Body, b.walk = walk → ∀ o, (emission ctx Allowed declared).inv o →
    (emission ctx Allowed declared).KeepsAt o (step.run b) fun r _ => r.2.walk = walk

namespace Lower.Safe

variable {walk : InstanceId}

theorem pure (a : α) : Safe ctx Allowed declared walk (Pure.pure a) :=
  fun _ hb _ ho => .pure ho hb

theorem bind {step : Lower α} {next : α → Lower β} (h : Safe ctx Allowed declared walk step)
    (hnext : ∀ a, Safe ctx Allowed declared walk (next a)) :
    Safe ctx Allowed declared walk (step >>= next) :=
  fun b hb o ho => .bind (h b hb o ho) fun r u hu _ hr => hnext r.1 r.2 hr u hu

/-- A step of generating that does not look at the body. -/
theorem lift {step : Emit α} (h : Emit.Safe ctx Allowed declared step) :
    Safe ctx Allowed declared walk (liftM step) :=
  fun _ hb o ho => .bind (h o ho) fun _ _ hu _ _ => .pure hu hb

theorem build {step : Build α} (h : KeepsShared step) :
    Safe ctx Allowed declared walk (Lower.build step) :=
  lift (Emit.Safe.build h)

/-- Reading the body tells the walk. -/
theorem get_bind {next : Body → Lower α}
    (h : ∀ b : Body, b.walk = walk → Safe ctx Allowed declared walk (next b)) :
    Safe ctx Allowed declared walk (get >>= next) :=
  fun b hb o ho => h b hb b hb o ho

theorem getOutput : Safe ctx Allowed declared walk (getThe Output : Lower Output) :=
  lift Emit.Safe.get

/-- A change of the body that stays in the walk. -/
theorem update {f : Body → Body} (h : ∀ b, (f b).walk = b.walk) :
    Safe ctx Allowed declared walk (modify f : Lower PUnit) :=
  fun b hb _ ho => .of_ok rfl ho ((emission ctx Allowed declared).refl _) ((h b).trans hb)

theorem mismatch (hA : Tolerant Allowed) {text : String} :
    Safe ctx Allowed declared walk (Lower.mismatch text : Lower α) :=
  lift (.program hA (by simp))

theorem broken (hA : Tolerant Allowed) {text : String} (h : text.toList.take 3 ∉ faultHeads) :
    Safe ctx Allowed declared walk (Lower.broken text : Lower α) :=
  lift (.broken hA h)

/-- A body inside a body: it is opened in the same walk and generated in a state of its own. -/
theorem nested {start : Emit Body} {step : Lower PUnit} {next : Lower β}
    (hstart : ∀ o, (emission ctx Allowed declared).inv o →
      (emission ctx Allowed declared).KeepsAt o start fun inner _ => inner.walk = walk)
    (hstep : Safe ctx Allowed declared walk step) (hnext : Safe ctx Allowed declared walk next) :
    Safe ctx Allowed declared walk (do
      let inner ← start
      let _ ← step.run inner
      next) := by
  intro b hb o ho
  refine .bind (P := fun r _ => r.2 = b ∧ r.1.walk = walk) ?_ ?_
  · exact .bind (hstart o ho) fun inner u hu _ hinner => .pure hu ⟨rfl, hinner⟩
  · rintro ⟨inner, _⟩ u hu - ⟨rfl, hinner⟩
    refine .bind (P := fun r _ => r.2.walk = walk) ?_ fun r v hv _ hr => hnext r.2 hr v hv
    exact .bind (hstep inner hinner u hu) fun _ v hv _ _ => .pure hv hb

/-- Nothing that follows a broken invariant is reached. -/
theorem broken_bind (hA : Tolerant Allowed) {text : String} {next : α → Lower β}
    (h : text.toList.take 3 ∉ faultHeads) :
    Safe ctx Allowed declared walk ((Lower.broken text : Lower α) >>= next) :=
  fun _ _ _ _ => .of_error rfl (hA.broken text h)

theorem pure_bind {a : α} {next : α → Lower β} (h : Safe ctx Allowed declared walk (next a)) :
    Safe ctx Allowed declared walk (Pure.pure a >>= next) :=
  fun b hb o ho => h b hb o ho

theorem ite {c : Prop} [Decidable c] {yes no : Lower α} (hyes : Safe ctx Allowed declared walk yes)
    (hno : Safe ctx Allowed declared walk no) :
    Safe ctx Allowed declared walk (if c then yes else no) := by
  split
  · exact hyes
  · exact hno

theorem mapM {items : List β} {body : β → Lower α}
    (h : ∀ item ∈ items, Safe ctx Allowed declared walk (body item)) :
    Safe ctx Allowed declared walk (items.mapM body) := by
  induction items with
  | nil => exact pure _
  | cons item items ih =>
      rw [List.mapM_cons]
      refine (h item (by simp)).bind fun _ => ?_
      exact (ih fun i hi => h i (List.mem_cons_of_mem _ hi)).bind fun _ => pure _

theorem forM {items : List β} {body : β → Lower PUnit}
    (h : ∀ item ∈ items, Safe ctx Allowed declared walk (body item)) :
    Safe ctx Allowed declared walk (items.forM body) := by
  induction items with
  | nil => exact pure _
  | cons item items ih =>
      show Safe ctx Allowed declared walk (body item >>= fun _ => items.forM body)
      exact (h item (by simp)).bind fun _ => ih fun i hi => h i (List.mem_cons_of_mem _ hi)

theorem foldlM {items : List β} {body : α → β → Lower α} (a : α)
    (h : ∀ a, ∀ item ∈ items, Safe ctx Allowed declared walk (body a item)) :
    Safe ctx Allowed declared walk (items.foldlM body a) := by
  induction items generalizing a with
  | nil => exact pure _
  | cons item items ih =>
      rw [List.foldlM_cons]
      refine (h a item (by simp)).bind fun b => ?_
      exact ih b fun c i hi => h c i (List.mem_cons_of_mem _ hi)

end Lower.Safe

/-! ## Types and layouts -/

namespace Emit

theorem LayoutError.allowed (hA : Tolerant Allowed) {e : CompileError} (h : LayoutError ctx e) :
    Allowed (.error e) := by
  cases h with
  | unresolved h => exact hA.program e (Pool.resolveStrict_error h)
  | void => exact hA.broken _ (by decide)
  | unknown => exact hA.broken _ (by decide)
  | noStruct _ => exact hA.broken _ (by simp [faultHeads, ToString.toString])
  | noCase _ => exact hA.broken _ (by simp [faultHeads, ToString.toString])
  | tooLong => exact hA.program _ (by simp)

/-- What answering a request respects: declared functions stay declared, and it stops only with the
errors of layouts. -/
def laying (ctx : LoweringContext) : Discipline Halt Output where
  inv _ := True
  le o o' := ∀ name, (o.builder.function? name).isSome → (o'.builder.function? name).isSome
  fails _ h _ := ∃ e, h = .error e ∧ LayoutError ctx e
  refl _ _ h := h
  trans h h' name hname := h' name (h name hname)
  fails_trans _ h := h

theorem Lays.keeps {step : Emit α} (h : Lays ctx step) (o : Output) :
    (laying ctx).KeepsAt o step fun _ _ => True := by
  induction h generalizing o with
  | pure a => exact .pure trivial trivial
  | bind _ _ ih ihnext => exact .bind (ih o) fun a u _ _ _ => ihnext a u
  | get => exact .of_ok rfl trivial ((laying ctx).refl o) trivial
  | update hbuilder _ => exact .of_ok rfl trivial (fun _ hname => hbuilder o ▸ hname) trivial
  | build _ hretains => exact .of_ok rfl trivial (hretains.declared o.builder) trivial
  | fail h => exact .of_error rfl ⟨_, rfl, h⟩

theorem runtimeType_keeps (t : TypeId) (o : Output) :
    (laying ctx).KeepsAt o (runtimeType ctx t) fun _ _ => True := by
  refine .bind ((resolve_lays t).keeps o) fun t u _ _ _ => .bind_read trivial (b := u) rfl ?_
  split
  · exact .pure trivial trivial
  · refine .bind ((stringLiteral_lays _).keeps u) fun name v _ _ _ => ?_
    refine .bind ((layout_lays _).keeps v) fun struct w _ _ _ => ?_
    refine .bind ((Lays.build ?_ ?_).keeps w) fun record x _ _ _ => ?_
    · exact (IR.KeepsQuiet.constStruct _ _).bind fun init => .addConstant _ _ _
    · exact (IR.Retains.constStruct _ _).bind fun init => .addConstant _ _ _
    · exact .bind (P := fun _ _ => True)
        (.of_ok rfl trivial ((laying ctx).refl x) trivial) fun _ _ _ _ _ => .pure trivial trivial

section Tolerated

variable (hA : Tolerant Allowed)

include hA

/-- A step that is a trace whenever it succeeds. -/
theorem Safe.of_trace {step : Emit α} (hkeeps : ∀ o, (laying ctx).KeepsAt o step fun _ _ => True)
    (htrace : ∀ o a o', step o = .ok a o' → o.Trace ctx o') : Safe ctx Allowed declared step := by
  intro o ho
  cases hrun : step o with
  | ok a o' =>
      have hle := ((hkeeps o).ok hrun).2.1
      exact .of_ok hrun (fun name hname => hle name (ho name hname)) ⟨hle, htrace o a o' hrun⟩ trivial
  | error e o' =>
      obtain ⟨e, rfl, he⟩ := (hkeeps o).error hrun
      exact .of_error hrun (he.allowed hA)

/-- A step that only looks at the output. -/
theorem Reads.safe {step : Emit α} (hreads : Reads step) (h : Lays ctx step) :
    Safe ctx Allowed declared step :=
  .of_trace hA h.keeps fun _ _ _ hrun => hreads _ _ _ hrun ▸ .refl

/-- A step that answers a request. -/
theorem Safe.request {step : Emit α} {answer : α → Handle} (request : Request)
    (h : request.run ctx = (do return answer (← step)))
    (hkeeps : ∀ o, (laying ctx).KeepsAt o step fun _ _ => True) : Safe ctx Allowed declared step := by
  refine .of_trace hA hkeeps fun o a o' hrun => ?_
  have hanswer : request.run ctx o = .ok (answer a) o' := by
    rw [h, bind_of_ok hrun]
    rfl
  exact Output.Trace.refl.request hanswer

theorem resolve_safe (t : TypeId) : Safe ctx Allowed declared (resolve ctx t) :=
  (resolve_reads t).safe hA (resolve_lays t)

theorem valueType_safe (t : TypeId) : Safe ctx Allowed declared (valueType ctx t) :=
  (valueType_reads t).safe hA (valueType_lays t)

theorem closureFnType_safe (params : List TypeId) (result : TypeId) :
    Safe ctx Allowed declared (closureFnType ctx params result) :=
  (closureFnType_reads params result).safe hA (closureFnType_lays params result)

theorem signatureType_safe (sig : Signature) (receiver : Bool) :
    Safe ctx Allowed declared (signatureType ctx sig receiver) :=
  (signatureType_reads sig receiver).safe hA (signatureType_lays sig receiver)

theorem caseParts_safe (t : TypeId) : Safe ctx Allowed declared (caseParts ctx t) :=
  (caseParts_reads t).safe hA (caseParts_lays t)

theorem layout_safe (t : TypeId) : Safe ctx Allowed declared (layout ctx t) :=
  .request hA (.layout t) rfl (layout_lays t).keeps

theorem dataLayout_safe (t : TypeId) : Safe ctx Allowed declared (dataLayout ctx t) :=
  .request hA (.dataLayout t) rfl (dataLayout_lays t).keeps

theorem closureLayout_safe (params : List TypeId) (result : TypeId) (captures : List TypeId) :
    Safe ctx Allowed declared (closureLayout ctx params result captures) :=
  .request hA (.closureLayout params result captures) rfl
    (closureLayout_lays params result captures).keeps

theorem dynamicLayout_safe (payload : TypeId) :
    Safe ctx Allowed declared (dynamicLayout ctx payload) :=
  .request hA (.dynamicLayout payload) rfl (dynamicLayout_lays payload).keeps

theorem runtimeType_safe (t : TypeId) : Safe ctx Allowed declared (runtimeType ctx t) :=
  .request hA (.runtimeType t) rfl (runtimeType_keeps t)

theorem stringLiteral_safe (text : String) : Safe ctx Allowed declared (stringLiteral ctx text) :=
  .request hA (.stringLiteral text) rfl (stringLiteral_lays text).keeps

theorem singleton_safe (t : TypeId) : Safe ctx Allowed declared (singleton ctx t) :=
  .request hA (.singleton t) rfl (singleton_lays t).keeps

end Tolerated

/-- A declared function is found. -/
theorem functionFor_safe {sig : Signature}
    (h : declared sig.linkName ∨
      Allowed (.error (.internal s!"function '{sig.linkName}' was never declared"))) :
    Safe ctx Allowed declared (functionFor sig) := by
  intro o ho
  refine .bind_read ho (b := o) rfl ?_
  split
  · exact .pure ho True.intro
  · next hnone =>
      refine .of_error rfl (h.resolve_left fun hdeclared => ?_)
      simpa [hnone] using ho _ hdeclared

end Emit

/-! ## Findings that the generator asks for -/

section Findings

variable (Allowed : Halt → Prop) (declared : String → Prop) (ctx : LoweringContext)
  (walk : InstanceId)

/-- The type of a node is known, or its absence is allowed. -/
def TypeKnown (node : NodeId) : Prop :=
  ∀ e, ctx.typed.table.typeOf { walk, node } = .error e → Allowed (.error e)

/-- The function of a signature is declared, or its absence is allowed. -/
def FunctionKnown (sig : Signature) : Prop :=
  declared sig.linkName ∨
    Allowed (.error (.internal s!"function '{sig.linkName}' was never declared"))

/-- The meaning of a node is known, or its absence is allowed, and the functions that it calls are
known. -/
def TargetKnown (node : NodeId) : Prop :=
  (∀ e, ctx.typed.table.target { walk, node } = .error e → Allowed (.error e)) ∧
    ∀ target, ctx.typed.table.target { walk, node } = .ok target →
      ∀ sig ∈ target.callees, FunctionKnown Allowed declared sig

/-- A node that stands in `S` and whose type is known. -/
def PartReady (S : NodeId → Prop) (node : NodeId) : Prop :=
  TypeKnown Allowed ctx walk node ∧ S node

/-- The arguments of a call or construction are ready, and its meaning is known. -/
def CallReady (S : NodeId → Prop) (node : NodeId) (args : List NodeId) : Prop :=
  TargetKnown Allowed declared ctx walk node ∧ ∀ arg ∈ args, PartReady Allowed ctx walk S arg

/-- Everything that generating a node asks for is known, and what it generates next stands in
`S`. -/
def NodeReady (S : NodeId → Prop) (node : NodeId) : Prop :=
  match ctx.tree.node node with
  | .seq statements => ∀ statement ∈ statements, S statement
  | .ident _ => TargetKnown Allowed declared ctx walk node
  | .var _ _ value => TypeKnown Allowed ctx walk node ∧ PartReady Allowed ctx walk S value
  | .assign target value => TypeKnown Allowed ctx walk target ∧ PartReady Allowed ctx walk S value
  | .call receiver _ args => TypeKnown Allowed ctx walk node ∧
      CallReady Allowed declared ctx walk S node args ∧
      -- the receiver is generated for methods and fields only
      ∀ target, ctx.typed.table.target { walk, node } = .ok target →
        (∃ sig, target = .method sig) ∨ (∃ index, target = .element index) →
          ∀ object ∈ receiver, PartReady Allowed ctx walk S object
  | .namedArg _ value => S value
  | .templatedInstance _ _ args => CallReady Allowed declared ctx walk S node args
  | .binary _ lhs rhs => PartReady Allowed ctx walk S lhs ∧ PartReady Allowed ctx walk S rhs
  | .unary _ operand => S operand
  | .branch cond yes no => PartReady Allowed ctx walk S cond ∧ S yes ∧ ∀ no' ∈ no, S no'
  | .loop cond body => PartReady Allowed ctx walk S cond ∧ S body
  | .select cond arms => PartReady Allowed ctx walk S cond ∧
      ∀ arm ∈ arms, ∀ matched body, ctx.tree.node arm = .arm matched body →
        TypeKnown Allowed ctx walk matched ∧ S body
  | .ret value => ∀ value' ∈ value, PartReady Allowed ctx walk S value'
  | .lambda _ _ body => TypeKnown Allowed ctx walk node ∧ PartReady Allowed ctx walk S body
  | _ => True

/-- A set of nodes each of which is ready to be generated, with its parts in the set again. -/
def Prepared (S : NodeId → Prop) : Prop :=
  ∀ node, S node → NodeReady Allowed declared ctx walk S node

end Findings

namespace Lower

variable {ctx : LoweringContext} {walk : InstanceId}

/-- A recorded type is found. -/
theorem typeOf_safe (hA : Tolerant Allowed) {node : NodeId}
    (h : TypeKnown Allowed ctx walk node) : Safe ctx Allowed declared walk (typeOf ctx node) := by
  refine .get_bind fun b hb => ?_
  subst hb
  exact (Safe.lift (.ofExcept h)).bind fun t => Safe.lift (Emit.resolve_safe hA t)

/-- A recorded meaning is found. -/
theorem target_safe {node : NodeId} {next : Target → Lower α}
    (h : TargetKnown Allowed declared ctx walk node)
    (hnext : ∀ target, ctx.typed.table.target { walk, node } = .ok target →
      Safe ctx Allowed declared walk (next target)) :
    Safe ctx Allowed declared walk (target ctx node >>= next) := by
  rintro b rfl o ho
  have hread : (emission ctx Allowed declared).KeepsAt o ((target ctx node).run b) fun r _ =>
      r.2 = b ∧ ctx.typed.table.target { walk := b.walk, node } = .ok r.1 := by
    show (emission ctx Allowed declared).KeepsAt o
      (Emit.ofExcept (ctx.typed.table.target { walk := b.walk, node }) >>= fun a => pure (a, b)) _
    cases htarget : ctx.typed.table.target { walk := b.walk, node } with
    | error e => exact .of_error rfl (h.1 e htarget)
    | ok target => exact .pure ho ⟨rfl, rfl⟩
  refine .bind hread ?_
  rintro ⟨found, _⟩ u hu - ⟨rfl, htarget⟩
  exact hnext found htarget _ rfl u hu

variable (hA : Tolerant Allowed)

include hA

omit hA in
theorem block_safe (label : String) : Safe ctx Allowed declared walk (block label) :=
  .get_bind fun _ _ => .build (.appendBlock _ _)

omit hA in
theorem terminated_safe : Safe ctx Allowed declared walk terminated :=
  Safe.getOutput.bind fun _ => .pure _

omit hA in
theorem bind_safe (name : String) (storage : Storage) :
    Safe ctx Allowed declared walk (bind name storage) :=
  .update fun _ => rfl

theorem bindLocal_safe (name : String) (value : Value) (t : TypeId) :
    Safe ctx Allowed declared walk (bindLocal ctx name value t) := by
  refine (Safe.lift (Emit.valueType_safe hA t)).bind fun type => .get_bind fun b _ => ?_
  refine (Safe.build ?_).bind fun slot => bind_safe _ _
  exact (KeepsShared.entryAlloca _ _ _).bind fun slot =>
    (KeepsShared.store _ _).bind fun _ => .pure _

theorem bindParam_safe (index : Nat) (name : String) (t : TypeId) :
    Safe ctx Allowed declared walk (bindParam ctx index name t) := by
  refine .get_bind fun b _ => (Safe.build (.setParamName _ _ _)).bind fun _ => ?_
  exact Safe.getOutput.bind fun o => bindLocal_safe hA _ _ _

theorem loadLocal_safe (name : String) : Safe ctx Allowed declared walk (loadLocal name) := by
  refine .get_bind fun b _ => ?_
  split
  · exact .pure _
  · exact .build (.load _ _ _)
  · exact .broken hA (by simp [faultHeads, ToString.toString])

theorem receiver_safe : Safe ctx Allowed declared walk receiver := by
  refine .get_bind fun b _ => ?_
  split
  · exact .pure _
  · exact .mismatch hA

/-! ### Conversion -/

theorem allocate_safe (type : IR.Ty) (onStack : Bool) (name : String) :
    Safe ctx Allowed declared walk (allocate type onStack name) := by
  refine Safe.getOutput.bind fun o => .ite ?_ ?_
  · exact .get_bind fun b _ => .build (.entryAlloca _ _ _)
  · refine (Safe.build (.call _ _ _)).bind fun result => ?_
    split
    · exact .pure _
    · exact .broken hA (by decide)

theorem boxDynamic_safe (value : Value) (t : TypeId) :
    Safe ctx Allowed declared walk (boxDynamic ctx value t) := by
  refine (Safe.lift (Emit.dynamicLayout_safe hA t)).bind fun struct => ?_
  refine (Safe.lift (Emit.layout_safe hA _)).bind fun header => ?_
  refine (Safe.lift (Emit.runtimeType_safe hA t)).bind fun record => ?_
  refine (allocate_safe hA _ _ _).bind fun box => (Safe.build ?_).bind fun _ => .pure _
  refine (KeepsShared.structField _ _ _ _).bind fun _ => ?_
  refine (KeepsShared.structField _ _ _ _).bind fun _ => ?_
  refine (KeepsShared.store _ _).bind fun _ => ?_
  exact (KeepsShared.structField _ _ _ _).bind fun _ => .store _ _

theorem dynamicHolds_safe (box : Value) (t : TypeId) :
    Safe ctx Allowed declared walk (dynamicHolds ctx box t) := by
  refine (Safe.lift (Emit.layout_safe hA _)).bind fun header => ?_
  refine (Safe.lift (Emit.runtimeType_safe hA t)).bind fun record => .build ?_
  refine (KeepsShared.structField _ _ _ _).bind fun _ => ?_
  exact (KeepsShared.load _ _ _).bind fun _ => .compareOf _ _ _ _ _

theorem unboxDynamic_safe (box : Value) (t : TypeId) :
    Safe ctx Allowed declared walk (unboxDynamic ctx box t) := by
  refine (Safe.lift (Emit.dynamicLayout_safe hA t)).bind fun struct => ?_
  refine (Safe.lift (Emit.valueType_safe hA t)).bind fun type => .build ?_
  exact (KeepsShared.structField _ _ _ _).bind fun _ => .load _ _ _

theorem convert_safe (value : Value) (source wanted : TypeId) :
    Safe ctx Allowed declared walk (convert ctx value source wanted) := by
  unfold convert
  split
  · exact .pure _
  · exact .build (.widen _ _ _)
  · exact .pure _
  · exact boxDynamic_safe hA _ _
  · exact .mismatch hA

/-! ### Returning -/

omit hA in
theorem returnVoid_safe : Safe ctx Allowed declared walk returnVoid :=
  .get_bind fun _ _ => .build (.jump _)

theorem returnValue_safe (value : Value) (t : TypeId) :
    Safe ctx Allowed declared walk (returnValue ctx value t) := by
  refine .get_bind fun b _ => (convert_safe hA _ _ _).bind fun value => ?_
  refine Safe.getOutput.bind fun o => ?_
  split
  · exact Safe.bind (.update fun _ => rfl) fun _ => returnVoid_safe
  · exact returnVoid_safe

theorem fallThrough_safe (value : Option Value) {body : NodeId}
    (hbody : TypeKnown Allowed ctx walk body) :
    Safe ctx Allowed declared walk (fallThrough ctx value body) := by
  refine .get_bind fun b _ => .ite returnVoid_safe ?_
  split
  · exact (typeOf_safe hA hbody).bind fun t => returnValue_safe hA _ _
  · exact .mismatch hA

theorem start_safe (function : IR.FunctionId) (walk : InstanceId) (owner : Option TypeId)
    (name : String) (result : TypeId) {o : Output} (ho : (emission ctx Allowed declared).inv o) :
    (emission ctx Allowed declared).KeepsAt o (start ctx function walk owner name result)
      fun b _ => b.walk = walk := by
  unfold start
  have hrest : ∀ u, (emission ctx Allowed declared).inv u →
      (emission ctx Allowed declared).KeepsAt u (do
        let result ← Emit.resolve ctx result
        let exit ← Emit.build do
          let entry ← Build.appendBlock function "entry"
          let exit ← Build.appendBlock function "exit"
          Build.setCurrentFunction function
          Build.positionAtEnd entry
          pure exit
        pure ({ function, walk, owner, name, result, exit } : Body)) fun b _ => b.walk = walk := by
    intro u hu
    refine .bind (Emit.resolve_safe hA result u hu) fun result v hv _ _ => ?_
    refine .bind (Emit.Safe.build ?_ v hv) fun exit w hw _ _ => .pure hw rfl
    refine (KeepsShared.appendBlock _ _).bind fun entry => ?_
    refine (KeepsShared.appendBlock _ _).bind fun exit => ?_
    refine (KeepsShared.setCurrentFunction _).bind fun _ => ?_
    exact (KeepsShared.positionAtEnd _).bind fun _ => .pure _
  refine .bind_read ho (b := o) rfl ?_
  dsimp only
  split
  · exact .bind (Emit.Safe.program hA (by simp) o ho) fun _ u hu _ _ => hrest u hu
  · exact hrest o ho

/-- The exit block. -/
theorem exitCode_safe : Safe ctx Allowed declared walk (do
    let b ← get
    build do
      Build.moveBlockToEnd b.exit
      Build.positionAtEnd b.exit
    if b.result = .void then build Build.retVoid
    else
      let type ← Emit.valueType ctx b.result
      build do
        match ← Build.phi type b.returnSites "return_value" with
        | some value => Build.ret value
        | none => Build.unreachable : Lower Unit) := by
  refine .get_bind fun b _ => (Safe.build ?_).bind fun _ => .ite (.build (.terminate _)) ?_
  · exact (KeepsShared.moveBlockToEnd _).bind fun _ => .positionAtEnd _
  · refine (Safe.lift (Emit.valueType_safe hA _)).bind fun type => .build ?_
    refine (KeepsShared.phi _ _ _).bind fun value => ?_
    split
    · exact .terminate _
    · exact .terminate _

theorem finish_safe {lower : NodeId → Lower (Option Value)} {body : NodeId}
    (hlower : Safe ctx Allowed declared walk (lower body)) (hbody : TypeKnown Allowed ctx walk body) :
    Safe ctx Allowed declared walk (finish ctx lower body) := by
  refine hlower.bind fun value => terminated_safe.bind fun ended => ?_
  dsimp only
  split
  · exact (fallThrough_safe hA value hbody).bind fun _ => exitCode_safe hA
  · exact exitCode_safe hA

end Lower

end ClassLang
