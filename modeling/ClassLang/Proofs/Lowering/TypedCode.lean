import ClassLang.Proofs.Lowering.Traces
import ClassLang.Proofs.Lowering.RunningModule
import ClassLang.Proofs.Lowering.RunningSteps

/-!
# Well-typed code

Every operand carries the type of its value. `Op.WellTyped` says of an operation that its operands
have the types that it works on: a read or write goes to a stack slot of the function for values of
the type, a call passes what its callee declares. It is about the operations that code on Integers
and Booleans consists of; no others count as well typed.

`Builder.WellUsed` relates the builders before and after something was built into one function: no
misuse was counted, and if all instructions of the function were well typed, they are so again.
Generating keeps this up, besides the flow of control, by an invariant, `WellBuilt`: the instructions
so far are well typed, and what may be called has the type that its callers pass arguments for. What
a node gives then has the type that was recorded for it: `Lower.Types`.
-/

namespace ClassLang.IR

variable {α β : Type}

namespace Function

/-- The instruction stands in a block of the function. -/
def Has (f : Function) (i : Instruction) : Prop :=
  ∃ k, i ∈ (f.block k).instructions

end Function

namespace Module

/-- The value is the address of a stack slot of function `f` for values of the type. -/
def HasSlot (m : Module) (f : FunctionId) (address : Value) (type : Ty) : Prop :=
  ∃ i, (m.function f).Has i ∧ i.op = .alloca type ∧ address = .result f i.id .ptr

theorem HasSlot.isPtr {m : Module} {f : FunctionId} {address : Value} {type : Ty}
    (h : m.HasSlot f address type) : address.isPtr = true := by
  obtain ⟨i, -, -, rfl⟩ := h
  rfl

end Module

/-- The operands of an operation in function `f` have the types that the operation works on. -/
def Op.WellTyped (m : Module) (f : FunctionId) : Op → Prop
  | alloca _ | jump _ | unreachable => True
  | load type address => m.HasSlot f address type
  | store value address => m.HasSlot f address value.type
  | binary _ lhs rhs | compare _ lhs rhs => lhs.isInt = true ∧ rhs.type = lhs.type
  | widen value type => value.type = .i1 ∧ type = .i32
  | call (.direct g) type args => type = (m.function g).type ∧ args.map (·.type) = type.params
  | phi type incoming => ∀ site ∈ incoming, site.1.type = type
  | branch cond _ _ => cond.type = .i1
  | ret value => value.map (·.type) = (m.function f).type.result
  | field .. | call (.indirect _) .. => False

/-- All instructions of a function are well typed. -/
def Module.IsTyped (m : Module) (f : FunctionId) : Prop :=
  ∀ i, (m.function f).Has i → i.op.WellTyped m f

variable {m m' : Module} {f : FunctionId}

theorem Module.HasSlot.mono {address : Value} {type : Ty} (h : m.HasSlot f address type)
    (hkept : ∀ i, (m.function f).Has i → (m'.function f).Has i) : m'.HasSlot f address type := by
  obtain ⟨i, hi, hop, haddress⟩ := h
  exact ⟨i, hkept i hi, hop, haddress⟩

/-- Functions keep their types, and slots are not taken back. -/
theorem Op.WellTyped.mono {op : Op} (h : op.WellTyped m f)
    (htypes : ∀ g, (m'.function g).type = (m.function g).type)
    (hkept : ∀ i, (m.function f).Has i → (m'.function f).Has i) : op.WellTyped m' f := by
  cases op with
  | load => exact Module.HasSlot.mono h hkept
  | store => exact Module.HasSlot.mono h hkept
  | call callee =>
      cases callee with
      | direct g => exact ⟨h.1.trans (htypes g).symm, h.2⟩
      | indirect => exact h
  | ret => exact h.trans (congrArg FnType.result (htypes f)).symm
  | _ => exact h

namespace Builder

/-- Something was built into function `f`, and nothing about it was wrong. -/
structure WellUsed (f : FunctionId) (b b' : Builder) : Prop where
  errors : b'.errors = b.errors
  declared : b'.declared = b.declared
  types : ∀ g, (b'.module.function g).type = (b.module.function g).type
  others : ∀ g, g ≠ f → b'.module.function g = b.module.function g
  blocks : (b.module.function f).blocks.size ≤ (b'.module.function f).blocks.size
  kept : ∀ i, (b.module.function f).Has i → (b'.module.function f).Has i
  typed : b.module.IsTyped f → b'.module.IsTyped f

variable {b b' b'' : Builder} {c : Nat}

namespace WellUsed

theorem refl (f : FunctionId) (b : Builder) : WellUsed f b b :=
  ⟨rfl, rfl, fun _ => rfl, fun _ _ => rfl, Nat.le_refl _, fun _ => id, id⟩

theorem trans (h : WellUsed f b b') (h' : WellUsed f b' b'') : WellUsed f b b'' where
  errors := h'.errors.trans h.errors
  declared := h'.declared.trans h.declared
  types g := (h'.types g).trans (h.types g)
  others g hg := (h'.others g hg).trans (h.others g hg)
  blocks := Nat.le_trans h.blocks h'.blocks
  kept i hi := h'.kept i (h.kept i hi)
  typed := h'.typed ∘ h.typed

/-- A function keeps its body. -/
theorem hasBody (h : WellUsed f b b') (hbody : (b.module.function f).hasBody = true) :
    (b'.module.function f).hasBody = true := by
  have hblocks := h.blocks
  simp only [Function.hasBody, Array.isEmpty, Bool.not_eq_true', decide_eq_false_iff_not] at hbody ⊢
  omega

/-- No block has got instructions. -/
theorem of_instructions (herrors : b'.errors = b.errors) (hdeclared : b'.declared = b.declared)
    (hothers : ∀ g, g ≠ f → b'.module.function g = b.module.function g)
    (htype : (b'.module.function f).type = (b.module.function f).type)
    (hblocks : (b.module.function f).blocks.size ≤ (b'.module.function f).blocks.size)
    (hinstructions : ∀ k, ((b'.module.function f).block k).instructions =
      ((b.module.function f).block k).instructions) : WellUsed f b b' := by
  have hhas : ∀ i, (b'.module.function f).Has i ↔ (b.module.function f).Has i := fun i => by
    simp only [Function.Has, hinstructions]
  have htypes : ∀ g, (b'.module.function g).type = (b.module.function g).type := fun g => by
    by_cases hg : g = f
    · exact hg ▸ htype
    · rw [hothers g hg]
  exact ⟨herrors, hdeclared, htypes, hothers, hblocks, fun i => (hhas i).mpr,
    fun ht i hi => (ht i ((hhas i).mp hi)).mono htypes fun i => (hhas i).mpr⟩

/-- No function has changed. -/
theorem of_functions (hfunctions : b'.module.functions = b.module.functions)
    (hdeclared : b'.declared = b.declared) (herrors : b'.errors = b.errors) :
    WellUsed f b b' := by
  have hfunction : ∀ g, b'.module.function g = b.module.function g := fun g => by
    rw [Module.function, hfunctions, Module.function]
  exact of_instructions herrors hdeclared (fun g _ => hfunction g) (by rw [hfunction])
    (by rw [hfunction]) fun k => by rw [hfunction]

theorem positionAtEnd (f : FunctionId) (b : Builder) (block : BlockRef) :
    WellUsed f b ((Build.positionAtEnd block).run b).2 :=
  of_functions rfl rfl rfl

theorem of_rearranges (h : b.Rearranges f b') (herrors : b'.errors = b.errors)
    (htype : (b'.module.function f).type = (b.module.function f).type) : WellUsed f b b' :=
  of_instructions herrors h.declared h.others htype h.blocks h.instructions

theorem appendBlock (hf : f < b.module.functions.size) (label : String) :
    WellUsed f b ((Build.appendBlock f label).run b).2 :=
  of_rearranges (b.appendBlock_run hf label).2.1 rfl (type_appendBlock hf label)

theorem moveBlockToEnd (hf : f < b.module.functions.size) (k : Nat) :
    WellUsed f b ((Build.moveBlockToEnd ⟨f, k⟩).run b).2 := by
  refine of_rearranges (b.moveBlockToEnd_run hf k).1 rfl ?_
  show ((b.module.modifyFunction f _).function f).type = _
  rw [Module.function_modifyFunction_self _ _ hf]

theorem setParamName (hat : b.At f c) (index : Nat) (name : String) :
    WellUsed f b ((Build.setParamName f index name).run b).2 := by
  obtain ⟨hblocks, -, htype⟩ := KeepsAdding.setParamName_same hat index name
  have hothers := (KeepsStraight.setParamName index name c b hat).others
  refine of_instructions rfl rfl hothers htype (by rw [hblocks]) fun k => ?_
  rw [Function.block, hblocks, Function.block]

/-- A well-typed instruction was put into a block. -/
theorem withInstruction {cursor : Cursor} {names : NameTable} {new : Instruction} {k : Nat}
    (href : cursor.ref = ⟨f, k⟩) (hf : f < b.module.functions.size)
    (hk : k < (b.module.function f).blocks.size)
    (hplace : ∀ i, i ∈ cursor.place new ((b.module.function f).block k).instructions ↔
      i = new ∨ i ∈ ((b.module.function f).block k).instructions)
    (hnew : new.op.WellTyped b.module f) : WellUsed f b (b.withInstruction cursor names new) := by
  have hothers : ∀ g, g ≠ f →
      (b.withInstruction cursor names new).module.function g = b.module.function g :=
    fun g hg => function_withInstruction_of_ne (by simpa [href] using hg)
  have htypes : ∀ g, ((b.withInstruction cursor names new).module.function g).type =
      (b.module.function g).type := fun g => by
    by_cases hg : g = f
    · exact hg ▸ type_withInstruction href hf
    · rw [hothers g hg]
  have hhas : ∀ i, ((b.withInstruction cursor names new).module.function f).Has i ↔
      i = new ∨ (b.module.function f).Has i := fun i => by
    constructor
    · rintro ⟨j, hj⟩
      by_cases hjk : j = k
      · subst hjk
        rw [block_withInstruction href hf hk, hplace] at hj
        exact hj.imp id fun hj => ⟨j, hj⟩
      · rw [block_withInstruction_of_ne href hf hjk] at hj
        exact .inr ⟨j, hj⟩
    · rintro (rfl | ⟨j, hj⟩)
      · refine ⟨k, ?_⟩
        rw [block_withInstruction href hf hk, hplace]
        exact .inl rfl
      · refine ⟨j, ?_⟩
        by_cases hjk : j = k
        · subst hjk
          rw [block_withInstruction href hf hk, hplace]
          exact .inr hj
        · rwa [block_withInstruction_of_ne href hf hjk]
  have hkept := fun i hi => (hhas i).mpr (.inr hi)
  refine ⟨rfl, rfl, htypes, hothers, ?_, hkept, fun ht i hi => ?_⟩
  · rw [size_blocks_withInstruction href hf]
  rcases (hhas i).mp hi with rfl | hi
  · exact hnew.mono htypes hkept
  · exact (ht i hi).mono htypes hkept

end WellUsed

end Builder

/-! ## Operations -/

namespace Const

variable {a a' r : Const}

theorem type_binary? {op : IntOp} (h : binary? op a a' = some r) : r.type = a.type := by
  unfold binary? at h
  split at h
  · next w i w' j =>
      split at h <;> cases h
      cases op.eval w i j <;> rfl
  · cases h
    rfl
  · cases h
    rfl
  · cases h
    rfl
  · cases h

theorem type_compare? {p : Predicate} (h : compare? p a a' = some r) : r.type = .i1 := by
  unfold compare? at h
  split at h
  · split at h <;> cases h
    rfl
  all_goals cases h
  all_goals rfl

theorem type_widen? {type : Ty} (h : widen? type a = some r) : r.type = type := by
  unfold widen? at h
  split at h
  · split at h <;> cases h
    rfl
  · cases h
    rfl
  · cases h

end Const

namespace Build

open Builder (WellUsed)

variable {b : Builder} {c : Nat}

/-- Inserting an instruction behind the current block. -/
theorem insert_wellUsed (hat : b.At f c) (name : String) {op : Op} (hop : op.WellTyped b.module f) :
    WellUsed f b ((insert name op).run b).2 := by
  obtain ⟨names, new, rfl, -, hrun⟩ := insert_run hat.cursor name op
  rw [hrun]
  refine .withInstruction (show (Cursor.atEnd ⟨f, c⟩).ref = ⟨f, c⟩ from rfl) hat.function_lt
    hat.block_lt (fun i => ?_) hop
  rw [Cursor.place, List.mem_append, List.mem_singleton, or_comm]

/-- The value of an inserted instruction has the type of its result. -/
theorem type_insert (hat : b.At f c) (name : String) (op : Op) :
    ((insert name op).run b).1.type = op.resultType?.getD .ptr := by
  obtain ⟨names, new, rfl, -, hrun⟩ := insert_run hat.cursor name op
  rw [hrun]
  rfl

/-- Making a stack slot. -/
theorem entryAlloca_wellUsed (hat : b.At f c) {entry : Nat}
    (hentry : (b.module.function f).entryBlock? = some entry)
    (hlt : entry < (b.module.function f).blocks.size) (name : String) (type : Ty) :
    let r := (entryAlloca f name type).run b
    WellUsed f b r.2 ∧ r.2.module.HasSlot f r.1 type := by
  obtain ⟨cursor, names, new, href, hplace, hop, -, hrun⟩ :=
    Builder.entryAlloca_run hat.cursor hat.block hentry name type
  intro r
  have hr : r = _ := hrun
  rw [hr]
  have hused : WellUsed f b (b.withInstruction cursor names new) := by
    refine .withInstruction href hat.function_lt hlt (fun i => ?_) (by rw [hop]; trivial)
    rw [hplace, List.mem_cons]
  refine ⟨hused, new, ⟨entry, ?_⟩, hop, rfl⟩
  rw [Builder.block_withInstruction href hat.function_lt hlt, hplace]
  exact List.mem_cons_self

theorem load_wellUsed (hat : b.At f c) {address : Value} {type : Ty}
    (haddress : b.module.HasSlot f address type) (name : String) :
    let r := (load type address name).run b
    WellUsed f b r.2 ∧ r.1.type = type := by
  rw [load, if_pos haddress.isPtr]
  exact ⟨insert_wellUsed hat name haddress, type_insert hat name _⟩

theorem store_wellUsed (hat : b.At f c) {value address : Value}
    (haddress : b.module.HasSlot f address value.type) :
    WellUsed f b ((store value address).run b).2 := by
  rw [store, if_pos haddress.isPtr]
  exact insert_wellUsed hat "" haddress

/-- An integer operation on operands of one type. -/
theorem binary_wellUsed (hat : b.At f c) {lhs rhs : Value} (hl : lhs.isInt = true)
    (hr : rhs.type = lhs.type) (op : IntOp) (name : String) :
    let r := (binary op lhs rhs name).run b
    WellUsed f b r.2 ∧ r.1.type = lhs.type := by
  have hr' : rhs.isInt = true := by rw [Value.isInt, hr]; exact hl
  rcases binary_cases name op hl hr' with ⟨a, a', c, rfl, rfl, hc, hstep⟩ | hstep <;> rw [hstep]
  · exact ⟨.refl f b, Const.type_binary? hc⟩
  · exact ⟨insert_wellUsed hat name ⟨hl, hr⟩, type_insert hat name _⟩

/-- A comparison of operands of one type. -/
theorem compare_wellUsed (hat : b.At f c) {lhs rhs : Value} (hl : lhs.isInt = true)
    (hr : rhs.type = lhs.type) (p : Predicate) (name : String) :
    let r := (compare p lhs rhs name).run b
    WellUsed f b r.2 ∧ r.1.type = .i1 := by
  have hr' : rhs.isInt = true := by rw [Value.isInt, hr]; exact hl
  rcases compare_cases name p hl hr' with ⟨a, a', c, rfl, rfl, hc, hstep⟩ | hstep <;> rw [hstep]
  · exact ⟨.refl f b, Const.type_compare? hc⟩
  · exact ⟨insert_wellUsed hat name ⟨hl, hr⟩, type_insert hat name _⟩

/-- The complement of a truth value. -/
theorem not_wellUsed (hat : b.At f c) {value : Value} (hvalue : value.type = .i1) (name : String) :
    let r := (Build.not value name).run b
    WellUsed f b r.2 ∧ r.1.type = .i1 := by
  have hnot : Build.not value name = binary .xor value (.const (.int .w1 (-1))) name := by
    rw [Build.not, hvalue]
    rfl
  have hint : value.isInt = true := by rw [Value.isInt, hvalue]; rfl
  rw [hnot]
  have hones : (Value.const (.int .w1 (-1))).type = value.type := hvalue.symm
  have hbinary := binary_wellUsed hat hint hones .xor name
  rwa [hvalue] at hbinary

/-- A truth value becomes a number. -/
theorem widen_wellUsed (hat : b.At f c) {value : Value} (hvalue : value.type = .i1)
    (name : String) :
    let r := (widen value .i32 name).run b
    WellUsed f b r.2 ∧ r.1.type = .i32 := by
  have hint : value.isInt = true := by rw [Value.isInt, hvalue]; rfl
  have hne : value.type ≠ .i32 := by rw [hvalue]; decide
  rcases widen_cases name hint rfl hne with ⟨a, c, rfl, hc, hstep⟩ | hstep <;> rw [hstep]
  · exact ⟨.refl f b, Const.type_widen? hc⟩
  · exact ⟨insert_wellUsed hat name ⟨hvalue, rfl⟩, type_insert hat name _⟩

/-- A call that passes what the function declares. -/
theorem call_wellUsed (hat : b.At f c) {g : FunctionId} {args : List Value}
    (hargs : args.map (·.type) = (b.module.function g).type.params) (name : String) :
    let r := (call g args name).run b
    WellUsed f b r.2 ∧ ∀ v, r.1 = some v → some v.type = (b.module.function g).type.result := by
  have hcall : (Op.call (.direct g) (b.module.function g).type args).WellTyped b.module f :=
    ⟨rfl, hargs⟩
  have hinsert := insert_wellUsed hat name hcall
  have htype := type_insert hat name (.call (.direct g) (b.module.function g).type args)
  refine ⟨hinsert, fun v hv => ?_⟩
  have hv' : ((b.module.function g).type.result.map fun _ =>
      ((insert name (.call (.direct g) (b.module.function g).type args)).run b).1) = some v := hv
  obtain ⟨type, hresult, rfl⟩ := Option.map_eq_some_iff.mp hv'
  rw [htype, Op.resultType?, hresult]
  rfl

/-- Ending the current block, which is open. -/
theorem terminate_wellUsed (hat : b.At f c) (hopen : ((b.module.function f).block c).Open) {op : Op}
    (hop : op.WellTyped b.module f) : WellUsed f b ((terminate op).run b).2 := by
  have hended : b.isTerminated = false := by rw [hat.isTerminated, hopen.isTerminated]
  show WellUsed f b ((if b.isTerminated then misuse else _ : Build Unit).run b).2
  rw [hended]
  exact insert_wellUsed hat "" hop

theorem branch_wellUsed (hat : b.At f c) (hopen : ((b.module.function f).block c).Open)
    {cond : Value} (hcond : cond.type = .i1) (yes no : BlockRef) :
    WellUsed f b ((branch cond yes no).run b).2 := by
  have hended : b.isTerminated = false := by rw [hat.isTerminated, hopen.isTerminated]
  have hint : cond.isInt = true := by rw [Value.isInt, hcond]; rfl
  show WellUsed f b ((if b.isTerminated then misuse else if cond.isInt then _ else _ :
    Build Unit).run b).2
  rw [hended, hint]
  exact terminate_wellUsed hat hopen hcond

end Build

end ClassLang.IR

namespace ClassLang

open IR (BlockRef Build Builder FunctionId KeepsShared KeepsStraight Op Ty Value)
open IR.Builder (WellUsed)

/-! ## The invariant -/

/-- The functions that may be called have the types of their signatures, where they are declared. -/
def Callable (ctx : LoweringContext) (callees : String → Prop) (builder : Builder) : Prop :=
  ∀ name decl fn sig, callees name → ctx.tree.function? name = some decl →
    ctx.tree.scalarFunction? decl = some fn →
      ctx.typed.table.signature { walk := 0, node := decl } = .ok sig →
        fn.Takes sig ∧ ∀ g, builder.function? sig.linkName = some g →
          (builder.module.function g).type = Emit.scalarFnType fn

/-- Function `f`, which returns values of a type, is under construction, and so far all is well. -/
structure WellBuilt (ctx : LoweringContext) (callees : String → Prop) (result : ScalarType)
    (f : FunctionId) (o : Output) : Prop where
  typed : o.builder.module.IsTyped f
  result : (o.builder.module.function f).type.result = some result.ty
  callable : Callable ctx callees o.builder
  consistent : o.Consistent ctx.pool

/-- The locals in scope are stack slots for values of their types. -/
def HasLocals (K : ScalarTypes) (f : FunctionId) (b : Body) (m : IR.Module) : Prop :=
  ∀ name entry, b.scope.lookup name = some entry → ∃ address τ, entry = .slot address τ.ty ∧
    K.local? name = some τ ∧ m.HasSlot f address τ.ty

/-- The stage of a function on Integers and Booleans: the values of its return sites have the type of
its result. -/
def Stage.plain (K : ScalarTypes) (f : FunctionId) : Stage :=
  Stage.whole f 0 K.result.id none (fun h => by cases h) fun site => site.1.type = K.result.ty

variable {ctx : LoweringContext} {callees : String → Prop} {K : ScalarTypes} {f : FunctionId}
  {α β : Type} {τ : ScalarType}

theorem Callable.of_wellUsed {b b' : Builder} (h : Callable ctx callees b) (hused : WellUsed f b b') :
    Callable ctx callees b' := by
  intro name decl fn sig hcallee hdecl hfn hsig
  obtain ⟨htakes, hg⟩ := h name decl fn sig hcallee hdecl hfn hsig
  refine ⟨htakes, fun g hname => ?_⟩
  rw [Builder.function?, hused.declared] at hname
  rw [hused.types]
  exact hg g hname

theorem WellBuilt.of_wellUsed {o o' : Output} (h : WellBuilt ctx callees τ f o)
    (hused : WellUsed f o.builder o'.builder) (hconsistent : o'.Consistent ctx.pool) :
    WellBuilt ctx callees τ f o' where
  typed := hused.typed h.typed
  result := by rw [hused.types, h.result]
  callable := h.callable.of_wellUsed hused
  consistent := hconsistent

theorem HasLocals.of_wellUsed {b b' : Body} {builder builder' : Builder}
    (h : HasLocals K f b builder.module) (hused : WellUsed f builder builder')
    (hscope : b'.scope = b.scope) : HasLocals K f b' builder'.module := by
  intro name entry hlookup
  rw [hscope] at hlookup
  obtain ⟨address, τ, heq, htype, hslot⟩ := h name entry hlookup
  exact ⟨address, τ, heq, htype, hslot.mono hused.kept⟩

/-- Building well-typed code into a function. -/
def typing (ctx : LoweringContext) (callees : String → Prop) (result : ScalarType)
    (f : FunctionId) : Discipline Halt Output where
  inv := WellBuilt ctx callees result f
  le o o' := WellUsed f o.builder o'.builder
  fails _ _ _ := True
  refl o := .refl f o.builder
  trans := .trans
  fails_trans _ _ := trivial

/-- Building well-typed code into a function in which control flows as it should. -/
def building (ctx : LoweringContext) (callees : String → Prop) (K : ScalarTypes)
    (f : FunctionId) : Discipline Halt Output :=
  (flowing ctx True (fun _ => True) (some f)).prod (typing ctx callees K.result f)

namespace Lower

/-- A step of building that is well used. -/
theorem build_types {b : Body} {o : Output} {step : Build α} {Q : α × Body → Output → Prop}
    (hbuilt : WellBuilt ctx callees τ f o) (hshared : KeepsShared step)
    (hused : WellUsed f o.builder (step.run o.builder).2)
    (hQ : Q ((step.run o.builder).1, b) { o with builder := (step.run o.builder).2 }) :
    (typing ctx callees τ f).KeepsAt o ((build step).run b) Q :=
  .of_ok rfl (hbuilt.of_wellUsed hused
    ((Output.CodeOnly.of_build hshared o).consistent hbuilt.consistent)) hused hQ

/-- All is well so far, and building goes on at a place. -/
structure Placed (ctx : LoweringContext) (callees : String → Prop) (K : ScalarTypes)
    (f : FunctionId) (place : Body → Output → Prop) (b : Body) (o : Output) : Prop where
  place : place b o
  built : WellBuilt ctx callees K.result f o
  locals : HasLocals K f b o.builder.module

/-- Building goes on in a block that is open or has ended. -/
abbrev Flowing (ctx : LoweringContext) (callees : String → Prop) (K : ScalarTypes) (f : FunctionId)
    (pending : List Nat) (c : Nat) : Body → Output → Prop :=
  Placed ctx callees K f fun b o => Flow True (Stage.plain K f) pending c b o.builder

/-- Building goes on in an open block. -/
abbrev Sound (ctx : LoweringContext) (callees : String → Prop) (K : ScalarTypes) (f : FunctionId)
    (pending : List Nat) (c : Nat) : Body → Output → Prop :=
  Placed ctx callees K f (Running True (Stage.plain K f) pending c)

/-- Building has come to the end of a block. -/
abbrev Ended (ctx : LoweringContext) (callees : String → Prop) (K : ScalarTypes) (f : FunctionId)
    (pending : List Nat) (c : Nat) : Body → Output → Prop :=
  Placed ctx callees K f (Halted True (Stage.plain K f) pending c)

section Places

variable {place place' : Body → Output → Prop} {pending : List Nat} {c : Nat} {b : Body} {o : Output}

/-- A step that keeps the flow and builds well-typed code. -/
theorem building_of {step : EStateM Halt Output α} {Q : α → Output → Prop}
    (hflow : (flowing ctx True (fun _ => True) (some f)).KeepsAt o step Q)
    (htyped : (typing ctx callees K.result f).KeepsAt o step fun _ _ => True) :
    (building ctx callees K f).KeepsAt o step Q :=
  (hflow.prod htyped).weaken fun _ _ _ _ h => h.1

namespace Placed

/-- A step of building that is well used. -/
theorem build (h : Placed ctx callees K f place b o) {step : Build Unit}
    (hflow : (flowing ctx True (fun _ => True) (some f)).KeepsAt o ((build step).run b) fun r o' =>
      r.2 = b ∧ place' b o')
    (hshared : KeepsShared step) (hused : WellUsed f o.builder (step.run o.builder).2) :
    (building ctx callees K f).KeepsAt o ((Lower.build step).run b) fun r o' =>
      r.2 = b ∧ Placed ctx callees K f place' b o' := by
  refine (building_of hflow (build_types h.built hshared hused trivial)).weaken ?_
  rintro r o' hinv hle ⟨hb, hplace⟩
  exact ⟨hb, hplace, hinv.2, h.locals.of_wellUsed hle.2 rfl⟩

/-- Building goes on in an open block. -/
theorem at_ (h : Sound ctx callees K f pending c b o) : o.builder.At f c :=
  h.place.flow.at_

theorem function (h : Sound ctx callees K f pending c b o) : b.function = f :=
  h.place.flow.function

theorem walk (h : Sound ctx callees K f pending c b o) : b.walk = 0 :=
  h.place.flow.walk

theorem result (h : Sound ctx callees K f pending c b o) : b.result = K.result.id :=
  h.place.flow.result

theorem flowing (h : Sound ctx callees K f pending c b o) : Flowing ctx callees K f pending c b o :=
  ⟨h.place.flow, h.built, h.locals⟩

/-- Straight code that is well typed stays in the block. -/
theorem straight {step : Lower α} {R : α → Prop} (h : Sound ctx callees K f pending c b o)
    (hstraight : Straight f step)
    (htyped : (typing ctx callees K.result f).KeepsAt o (step.run b) fun r o' =>
      HasLocals K f r.2 o'.builder.module ∧ R r.1) :
    (building ctx callees K f).KeepsAt o (step.run b) fun r o' =>
      Sound ctx callees K f pending c r.2 o' ∧ R r.1 := by
  refine (Discipline.KeepsAt.prod (Straight.keeps (S := Stage.plain K f) hstraight h.place)
    htyped).weaken ?_
  rintro r o' hinv - ⟨hr, hlocals, hR⟩
  exact ⟨⟨hr, hinv.2, hlocals⟩, hR⟩

/-- Straight code that changes nothing. -/
theorem reads {step : Lower α} (h : Sound ctx callees K f pending c b o)
    (hstraight : Straight f step)
    (hsame : ∀ r b' o', step.run b o = .ok (r, b') o' → b' = b ∧ o' = o) :
    (building ctx callees K f).KeepsAt o (step.run b) fun r o' =>
      r.2 = b ∧ o' = o ∧ step.run b o = .ok r o := by
  have hkeeps : (ClassLang.flowing ctx True (fun _ => True) (some f)).KeepsAt o (step.run b) _ :=
    Straight.keeps hstraight h.place
  cases hrun : step.run b o with
  | error e o' => exact .of_error hrun ⟨hkeeps.error hrun, trivial⟩
  | ok r o' =>
      obtain ⟨hb, rfl⟩ := hsame r.1 r.2 o' hrun
      exact .of_ok hrun ⟨h.place.flow.sane, h.built⟩ ((building ctx callees K f).refl _)
        ⟨hb, rfl, rfl⟩

end Placed

end Places

/-- The step builds well-typed code from an open block on, what it gives has property `R`, and the
current block is open afterwards if the result says so. -/
def Types (ctx : LoweringContext) (callees : String → Prop) (K : ScalarTypes) (f : FunctionId)
    (opens R : α → Prop) (step : Lower α) : Prop :=
  ∀ pending c b o, Sound ctx callees K f pending c b o →
    (building ctx callees K f).KeepsAt o (step.run b) fun r o' =>
      (∃ c', Flowing ctx callees K f pending c' r.2 o' ∧
        (opens r.1 → ((o'.builder.module.function f).block c').Open)) ∧ R r.1

/-- The step builds well-typed code and leaves an open block. -/
abbrev TypesOn (ctx : LoweringContext) (callees : String → Prop) (K : ScalarTypes) (f : FunctionId)
    (R : α → Prop) (step : Lower α) : Prop :=
  Types ctx callees K f (fun _ => True) R step

theorem Placed.sound {pending : List Nat} {c : Nat} {b : Body} {o : Output}
    (h : Flowing ctx callees K f pending c b o)
    (hopen : ((o.builder.module.function f).block c).Open) :
    Sound ctx callees K f pending c b o :=
  ⟨⟨h.place, hopen⟩, h.built, h.locals⟩

/-! ## Steps within a block -/

namespace Types

variable {opens R R' : α → Prop} {S : β → Prop}

/-- Straight code that is well typed. -/
theorem of_straight {step : Lower α} (hstraight : Straight f step)
    (h : ∀ pending c b o, Sound ctx callees K f pending c b o →
      (typing ctx callees K.result f).KeepsAt o (step.run b) fun r o' =>
        HasLocals K f r.2 o'.builder.module ∧ R r.1) :
    Types ctx callees K f opens R step := by
  intro pending c b o hs
  refine (hs.straight hstraight (h pending c b o hs)).weaken ?_
  rintro r o' - - ⟨hs', hR⟩
  exact ⟨⟨c, hs'.flowing, fun _ => hs'.place.isOpen⟩, hR⟩

theorem pure {a : α} (ha : R a) : Types ctx callees K f opens R (Pure.pure a) :=
  of_straight (.pure a) fun _ _ _ _ hs => .of_ok rfl hs.built (.refl _ _) ⟨hs.locals, ha⟩

/-- A step that fails. -/
theorem of_fails {step : Lower α} (hstraight : Straight f step)
    (h : ∀ b o r b' o', step.run b o ≠ .ok (r, b') o') : Types ctx callees K f opens R step := by
  refine of_straight hstraight fun _ _ b o _ => ?_
  cases hrun : step.run b o with
  | error e o' => exact .of_error hrun trivial
  | ok r o' => exact absurd hrun (h b o r.1 r.2 o')

theorem broken {text : String} : Types ctx callees K f opens R (Lower.broken text : Lower α) :=
  of_fails (.broken text) (by rintro _ _ _ _ _ ⟨⟩)

theorem mismatch {text : String} : Types ctx callees K f opens R (Lower.mismatch text : Lower α) :=
  of_fails (.mismatch text) (by rintro _ _ _ _ _ ⟨⟩)

theorem bind {step : Lower β} {next : β → Lower α} (h : TypesOn ctx callees K f S step)
    (hnext : ∀ r, S r → Types ctx callees K f opens R (next r)) :
    Types ctx callees K f opens R (step >>= next) := by
  intro pending c b o hs
  refine bind_keeps (h pending c b o hs) ?_
  rintro r b' o' - - ⟨⟨c', hflowing, hopen⟩, hS⟩
  exact hnext r hS pending c' b' o' (hflowing.sound (hopen trivial))

theorem weaken {step : Lower α} (h : TypesOn ctx callees K f R step) (hR : ∀ a, R a → R' a) :
    Types ctx callees K f opens R' step := by
  intro pending c b o hs
  refine (h pending c b o hs).weaken ?_
  rintro r o' - - ⟨⟨c', hflowing, hopen⟩, hr⟩
  exact ⟨⟨c', hflowing, fun _ => hopen trivial⟩, hR _ hr⟩

/-- A step that changes nothing may come first. -/
theorem ask {first : Lower β} {next : β → Lower α} (hstraight : Straight f first)
    (hfirst : Tells first S) (h : ∀ r, S r → Types ctx callees K f opens R (next r)) :
    Types ctx callees K f opens R (first >>= next) := by
  intro pending c b o hs
  refine bind_keeps (hs.reads hstraight fun r b' o' hrun => ?_) ?_
  · obtain ⟨hb, ho, -⟩ := hfirst b o r b' o' hs.walk hrun
    exact ⟨hb, ho⟩
  · rintro r _ _ - - ⟨rfl, rfl, hrun⟩
    exact h r (hfirst _ _ _ _ _ hs.walk hrun).2.2 pending c _ _ hs

/-- A step of building that is well used. -/
theorem build {step : Build α} (hstraight : KeepsStraight f step) (hshared : KeepsShared step)
    (h : ∀ c builder, builder.At f c → builder.module.IsTyped f →
      WellUsed f builder (step.run builder).2 ∧ R (step.run builder).1) :
    Types ctx callees K f opens R (Lower.build step) := by
  refine of_straight (.build hstraight) fun _ c b o hs => ?_
  obtain ⟨hused, hR⟩ := h c o.builder hs.at_ hs.built.typed
  exact build_types hs.built hshared hused ⟨hs.locals.of_wellUsed hused rfl, hR⟩

theorem mapM {items : List β} {body : β → Lower α} {R : β → α → Prop}
    (h : ∀ item ∈ items, TypesOn ctx callees K f (R item) (body item)) :
    TypesOn ctx callees K f (fun results => List.Forall₂ R items results) (items.mapM body) := by
  induction items with
  | nil => exact pure .nil
  | cons item items ih =>
      rw [List.mapM_cons]
      refine (h item (by simp)).bind fun r hr => ?_
      refine (ih fun i hi => h i (List.mem_cons_of_mem _ hi)).bind fun rs hrs => ?_
      exact pure (.cons hr hrs)

end Types

/-! ## Locals -/

section Leaves

variable {pending : List Nat} {c : Nat} {b : Body} {o : Output}

/-- Reading a local. -/
theorem Types.loadLocal {name : String} (hlocal : K.local? name = some τ) :
    TypesOn ctx callees K f (fun value => value.type = τ.ty) (loadLocal name) := by
  refine .of_straight (loadLocal_straight name) fun _ c b o hs => get_bind_keeps ?_
  cases hlookup : b.scope.lookup name with
  | none => exact .of_error rfl trivial
  | some entry =>
      obtain ⟨address, σ, rfl, hσ, hslot⟩ := hs.locals name entry hlookup
      cases hlocal.symm.trans hσ
      obtain ⟨hused, htype⟩ := Build.load_wellUsed hs.at_ hslot name
      exact build_types hs.built (.load _ _ _) hused ⟨hs.locals.of_wellUsed hused rfl, htype⟩

/-- Writing a local. -/
theorem Types.storeLocal {name : String} {value : Value} (hlocal : K.local? name = some τ)
    (hvalue : value.type = τ.ty) (fixed missing : String) :
    TypesOn ctx callees K f (fun _ => True) (storeLocal name value fixed missing) := by
  refine .of_straight (.get_bind fun b _ => ?_) fun _ c b o hs => get_bind_keeps ?_
  · split
    · exact .build (.store _ _)
    · exact .mismatch _
    · exact .broken _
  · cases hlookup : b.scope.lookup name with
    | none => exact .of_error rfl trivial
    | some entry =>
        obtain ⟨address, σ, rfl, hσ, hslot⟩ := hs.locals name entry hlookup
        cases hlocal.symm.trans hσ
        have hused := Build.store_wellUsed hs.at_ (hvalue ▸ hslot)
        exact build_types hs.built (.store _ _) hused ⟨hs.locals.of_wellUsed hused rfl, trivial⟩

/-- The entry block is there. -/
theorem Placed.entry (h : Sound ctx callees K f pending c b o) :
    (o.builder.module.function f).entryBlock? = some 0 ∧
      0 < (o.builder.module.function f).blocks.size :=
  ⟨(h.place.flow.exit_tracked trivial).2.entry, Nat.zero_lt_of_lt h.at_.block_lt⟩

theorem valueType_keeps (hpool : ctx.pool.HasScalars) {D : Discipline Halt Output} (ho : D.inv o)
    (τ : ScalarType) : D.KeepsAt o ((liftM (Emit.valueType ctx τ.id) : Lower Ty).run b)
      fun r o' => r = (τ.ty, b) ∧ o' = o :=
  .of_ok (run_lift_ok (valueType_id hpool τ o) b) ho (D.refl o) ⟨rfl, rfl⟩

/-- Making a local. -/
theorem Types.bindLocal (hpool : ctx.pool.HasScalars) {name : String} {value : Value}
    (hlocal : K.local? name = some τ) (hvalue : value.type = τ.ty) :
    TypesOn ctx callees K f (fun _ => True) (bindLocal ctx name value τ.id) := by
  refine .of_straight (bindLocal_straight ctx _ _ _) fun _ c b o hs => ?_
  refine bind_keeps (valueType_keeps hpool hs.built τ) ?_
  rintro _ _ o - - ⟨heq, rfl⟩
  cases heq
  refine get_bind_keeps ?_
  rw [hs.function]
  obtain ⟨hentry, hlt⟩ := hs.entry
  obtain ⟨hmade, hslot⟩ := Build.entryAlloca_wellUsed hs.at_ hentry hlt (name ++ ".addr") τ.ty
  have hat := ((KeepsStraight.entryAlloca (name ++ ".addr") τ.ty) c o.builder hs.at_).at_ hs.at_
  dsimp only
  rw [build_bind, bind_assoc]
  refine bind_keeps (build_types (Q := fun r o' => r.2 = b ∧ o'.builder.At f c ∧
    o'.builder.module.HasSlot f r.1 τ.ty) hs.built (.entryAlloca _ _ _) hmade ⟨rfl, hat, hslot⟩) ?_
  rintro slot b o' hbuilt hle ⟨rfl, hat, hslot⟩
  rw [build_bind, bind_assoc]
  refine bind_keeps (build_types (Q := fun r _ => r.2 = b) hbuilt (.store _ _)
    (Build.store_wellUsed hat (hvalue ▸ hslot)) rfl) ?_
  rintro _ _ o'' hbuilt' hle' rfl
  have hused : WellUsed f o.builder o''.builder := .trans hle hle'
  refine .of_ok rfl hbuilt' (.refl _ _) ⟨?_, trivial⟩
  intro other entry hlookup
  rw [List.lookup_cons] at hlookup
  split at hlookup
  · next heq =>
      cases hlookup
      exact ⟨slot, τ, rfl, by rwa [beq_iff_eq.mp heq], hslot.mono hle'.kept⟩
  · exact hs.locals.of_wellUsed hused rfl other entry hlookup

/-! ## Values -/

variable {σ : ScalarType}

/-- Converting a value. -/
theorem Types.convert (hpool : ctx.pool.HasScalars) {value : Value} (hvalue : value.type = σ.ty)
    (τ : ScalarType) : TypesOn ctx callees K f (fun value => value.type = τ.ty)
      (convert ctx value σ.id τ.id) := by
  unfold Lower.convert
  rw [hpool.conversion?_id]
  by_cases heq : σ = τ
  · rw [if_pos heq]
    exact .pure (heq ▸ hvalue)
  rw [if_neg heq]
  cases τ with
  | boolean => exact .mismatch
  | integer =>
      have hbool : value.type = .i1 := by
        cases σ with
        | integer => exact absurd rfl heq
        | boolean => exact hvalue
      exact .build (.widen _ _ _) (.widen _ _ _) fun c builder hat _ =>
        Build.widen_wellUsed hat hbool "widen"

/-- The operator of a type on operands of this type. -/
theorem Types.operate (hpool : ctx.pool.HasScalars) (node : NodeId) {op : BinaryOp} {lhs rhs : Value}
    (hresult : op.scalarResult? σ = some τ) (hl : lhs.type = σ.ty) (hr : rhs.type = σ.ty) :
    TypesOn ctx callees K f (fun value => value.type = τ.ty) (operate ctx node σ.id op lhs rhs) := by
  have hint : lhs.isInt = true := by
    rw [Value.isInt, hl]
    cases σ <;> rfl
  have hsame : rhs.type = lhs.type := hr.trans hl.symm
  have hbinary : ∀ iop name, TypesOn ctx callees K f (fun value => value.type = σ.ty)
      (Lower.build (Build.binary iop lhs rhs name)) := fun iop name =>
    .build (.binary _ _ _ _) (.binary _ _ _ _) fun c builder hat _ =>
      hl ▸ Build.binary_wellUsed hat hint hsame iop name
  have hcompare : ∀ p, TypesOn ctx callees K f (fun value => value.type = .i1)
      (Lower.build (Build.compare p lhs rhs "cmp")) := fun p =>
    .build (.compareOf _ _ _ _ _) (.compareOf _ _ _ _ _) fun c builder hat _ =>
      Build.compare_wellUsed hat hint hsame p "cmp"
  rw [Lower.operate, hpool.operator?_id, hresult]
  cases σ with
  | integer => cases op <;> cases hresult <;> first | exact hbinary _ _ | exact hcompare _
  | boolean =>
      cases op <;> first | cases hresult; exact hcompare _ | cases hresult

/-- A case of a data type is a constant that is shared. -/
theorem Types.singleton (hsound : ctx.pool.Sound) (t : TypeId) :
    TypesOn ctx callees K f (fun _ => True) (liftM (Emit.singleton ctx t) : Lower Value) := by
  refine .of_straight (.lift (Emit.singleton_lays t).quiet) fun _ c b o hs => ?_
  cases hrun : Emit.singleton ctx t o with
  | error e o' =>
      refine .of_error (e := e) (t := o') ?_ trivial
      show EStateM.bind (Emit.singleton ctx t) _ o = _
      rw [EStateM.bind, hrun]
  | ok value o' =>
      have hrequest : (Emit.Request.singleton t).run ctx o = .ok (.record value) o' := by
        show EStateM.bind (Emit.singleton ctx t) _ o = _
        rw [EStateM.bind, hrun]
        rfl
      obtain ⟨key, hkey⟩ := Emit.Request.exists_key hrequest
      have hanswers := Emit.Request.answers hsound hs.built.consistent hkey hrequest
      obtain ⟨-, hquiet, -⟩ := ((Emit.singleton_lays t).quiet o hs.place.flow.sane).ok hrun
      have hused : WellUsed f o.builder o'.builder :=
        .of_functions hquiet.functions hquiet.declared hanswers.errors
      exact .of_ok (run_lift_ok hrun b) (hs.built.of_wellUsed hused hanswers.consistent) hused
        ⟨hs.locals.of_wellUsed hused rfl, trivial⟩

end Leaves

end Lower

end ClassLang
