import ClassLang.Proofs.Lowering.Running
import ClassLang.Proofs.Pool.Scalars

/-!
# Running single steps

What is generated besides the parts of a node is a few instructions: reads and writes of stack slots,
operations on integers, conversions and calls. Each of them runs as the step of evaluation that it
stands for. Operations on constants are folded, and then there is nothing to run.
-/

namespace ClassLang

open Execution (Context Datum ObjectId State)
open IR (BlockRef Build Builder Const FunctionId HasOperands Instruction IntOp KeepsAdding Op Predicate
  Ty Value Width below_nil)
open IR.HasOperands (Below)

/-- Building goes on in one place. -/
theorem IR.Builder.At.unique {b : Builder} {f g : FunctionId} {c d : Nat} (h : b.At f c)
    (h' : b.At g d) : d = c := by
  have heq := h'.cursor.symm.trans h.cursor
  cases heq
  rfl

/-- Operands do not depend on what runs next. -/
theorem Execution.Context.eval?_code {η : Type} (E : Context η) (fr : Execution.Frame)
    (code : List Instruction) (value : Value) :
    E.eval? { fr with code } value = E.eval? fr value := by
  cases value <;> rfl

/-! ## Folding -/

namespace IR.Build

variable {lhs rhs : Value} (name : String)

/-- An integer operation is folded or inserted. -/
theorem binary_cases (op : IntOp) (hl : lhs.isInt = true) (hr : rhs.isInt = true) :
    (∃ a b c, lhs = .const a ∧ rhs = .const b ∧ Const.binary? op a b = some c ∧
      binary op lhs rhs name = pure (.const c)) ∨
      binary op lhs rhs name = insert name (.binary op lhs rhs) := by
  unfold binary
  rw [hl, hr, Bool.and_self, if_pos rfl]
  split
  · next a b =>
      cases hc : Const.binary? op a b with
      | none => exact .inr rfl
      | some c => exact .inl ⟨a, b, c, rfl, rfl, hc, rfl⟩
  · exact .inr rfl

/-- A comparison of integers is folded or inserted. -/
theorem compare_cases (p : Predicate) (hl : lhs.isInt = true) (hr : rhs.isInt = true) :
    (∃ a b c, lhs = .const a ∧ rhs = .const b ∧ Const.compare? p a b = some c ∧
      compare p lhs rhs name = pure (.const c)) ∨
      compare p lhs rhs name = insert name (.compare p lhs rhs) := by
  unfold compare compareOf
  rw [hl, hr, Bool.and_self, if_pos rfl]
  split
  · next a b =>
      cases hc : Const.compare? p a b with
      | none => exact .inr rfl
      | some c => exact .inl ⟨a, b, c, rfl, rfl, hc, rfl⟩
  · exact .inr rfl

/-- An integer of another type is extended at once, or by an instruction. -/
theorem widen_cases {value : Value} {type : Ty} (hvalue : value.isInt = true)
    (htype : type.isInt = true) (hne : value.type ≠ type) :
    (∃ a c, value = .const a ∧ Const.widen? type a = some c ∧
      widen value type name = pure (.const c)) ∨
      widen value type name = insert name (.widen value type) := by
  unfold widen
  rw [hvalue, htype, Bool.and_self, if_pos rfl, if_neg (by simpa using hne)]
  split
  · next a =>
      cases hc : Const.widen? type a with
      | none => exact .inr rfl
      | some c => exact .inl ⟨a, c, rfl, hc, rfl⟩
  · exact .inr rfl

end IR.Build

variable {η : Type} {E : Context η} {F : Output} {K : ScalarTypes} {α β : Type}

/-! ## Instructions -/

namespace Activation

variable {T : Activation η} {x : Eval α} {P : Execution.Frame → Prop}

/-- Where an instruction with this operation comes next, the machine executes it as the evaluation
says, and `Q` holds of what the evaluation gives and the number of the instruction. -/
def Executes (E : Context η) (T : Activation η) (P : Execution.Frame → Prop) (x : Eval α) (op : Op)
    (Q : α → Nat → Execution.Frame → Prop) : Prop :=
  ∀ l s i rest, T.Holds E l s → P s.frame → s.frame.code = i :: rest → i.op = op →
    (∀ slot ∈ ((T.code E).block 0).slots, i.id ≠ slot.id) →
      T.Outcome E s x l fun a l' t => T.Holds E l' t ∧ t.frame.block = s.frame.block ∧
        t.frame.code = rest ∧ Execution.Frame.Keeps i.id s.frame t.frame ∧ Q a i.id t.frame

/-- The frame after an instruction with a result. -/
theorem Holds.setResult {l : Locals} {s : State η} (h : T.Holds E l s) (hT : T.Sound E F) {id : Nat}
    (hid : ∀ slot ∈ ((T.code E).block 0).slots, id ≠ slot.id) (d : Datum)
    (code : List Instruction) {world : Execution.World η} (hhost : world.host = s.world.host)
    (hmemory : s.world.memory.Grows world.memory) :
    T.Holds E l { frame := { s.frame with code }.setResult id d, callers := s.callers, world } := by
  refine h.moved hT rfl rfl rfl rfl hhost hmemory fun slot hslot => ?_
  simp [Execution.Frame.setResult, Std.TreeMap.getElem?_insert, hid slot hslot]

theorem keeps_setResult (fr : Execution.Frame) (id : Nat) (d : Datum) (code : List Instruction) :
    Execution.Frame.Keeps id fr ({ fr with code }.setResult id d) := by
  refine ⟨rfl, fun other hother => ?_⟩
  simp [Execution.Frame.setResult, Std.TreeMap.getElem?_insert, (Nat.ne_of_lt hother).symm]

theorem setResult_self (fr : Execution.Frame) (id : Nat) (d : Datum) :
    (fr.setResult id d).results[id]? = some d := by
  simp [Execution.Frame.setResult]

/-- An operation that gives a value and leaves the world as it is. -/
theorem Executes.of_result (hT : T.Sound E F) {op : Op} {a? : Option α} {d : α → Datum}
    (h : ∀ a, a? = some a → ∀ fr, P fr → ∀ code callers (world : Execution.World η) id,
      E.execute? { fr with code } callers world id op =
        some (.running { frame := { fr with code }.setResult id (d a), callers, world })) :
    T.Executes E P (Eval.ofOption a?) op fun a id fr =>
      a? = some a ∧ fr.results[id]? = some (d a) := by
  intro l s i rest hholds hPs hcode hop hslots
  refine .ofOption fun a ha => ?_
  have hstep : E.step? s = _ := (Context.step?_cons hcode).trans
    (hop ▸ h a ha s.frame hPs rest s.callers s.world i.id)
  exact ⟨_, .single hstep, hholds.setResult hT hslots (d a) rest rfl (.refl _), rfl, rfl,
    keeps_setResult _ _ _ _, ha, setResult_self _ _ _⟩

theorem Executes.mono {op : Op} {Q Q' : α → Nat → Execution.Frame → Prop}
    (h : T.Executes E P x op Q) (hQ : ∀ a id fr, Q a id fr → Q' a id fr) :
    T.Executes E P x op Q' :=
  fun l s i rest hholds hPs hcode hop hslots => (h l s i rest hholds hPs hcode hop hslots).mono
    fun _ _ _ ⟨hholds', hblock, hrest, hkeeps, hq⟩ => ⟨hholds', hblock, hrest, hkeeps, hQ _ _ _ hq⟩

section Inserting

variable {f : FunctionId} {c : Nat} {o : Output} {l : Locals} {s : State η} (name : String) {op : Op}

/-- An instruction that is inserted is what the machine comes to next. -/
theorem Here.code_insert (hhere : T.Here E o l s) (hf : T.body.function = f) (hat : o.builder.At f c)
    (hop : op.isAlloca = false) :
    let r := (Build.insert name op).run o.builder
    (r.2.module.function f).Grows (T.code E) →
      ∃ i, i.op = op ∧ i.id = o.builder.next f ∧ r.1 = .result f i.id (op.resultType?.getD .ptr) ∧
        s.frame.block = c ∧
        (o.builder.module.function f).Inserts c [] [i] (r.2.module.function f) ∧
        ((r.2.module.function f).block c).code =
          ((o.builder.module.function f).block c).code ++ [i] ∧
        i ∈ ((T.code E).block c).code ∧ s.frame.code =
          i :: ((T.code E).block c).code.drop ((r.2.module.function f).block c).code.length := by
  intro r hgrows
  subst hf
  obtain ⟨-, i, hi, hid, hr, hinserts⟩ := IR.insert_adds hat name hop
  have hc := hat.unique hhere.at_
  have hcode := hinserts.code_self
  rw [IR.codeOf_plain (hi ▸ hop), show IR.codeOf [] = [] from rfl, List.nil_append] at hcode
  have hdrop := Activation.code_eq hgrows hcode
  have hnext := hhere.live.code
  rw [hc, hdrop] at hnext
  refine ⟨i, hi, hid, hr, hc, hinserts, hcode, List.mem_of_mem_drop (hdrop ▸ List.mem_cons_self), ?_⟩
  rw [hnext, hcode, List.length_append, List.length_singleton]

/-- An instruction that is inserted runs as the evaluation says. -/
theorem Here.insert {Q : α → Value → Execution.Frame → Prop} (hhere : T.Here E o l s)
    (hT : T.Sound E F) (hf : T.body.function = f) (hat : o.builder.At f c) (hop : op.isAlloca = false)
    (hends : op.isTerminator = false) (hP : P s.frame)
    (h : T.Executes E P x op fun a id fr => Q a (.result f id (op.resultType?.getD .ptr)) fr) :
    let r := (Build.insert name op).run o.builder
    (r.2.module.function f).Grows (T.code E) →
      T.Outcome E s x l fun a l' t => T.Here E { o with builder := r.2 } l' t ∧
        Execution.Frame.Keeps (o.builder.next f) s.frame t.frame ∧ Q a r.1 t.frame := by
  intro r hgrows
  obtain ⟨i, hi, hid, hr, hc, hinserts, hcode, hmem, hnext⟩ := hhere.code_insert name hf hat hop hgrows
  have hat' := (IR.insert_adds hat name hop).1.at_
  subst hf
  refine (h l s i _ hhere.live.toHolds hP hnext hi fun slot hslot => hT.ne_slot hmem hslot).mono ?_
  rintro a l' t ⟨hholds, hblock, hrest, hkeeps, hQ⟩
  rw [hc] at hblock
  refine ⟨⟨hblock ▸ hat', ?_, hholds, rfl, ?_⟩, ?_, ?_⟩
  · have hopen := hhere.isOpen
    rw [hc, IR.Block.Open] at hopen
    rw [hblock, IR.Block.Open, hinserts.self]
    simpa [hi, hends, or_imp, forall_and] using hopen
  · rw [hrest, hblock]
  · rw [← hid]
    exact hkeeps
  · rw [hr]
    exact hQ

end Inserting

/-! ### Slots -/

variable {g : FunctionId} {name : String} {id : Nat} {ty : Ty}

/-- The address of a slot. -/
theorem Holds.address? {l : Locals} {s : State η} (h : T.Holds E l s) (hT : T.Sound E F)
    (hslot : T.body.HasSlot name id ty) (code : List Instruction) :
    E.address? { s.frame with code } (.result g id .ptr) = some (.place (T.place id) 0) := by
  obtain ⟨i, hi, rfl⟩ := hT.slot_mem hslot
  simp [Context.address?, Context.eval?, (h.slots i hi).1, Datum.toAddress?]

/-- Reading a slot gives the value of the local. -/
theorem Executes.load (hT : T.Sound E F) (hslot : T.body.HasSlot name id ty) :
    T.Executes E P (Eval.read name) (.load ty (.result g id .ptr)) fun v k fr =>
      T.types.local? name = some v.type ∧ ty = v.type.ty ∧ fr.results[k]? = some v.datum := by
  intro l s i rest hholds hPs hcode hop hslots
  refine .read fun v hv => ?_
  obtain ⟨hty, hload⟩ := hholds.values name v hv id ty hslot
  have hstep : E.Steps s
      ⟨{ s.frame with code := rest }.setResult i.id v.datum, s.callers, s.world⟩ := by
    rw [Context.Steps, Context.step?_cons hcode, hop, Context.execute?,
      hholds.address? hT hslot, Option.bind_eq_bind, Option.bind_some, hload]
    rfl
  exact ⟨_, .single hstep, hholds.setResult hT hslots v.datum rest rfl (.refl _), rfl, rfl,
    keeps_setResult _ _ _ _, hholds.types name v hv, hty, setResult_self _ _ _⟩

/-- Writing a slot gives the local its value. -/
theorem Executes.store (hT : T.Sound E F) {v : Scalar} {value : Value} {τ : ScalarType}
    (hslot : T.body.HasSlot name id τ.ty) (htype : T.types.local? name = some τ)
    (hvalue : ∀ fr, P fr → v.type = τ ∧ value.Denotes v fr) :
    T.Executes E P (Eval.write name v) (.store value (.result g id .ptr)) fun _ _ _ => True := by
  intro l s i rest hholds hPs hcode hop hslots
  obtain ⟨rfl, hdenotes⟩ := hvalue _ hPs
  obtain ⟨slot, hslotmem, rfl⟩ := hT.slot_mem hslot
  obtain ⟨m, hstore⟩ : ∃ m,
      s.world.memory.store? v.datum (.place (T.place slot.id) 0) = some m :=
    ⟨_, Execution.Memory.store?_place (hholds.slots slot hslotmem).2 v.datum 0⟩
  have hstep : E.Steps s ⟨{ s.frame with code := rest }, s.callers, ⟨m, s.world.host⟩⟩ := by
    rw [Context.Steps, Context.step?_cons hcode, hop, Context.execute?,
      E.eval?_code, hdenotes.eval?, hholds.address? hT hslot, Option.bind_eq_bind,
      Option.bind_some, Option.bind_eq_bind, Option.bind_some, hstore]
    rfl
  exact .write ⟨_, .single hstep, hholds.write hT hslot htype rfl rfl rfl rfl rfl rfl hstore, rfl, rfl,
    ⟨rfl, fun _ _ => rfl⟩, trivial⟩

end Activation

/-! ## Inserting -/

namespace Lower

variable {f : FunctionId} {n c : Nat} {P : Execution.Frame → Prop} {x : Eval α} {b : Body} {o : Output}

theorem build_ok {step : Build β} {b b' : Body} {o o' : Output} {r : β}
    (h : (build step).run b o = .ok (r, b') o') : b' = b ∧ r = (step.run o.builder).1 ∧
      o' = { o with builder := (step.run o.builder).2 } := by
  cases h
  exact ⟨rfl, rfl, rfl⟩

/-- An instruction that is inserted runs as the evaluation says. -/
theorem insert_runs (hready : Ready K f c b o) {name : String} {op : Op} (hop : op.isAlloca = false)
    (hends : op.isTerminator = false) {Q : α → Value → Execution.Frame → Prop}
    (h : ∀ T : Activation η, T.Sound E F → T.types = K → T.Includes F b o →
      T.Executes E P x op fun a id fr => Q a (.result f id (op.resultType?.getD .ptr)) fr) :
    Runs E F K P x (build (Build.insert name op)) Q b o := by
  intro r b' o' hrun T hT hK hincl l s hhere hPs
  obtain ⟨rfl, rfl, rfl⟩ := build_ok hrun
  have hgrows := (IR.insert_adds hready.at_ name hop).1.proceeds.grows
  have hincl₀ : T.Includes F b' o := hincl.before (.of_grows b' ⟨.of_build o _, hgrows⟩)
  have hf := hincl.function.trans hready.function
  rw [hready.function]
  exact hhere.insert name hT hf hready.at_ hop hends hPs (h T hT hK hincl₀) (hf ▸ hincl.code hT)

/-- What a step of building gives is not used. -/
theorem Runs.discard {step : Build β} {Q : α → Execution.Frame → Prop}
    (h : Runs E F K P x (build step) (fun a _ => Q a) b o) :
    Runs E F K P x (build do let _ ← step) (fun a _ => Q a) b o := by
  intro r b' o' hrun
  obtain ⟨rfl, -, rfl⟩ := build_ok hrun
  exact h _ _ _ rfl

/-- Reading the body changes nothing. -/
theorem Runs.get {next : Body → Lower β} {Q : α → β → Execution.Frame → Prop}
    (h : Runs E F K P x (next b) Q b o) : Runs E F K P x (get >>= next) Q b o :=
  fun r b' o' hrun => h r b' o' hrun

/-! ### Values -/

/-- A step of building that is folded to a constant, or inserts an operation that gives a value. -/
theorem Simulates.of_value [CaseTags] {v? : Option Scalar} {step : Build Value} (name : String)
    (op : Op) (hadds : KeepsAdding f n step) (hop : op.isAlloca = false)
    (hends : op.isTerminator = false)
    (h : ∀ v, v? = some v → ∀ fr, P fr →
      (∃ const : Const, step = Pure.pure (.const const) ∧ (Value.const const).Denotes v fr) ∨
        step = Build.insert name op ∧ op.resultType? = some v.type.ty ∧
          ∀ code callers (world : Execution.World η) id,
            E.execute? { fr with code } callers world id op =
              some (.running { frame := { fr with code }.setResult id v.datum, callers, world })) :
    Simulates E F K f [] n P (Eval.ofOption v?) (build step) fun v value fr =>
      v? = some v ∧ value.Denotes v fr := by
  refine ⟨.of_adds (.build hadds) (.build step), ?_⟩
  intro b c o hready hn r b' o' hrun T hT hK hincl l s hhere hPs
  cases v? with
  | none => exact .undefined
  | some v =>
      rcases h v rfl s.frame hPs with ⟨const, rfl, hconst⟩ | ⟨rfl, htype, hexecute⟩
      · obtain ⟨rfl, rfl, rfl⟩ := build_ok hrun
        exact .pure ⟨hhere, .refl _ _, rfl, hconst⟩
      · refine insert_runs (P := fun fr => fr = s.frame)
          (Q := fun v' value fr => some v = some v' ∧ value.Denotes v' fr) hready hop hends
          (fun T hT _ _ => ?_) r b' o' hrun T hT hK hincl l s hhere rfl
        refine (Activation.Executes.of_result (d := Scalar.datum) hT ?_).mono ?_
        · rintro _ ⟨⟩ _ rfl
          exact hexecute
        · rintro _ id fr ⟨⟨⟩, hresult⟩
          exact ⟨rfl, by rw [htype]; rfl, hresult⟩

/-! ### Operations -/

/-- An operand that is an integer constant is this constant. -/
theorem const_of_datum? {const : Const} {fr : Execution.Frame} {w : Width} {i : Int}
    (h : (Value.const const).datum? fr = some (.int w i)) : const = .int w i := by
  cases const with
  | int _ _ =>
      cases h
      rfl
  | _ => cases h

/-- An operand that is an integer when it is used. -/
structure Holding (fr : Execution.Frame) (w : Width) (i : Int) (value : Value) : Prop where
  type : value.type = .int w
  datum : value.datum? fr = some (.int w i)

namespace Holding

variable {fr : Execution.Frame} {w : Width} {i : Int} {value : Value}

theorem isInt (h : Holding fr w i value) : value.isInt = true := by
  rw [Value.isInt, h.type]
  rfl

theorem eval? (h : Holding fr w i value) (code : List Instruction) :
    E.eval? { fr with code } value = some (.int w i) :=
  (E.eval?_code fr code value).trans (IR.Value.eval?_of_datum? h.datum)

theorem of_int {k : BitVec 32} (h : value.Denotes (.int k) fr) : Holding fr .w32 k.toInt value :=
  ⟨h.type, h.datum⟩

theorem of_bool {p : Bool} (h : value.Denotes (.bool p) fr) :
    Holding fr .w1 (if p then -1 else 0) value :=
  ⟨h.type, h.datum⟩

theorem const (fr : Execution.Frame) (w : Width) (i : Int) : Holding fr w i (.const (.int w i)) :=
  ⟨rfl, rfl⟩

end Holding

/-- An integer operation that is defined. -/
theorem Simulates.binary [CaseTags] {v? : Option Scalar} {op : IntOp} {lhs rhs : Value} (name : String)
    (h : ∀ v, v? = some v → ∀ fr, P fr → ∃ w i j k, Holding fr w i lhs ∧ Holding fr w j rhs ∧
      op.eval w i j = some k ∧ v.type.ty = .int w ∧ v.datum = .int w k) :
    Simulates E F K f [] n P (Eval.ofOption v?) (build (Build.binary op lhs rhs name))
      fun v value fr => v? = some v ∧ value.Denotes v fr := by
  refine .of_value name (.binary op lhs rhs) (.binary _ _ _ _) rfl rfl
    fun v hv fr hP => ?_
  obtain ⟨w, i, j, k, hl, hr, heval, htype, hdatum⟩ := h v hv fr hP
  rcases Build.binary_cases name op hl.isInt hr.isInt with ⟨a, b, c, rfl, rfl, hc, hstep⟩ | hstep
  · obtain rfl := const_of_datum? hl.datum
    obtain rfl := const_of_datum? hr.datum
    rw [Const.binary?, if_pos rfl, heval] at hc
    cases hc
    exact .inl ⟨_, hstep, htype.symm, hdatum ▸ rfl⟩
  · refine .inr ⟨hstep, by rw [htype]; exact congrArg some hl.type, fun code callers world id => ?_⟩
    simp [Context.execute?, hl.eval?, hr.eval?, Datum.binary?, heval, hdatum]

/-- A comparison of integers. -/
theorem Simulates.compare [CaseTags] {v? : Option Scalar} {p : Predicate} {lhs rhs : Value}
    (name : String) (h : ∀ v, v? = some v → ∀ fr, P fr → ∃ w i j, Holding fr w i lhs ∧
      Holding fr w j rhs ∧ v = .bool (p.eval i j)) :
    Simulates E F K f [] n P (Eval.ofOption v?) (build (Build.compare p lhs rhs name))
      fun v value fr => v? = some v ∧ value.Denotes v fr := by
  refine .of_value name (.compare p lhs rhs) (.compareOf _ _ _ _ _) rfl rfl
    fun v hv fr hP => ?_
  obtain ⟨w, i, j, hl, hr, rfl⟩ := h v hv fr hP
  rcases Build.compare_cases name p hl.isInt hr.isInt with ⟨a, b, c, rfl, rfl, hc, hstep⟩ | hstep
  · obtain rfl := const_of_datum? hl.datum
    obtain rfl := const_of_datum? hr.datum
    rw [Const.compare?, if_pos rfl] at hc
    cases hc
    exact .inl ⟨_, hstep, rfl, rfl⟩
  · refine .inr ⟨hstep, rfl, fun code callers world id => ?_⟩
    simp [Context.execute?, hl.eval?, hr.eval?, Datum.compare?, Scalar.datum]

/-- The complement of a truth value. -/
theorem Simulates.not [CaseTags] {v? : Option Scalar} {value : Value} (name : String)
    (h : ∀ v, v? = some v → ∀ fr, P fr → ∃ p, v = .bool !p ∧ value.Denotes (.bool p) fr) :
    Simulates E F K f [] n P (Eval.ofOption v?) (build (Build.not value name))
      fun v value fr => v? = some v ∧ value.Denotes v fr := by
  by_cases htype : value.type = .i1
  · have hnot : Build.not value name = Build.binary .xor value (.const (.int .w1 (-1))) name := by
      rw [Build.not, htype]
      rfl
    rw [hnot]
    refine .binary name fun v hv fr hP => ?_
    obtain ⟨p, rfl, hvalue⟩ := h v hv fr hP
    exact ⟨.w1, _, _, _, .of_bool hvalue, .const fr .w1 (-1), complement_truth p, rfl, rfl⟩
  · -- the operand is no truth value, so the evaluation cannot come here
    refine .of_value name (.widen value .i1) (.not _ _) rfl rfl
      fun v hv fr hP => ?_
    obtain ⟨p, -, hvalue⟩ := h v hv fr hP
    exact absurd hvalue.type htype

/-- A truth value becomes a number. -/
theorem Simulates.widen [CaseTags] {v? : Option Scalar} {value : Value} (hbelow : Below n value)
    (name : String)
    (h : ∀ v, v? = some v → ∀ fr, P fr → ∃ p, v = .int (Scalar.bool p).toInteger ∧
      value.Denotes (.bool p) fr) :
    Simulates E F K f [] n P (Eval.ofOption v?) (build (Build.widen value .i32 name))
      fun v value fr => v? = some v ∧ value.Denotes v fr := by
  refine .of_value name (.widen value .i32) (.widen hbelow _ _) rfl rfl
    fun v hv fr hP => ?_
  obtain ⟨p, rfl, hvalue⟩ := h v hv fr hP
  have hint := Holding.of_bool hvalue
  have hne : value.type ≠ .i32 := by
    rw [hint.type]
    decide
  rcases Build.widen_cases name hint.isInt rfl hne with ⟨a, c, rfl, hc, hstep⟩ | hstep
  · obtain rfl := const_of_datum? hint.datum
    cases hc
    exact .inl ⟨_, hstep, rfl, congrArg (fun k => some (Datum.int .w32 k)) (widen_truth p)⟩
  · have hwiden : Datum.widen? .i32 (.int .w1 (if p then -1 else 0)) =
        some (Scalar.int (Scalar.bool p).toInteger).datum :=
      congrArg (fun k => some (Datum.int .w32 k)) (widen_truth p)
    refine .inr ⟨hstep, rfl, fun code callers world id => ?_⟩
    simp [Context.execute?, hint.eval?, hwiden]

/-! ### Conversions -/

/-- Conversion changes nothing but the output. -/
theorem convert_keepsBody (ctx : LoweringContext) (value : Value) (source wanted : TypeId) :
    KeepsBody (convert ctx value source wanted) := by
  unfold Lower.convert
  split
  · exact .pure _
  · exact .build _
  · exact .pure _
  · refine (KeepsBody.lift _).bind fun struct => (KeepsBody.lift _).bind fun header => ?_
    refine (KeepsBody.lift _).bind fun record => KeepsBody.bind ?_ fun box =>
      (KeepsBody.build _).bind fun _ => .pure box
    refine .getOutput_bind fun o => (KeepsBody.build _).bind fun address => ?_
    split
    · exact .pure _
    · exact .lift _
  · exact .lift _

variable {ctx : LoweringContext} (hpool : ctx.pool.HasScalars)

include hpool

/-- A value is converted to the expected type. -/
theorem Simulates.convert [CaseTags] {v : Scalar} {value : Value} {σ : ScalarType}
    (hbelow : Below n value) (τ : ScalarType)
    (h : ∀ fr, P fr → v.type = σ ∧ value.Denotes v fr) :
    Simulates E F K f [] n P (Eval.ofOption (v.passTo τ)) (convert ctx value σ.id τ.id)
      fun v' value' fr => v.passTo τ = some v' ∧ value'.Denotes v' fr := by
  unfold Lower.convert
  rw [hpool.conversion?_id]
  by_cases heq : σ = τ
  · subst heq
    rw [if_pos rfl]
    refine .ofOption hbelow fun v' hv' fr hP => ?_
    obtain ⟨rfl, hvalue⟩ := h fr hP
    rw [v.passTo_self] at hv'
    cases hv'
    exact ⟨v.passTo_self, hvalue⟩
  rw [if_neg heq]
  cases τ with
  | integer =>
      rw [if_pos rfl]
      refine .widen hbelow "widen" fun v' hv' fr hP => ?_
      obtain ⟨rfl, hvalue⟩ := h fr hP
      cases v with
      | int _ => exact absurd rfl heq
      | bool p =>
          cases hv'
          exact ⟨p, rfl, hvalue⟩
  | boolean =>
      rw [if_neg (by decide)]
      exact .of_fails (by rintro _ _ _ _ _ ⟨⟩)

end Lower

end ClassLang
