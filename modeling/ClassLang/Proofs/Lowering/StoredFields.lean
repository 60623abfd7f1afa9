import ClassLang.Proofs.Lowering.PatternBindings
import ClassLang.Proofs.Lowering.RunningSteps

/-!
# Objects that are written and read

A case is stored as its tag, followed by its fields, and a closure as the address of its function,
followed by the values that it captured. What is constructed holds these values when it was written
(`Build.writeCase_fills`, `Lower.writeClosure_fills`). As long as it does, the tag tells the case, a
pattern binds its names to what the fields were given, and the body of a lambda reads the values that
were captured (`Lower.tagMatches_gives`, `Lower.bindPattern_gives`, `Emit.readField_gives`).
-/

namespace ClassLang

open Execution (Context Datum ObjectId)
open IR (Build Builder FunctionId Op StructId Structs Ty Value)
open IR.HasOperands (Below)

/-! ## Places of fields -/

namespace IR

namespace Extent

variable {fields : List Extent} {i j : Nat}

theorem le_roundUp (n : Nat) {align : Nat} (h : 0 < align) : n ≤ roundUp n align := by
  have hmod := Nat.mod_lt (n + align - 1) h
  have hdiv := Nat.div_add_mod' (n + align - 1) align
  rw [roundUp]
  omega

theorem stop_take_succ (hi : i < fields.length) :
    stop (fields.take (i + 1)) = fieldOffset fields i + fields[i].size := by
  rw [stop, List.take_add_one, List.getElem?_eq_getElem hi, Option.toList_some, List.foldl_append,
    fieldOffset, List.getElem?_eq_getElem hi]
  rfl

/-- The first field begins where the object does. -/
theorem fieldOffset_zero (fields : List Extent) : fieldOffset fields 0 = 0 := by
  rw [fieldOffset, List.take_zero]
  generalize (fields[0]?.map (·.align)).getD 1 = align
  cases align with
  | zero => rfl
  | succ n => simp [roundUp, stop, Nat.div_eq_of_lt (Nat.lt_succ_self n)]

/-- A field begins behind those before it. -/
theorem fieldOffset_lt (hfields : ∀ field ∈ fields, 0 < field.align ∧ 0 < field.size) (hij : i < j)
    (hj : j < fields.length) : fieldOffset fields i < fieldOffset fields j := by
  have hle (k : Nat) (hk : k < fields.length) : stop (fields.take k) ≤ fieldOffset fields k := by
    rw [fieldOffset, List.getElem?_eq_getElem hk]
    exact le_roundUp _ (hfields _ (List.getElem_mem hk)).1
  have hnext (k : Nat) (hk : k < fields.length) :
      fieldOffset fields k < stop (fields.take (k + 1)) := by
    rw [stop_take_succ hk]
    exact Nat.lt_add_of_pos_right (hfields _ (List.getElem_mem hk)).2
  induction j, hij using Nat.le_induction with
  | base => exact Nat.lt_of_lt_of_le (hnext i (Nat.lt_of_succ_lt hj)) (hle _ hj)
  | succ j hij ih =>
      have hlt := Nat.lt_of_succ_lt hj
      exact (ih hlt).trans (Nat.lt_of_lt_of_le (hnext j hlt) (hle _ hj))

end Extent

/-- The fields of a struct take room. -/
def Structs.Sized (structs : Structs) (id : StructId) : Prop :=
  ∀ t ∈ structs.fields id, 0 < (structs.extent t).align ∧ 0 < (structs.extent t).size

/-- Different fields stand in different places. -/
theorem Structs.Sized.offset_ne {structs : Structs} {id : StructId} {i j : Nat}
    (h : structs.Sized id) (hij : i < j) (hj : j < (structs.fields id).length) :
    structs.fieldOffset id i ≠ structs.fieldOffset id j :=
  Nat.ne_of_lt (Extent.fieldOffset_lt (List.forall_mem_map.mpr h) hij (by simpa using hj))

end IR

namespace Execution.Memory

variable {m m' m'' : Memory} {structs : Structs} {id : StructId} {object : ObjectId}
  {data : List Datum} {d : Datum}

/-- The first fields of the object hold these values. -/
def HoldsFields (m : Memory) (structs : Structs) (id : StructId) (object : ObjectId)
    (data : List Datum) : Prop :=
  ∀ k d, data[k]? = some d → ∀ type, m.load? type (.place object (structs.fieldOffset id k)) = some d

/-- The first fields of the object were given these values, and nothing else was stored. -/
structure Fills (m : Memory) (structs : Structs) (id : StructId) (object : ObjectId)
    (data : List Datum) (m' : Memory) : Prop where
  size : m'.objects.size = m.objects.size
  holds : m'.HoldsFields structs id object data
  others : ∀ other offset type, other ≠ object →
    m'.load? type (.place other offset) = m.load? type (.place other offset)

theorem Fills.refl (m : Memory) : m.Fills structs id object [] m :=
  ⟨rfl, nofun, fun _ _ _ _ => rfl⟩

/-- One more field is stored. -/
theorem Fills.store (h : m.Fills structs id object data m') (hsized : structs.Sized id)
    (hlt : data.length < (structs.fields id).length)
    (hstore : m'.store? d (.place object (structs.fieldOffset id data.length)) = some m'') :
    m.Fills structs id object (data ++ [d]) m'' := by
  refine ⟨(size_store? hstore).trans h.size, fun k e he type => ?_, fun other offset type hne => ?_⟩
  · rcases Nat.lt_or_ge k data.length with hk | hk
    · rw [List.getElem?_append_left hk] at he
      have hne := hsized.offset_ne hk hlt
      rw [load?_store?_of_ne type hstore fun heq => hne (Address.place.inj heq).2]
      exact h.holds k e he type
    · obtain ⟨hk', rfl⟩ := List.getElem?_eq_some_iff.mp he
      obtain rfl : k = data.length := by
        rw [List.length_append, List.length_singleton] at hk'
        omega
      simpa using load?_store?_self type hstore
  · rw [load?_store?_of_ne type hstore fun heq => hne (Address.place.inj heq).1]
    exact h.others other offset type hne

end Execution.Memory

/-! ## Code that goes straight on -/

variable {η : Type} {E : Context η} {f : FunctionId} {c : Nat} {b b' b'' : Builder}
  {fr fr' fr'' : Execution.Frame} {m m' m'' m₀ : Execution.Memory} {object : ObjectId} {d : Datum}
  {value : Value} {id : StructId} {index : Nat}

/-- In the frame the operand has this value, and the results that it refers to are there. -/
structure IR.Value.Gives (E : Context η) (f : FunctionId) (b : Builder) (fr : Execution.Frame)
    (value : Value) (d : Datum) : Prop where
  below : Below (b.next f) value
  eval : E.eval? fr value = some d

/-- The operand is the address of an object. -/
structure IR.Value.PointsTo (E : Context η) (f : FunctionId) (b : Builder) (fr : Execution.Frame)
    (value : Value) (object : ObjectId) : Prop
    extends value.Gives E f b fr (.address (.place object 0)) where
  isPtr : value.isPtr = true

/-- What was built is at the end of the block, and it takes the machine from a frame and a memory to
others, whatever code comes after it. -/
structure Performs (E : Context η) (f : FunctionId) (c : Nat) (b b' : Builder)
    (fr : Execution.Frame) (m : Execution.Memory) (fr' : Execution.Frame)
    (m' : Execution.Memory) : Prop where
  adds : b.Adds f c b'
  keeps : Execution.Frame.Keeps (b.next f) fr fr'
  code : ∃ added, ((b'.module.function f).block c).instructions =
      ((b.module.function f).block c).instructions ++ added ∧ ∀ rest callers host,
    E.Reaches ⟨{ fr with code := added ++ rest }, callers, ⟨m, host⟩⟩
      ⟨{ fr' with code := rest }, callers, ⟨m', host⟩⟩

namespace Performs

theorem refl (hat : b.At f c) (fr : Execution.Frame) (m : Execution.Memory) :
    Performs E f c b b fr m fr m :=
  ⟨.refl hat, .refl _ fr, [], (List.append_nil _).symm, fun _ _ _ => .refl _⟩

theorem trans (h : Performs E f c b b' fr m fr' m') (h' : Performs E f c b' b'' fr' m' fr'' m'') :
    Performs E f c b b'' fr m fr'' m'' := by
  obtain ⟨added, hcode, hreaches⟩ := h.code
  obtain ⟨added', hcode', hreaches'⟩ := h'.code
  refine ⟨h.adds.trans h'.adds, h.keeps.trans (h'.keeps.mono h.adds.next_le), added ++ added', ?_,
    fun rest callers host => ?_⟩
  · rw [hcode', hcode, List.append_assoc]
  · rw [List.append_assoc]
    exact (hreaches _ callers host).trans (hreaches' rest callers host)

/-- Operands keep their values. -/
theorem gives (h : Performs E f c b b' fr m fr' m') (hvalue : value.Gives E f b fr d) :
    value.Gives E f b' fr' d := by
  refine ⟨hvalue.below.mono h.adds.next_le, Eq.trans ?_ hvalue.eval⟩
  cases value with
  | const _ => rfl
  | param _ _ _ => simp only [Context.eval?, h.keeps.args]
  | result _ id _ => exact h.keeps.results id hvalue.below

theorem pointsTo (h : Performs E f c b b' fr m fr' m') (hvalue : value.PointsTo E f b fr object) :
    value.PointsTo E f b' fr' object :=
  ⟨h.gives hvalue.toGives, hvalue.isPtr⟩

/-- Structs keep their fields. -/
theorem lt_fields (h : Performs E f c b b' fr m fr' m')
    (hindex : index < (b.module.structs.fields id).length) :
    index < (b'.module.structs.fields id).length := by
  have hfields (structs : Structs) : structs.fields id = (structs.body? id).getD [] := rfl
  rw [hfields] at hindex ⊢
  cases hbody : b.module.structs.body? id with
  | none =>
      rw [hbody] at hindex
      exact absurd hindex (Nat.not_lt_zero _)
  | some fields => rwa [h.adds.proceeds.grows.structs id fields hbody, ← hbody]

end Performs

/-- The operation takes the machine from a frame and a memory to others. -/
def Execution.Context.Executes (E : Context η) (n : Nat) (op : Op) (fr : Execution.Frame)
    (m : Execution.Memory) (fr' : Execution.Frame) (m' : Execution.Memory) : Prop :=
  ∀ rest callers host, E.execute? { fr with code := rest } callers ⟨m, host⟩ n op =
    some (.running ⟨{ fr' with code := rest }, callers, ⟨m', host⟩⟩)

namespace IR.Build

/-- An instruction is inserted. -/
theorem insert_performs (hat : b.At f c) (name : String) {op : Op} (hop : op.isAlloca = false)
    (hkeeps : Execution.Frame.Keeps (b.next f) fr fr') (h : E.Executes (b.next f) op fr m fr' m') :
    let r := (insert name op).run b
    Performs E f c b r.2 fr m fr' m' ∧ r.1 = .result f (b.next f) (op.resultType?.getD .ptr) ∧
      b.next f < r.2.next f := by
  intro r
  obtain ⟨hadds, i, rfl, hid, hresult, hinserts⟩ := insert_adds hat name hop
  refine ⟨⟨hadds, hkeeps, [i], hinserts.self, fun rest callers host => .single ?_⟩,
    hresult.trans (by rw [hid]; rfl), ?_⟩
  · rw [Context.Steps, Context.step?_cons rfl, hid]
    exact h rest callers host
  · rw [Builder.next, Builder.next, hinserts.next]
    exact Nat.lt_succ_self _

/-- An instruction is inserted that gives a value and leaves the memory alone. -/
theorem insert_gives (hat : b.At f c) (name : String) {op : Op} (hop : op.isAlloca = false)
    (h : E.Executes (b.next f) op fr m (fr.setResult (b.next f) d) m) :
    let r := (insert name op).run b
    ∃ fr', Performs E f c b r.2 fr m fr' m ∧ r.1.Gives E f r.2 fr' d ∧
      ∃ i, r.1 = .result f i (op.resultType?.getD .ptr) := by
  intro r
  obtain ⟨hperforms, hresult, hlt⟩ := insert_performs hat name hop
    (Activation.keeps_setResult fr (b.next f) d fr.code) h
  refine ⟨_, hperforms, ?_, _, hresult⟩
  rw [hresult]
  exact ⟨hlt, Activation.setResult_self _ _ _⟩

/-- The address of a field. -/
theorem structField_gives (hat : b.At f c) (hindex : index < (b.module.structs.fields id).length)
    (hvalue : value.PointsTo E f b fr object) (name : String) (m : Execution.Memory) :
    let r := (structField (.struct id) value index name).run b
    ∃ fr', Performs E f c b r.2 fr m fr' m ∧ r.1.isPtr = true ∧
      r.1.Gives E f r.2 fr' (.address (.place object (E.module.structs.fieldOffset id index))) := by
  intro r
  have hrun : r = (if value.isPtr && index < (b.module.structs.fields id).length then _ else _ :
      Build Value).run b := rfl
  rw [if_pos (by simp [hvalue.isPtr, hindex])] at hrun
  have hexecutes : E.Executes (b.next f) (.field id value index) fr m (fr.setResult (b.next f)
      (.address (.place object (E.module.structs.fieldOffset id index)))) m := by
    intro rest callers host
    simp [Context.execute?, Context.address?, E.eval?_code, hvalue.eval, Datum.toAddress?,
      Execution.Address.shift?, Execution.Frame.setResult]
  cases value with
  | const k =>
      -- the address is folded, and that of the first field is the address of the object
      have hk : Datum.ofConst? E.module.structs k = some (.address (.place object 0)) := hvalue.eval
      rw [hrun]
      refine ⟨fr, .refl hat fr m, ?_, trivial, ?_⟩
      · show (Value.const (IR.Const.field id k index)).isPtr = true
        unfold IR.Const.field
        split
        · exact hvalue.isPtr
        · rfl
      · show Datum.ofConst? _ (IR.Const.field id k index) = _
        unfold IR.Const.field
        split
        · next h => rw [hk, h, Structs.fieldOffset, Extent.fieldOffset_zero]
        · simp [Datum.ofConst?, hk, Execution.Address.shift?]
  | _ =>
      obtain ⟨fr', hperforms, hgives, i, hi⟩ := insert_gives hat name rfl hexecutes
      rw [hrun]
      exact ⟨fr', hperforms, by rw [hi]; rfl, hgives⟩

/-- A field is read. -/
theorem loadField_gives (hat : b.At f c) (hindex : index < (b.module.structs.fields id).length)
    (hvalue : value.PointsTo E f b fr object) (name name' : String) (type : Ty)
    (hdata : m.load? type (.place object (E.module.structs.fieldOffset id index)) = some d) :
    let r := (do
      let slot ← structField (.struct id) value index name
      load type slot name' : Build Value).run b
    ∃ fr', Performs E f c b r.2 fr m fr' m ∧ r.1.Gives E f r.2 fr' d ∧
      ∃ i, r.1 = .result f i type := by
  intro r
  obtain ⟨fr₁, hfield, hptr, hslot⟩ := structField_gives hat hindex hvalue name m
  let slot := (structField (.struct id) value index name).run b
  have hrun : r = (load type slot.1 name').run slot.2 := rfl
  rw [load, if_pos hptr] at hrun
  have hexecutes : E.Executes (slot.2.next f) (.load type slot.1) fr₁ m
      (fr₁.setResult (slot.2.next f) d) m := fun rest callers host => by
    simp [Context.execute?, Context.address?, E.eval?_code, slot, hslot.eval, Datum.toAddress?, hdata,
      Execution.Frame.setResult]
  obtain ⟨fr', hload, hgives, i, hi⟩ := insert_gives hfield.adds.at_ name' rfl hexecutes
  rw [hrun]
  exact ⟨fr', hfield.trans hload, hgives, i, hi⟩

/-- A field is written. -/
theorem storeField_performs (hat : b.At f c) (hindex : index < (b.module.structs.fields id).length)
    (hobject : value.PointsTo E f b fr object) (hlt : object < m.objects.size) (name : String)
    {stored : Value} (hstored : stored.Gives E f b fr d) :
    let r := (do
      let slot ← structField (.struct id) value index name
      store stored slot : Build Unit).run b
    ∃ fr' m', Performs E f c b r.2 fr m fr' m' ∧
      m.store? d (.place object (E.module.structs.fieldOffset id index)) = some m' := by
  intro r
  obtain ⟨fr₁, hfield, hptr, hslot⟩ := structField_gives hat hindex hobject name m
  let slot := (structField (.struct id) value index name).run b
  have hrun : r = (store stored slot.1).run slot.2 := rfl
  rw [store, if_pos hptr] at hrun
  obtain ⟨m', hstore⟩ : ∃ m', m.store? d
      (.place object (E.module.structs.fieldOffset id index)) = some m' :=
    ⟨_, Execution.Memory.store?_place hlt d _⟩
  have hexecutes : E.Executes (slot.2.next f) (.store stored slot.1) fr₁ m fr₁ m' :=
    fun rest callers host => by
      simp [Context.execute?, Context.address?, E.eval?_code, slot, hslot.eval,
        (hfield.gives hstored).eval, Datum.toAddress?, hstore]
  obtain ⟨hstored, -⟩ := insert_performs hfield.adds.at_ "" rfl (.refl _ fr₁) hexecutes
  rw [hrun]
  exact ⟨fr₁, m', hfield.trans hstored, hstore⟩

/-- The next field of an object is given its value. -/
theorem storeField_fills (hat : b.At f c) (hobject : value.PointsTo E f b fr object)
    (hlt : object < m₀.objects.size) (hsized : E.module.structs.Sized id)
    (hE : index < (E.module.structs.fields id).length)
    (hindex : index < (b.module.structs.fields id).length) (name : String)
    {stored : Value} (hstored : stored.Gives E f b fr d) (hdata : data.length = index)
    (hfills : m₀.Fills E.module.structs id object data m) :
    let r := (do
      let slot ← structField (.struct id) value index name
      store stored slot : Build Unit).run b
    ∃ fr' m', Performs E f c b r.2 fr m fr' m' ∧
      m₀.Fills E.module.structs id object (data ++ [d]) m' := by
  intro r
  obtain ⟨fr', m', hperforms, hstore⟩ :=
    storeField_performs hat hindex hobject (by rwa [hfills.size]) name hstored
  subst hdata
  exact ⟨fr', m', hperforms, hfills.store hsized hE hstore⟩

end IR.Build

/-! ## Fields of a case -/

variable {ctx : LoweringContext} {o o' : Output} {data : List Datum} {t u : TypeId}

namespace Emit

/-- A struct that was made is found. -/
theorem layout_eq {struct : Ty} (hu : ctx.pool.resolveStrict t = .ok u)
    (hstruct : o.layouts.lookup u = some struct) : layout ctx t o = .ok struct o := by
  have hresolve : resolve ctx t o = .ok u o := by
    rw [resolve, hu]
    rfl
  refine bind_eq_ok.mpr ⟨u, o, hresolve, bind_eq_ok.mpr ⟨o, o, rfl, ?_⟩⟩
  rw [hstruct]
  rfl

/-- A field is read. -/
theorem readField_gives (hat : o.builder.At f c) (hvalue : value.PointsTo E f o.builder fr object)
    (hindex : index + 1 < (o.builder.module.structs.fields id).length)
    (hholds : m.HoldsFields E.module.structs id object data) (hdata : data[index + 1]? = some d)
    {name : String} {v : Value} (h : readField ctx (.struct id) value index name t o = .ok v o') :
    ∃ fr', Performs E f c o.builder o'.builder fr m fr' m ∧ v.Gives E f o'.builder fr' d := by
  obtain ⟨type, o₁, htype, hload⟩ := bind_eq_ok.mp h
  obtain rfl := valueType_reads _ _ _ _ htype
  obtain ⟨fr', hperforms, hgives, -⟩ := Build.loadField_gives hat hindex hvalue (name ++ ".ptr") name
    type (hholds _ d hdata type)
  cases hload
  exact ⟨fr', hperforms, hgives⟩

/-- The fields are read from a position on. -/
theorem readFieldsFrom_gives {fields : List (String × String × TypeId)} {first : Nat}
    (hat : o.builder.At f c) (hvalue : value.PointsTo E f o.builder fr object)
    (hfields : first + fields.length < (o.builder.module.structs.fields id).length)
    (hholds : m.HoldsFields E.module.structs id object data)
    (hdata : first + fields.length < data.length) {loaded : List Value}
    (h : (fields.zipIdx first).mapM (fun field =>
      readField ctx (.struct id) value field.2 field.1.1 field.1.2.2) o = .ok loaded o') :
    ∃ fr', Performs E f c o.builder o'.builder fr m fr' m ∧
      List.Forall₂ (fun v d => v.Gives E f o'.builder fr' d) loaded
        ((data.drop (first + 1)).take fields.length) := by
  induction fields generalizing first o fr loaded with
  | nil =>
      cases h
      exact ⟨fr, .refl hat fr m, by simp⟩
  | cons field fields ih =>
      rw [List.length_cons] at hfields hdata
      rw [List.zipIdx_cons, List.mapM_cons] at h
      obtain ⟨v, o₁, hfirst, hrest⟩ := bind_eq_ok.mp h
      obtain ⟨vs, o₂, hothers, hdone⟩ := bind_eq_ok.mp hrest
      cases hdone
      have hlt : first + 1 < data.length := by omega
      obtain ⟨fr₁, hread, hgives⟩ := readField_gives hat hvalue (by omega) hholds
        (List.getElem?_eq_getElem hlt) hfirst
      obtain ⟨fr', hreads, hall⟩ := ih hread.adds.at_ (hread.pointsTo hvalue)
        (by rw [Nat.add_assoc, Nat.add_comm 1]; exact hread.lt_fields hfields)
        (by omega) hothers
      refine ⟨fr', hread.trans hreads, ?_⟩
      rw [List.drop_eq_getElem_cons hlt, List.length_cons, List.take_succ_cons]
      exact .cons (hreads.gives hgives) hall

end Emit

namespace Lower

variable {body body' : Body}

/-- A pattern binds its names to the matched value and to what its fields hold. -/
theorem bindPattern_gives (hu : ctx.pool.resolveStrict t = .ok u)
    (hstruct : o.layouts.lookup u = some (.struct id)) (hat : o.builder.At f c)
    (hvalue : value.PointsTo E f o.builder fr object)
    (hcase : (ctx.pool.caseFields t).length < (o.builder.module.structs.fields id).length)
    (hholds : m.HoldsFields E.module.structs id object data)
    (hdata : (ctx.pool.caseFields t).length < data.length) {binder : Option String}
    {fields : List String} (hlength : fields = [] ∨ fields.length = (ctx.pool.caseFields t).length)
    (h : (bindPattern ctx value t false binder fields).run body o = .ok ((), body') o') :
    ∃ loaded fr', body' = { body with scope := ((PatternPart.lowered binder fields).map
        fun (name, part) => (name, .fixed (part.value (value, loaded)))) ++ body.scope } ∧
      Performs E f c o.builder o'.builder fr m fr' m ∧
      List.Forall₂ (fun v d => v.Gives E f o'.builder fr' d) loaded
        (data.tail.take fields.length) := by
  obtain ⟨⟨_, loaded⟩, hparts, -, hbody⟩ := bindPattern_ok ctx (by simp) (fun _ => hlength) h
  unfold readParts at hparts
  rw [if_neg (by simp)] at hparts
  split at hparts
  · next hnil =>
      cases hparts
      obtain rfl : fields = [] := by simpa using hnil
      exact ⟨[], fr, hbody, .refl hat fr m, by simp⟩
  · next hne =>
      obtain ⟨vs, _, o₁, hlift, hdone⟩ := bind_ok hparts
      cases hdone
      obtain ⟨-, hread⟩ := lift_ok hlift
      obtain ⟨parts, o₂, hparts, hrest⟩ := bind_eq_ok.mp hread
      obtain ⟨rfl, hfields⟩ := Emit.caseParts_ok hparts
      obtain ⟨struct, o₃, hlayout, hloop⟩ := bind_eq_ok.mp hrest
      rw [Emit.layout_eq hu hstruct] at hlayout
      cases hlayout
      have hall := hlength.resolve_left (by simpa using hne)
      have hzip : (fields.zip parts.fields).length = fields.length := by
        rw [List.length_zip, hfields, hall, Nat.min_self]
      obtain ⟨fr', hperforms, hgives⟩ := Emit.readFieldsFrom_gives hat hvalue
        (by rwa [hzip, hall, Nat.zero_add]) hholds (by rwa [hzip, hall, Nat.zero_add]) hloop
      rw [hzip, List.drop_one] at hgives
      exact ⟨loaded, fr', hbody, hperforms, hgives⟩

/-- The tag of a value is compared with that of a case. -/
theorem tagMatches_gives (hat : o.builder.At f c) {tag found : Value} {n : Int}
    (htag : tag.Gives E f o.builder fr (.int .w32 n)) {i : Nat} (hresult : tag = .result f i .i32)
    (m : Execution.Memory) (h : (tagMatches ctx tag t).run body o = .ok (found, body') o') :
    ∃ parts fr', Emit.caseParts ctx t o = .ok parts o ∧
      Performs E f c o.builder o'.builder fr m fr' m ∧
      found.Gives E f o'.builder fr' (.ofBool (n == parts.tag)) := by
  obtain ⟨parts, _, o₁, hlift, hbuild⟩ := bind_ok h
  obtain ⟨rfl, hparts⟩ := lift_ok hlift
  obtain ⟨rfl, -⟩ := Emit.caseParts_ok hparts
  obtain ⟨-, rfl, rfl⟩ := build_ok hbuild
  subst hresult
  have htag' : E.eval? fr (.const (.int .w32 parts.tag)) = some (.int .w32 parts.tag) := rfl
  have hexecutes : E.Executes (o₁.builder.next f) (.compare .eq (.result f i .i32)
      (.const (.int .w32 parts.tag))) fr m (fr.setResult (o₁.builder.next f)
        (.ofBool (n == parts.tag))) m := fun rest callers host => by
    simp [Context.execute?, E.eval?_code, htag.eval, htag', Datum.compare?, IR.Predicate.eval,
      Execution.Frame.setResult]
  obtain ⟨fr', hperforms, hgives, -⟩ :=
    IR.Build.insert_gives hat ("is." ++ parts.shortName) rfl hexecutes
  exact ⟨parts, fr', hparts, hperforms, hgives⟩

end Lower

/-! ## Writing cases and closures -/

/-- A case is written: its tag, then its fields. -/
def IR.Build.writeCase (struct envelopeStruct : Ty) (object : Value) (tag : Nat)
    (fields : List (Value × String × TypeId)) : Build Unit := do
  let envelope ← Build.structField struct object 0 "envelope"
  let tagSlot ← Build.structField envelopeStruct envelope 0 "tag.ptr"
  Build.store (.const (.int .w32 tag)) tagSlot
  fields.zipIdx.forM fun ((value, (field, _)), index) => do
    let slot ← Build.structField struct object (index + 1) (field ++ ".ptr")
    Build.store value slot

theorem Lower.constructCase_eq {lower : NodeId → Lower (Option Value)} {sig : Signature}
    {args : List NodeId} {onStack : Bool} : constructCase ctx lower t sig args onStack = (do
      let parts ← Emit.caseParts ctx t
      let values ← lowerArgs ctx lower sig args
      let struct ← Emit.layout ctx t
      let envelopeStruct ← Emit.dataLayout ctx parts.owner
      let object ← allocate struct onStack "case"
      build (Build.writeCase struct envelopeStruct object parts.tag (values.zip parts.fields))
      pure object) :=
  rfl

namespace IR.Build

/-- The fields of a case are written from a position on. -/
theorem storeFieldsFrom_fills {fields : List (Value × String × TypeId)} {first : Nat}
    {ds : List Datum} (hat : b.At f c) (hobject : value.PointsTo E f b fr object)
    (hlt : object < m₀.objects.size) (hsized : E.module.structs.Sized id)
    (hE : first + fields.length < (E.module.structs.fields id).length)
    (hfields : first + fields.length < (b.module.structs.fields id).length)
    (hstored : List.Forall₂ (fun field d => field.1.Gives E f b fr d) fields ds)
    (hdata : data.length = first + 1) (hfills : m₀.Fills E.module.structs id object data m) :
    ∃ fr' m', Performs E f c b ((((fields.zipIdx first).forM fun field => do
        let slot ← structField (.struct id) value (field.2 + 1) (field.1.2.1 ++ ".ptr")
        store field.1.1 slot : Build Unit)).run b).2 fr m fr' m' ∧
      m₀.Fills E.module.structs id object (data ++ ds) m' := by
  induction fields generalizing first b fr m data ds with
  | nil =>
      cases hstored
      exact ⟨fr, m, .refl hat fr m, by rwa [List.append_nil]⟩
  | cons field fields ih =>
      obtain ⟨d, ds, hfirst, hrest, rfl⟩ := List.forall₂_cons_left_iff.mp hstored
      rw [List.length_cons, ← Nat.add_assoc, Nat.add_right_comm] at hE hfields
      obtain ⟨fr₁, m₁, hperforms, hfills₁⟩ := storeField_fills hat hobject hlt hsized
        (Nat.lt_of_le_of_lt (Nat.le_add_right _ _) hE)
        (Nat.lt_of_le_of_lt (Nat.le_add_right _ _) hfields) (field.2.1 ++ ".ptr") hfirst
        hdata hfills
      obtain ⟨fr', m', hperforms', hfills'⟩ := ih hperforms.adds.at_ (hperforms.pointsTo hobject) hE
        (hperforms.lt_fields hfields) (hrest.imp fun _ _ h => hperforms.gives h)
        (by rw [List.length_append, hdata]; rfl) hfills₁
      exact ⟨fr', m', hperforms.trans hperforms', by rwa [List.append_assoc] at hfills'⟩

/-- A case that was written holds its tag and the values of its fields. -/
theorem writeCase_fills {fields : List (Value × String × TypeId)} {ds : List Datum}
    {envelope : StructId} (hat : b.At f c) (hobject : value.PointsTo E f b fr object)
    (hlt : object < m.objects.size) (hsized : E.module.structs.Sized id)
    (hE : fields.length < (E.module.structs.fields id).length)
    (hfields : fields.length < (b.module.structs.fields id).length)
    (henvelope : 0 < (b.module.structs.fields envelope).length)
    (hstored : List.Forall₂ (fun field d => field.1.Gives E f b fr d) fields ds) (tag : Nat) :
    let r := (writeCase (.struct id) (.struct envelope) value tag fields).run b
    ∃ fr' m', Performs E f c b r.2 fr m fr' m' ∧
      m.Fills E.module.structs id object (.int .w32 tag :: ds) m' := by
  intro r
  have hzero (id : StructId) : E.module.structs.fieldOffset id 0 = 0 := Extent.fieldOffset_zero _
  obtain ⟨fr₁, hfirst, hptr, hgives⟩ := structField_gives hat (Nat.zero_lt_of_lt hfields) hobject
    "envelope" m
  rw [hzero] at hgives
  have hconst (b : Builder) : (Value.const (.int .w32 tag)).Gives E f b fr₁ (.int .w32 tag) :=
    ⟨trivial, rfl⟩
  obtain ⟨fr₂, m₂, htag, hstore⟩ := storeField_performs hfirst.adds.at_ (hfirst.lt_fields henvelope)
    ⟨hgives, hptr⟩ hlt "tag.ptr" (hconst _)
  rw [hzero, ← hzero id] at hstore
  have hbegun := hfirst.trans htag
  have hfills : m.Fills E.module.structs id object [.int .w32 tag] m₂ :=
    (Execution.Memory.Fills.refl m).store hsized (Nat.zero_lt_of_lt hE) hstore
  obtain ⟨fr', m', hwrites, hfills'⟩ := storeFieldsFrom_fills hbegun.adds.at_
    (hbegun.pointsTo hobject) hlt hsized
    (show 0 + fields.length < _ by rwa [Nat.zero_add])
    (by rw [Nat.zero_add]; exact hbegun.lt_fields hfields)
    (hstored.imp fun _ _ h => hbegun.gives h) rfl hfills
  exact ⟨fr', m', hbegun.trans hwrites, hfills'⟩

end IR.Build

/-! ## Writing closures -/

/-- In the frame the local has this value, and its slot is not in the object. -/
def Storage.Holds (E : Context η) (f : FunctionId) (b : Builder) (fr : Execution.Frame)
    (m : Execution.Memory) (object : ObjectId) (d : Datum) : Storage → Prop
  | .fixed value => value.Gives E f b fr d
  | .slot address type => address.isPtr = true ∧ ∃ other offset, other ≠ object ∧
      address.Gives E f b fr (.address (.place other offset)) ∧
      m.load? type (.place other offset) = some d

theorem Performs.holds {storage : Storage} (h : Performs E f c b b' fr m fr' m')
    (hholds : storage.Holds E f b fr m₀ object d) : storage.Holds E f b' fr' m₀ object d := by
  cases storage with
  | fixed value => exact h.gives hholds
  | slot address type =>
      obtain ⟨hptr, other, offset, hne, hgives, hload⟩ := hholds
      exact ⟨hptr, other, offset, hne, h.gives hgives, hload⟩

namespace Lower

/-- A closure is written: the address of its function, then a copy of every captured local. -/
def writeClosure (struct : Ty) (function : FunctionId) (object : Value) (captures : List String) :
    Lower Value := do
  build do
    let slot ← Build.structField struct object 0 "fn.ptr"
    Build.store (.const (.functionAddr function)) slot
  captures.zipIdx.forM fun (name, index) => do
    let value ← loadLocal name
    build do
      let slot ← Build.structField struct object (index + 1) (name ++ ".ptr")
      Build.store value slot
  pure object

theorem lowerLambda_eq {lower : NodeId → Lower (Option Value)} {node : NodeId} {params : List NodeId}
    {captures : List String} {root : NodeId} : lowerLambda ctx lower node params captures root = (do
      let t ← typeOf ctx node
      match ctx.pool.view t with
      | .closure paramTypes result captureTypes =>
        let struct ← Emit.layout ctx t
        let type ← Emit.closureFnType ctx paramTypes result
        let name ← nextLambdaName
        let function ← build (Build.declareFunction name type)
        let saved := (← getThe Output).builder.position
        let inner ← start ctx function (← get).walk none name result
        let _ ← (lambdaBody ctx lower struct (params.zip paramTypes) (captures.zip captureTypes)
          root).run inner
        build (Build.restore saved)
        let object ← allocate struct false "closure"
        writeClosure struct function object captures
      | _ => broken "lambda is not typed as a closure") :=
  rfl

/-- The value of a local is read. -/
theorem loadLocal_gives {name : String} {storage : Storage} {body body' : Body}
    {v : Value} (hat : o.builder.At f c) (hlookup : body.scope.lookup name = some storage)
    (hholds : storage.Holds E f o.builder fr m₀ object d)
    (hfills : m₀.Fills E.module.structs id object data m)
    (h : (loadLocal name).run body o = .ok (v, body') o') :
    body' = body ∧ ∃ fr', Performs E f c o.builder o'.builder fr m fr' m ∧
      v.Gives E f o'.builder fr' d := by
  obtain ⟨_, _, _, hget, hrest⟩ := bind_ok h
  cases hget
  rw [hlookup] at hrest
  cases storage with
  | fixed value =>
      cases hrest
      exact ⟨rfl, fr, .refl hat fr m, hholds⟩
  | slot address type =>
      obtain ⟨hptr, other, offset, hne, hgives, hload⟩ := hholds
      obtain ⟨rfl, rfl, rfl⟩ := build_ok hrest
      have hexecutes : E.Executes (o.builder.next f) (.load type address) fr m
          (fr.setResult (o.builder.next f) d) m := fun rest callers host => by
        simp [Context.execute?, Context.address?, E.eval?_code, hgives.eval, Datum.toAddress?,
          hfills.others other offset type hne, hload, Execution.Frame.setResult]
      obtain ⟨fr', hperforms, hv, -⟩ := IR.Build.insert_gives hat name rfl hexecutes
      rw [Build.load, if_pos hptr]
      exact ⟨rfl, fr', hperforms, hv⟩

/-- The captured locals are copied to the fields from a position on. -/
theorem copyLocalsFrom_fills {captures : List String} {first : Nat} {ds : List Datum}
    {body body' : Body} (hat : o.builder.At f c) (hobject : value.PointsTo E f o.builder fr object)
    (hlt : object < m₀.objects.size) (hsized : E.module.structs.Sized id)
    (hE : first + captures.length < (E.module.structs.fields id).length)
    (hfields : first + captures.length < (o.builder.module.structs.fields id).length)
    (hlocals : List.Forall₂ (fun name d => ∃ storage, body.scope.lookup name = some storage ∧
      storage.Holds E f o.builder fr m₀ object d) captures ds)
    (hdata : data.length = first + 1) (hfills : m₀.Fills E.module.structs id object data m)
    (h : ((captures.zipIdx first).forM fun capture => (do
        let v ← loadLocal capture.1
        build do
          let slot ← Build.structField (.struct id) value (capture.2 + 1) (capture.1 ++ ".ptr")
          Build.store v slot : Lower Unit)).run body o = .ok ((), body') o') :
    body' = body ∧ ∃ fr' m', Performs E f c o.builder o'.builder fr m fr' m' ∧
      m₀.Fills E.module.structs id object (data ++ ds) m' := by
  induction captures generalizing first o fr m data ds with
  | nil =>
      cases hlocals
      cases h
      exact ⟨rfl, fr, m, .refl hat fr m, by rwa [List.append_nil]⟩
  | cons name captures ih =>
      obtain ⟨d, ds, ⟨storage, hlookup, hholds⟩, hrest, rfl⟩ := List.forall₂_cons_left_iff.mp hlocals
      rw [List.length_cons, ← Nat.add_assoc, Nat.add_right_comm] at hE hfields
      obtain ⟨_, _, o₂, hcopy, hothers⟩ := bind_ok h
      obtain ⟨v, _, o₁, hload, hstore⟩ := bind_ok hcopy
      obtain ⟨rfl, fr₁, hread, hv⟩ := loadLocal_gives hat hlookup hholds hfills hload
      obtain ⟨rfl, -, ho⟩ := build_ok hstore
      obtain ⟨fr₂, m₁, hwrite, hfills₁⟩ := IR.Build.storeField_fills hread.adds.at_
        (hread.pointsTo hobject) hlt hsized (Nat.lt_of_le_of_lt (Nat.le_add_right _ _) hE)
        (hread.lt_fields (Nat.lt_of_le_of_lt (Nat.le_add_right _ _) hfields)) (name ++ ".ptr") hv
        hdata hfills
      have hcopied : Performs E f c o.builder o₂.builder fr m fr₂ m₁ := by
        rw [ho]
        exact hread.trans hwrite
      obtain ⟨rfl, fr', m', hcopies, hfills'⟩ := ih hcopied.adds.at_ (hcopied.pointsTo hobject) hE
        (hcopied.lt_fields hfields)
        (hrest.imp fun _ _ ⟨storage, hlookup, hholds⟩ => ⟨storage, hlookup, hcopied.holds hholds⟩)
        (by rw [List.length_append, hdata]; rfl) hfills₁ hothers
      exact ⟨rfl, fr', m', hcopied.trans hcopies, by rwa [List.append_assoc] at hfills'⟩

/-- A closure that was written holds the address of its function and the values of the locals. -/
theorem writeClosure_fills {captures : List String} {ds : List Datum} {function : FunctionId}
    {v : Value} {body body' : Body} (hat : o.builder.At f c)
    (hobject : value.PointsTo E f o.builder fr object)
    (hlt : object < m.objects.size) (hsized : E.module.structs.Sized id)
    (hE : captures.length < (E.module.structs.fields id).length)
    (hfields : captures.length < (o.builder.module.structs.fields id).length)
    (hlocals : List.Forall₂ (fun name d => ∃ storage, body.scope.lookup name = some storage ∧
      storage.Holds E f o.builder fr m object d) captures ds)
    (h : (writeClosure (.struct id) function value captures).run body o = .ok (v, body') o') :
    ∃ fr' m', Performs E f c o.builder o'.builder fr m fr' m' ∧
      m.Fills E.module.structs id object (.address (.code function) :: ds) m' := by
  obtain ⟨_, _, o₁, hfirst, hrest⟩ := bind_ok h
  obtain ⟨_, _, o₂, hcaptures, hdone⟩ := bind_ok hrest
  cases hdone
  obtain ⟨rfl, -, ho⟩ := build_ok hfirst
  obtain ⟨fr₁, m₁, hwrite, hfills⟩ := IR.Build.storeField_fills hat hobject hlt hsized
    (Nat.zero_lt_of_lt hE) (Nat.zero_lt_of_lt hfields) "fn.ptr" (d := .address (.code function))
    (show (Value.const (.functionAddr function)).Gives .. from ⟨trivial, rfl⟩) rfl (.refl m)
  have hperforms : Performs E f c o.builder o₁.builder fr m fr₁ m₁ := by
    rw [ho]
    exact hwrite
  have hlt_fields := hperforms.lt_fields hfields
  rw [← Nat.zero_add captures.length] at hE hlt_fields
  obtain ⟨-, fr', m', hcopies, hfills'⟩ := copyLocalsFrom_fills hperforms.adds.at_
    (hperforms.pointsTo hobject) hlt hsized hE hlt_fields
    (hlocals.imp fun _ _ ⟨storage, hlookup, hholds⟩ => ⟨storage, hlookup, hperforms.holds hholds⟩) rfl
    hfills hcaptures
  exact ⟨fr', m', hperforms.trans hcopies, hfills'⟩

end Lower

end ClassLang
