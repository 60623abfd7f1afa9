import ClassLang.Proofs.Discipline
import ClassLang.Proofs.Lowering.Growth
import ClassLang.Proofs.Pool.Layouts
import ClassLang.Proofs.Pool.StrictResolution

/-!
# What is made once

Structs of types, closures and boxes, records of texts and types and the constants of cases without
fields are made when they are first asked for, and remembered under their keys: positions of resolved
types, or texts. A request may bring about further ones on its way.

`Output.Consistent` says of an output what the requests so far have led to: each remembered struct has
a body with the fields of its key, each remembered record is a constant, and different keys have
different handles. `Request.answers` says what one request does to a consistent output.
-/

namespace ClassLang

open IR (Build Builder StructId Ty Value)

/-! ## Types of values -/

namespace TypeData

/-- The type of values in generated code. There is none for variables and `Void`. -/
def valueType? : TypeData → Option Ty
  | integer => some .i32
  | boolean => some .i1
  | char => some .i8
  | void | var _ | derived .. => none
  | _ => some .ptr

/-- An entry that has values keeps their type. -/
theorem Becomes.valueType? {d d' : TypeData} {type : Ty} (h : d.Becomes d')
    (htype : d.valueType? = some type) : d'.valueType? = some type := by
  cases h with
  | same => exact htype
  | reference => exact htype
  | data => exact htype
  | forwarded => cases htype

end TypeData

namespace Pool

variable {p q : Pool} {t u : TypeId} {type : Ty}

/-- An entry that is neither declared nor a variable stays as it is. -/
theorem Evolves.data_of_fixed (he : p.Evolves q) {d : TypeData} (h : p.data t = d)
    (hname : d.nominalName? = none) (hvar : d.isVar = false) (hvoid : d ≠ .void) :
    q.data t = d := by
  subst h
  exact he.data_eq_of_fixed (lt_size_of_data_ne hvoid) hname hvar

/-- What a type is found to be stands for itself. -/
theorem Sound.known_of_resolveStrict (h : p.Sound) (hu : p.resolveStrict t = .ok u) :
    p.isUnresolved t = false ∧ p.resolve t = u := by
  rcases h.founded.resolveStrict_cases t with ⟨hknown, hvalue⟩ | ⟨e, -, hvalue⟩
  · rw [hvalue] at hu
    exact ⟨hknown, Except.ok.inj hu⟩
  · rw [hvalue] at hu
    cases hu

theorem Sound.resolveStrict_resolved (h : p.Sound) (hu : p.resolveStrict t = .ok u) :
    p.resolveStrict u = .ok u := by
  obtain ⟨hknown, rfl⟩ := h.known_of_resolveStrict hu
  have hresolved : p.isUnresolved (p.resolve t) = false := by
    rw [isUnresolved, h.founded.view_resolve]
    exact hknown
  rw [resolveStrict, resolveStrictWithin_of_resolved hresolved, h.founded.resolve_resolve]

theorem Sound.resolveStrict_builtin (h : p.Sound) (ht : t < initial.size) :
    p.resolveStrict t = .ok t := by
  have hclosed := h.closed_builtin ht
  have hknown : p.isUnresolved t = false := by
    rw [isUnresolved, view, hclosed.resolve_eq]
    exact hclosed.isVar_eq_false
  rw [resolveStrict, resolveStrictWithin_of_resolved hknown, hclosed.resolve_eq]

/-- A type of the pool that is known keeps being found. -/
theorem Sound.resolveStrict_of_evolves (hp : p.Sound) (hq : q.Sound) (he : p.Evolves q)
    (hlt : u < p.size) (hu : p.resolveStrict t = .ok u) : q.resolveStrict t = .ok u := by
  obtain ⟨hknown, rfl⟩ := hp.known_of_resolveStrict hu
  rw [hp.founded.resolveStrict_of_evolves hq.founded he hlt hknown, hu]

/-- The values of a type have a type in generated code. -/
def ValueType (p : Pool) (t : TypeId) (type : Ty) : Prop :=
  ∃ u, p.resolveStrict t = .ok u ∧ (p.data u).valueType? = some type

theorem ValueType.of_evolves (h : p.ValueType t type) (hp : p.Sound) (hq : q.Sound)
    (he : p.Evolves q) : q.ValueType t type := by
  obtain ⟨u, hu, htype⟩ := h
  have hlt : u < p.size := lt_size_of_data_ne fun hvoid => by
    rw [hvoid] at htype
    cases htype
  exact ⟨u, hp.resolveStrict_of_evolves hq he hlt hu, (he.becomes u hlt).valueType? htype⟩

theorem ValueType.of_resolved (h : p.ValueType u type) (hp : p.Sound)
    (hu : p.resolveStrict t = .ok u) : p.ValueType t type := by
  obtain ⟨v, hv, htype⟩ := h
  rw [hp.resolveStrict_resolved hu] at hv
  cases hv
  exact ⟨u, hu, htype⟩

/-- What types are found to be, one by one. -/
def Resolves (p : Pool) : List TypeId → List TypeId → Prop :=
  List.Forall₂ fun t u => p.resolveStrict t = .ok u

theorem Resolves.unique {ts us vs : List TypeId} (h : p.Resolves ts us) (h' : p.Resolves ts vs) :
    us = vs := by
  refine Relator.RightUnique.forall₂ (fun t u v hu hv => ?_) h h'
  rw [hu] at hv
  exact Except.ok.inj hv

theorem Resolves.of_evolves {ts us : List TypeId} (h : p.Resolves ts us) (hp : p.Sound)
    (hq : q.Sound) (he : p.Evolves q) (hlt : ∀ t ∈ ts, t < p.size) : q.Resolves ts us := by
  induction h with
  | nil => exact .nil
  | @cons t u ts us hu _ ih =>
      obtain ⟨-, hresolve⟩ := hp.known_of_resolveStrict hu
      have hlt' : u < p.size := hresolve ▸ hp.resolve_lt_size (hlt t (by simp))
      exact .cons (hp.resolveStrict_of_evolves hq he hlt' hu)
        (ih fun t ht => hlt t (List.mem_cons_of_mem _ ht))

theorem forall₂_valueType_of_resolves {ts us : List TypeId} {types : List Ty}
    (h : List.Forall₂ p.ValueType us types) (hp : p.Sound) (hts : p.Resolves ts us) :
    List.Forall₂ p.ValueType ts types := by
  induction hts generalizing types with
  | nil => exact h
  | cons hu _ ih =>
      cases h with
      | cons htype hrest => exact .cons (htype.of_resolved hp hu) (ih hrest)

end Pool

/-! ## Keys and handles -/

/-- What a request is answered with: a struct, or the address of a constant. -/
inductive Handle where
  | struct (t : Ty)
  | record (address : Value)

/-- What decides how a request is answered: positions of resolved types, or a text. -/
inductive Key where
  | layout (t : TypeId)
  | closure (shape : ClosureShape)
  /-- A struct for boxed values of the type. -/
  | boxed (payload : TypeId)
  | runtimeType (t : TypeId)
  | text (s : String)
  | singleton (t : TypeId)
deriving DecidableEq

/-- What is remembered under a key. -/
def Output.handle? (o : Output) : Key → Option Handle
  | .layout t => (o.layouts.lookup t).map .struct
  | .closure shape => (o.closureLayouts.lookup shape).map .struct
  | .boxed payload => (o.dynamicLayouts.lookup payload).map .struct
  | .runtimeType t => (o.runtimeTypes.lookup t).map .record
  | .text s => (o.strings.lookup s).map .record
  | .singleton t => (o.singletons.lookup t).map .record

namespace Key

/-- Requests for a key bring about requests for keys of no greater rank. -/
def rank : Key → Nat
  | closure _ => 0
  | layout _ => 1
  | text _ => 2
  | boxed _ => 3
  | runtimeType _ => 4
  | singleton _ => 5

variable {p q : Pool} {o o' : Output} {key : Key}

/-- The key stands for a class. -/
def IsClass (p : Pool) (key : Key) : Prop :=
  ∃ t name ivars methods, key = .layout t ∧ p.data t = .reference name ivars methods

/-- The fields that the struct of a key has, in order. -/
inductive Fields (p : Pool) (o : Output) : Key → List Ty → Prop
  | string {t : TypeId} (h : p.data t = .string) : Fields p o (.layout t) [.i32, .ptr]
  | type {t : TypeId} (h : p.data t = .typeRecord) : Fields p o (.layout t) [.ptr]
  | dynamic {t : TypeId} (h : p.data t = .dynamic) : Fields p o (.layout t) [.ptr]
  | class {t : TypeId} {name : String} {ivars : List (String × TypeId)} {methods : List Signature}
      {types : List Ty} (h : p.data t = .reference name ivars methods)
      (htypes : List.Forall₂ p.ValueType (ivars.map (·.2)) types) : Fields p o (.layout t) types
  | data {t : TypeId} {name : String} {cases : List TypeId} {methods : List Signature}
      (h : p.data t = .data name cases methods) : Fields p o (.layout t) [.i32]
  | case {t owner root : TypeId} {name short : String} {tag : Nat} {envelope : Ty}
      {fields : List (String × TypeId)} {types : List Ty}
      (h : p.data t = .variant name short tag owner fields) (howner : p.resolveStrict owner = .ok root)
      (henvelope : o.handle? (.layout root) = some (.struct envelope))
      (htypes : List.Forall₂ p.ValueType (fields.map (·.2)) types) :
      Fields p o (.layout t) (envelope :: types)
  | closureType {t result : TypeId} {params captures : List TypeId} {types : List Ty}
      (h : p.data t = .closure params result captures)
      (htypes : List.Forall₂ p.ValueType captures types) : Fields p o (.layout t) (.ptr :: types)
  | closure {shape : ClosureShape} {types : List Ty}
      (htypes : List.Forall₂ p.ValueType shape.captures types) :
      Fields p o (.closure shape) (.ptr :: types)
  | boxed {payload : TypeId} {header value : Ty}
      (hheader : o.handle? (.layout .dynamic) = some (.struct header))
      (hvalue : p.ValueType payload value) : Fields p o (.boxed payload) [header, value]

/-- A class stays one. -/
theorem IsClass.of_evolves (h : key.IsClass p) (he : p.Evolves q) : key.IsClass q := by
  obtain ⟨t, name, ivars, methods, heq, hdata⟩ := h
  have hbecomes := he.becomes t (Pool.lt_size_of_data_ne (by simp [hdata]))
  rw [hdata] at hbecomes
  generalize hd : q.data t = d at hbecomes
  cases hbecomes with
  | same => exact ⟨t, _, _, _, heq, hd⟩
  | reference => exact ⟨t, _, _, _, heq, hd⟩

/-- The fields of a key go by what was made for other keys. -/
theorem Fields.mono {fields : List Ty} (h : key.Fields p o fields)
    (hhandles : ∀ key handle, o.handle? key = some handle → o'.handle? key = some handle) :
    key.Fields p o' fields := by
  cases h with
  | string h => exact .string h
  | type h => exact .type h
  | dynamic h => exact .dynamic h
  | «class» h htypes => exact .class h htypes
  | data h => exact .data h
  | case h howner henvelope htypes => exact .case h howner (hhandles _ _ henvelope) htypes
  | closureType h htypes => exact .closureType h htypes
  | closure htypes => exact .closure htypes
  | boxed hheader hvalue => exact .boxed (hhandles _ _ hheader) hvalue

/-- A type with fields stands in the pool. -/
theorem Fields.lt_size {t : TypeId} {fields : List Ty} (h : (Key.layout t).Fields p o fields) :
    t < p.size := by
  refine Pool.lt_size_of_data_ne ?_
  cases h <;> simp_all

/-- The key stands for closures of a shape: it is the shape, or a closure type with these parts. -/
inductive HasShape (p : Pool) : Key → ClosureShape → Prop
  | shape (shape : ClosureShape) : HasShape p (.closure shape) shape
  | type {t result : TypeId} {params captures : List TypeId} {shape : ClosureShape}
      (h : p.data t = .closure params result captures) (hparams : p.Resolves params shape.params)
      (hresult : p.resolveStrict result = .ok shape.result)
      (hcaptures : p.Resolves captures shape.captures) : HasShape p (.layout t) shape

theorem HasShape.unique {shape shape' : ClosureShape} (h : key.HasShape p shape)
    (h' : key.HasShape p shape') : shape = shape' := by
  cases h with
  | shape =>
      cases h'
      rfl
  | type h hparams hresult hcaptures =>
      cases h' with
      | type h' hparams' hresult' hcaptures' =>
          obtain ⟨rfl, rfl, rfl⟩ := TypeData.closure.inj (h.symm.trans h')
          rw [hresult] at hresult'
          obtain ⟨params, result, captures⟩ := shape
          obtain ⟨params', result', captures'⟩ := shape'
          rw [ClosureShape.mk.injEq]
          exact ⟨hparams.unique hparams', Except.ok.inj hresult', hcaptures.unique hcaptures'⟩

/-- The parts of a closure are still known in a pool that comes later. -/
theorem HasShape.of_evolves {shape : ClosureShape} (h : key.HasShape p shape) (hp : p.Sound)
    (hq : q.Sound) (he : p.Evolves q) : key.HasShape q shape := by
  cases h with
  | shape => exact .shape shape
  | @type t result params captures _ h hparams hresult hcaptures =>
      have hlt : t < p.size := Pool.lt_size_of_data_ne (by simp [h])
      have hparts : ∀ u ∈ (p.data t).parts, u < p.size := fun u hu =>
        Nat.lt_trans (hp.parts_lt hu) hlt
      rw [h] at hparts
      have hresult' : shape.result < p.size := by
        obtain ⟨-, heq⟩ := hp.known_of_resolveStrict hresult
        exact heq ▸ hp.resolve_lt_size (hparts result (by simp [TypeData.parts]))
      exact .type (he.data_of_fixed h rfl rfl (by simp))
        (hparams.of_evolves hp hq he fun u hu => hparts u (by simp [TypeData.parts, hu]))
        (hp.resolveStrict_of_evolves hq he hresult' hresult)
        (hcaptures.of_evolves hp hq he fun u hu => hparts u (by simp [TypeData.parts, hu]))

/-- The fields of a key stay the same in a pool that comes later, unless it is that of a class that
gets other instance variables. -/
theorem Fields.of_evolves {fields : List Ty} (h : key.Fields p o fields) (hp : p.Sound)
    (hq : q.Sound) (he : p.Evolves q)
    (hkept : ∀ t, key = .layout t → key.IsClass p → q.ivarList t = p.ivarList t)
    (hlt : ∀ t struct, o.handle? (.layout t) = some (.struct struct) → t < p.size) :
    key.Fields q o fields := by
  have hvalues : ∀ {ts types}, List.Forall₂ p.ValueType ts types →
      List.Forall₂ q.ValueType ts types :=
    fun h => h.imp fun _ _ htype => htype.of_evolves hp hq he
  cases h with
  | string h => exact .string (he.data_of_fixed h rfl rfl (by simp))
  | type h => exact .type (he.data_of_fixed h rfl rfl (by simp))
  | dynamic h => exact .dynamic (he.data_of_fixed h rfl rfl (by simp))
  | @«class» t name ivars methods types h htypes =>
      have hbecomes := he.becomes t (Pool.lt_size_of_data_ne (by simp [h]))
      have hlist := hkept t rfl ⟨t, name, ivars, methods, rfl, h⟩
      rw [Pool.ivarList, Pool.ivarList, h] at hlist
      rw [h] at hbecomes
      generalize hd : q.data t = d at hbecomes hlist
      cases hbecomes with
      | same => exact .class hd (hvalues htypes)
      | reference =>
          cases hlist
          exact .class hd (hvalues htypes)
  | @data t name cases methods h =>
      have hbecomes := he.becomes t (Pool.lt_size_of_data_ne (by simp [h]))
      rw [h] at hbecomes
      generalize hd : q.data t = d at hbecomes
      cases hbecomes with
      | same => exact .data hd
      | data => exact .data hd
  | @case t owner root name short tag envelope fields types h howner henvelope htypes =>
      have hbecomes := he.becomes t (Pool.lt_size_of_data_ne (by simp [h]))
      rw [h] at hbecomes
      generalize hd : q.data t = d at hbecomes
      cases hbecomes
      exact .case hd (hp.resolveStrict_of_evolves hq he (hlt root _ henvelope) howner) henvelope
        (hvalues htypes)
  | closureType h htypes =>
      exact .closureType (he.data_of_fixed h rfl rfl (by simp)) (hvalues htypes)
  | closure htypes => exact .closure (hvalues htypes)
  | boxed hheader hvalue => exact .boxed hheader (hvalue.of_evolves hp hq he)

end Key

/-! ## Consistent outputs -/

namespace Output

variable {p q : Pool} {o o' o₁ : Output} {key key₁ : Key} {handle handle₁ : Handle}

theorem handle?_layout {t : TypeId} (h : o.handle? (.layout t) = some handle) :
    ∃ struct, handle = .struct struct := by
  obtain ⟨struct, -, rfl⟩ := Option.map_eq_some_iff.mp h
  exact ⟨struct, rfl⟩

/-- What was made so far is what the keys ask for, and is told apart as the keys are. -/
structure Consistent (p : Pool) (o : Output) : Prop where
  /-- Each struct has its body, with the fields of its key. Those of a class are the ones that it had
  when it was first asked for. -/
  structs : ∀ key struct, o.handle? key = some (.struct struct) →
    ∃ id fields, struct = .struct id ∧ o.builder.module.structs.body? id = some fields ∧
      (¬ key.IsClass p → key.Fields p o fields)
  /-- Each record is a constant. -/
  records : ∀ key record, o.handle? key = some (.record record) →
    ∃ g, g < o.builder.module.globals.size ∧ record = .const (.globalAddr g)
  /-- A closure type has the struct of its shape. -/
  closures : ∀ t params result captures handle, p.data t = .closure params result captures →
    o.handle? (.layout t) = some handle →
      ∃ shape, (Key.layout t).HasShape p shape ∧ o.handle? (.closure shape) = some handle
  /-- Different keys have different handles, closures of one shape apart. -/
  injective : ∀ key key' handle, o.handle? key = some handle → o.handle? key' = some handle →
    key = key' ∨ ∃ shape, key.HasShape p shape ∧ key'.HasShape p shape

/-- A type that has a struct stands in the pool. -/
theorem Consistent.lt_size {t : TypeId} {struct : Ty} (h : o.Consistent p)
    (ht : o.handle? (.layout t) = some (.struct struct)) : t < p.size := by
  obtain ⟨_, _, -, -, hfields⟩ := h.structs _ struct ht
  by_cases hclass : (Key.layout t).IsClass p
  · obtain ⟨_, _, _, _, heq, hdata⟩ := hclass
    cases heq
    exact Pool.lt_size_of_data_ne (by simp [hdata])
  · exact (hfields hclass).lt_size

/-- What was made stays as it is. -/
structure Keeps (o o' : Output) : Prop where
  handles : ∀ key handle, o.handle? key = some handle → o'.handle? key = some handle
  structs : ∀ id fields, o.builder.module.structs.body? id = some fields →
    o'.builder.module.structs.body? id = some fields

theorem Keeps.refl (o : Output) : o.Keeps o :=
  ⟨fun _ _ h => h, fun _ _ h => h⟩

theorem Keeps.trans (h : o.Keeps o₁) (h' : o₁.Keeps o') : o.Keeps o' where
  handles key handle hkey := h'.handles key handle (h.handles key handle hkey)
  structs id fields hid := h'.structs id fields (h.structs id fields hid)

/-- Something was made, and the builder was not misused. -/
structure Accrues (o o' : Output) : Prop extends Keeps o o' where
  globals : o.builder.module.globals.size ≤ o'.builder.module.globals.size
  errors : o'.builder.errors = o.builder.errors

theorem Accrues.refl (o : Output) : o.Accrues o :=
  ⟨.refl o, Nat.le_refl _, rfl⟩

theorem Accrues.trans (h : o.Accrues o₁) (h' : o₁.Accrues o') : o.Accrues o' where
  toKeeps := h.toKeeps.trans h'.toKeeps
  globals := Nat.le_trans h.globals h'.globals
  errors := h'.errors.trans h.errors

/-- A request for the key was answered with the handle. -/
structure Answers (p : Pool) (o : Output) (key : Key) (handle : Handle) (o' : Output) : Prop
    extends Accrues o o' where
  consistent : o'.Consistent p
  answer : o'.handle? key = some handle
  /-- Nothing is made for keys of a higher rank. -/
  above : ∀ other, key.rank < other.rank → o'.handle? other = o.handle? other
  /-- A class has no struct before it is asked for. -/
  classes : ∀ t name ivars methods, p.data t = .reference name ivars methods → key ≠ .layout t →
    o'.handle? (.layout t) = o.handle? (.layout t)
  /-- A struct that was not there before has the fields of its key. -/
  made : o.handle? key = none → ∀ struct, handle = .struct struct → ∃ id fields,
    struct = .struct id ∧ o'.builder.module.structs.body? id = some fields ∧ key.Fields p o' fields

/-- Asking for the struct of a built-in type makes none for a class. -/
theorem Answers.classes_builtin {u : TypeId} (h : o.Answers p (.layout u) handle o')
    (hp : p.Sound) (hu : u < Pool.initial.size) :
    ∀ t name ivars methods, p.data t = .reference name ivars methods →
      o'.handle? (.layout t) = o.handle? (.layout t) := by
  intro t name ivars methods ht
  refine h.classes t name ivars methods ht ?_
  rintro ⟨⟩
  have hplain : ∀ u < Pool.initial.size, (Pool.initial.data u).nominalName? = none := by decide
  have hname := hplain u hu
  rw [← (hp.builtin u hu).2, ht] at hname
  cases hname

/-- What was made before is answered without a change. -/
theorem Consistent.known (h : o.Consistent p) (hkey : o.handle? key = some handle) :
    o.Answers p key handle o where
  toAccrues := .refl o
  consistent := h
  answer := hkey
  above _ _ := rfl
  classes _ _ _ _ _ _ := rfl
  made hnone := by
    rw [hkey] at hnone
    cases hnone

/-- A request is answered after another one that it needs. -/
theorem Answers.trans (h : o.Answers p key₁ handle₁ o₁) (h' : o₁.Answers p key handle o')
    (hnone : o₁.handle? key = none) (hrank : key₁.rank ≤ key.rank)
    (hclasses : ∀ t name ivars methods, p.data t = .reference name ivars methods →
      o₁.handle? (.layout t) = o.handle? (.layout t)) : o.Answers p key handle o' where
  toAccrues := h.toAccrues.trans h'.toAccrues
  consistent := h'.consistent
  answer := h'.answer
  above other hother := by
    rw [h'.above other hother, h.above other (Nat.lt_of_le_of_lt hrank hother)]
  classes t name ivars methods ht hne := by
    rw [h'.classes t name ivars methods ht hne, hclasses t name ivars methods ht]
  made _ := h'.made hnone

/-! ## Remembering -/

/-- A handle was remembered, and nothing else. -/
def Learns (o : Output) (key : Key) (handle : Handle) (o' : Output) : Prop :=
  ∀ other, o'.handle? other = if other = key then some handle else o.handle? other

namespace Learns

theorem self (h : o.Learns key handle o') : o'.handle? key = some handle := by
  rw [h, if_pos rfl]

theorem other (h : o.Learns key handle o') (hne : key₁ ≠ key) :
    o'.handle? key₁ = o.handle? key₁ := by
  rw [h, if_neg hne]

theorem handles (h : o.Learns key handle o') (hnone : o.handle? key = none) :
    ∀ key handle, o.handle? key = some handle → o'.handle? key = some handle := by
  intro other handle hother
  rw [h.other, hother]
  rintro rfl
  rw [hnone] at hother
  cases hother

/-- Remembering the same again. -/
theorem again (h : o.Learns key handle o₁) (h' : o₁.Learns key handle o') :
    o.Learns key handle o' := by
  intro other
  rw [h', h]
  split <;> rfl

variable (o) (builder : Builder)

theorem lookup_cons {κ ν : Type} [DecidableEq κ] (k k' : κ) (v : ν) (entries : List (κ × ν)) :
    List.lookup k' ((k, v) :: entries) = if k' = k then some v else entries.lookup k' := by
  rw [List.lookup_cons]
  by_cases h : k' = k
  · simp [h]
  · simp [h, beq_eq_false_iff_ne.mpr h]

theorem layout (t : TypeId) (struct : Ty) : o.Learns (.layout t) (.struct struct)
    { o with builder, layouts := (t, struct) :: o.layouts } := by
  intro other
  cases other <;> simp only [handle?, lookup_cons, Key.layout.injEq, reduceCtorEq, if_false]
  split <;> rfl

theorem closure (shape : ClosureShape) (struct : Ty) :
    o.Learns (.closure shape) (.struct struct)
      { o with builder, closureLayouts := (shape, struct) :: o.closureLayouts } := by
  intro other
  cases other <;> simp only [handle?, lookup_cons, Key.closure.injEq, reduceCtorEq, if_false]
  split <;> rfl

theorem boxed (payload : TypeId) (struct : Ty) : o.Learns (.boxed payload) (.struct struct)
    { o with builder, dynamicLayouts := (payload, struct) :: o.dynamicLayouts } := by
  intro other
  cases other <;> simp only [handle?, lookup_cons, Key.boxed.injEq, reduceCtorEq, if_false]
  split <;> rfl

theorem runtimeType (t : TypeId) (record : Value) : o.Learns (.runtimeType t) (.record record)
    { o with builder, runtimeTypes := (t, record) :: o.runtimeTypes } := by
  intro other
  cases other <;> simp only [handle?, lookup_cons, Key.runtimeType.injEq, reduceCtorEq, if_false]
  split <;> rfl

theorem text (s : String) (record : Value) : o.Learns (.text s) (.record record)
    { o with builder, strings := (s, record) :: o.strings } := by
  intro other
  cases other <;> simp only [handle?, lookup_cons, Key.text.injEq, reduceCtorEq, if_false]
  split <;> rfl

theorem singleton (t : TypeId) (record : Value) : o.Learns (.singleton t) (.record record)
    { o with builder, singletons := (t, record) :: o.singletons } := by
  intro other
  cases other <;> simp only [handle?, lookup_cons, Key.singleton.injEq, reduceCtorEq, if_false]
  split <;> rfl

end Learns

end Output

/-- A struct without a body got one. -/
structure IR.Builder.Defines (b : Builder) (id : StructId) (fields : List Ty) (b' : Builder) :
    Prop where
  fresh : b.module.structs.body? id = none
  body : b'.module.structs.body? id = some fields
  others : ∀ id fields, b.module.structs.body? id = some fields →
    b'.module.structs.body? id = some fields
  globals : b'.module.globals = b.module.globals
  errors : b'.errors = b.errors

/-- Constants were added, and the record is one of them. -/
structure IR.Builder.AddsRecord (b : Builder) (record : Value) (b' : Builder) : Prop where
  record : ∃ g, b.module.globals.size ≤ g ∧ g < b'.module.globals.size ∧
    record = .const (.globalAddr g)
  structs : b'.module.structs = b.module.structs
  errors : b'.errors = b.errors

namespace Output.Consistent

variable {p q : Pool} {o o' : Output} {key : Key} {id : StructId} {fields : List Ty}

/-- A handle is remembered that suits its key, and that only closures of the same shape have. -/
theorem learn {handle : Handle} (ho : o.Consistent p) (hlearns : o.Learns key handle o')
    (hnone : o.handle? key = none) (haccrues : o.Accrues o')
    (hstruct : ∀ struct, handle = .struct struct → ∃ id fields, struct = .struct id ∧
      o'.builder.module.structs.body? id = some fields ∧ key.Fields p o' fields)
    (hrecord : ∀ record, handle = .record record →
      ∃ g, g < o'.builder.module.globals.size ∧ record = .const (.globalAddr g))
    (hclosure : ∀ t params result captures, p.data t = .closure params result captures →
      key = .layout t → ∃ shape, key.HasShape p shape ∧ o'.handle? (.closure shape) = some handle)
    (hothers : ∀ other, o.handle? other = some handle →
      ∃ shape, key.HasShape p shape ∧ other.HasShape p shape) : o.Answers p key handle o' := by
  have hconsistent : o'.Consistent p := by
    refine ⟨fun other struct hother => ?_, fun other record hother => ?_,
      fun t params result captures handle' ht hother => ?_,
      fun other other' handle' hother hother' => ?_⟩
    · rw [hlearns] at hother
      split at hother
      · next heq =>
          obtain ⟨id, fields, hid, hbody, hfields⟩ := hstruct struct (Option.some.inj hother)
          exact ⟨id, fields, hid, hbody, fun _ => heq ▸ hfields⟩
      · obtain ⟨id, fields, hid, hbody, hfields⟩ := ho.structs other struct hother
        exact ⟨id, fields, hid, haccrues.structs id fields hbody,
          fun hclass => (hfields hclass).mono haccrues.handles⟩
    · rw [hlearns] at hother
      split at hother
      · exact hrecord record (Option.some.inj hother)
      · obtain ⟨g, hg, heq⟩ := ho.records other record hother
        exact ⟨g, Nat.lt_of_lt_of_le hg haccrues.globals, heq⟩
    · rw [hlearns] at hother
      split at hother
      · next heq =>
          obtain ⟨shape, hshape, hmade⟩ := hclosure t params result captures ht heq.symm
          exact ⟨shape, heq ▸ hshape, hother ▸ hmade⟩
      · obtain ⟨shape, hshape, hmade⟩ := ho.closures t params result captures handle' ht hother
        exact ⟨shape, hshape, haccrues.handles _ _ hmade⟩
    · rw [hlearns] at hother hother'
      split at hother <;> split at hother'
      · next heq heq' => exact .inl (heq.trans heq'.symm)
      · next heq _ =>
          cases hother
          obtain ⟨shape, hkey, hshape⟩ := hothers other' hother'
          exact .inr ⟨shape, heq ▸ hkey, hshape⟩
      · next _ heq =>
          cases hother'
          obtain ⟨shape, hkey, hshape⟩ := hothers other hother
          exact .inr ⟨shape, hshape, heq ▸ hkey⟩
      · exact ho.injective other other' handle' hother hother'
  exact {
    toAccrues := haccrues
    consistent := hconsistent
    answer := hlearns.self
    above := fun other hother => hlearns.other (by
      rintro rfl
      omega)
    classes := fun t _ _ _ _ hne => hlearns.other hne.symm
    made := fun _ => hstruct }

/-- A new struct with the fields of its key is remembered. -/
theorem define (ho : o.Consistent p) (hlearns : o.Learns key (.struct (.struct id)) o')
    (hnone : o.handle? key = none) (hd : o.builder.Defines id fields o'.builder)
    (hfields : key.Fields p o fields)
    (hplain : ∀ t params result captures, key = .layout t →
      p.data t ≠ .closure params result captures) :
    o.Answers p key (.struct (.struct id)) o' := by
  have haccrues : o.Accrues o' :=
    ⟨⟨hlearns.handles hnone, hd.others⟩, Nat.le_of_eq (by rw [hd.globals]), hd.errors⟩
  refine ho.learn hlearns hnone haccrues ?_ (fun _ h => by cases h)
    (fun t params result captures ht hkey => absurd ht (hplain t params result captures hkey))
    fun other hother => ?_
  · rintro struct ⟨⟩
    exact ⟨id, fields, rfl, hd.body, hfields.mono haccrues.handles⟩
  · -- no struct that was remembered before is the new one
    obtain ⟨id', fields', heq, hbody, -⟩ := ho.structs other _ hother
    cases heq
    rw [hd.fresh] at hbody
    cases hbody

/-- A new constant is remembered. -/
theorem add {record : Value} (ho : o.Consistent p) (hlearns : o.Learns key (.record record) o')
    (hnone : o.handle? key = none) (hadds : o.builder.AddsRecord record o'.builder) :
    o.Answers p key (.record record) o' := by
  obtain ⟨⟨g, hle, hlt, rfl⟩, hstructs, herrors⟩ := hadds
  refine ho.learn hlearns hnone ⟨⟨hlearns.handles hnone, fun _ _ h => hstructs ▸ h⟩, by omega,
    herrors⟩ (fun _ h => by cases h) ?_ (fun t params result captures _ hkey => ?_) fun other hother => ?_
  · rintro record ⟨⟩
    exact ⟨g, hlt, rfl⟩
  · subst hkey
    obtain ⟨struct, hstruct⟩ := handle?_layout hlearns.self
    cases hstruct
  · -- no constant that was remembered before is the new one
    obtain ⟨g', hg', heq⟩ := ho.records other _ hother
    cases heq
    omega

/-- A closure type takes the struct of its shape. -/
theorem share {t : TypeId} {shape : ClosureShape} {struct : Ty} (hp : p.Sound)
    (ho : o.Consistent p) (hlearns : o.Learns (.layout t) (.struct struct) o')
    (hnone : o.handle? (.layout t) = none) (hbuilder : o'.builder = o.builder)
    (hshape : (Key.layout t).HasShape p shape)
    (hclosure : o.handle? (.closure shape) = some (.struct struct)) :
    o.Answers p (.layout t) (.struct struct) o' := by
  have haccrues : o.Accrues o' := ⟨⟨hlearns.handles hnone, fun _ _ h => hbuilder ▸ h⟩,
    Nat.le_of_eq (by rw [hbuilder]), by rw [hbuilder]⟩
  refine ho.learn hlearns hnone haccrues ?_ (fun _ h => by cases h)
    (fun _ _ _ _ _ _ => ⟨shape, hshape, haccrues.handles _ _ hclosure⟩) fun other hother => ?_
  · rintro struct ⟨⟩
    obtain ⟨id, fields, hid, hbody, hfields⟩ := ho.structs _ struct hclosure
    have hplain : ¬ (Key.closure shape).IsClass p := by
      rintro ⟨_, _, _, _, heq, -⟩
      cases heq
    cases hfields hplain with
    | closure htypes =>
        cases hshape with
        | type ht hparams hresult hcaptures =>
            exact ⟨id, _, hid, hbuilder ▸ hbody, .closureType ht
              (Pool.forall₂_valueType_of_resolves htypes hp hcaptures)⟩
  · -- what has the struct already is a closure of the shape
    rcases ho.injective other (.closure shape) _ hother hclosure with rfl | ⟨shape', hs, hs'⟩
    · exact ⟨shape, hshape, .shape shape⟩
    · cases hs'
      exact ⟨shape, hshape, hs⟩

/-- What was made is right in a pool that comes later. -/
theorem of_evolves (ho : o.Consistent p) (hp : p.Sound) (hq : q.Sound) (he : p.Evolves q) :
    o.Consistent q := by
  have hclass : ∀ {key : Key}, ¬ key.IsClass q → ¬ key.IsClass p :=
    fun hplain h => hplain (h.of_evolves he)
  refine ⟨fun key struct hkey => ?_, ho.records, fun t params result captures handle ht hkey => ?_,
    fun key key' handle hkey hkey' => ?_⟩
  · obtain ⟨id, fields, hid, hbody, hfields⟩ := ho.structs key struct hkey
    exact ⟨id, fields, hid, hbody, fun hplain => (hfields (hclass hplain)).of_evolves hp hq he
      (fun _ _ h => absurd h (hclass hplain)) fun _ _ => ho.lt_size⟩
  · obtain ⟨struct, rfl⟩ := handle?_layout hkey
    have hbecomes := he.becomes t (ho.lt_size hkey)
    rw [ht] at hbecomes
    generalize hd : p.data t = d at hbecomes
    cases hbecomes
    obtain ⟨shape, hshape, hmade⟩ := ho.closures t params result captures _ hd hkey
    exact ⟨shape, hshape.of_evolves hp hq he, hmade⟩
  · refine (ho.injective key key' handle hkey hkey').imp_right ?_
    rintro ⟨shape, hshape, hshape'⟩
    exact ⟨shape, hshape.of_evolves hp hq he, hshape'.of_evolves hp hq he⟩

/-- Nothing was asked for yet. -/
theorem of_new (p : Pool) (name : String) : (ofName name).Consistent p := by
  have hnone : ∀ key, (ofName name).handle? key = none := fun key => by cases key <;> rfl
  exact ⟨fun key _ h => by simp [hnone key] at h, fun key _ h => by simp [hnone key] at h,
    fun t _ _ _ _ _ h => by simp [hnone (.layout t)] at h,
    fun key _ _ h => by simp [hnone key] at h⟩

end Output.Consistent

end ClassLang
