import ClassLang.IR.Fold
import Std.Data.TreeMap

/-!
# Values and memory of running code

Memory is a list of objects that never overlap and never go away. An object holds one value at each
offset, and an address is an object together with an offset. A place that was never written holds
zero. Objects are only ever added, so an address that was valid stays valid. A load gives what was
last stored (`Memory.load?_store?_self`, `Memory.load?_store?_of_ne`), and a new object is zero
(`Memory.load?_allocate_new`).
-/

namespace ClassLang.Execution

open IR (Const FunctionId Structs Ty Width)

/-- The position of an object in memory. -/
abbrev ObjectId := Nat

/-- What an address stands for. -/
inductive Address where
  | null
  /-- A place in an object. -/
  | place (object : ObjectId) (offset : Nat)
  /-- The code of a function. -/
  | code (function : FunctionId)
deriving DecidableEq, Repr

namespace Address

/-- The address a number of bytes further on; only places can be moved. -/
def shift? (a : Address) (bytes : Nat) : Option Address :=
  match a with
  | place object offset => some (place object (offset + bytes))
  | null | code _ => none

end Address

/-- A value of running code. -/
inductive Datum where
  /-- An integer, as the signed number of its width. -/
  | int (width : Width) (value : Int)
  | address (a : Address)
deriving DecidableEq, Repr

namespace Datum

/-- The value whose bits are all zero; structs and byte arrays are no values. -/
def zero? : Ty → Option Datum
  | .int w => some (int w 0)
  | .ptr => some (address .null)
  | .struct _ | .bytes _ => none

/-- The value of a constant; structs, byte arrays and undefined constants have none. The globals are
the first objects, in their order. -/
def ofConst? (structs : Structs) : Const → Option Datum
  | .int w n => some (int w n)
  | .null => some (address .null)
  | .globalAddr id => some (address (.place id 0))
  | .functionAddr id => some (address (.code id))
  | .fieldAddr struct base index => do
    let .address a ← ofConst? structs base | none
    return address (← a.shift? (structs.fieldOffset struct index))
  | .poison _ | .bytes _ | .struct .. => none

/-- The truth value of a condition. -/
def toBool? : Datum → Option Bool
  | int .w1 n => some (n != 0)
  | _ => none

/-- The result of a comparison. -/
def ofBool (b : Bool) : Datum :=
  int .w1 (if b then -1 else 0)

/-- The address that a value is. -/
def toAddress? : Datum → Option Address
  | address a => some a
  | int .. => none

/-- The result of an integer operation, if it is defined. -/
def binary? (op : IR.IntOp) : Datum → Datum → Option Datum
  | int w a, int w' b => if w = w' then (op.eval w a b).map (int w) else none
  | _, _ => none

/-- The result of a comparison. Addresses are equal or not, and have no order. -/
def compare? (p : IR.Predicate) : Datum → Datum → Option Datum
  | int w a, int w' b => if w = w' then some (ofBool (p.eval a b)) else none
  | address a, address b =>
    match p with
    | .eq => some (ofBool (a == b))
    | .ne => some (ofBool (a != b))
    | .slt | .sle | .sgt | .sge => none
  | _, _ => none

/-- An integer extended to another type with zero bits. -/
def widen? (target : Ty) : Datum → Option Datum
  | int w n =>
    match target with
    | .int w' => some (int w' (w'.wrap (w.unsigned n)))
    | _ => none
  | address _ => none

end Datum

/-- An object: the values at its offsets, as far as they were written. -/
abbrev Object := Std.TreeMap Nat Datum

namespace Object

mutual

/-- Write a constant into an object from an offset on. -/
def writeConst (structs : Structs) (object : Object) (offset : Nat) : Const → Object
  | .bytes data =>
    data.zipIdx.foldl
      (fun object (byte, k) => object.insert (offset + k) (.int .w8 (Width.w8.wrap byte.toNat)))
      object
  | .struct id fields => writeFields structs id object offset 0 fields
  | c =>
    match Datum.ofConst? structs c with
    | some v => object.insert offset v
    | none => object

/-- Write the fields of a struct from the field at a position on. -/
def writeFields (structs : Structs) (id : IR.StructId) (object : Object) (offset index : Nat) :
    List Const → Object
  | [] => object
  | c :: rest =>
    let object := writeConst structs object (offset + structs.fieldOffset id index) c
    writeFields structs id object offset (index + 1) rest

end

end Object

/-- The objects of running code, in order of creation. -/
structure Memory where
  objects : Array Object := #[]

namespace Memory

/-- The memory before anything runs: each global holds its initial value. -/
def ofGlobals (structs : Structs) (globals : Array IR.Global) : Memory :=
  { objects := globals.map fun g => Object.writeConst structs {} 0 g.init }

/-- Add an object that is zero everywhere. -/
def allocate (m : Memory) : Address × Memory :=
  (.place m.objects.size 0, { objects := m.objects.push {} })

/-- The value of a type at an address. -/
def load? (m : Memory) (t : Ty) : Address → Option Datum
  | .place object offset => do
    let cells ← m.objects[object]?
    match cells[offset]? with
    | some v => some v
    | none => Datum.zero? t
  | .null | .code _ => none

/-- Put a value at an address. -/
def store? (m : Memory) (v : Datum) : Address → Option Memory
  | .place object offset =>
    if object < m.objects.size then
      some { objects := m.objects.modify object (·.insert offset v) }
    else none
  | .null | .code _ => none

/-- What was stored at an address is loaded from it. -/
theorem load?_store?_self {m m' : Memory} {v : Datum} {a : Address} (t : Ty)
    (h : m.store? v a = some m') : m'.load? t a = some v := by
  cases a with
  | null => simp [store?] at h
  | code _ => simp [store?] at h
  | place object offset =>
    simp only [store?, Option.ite_none_right_eq_some, Option.some.injEq] at h
    obtain ⟨hlt, rfl⟩ := h
    simp [load?, Array.getElem_modify, hlt]

/-- Storing at one address leaves what is at all others alone. -/
theorem load?_store?_of_ne {m m' : Memory} {v : Datum} {a b : Address} (t : Ty)
    (h : m.store? v a = some m') (hne : b ≠ a) : m'.load? t b = m.load? t b := by
  cases a with
  | null => simp [store?] at h
  | code _ => simp [store?] at h
  | place object offset =>
    simp only [store?, Option.ite_none_right_eq_some, Option.some.injEq] at h
    obtain ⟨hlt, rfl⟩ := h
    cases b with
    | null => rfl
    | code _ => rfl
    | place object' offset' =>
      by_cases hobject : object = object'
      · subst hobject
        have hoffset : offset ≠ offset' := fun he => hne (by rw [he])
        simp [load?, Array.getElem_modify, hlt, Std.TreeMap.getElem?_insert, hoffset]
      · simp [load?, Array.getElem?_modify, hobject]

/-- A new object is zero everywhere. -/
theorem load?_allocate_new (m : Memory) (t : Ty) (offset : Nat) :
    m.allocate.2.load? t (.place m.objects.size offset) = Datum.zero? t := by
  simp [allocate, load?]

/-- A new object leaves what is in the others alone. -/
theorem load?_allocate_old (m : Memory) (t : Ty) {object : ObjectId} (offset : Nat)
    (h : object < m.objects.size) :
    m.allocate.2.load? t (.place object offset) = m.load? t (.place object offset) := by
  simp [allocate, load?, Array.getElem?_push, Nat.ne_of_lt h]

/-- A number of bytes from an address on. -/
def bytesFrom? (m : Memory) (a : Address) (count : Nat) : Option (List UInt8) :=
  (List.range count).mapM fun k => do
    let .int .w8 n ← m.load? .i8 (← a.shift? k) | none
    return (Width.w8.unsigned n).toUInt8

/-- The bytes from an address on up to the first zero byte. The end of the object bounds the
search: beyond the last written offset everything is zero. -/
def bytesToZero? (m : Memory) (a : Address) : Option (List UInt8) := do
  let .place object offset := a | none
  let cells ← m.objects[object]?
  let bytes ← m.bytesFrom? a (((cells.maxKey?.map (· + 1)).getD 0) - offset)
  return bytes.takeWhile (· != 0)

end Memory

end ClassLang.Execution
