/-!
# Types of the intermediate code

Integers of four widths, addresses, named structs and byte arrays, with their extents in memory. A
struct is known by its position among the structs of its module, so it may contain addresses of
itself. Extents are those of a 64-bit machine: each field stands at the next multiple of its
alignment.
-/

namespace ClassLang.IR

/-- The width of an integer. -/
inductive Width where
  | w1 | w8 | w32 | w64
deriving DecidableEq, Repr

namespace Width

/-- The number of bits. -/
def bits : Width → Nat
  | w1 => 1
  | w8 => 8
  | w32 => 32
  | w64 => 64

/-- The number of bytes an integer takes in memory. -/
def bytes : Width → Nat
  | w1 | w8 => 1
  | w32 => 4
  | w64 => 8

/-- The signed number that stands for `n` among the numbers of this width. -/
def wrap (w : Width) (n : Int) : Int :=
  n.bmod (Nat.pow 2 w.bits)

/-- The number from 0 on with the same bits as `n`. -/
def unsigned (w : Width) (n : Int) : Nat :=
  (n % Nat.pow 2 w.bits).toNat

end Width

/-- The position of a struct among those of its module. -/
abbrev StructId := Nat

/-- The position of a function among those of its module. -/
abbrev FunctionId := Nat

/-- The position of a global among those of its module. -/
abbrev GlobalId := Nat

/-- The type of a value. -/
inductive Ty where
  | int (width : Width)
  | ptr
  | struct (id : StructId)
  /-- An array of bytes. -/
  | bytes (length : Nat)
deriving DecidableEq, Repr

instance : Inhabited Ty := ⟨.ptr⟩

namespace Ty

/-- The type of truth values. -/
def i1 : Ty := .int .w1

/-- The type of characters. -/
def i8 : Ty := .int .w8

/-- The type of Integers. -/
def i32 : Ty := .int .w32

/-- The type of sizes. -/
def i64 : Ty := .int .w64

/-- Whether the type is an integer type. -/
def isInt : Ty → Bool
  | .int _ => true
  | _ => false

end Ty

/-- The parameters and result of a function; no result type stands for `void`. -/
structure FnType where
  params : List Ty
  result : Option Ty
  varargs : Bool := false
deriving DecidableEq, Repr

instance : Inhabited FnType := ⟨{ params := [], result := none }⟩

/-- A named struct. It has no fields as long as its body is not given. -/
structure StructDef where
  name : String
  fields : Option (List Ty) := none
deriving DecidableEq, Repr

instance : Inhabited StructDef := ⟨{ name := "" }⟩

/-- The room that a value takes in memory, in bytes. -/
structure Extent where
  size : Nat
  align : Nat
deriving DecidableEq, Repr

namespace Extent

/-- The least multiple of `align` that is not below `n`. -/
def roundUp (n align : Nat) : Nat :=
  (n + align - 1) / align * align

/-- Where the room after the given fields ends. -/
def stop (fields : List Extent) : Nat :=
  fields.foldl (fun offset field => roundUp offset field.align + field.size) 0

/-- The extent of a struct: aligned as its widest field, with its size rounded up to that. -/
def ofFields (fields : List Extent) : Extent :=
  let align := fields.foldl (fun align field => max align field.align) 1
  { size := roundUp (stop fields) align, align }

/-- Where the field at a position starts. -/
def fieldOffset (fields : List Extent) (index : Nat) : Nat :=
  roundUp (stop (fields.take index)) ((fields[index]?.map (·.align)).getD 1)

end Extent

/-- The structs of a module, by position. -/
abbrev Structs := Array StructDef

namespace Structs

/-- The fields of a struct; none if its body is not given. -/
def fields (structs : Structs) (id : StructId) : List Ty :=
  ((structs[id]?.bind (·.fields)).getD [])

/-- The extent of a type with a bound on the nesting of structs. -/
def extentWithin (structs : Structs) : Nat → Ty → Extent
  | _, .int w => ⟨w.bytes, w.bytes⟩
  | _, .ptr => ⟨8, 8⟩
  | _, .bytes length => ⟨length, 1⟩
  | 0, .struct _ => ⟨0, 1⟩
  | fuel + 1, .struct id => Extent.ofFields ((structs.fields id).map (structs.extentWithin fuel))

/-- The extent of a type. A struct never contains itself, so structs nest at most as deep as there
are structs. -/
def extent (structs : Structs) (t : Ty) : Extent :=
  structs.extentWithin structs.size t

/-- The offset of a field in its struct. -/
def fieldOffset (structs : Structs) (id : StructId) (index : Nat) : Nat :=
  Extent.fieldOffset ((structs.fields id).map structs.extent) index

end Structs

end ClassLang.IR
