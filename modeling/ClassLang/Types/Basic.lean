import ClassLang.Syntax.Operator

/-!
# Types and signatures

A type is known by its position in the session's pool (`ClassLang.Types.Pool`). This module holds
what stands at such a position: built-in types, pointers, classes, data types and their cases,
closures, and the variables that stand for the still unknown parameter types of a lambda.
-/

namespace ClassLang

/-- The position of a type in the pool. -/
abbrev TypeId := Nat

namespace TypeId

/-- `Integer`, a 32-bit signed integer. -/
def integer : TypeId := 0

/-- `Boolean`, one bit. -/
def boolean : TypeId := 1

/-- `Char`, an 8-bit integer. -/
def char : TypeId := 2

/-- `Void`, the type of what has no value. -/
def void : TypeId := 3

/-- `String`, the record of a length and its bytes. -/
def string : TypeId := 4

/-- `Type`, the record that describes a type at run time. -/
def type : TypeId := 5

/-- `Dynamic`, a value boxed together with its type record. -/
def dynamic : TypeId := 6

/-- `*Char`, which every pool holds right after the built-in types. -/
def charPointer : TypeId := 7

/-- How many types are built in. -/
def builtinCount : Nat := 7

/-- Whether the position is that of a built-in type. -/
def isBuiltin (t : TypeId) : Bool :=
  t < builtinCount

/-- The built-in types by the names programs use for them. -/
def builtinNames : List (String × TypeId) :=
  [("Integer", integer), ("Boolean", boolean), ("Char", char), ("Void", void),
   ("String", string), ("Type", type), ("Dynamic", dynamic)]

/-- A position as it is shown to someone debugging the compiler. -/
def debugText (t : TypeId) : String :=
  match t with
  | 0 => "Idx::INTEGER"
  | 1 => "Idx::BOOLEAN"
  | 2 => "Idx::CHAR"
  | 3 => "Idx::VOID"
  | 4 => "Idx::STRING"
  | 5 => "Idx::TYPE"
  | 6 => "Idx::DYNAMIC"
  | raw => s!"Idx({raw})"

end TypeId

/-- A declared parameter. Only a named one accepts a named argument. -/
structure Param where
  name : Option String
  type : TypeId
deriving DecidableEq, Repr

/-- What a caller has to know of a function, method or external declaration. The receiver of a
method is left out. -/
structure Signature where
  /-- The name written at call sites. -/
  name : String
  /-- The symbol under which code is generated. -/
  linkName : String
  params : List Param
  result : TypeId
  /-- Whether further arguments may follow the declared ones. -/
  varargs : Bool := false
deriving DecidableEq, Repr

namespace Signature

/-- The number of declared parameters. -/
def arity (sig : Signature) : Nat :=
  sig.params.length

/-- The types of the declared parameters. -/
def paramTypes (sig : Signature) : List TypeId :=
  sig.params.map (·.type)

/-- The signatures in the order of their names. -/
def sortByName (sigs : List Signature) : List Signature :=
  sigs.mergeSort (fun a b => decide (a.name ≤ b.name))

end Signature

/-- What stands at a position of the pool. -/
inductive TypeData where
  | integer
  | boolean
  | char
  | void
  | string
  | typeRecord
  | dynamic
  | pointer (target : TypeId)
  /-- A class: its symbol, its instance variables in layout order, and its methods, of which no
  two share a name. -/
  | reference (name : String) (ivars : List (String × TypeId)) (methods : List Signature)
  /-- A data type: its symbol, its cases in declaration order, and its methods. -/
  | data (name : String) (cases : List TypeId) (methods : List Signature)
  /-- A case of the data type `owner`; `tag` is its position among the cases. -/
  | variant (name shortName : String) (tag : Nat) (owner : TypeId)
      (fields : List (String × TypeId))
  | closure (params : List TypeId) (result : TypeId) (captures : List TypeId)
  /-- A type variable, open or forwarded to the type it stands for. -/
  | var (target : Option TypeId)
  /-- The type of `root op rhs` while `root` is not known yet. -/
  | derived (root : TypeId) (op : BinaryOp) (rhs : TypeId)
deriving DecidableEq, Repr

instance : Inhabited TypeData := ⟨.void⟩

namespace TypeData

/-- The classification of an entry as a sum of bits: 1 primitive, 2 passed by pointer, 4 nominal,
8 closure, 16 variable, 32 built-in record. -/
def flags : TypeData → Nat
  | integer | boolean | char | void => 1
  | string | typeRecord | dynamic => 2 + 32
  | pointer _ => 0
  | reference .. | data .. | variant .. => 2 + 4
  | closure .. => 2 + 8
  | var _ | derived .. => 16

/-- Whether the entry is a variable or a type derived from one. -/
def isVar : TypeData → Bool
  | var _ | derived .. => true
  | _ => false

/-- The symbol of a class, data type or case. -/
def nominalName? : TypeData → Option String
  | reference name _ _ => some name
  | data name _ _ => some name
  | variant name _ _ _ _ => some name
  | _ => none

end TypeData

/-- The position of an instance variable in a layout. -/
def ivarIndex? (ivars : List (String × TypeId)) (name : String) : Option Nat :=
  ivars.findIdx? (·.1 == name)

/-- The type of an instance variable in a layout. -/
def ivarType? (ivars : List (String × TypeId)) (name : String) : Option TypeId :=
  ivars.lookup name

end ClassLang
