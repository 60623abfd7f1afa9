import ClassLang.Types.Basic

/-!
# Operations of a type

What can be applied to a value of a type: built-in operators, reads of the fields of built-in
records, and the methods of classes and data types.
-/

namespace ClassLang

/-- An operation found on the type of a receiver. -/
inductive Operation where
  /-- Arithmetic or a shift; the result has the operand's type. -/
  | arith (op : BinaryOp)
  /-- A comparison; the result is a Boolean. -/
  | compare (op : BinaryOp)
  /-- A read of field `index` of the receiver's record. -/
  | element (index : Nat) (result : TypeId)
  | method (sig : Signature)
deriving DecidableEq, Repr

namespace Operation

/-- The type of the result on a receiver of type `operand`. -/
def resultType (operand : TypeId) : Operation → TypeId
  | arith _ => operand
  | compare _ => .boolean
  | element _ result => result
  | method sig => sig.result

end Operation

namespace TypeData

/-- The built-in operator of an entry: an Integer has all of them, a Char the comparisons, and a
Boolean equality and inequality. -/
def operator? (d : TypeData) (op : BinaryOp) : Option Operation :=
  match d with
  | integer => some (if op.isComparison then .compare op else .arith op)
  | char => if op.isComparison then some (.compare op) else none
  | boolean => if op = .eq ∨ op = .ne then some (.compare op) else none
  | _ => none

/-- The methods of a class or data type. -/
def methods : TypeData → List Signature
  | reference _ _ methods => methods
  | data _ _ methods => methods
  | _ => []

/-- The method of a class or data type with the given name. -/
def method? (d : TypeData) (name : String) : Option Signature :=
  d.methods.find? (·.name == name)

/-- The operation that is looked up by a plain name: a field of a built-in record or a method. -/
def namedOperation? (d : TypeData) (name : String) : Option Operation :=
  match d with
  | string => if name = "c_str" then some (.element 1 .charPointer) else none
  | typeRecord => if name = "name" then some (.element 0 .string) else none
  | dynamic => if name = "type" then some (.element 0 .type) else none
  | _ => (d.method? name).map .method

end TypeData

end ClassLang
