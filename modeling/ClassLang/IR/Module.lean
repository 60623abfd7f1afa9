import ClassLang.IR.Names
import ClassLang.IR.Type

/-!
# Modules of intermediate code

A module holds structs, constant globals and functions. A function has blocks of instructions; the
last instruction of a finished block says where control goes next. Every instruction has a number
in its function, and values refer to parameters and results of instructions by number.
-/

namespace ClassLang.IR

/-- A constant. -/
inductive Const where
  /-- An integer, as the signed number of its width. -/
  | int (width : Width) (value : Int)
  /-- The address of nothing. -/
  | null
  /-- The result of an undefined operation. -/
  | poison (type : Ty)
  | bytes (data : List UInt8)
  | struct (id : StructId) (fields : List Const)
  /-- The address of a global. -/
  | globalAddr (id : GlobalId)
  /-- The address of a function. -/
  | functionAddr (id : FunctionId)
  /-- The address of a field of the struct at a constant address. -/
  | fieldAddr (struct : StructId) (base : Const) (index : Nat)
deriving Repr

instance : Inhabited Const := ⟨.null⟩

namespace Const

/-- The type of a constant. -/
def type : Const → Ty
  | int w _ => .int w
  | null | globalAddr _ | functionAddr _ | fieldAddr .. => .ptr
  | poison t => t
  | bytes data => .bytes data.length
  | struct id _ => .struct id

/-- The constant of a truth value. -/
def bool (b : Bool) : Const :=
  .int .w1 (if b then -1 else 0)

mutual

/-- Whether all bits of a constant are zero. -/
def isZero : Const → Bool
  | int _ n => n == 0
  | null => true
  | bytes data => data.all (· == 0)
  | struct _ fields => allZero fields
  | poison _ | globalAddr _ | functionAddr _ | fieldAddr .. => false

/-- Whether all bits of several constants are zero. -/
def allZero : List Const → Bool
  | [] => true
  | c :: rest => isZero c && allZero rest

end

end Const

/-- An operand: a constant, a parameter, or the result of an instruction. -/
inductive Value where
  | const (c : Const)
  | param (function : FunctionId) (index : Nat) (type : Ty)
  | result (function : FunctionId) (id : Nat) (type : Ty)
deriving Repr

instance : Inhabited Value := ⟨.const default⟩

namespace Value

/-- The type of an operand. -/
def type : Value → Ty
  | const c => c.type
  | param _ _ t => t
  | result _ _ t => t

/-- Whether the operand is an address. -/
def isPtr (v : Value) : Bool :=
  v.type == .ptr

/-- Whether the operand is an integer. -/
def isInt (v : Value) : Bool :=
  v.type.isInt

/-- The constant behind an operand; anything else counts as undefined. -/
def toConst : Value → Const
  | const c => c
  | v => .poison v.type

end Value

/-- Integer operations. -/
inductive IntOp where
  | add | sub | mul | sdiv | srem | shl | ashr | xor
deriving DecidableEq, Repr

/-- Comparisons of integers, which are signed, and of addresses. -/
inductive Predicate where
  | eq | ne | slt | sle | sgt | sge
deriving DecidableEq, Repr

/-- What a call goes to. -/
inductive Callee where
  | direct (function : FunctionId)
  /-- The function at an address. -/
  | indirect (target : Value)
deriving Repr

/-- A block of a function: the function and the number of the block in order of creation. -/
structure BlockRef where
  function : FunctionId
  block : Nat
deriving DecidableEq, Repr

/-- What an instruction does. -/
inductive Op where
  /-- A stack slot. -/
  | alloca (type : Ty)
  | load (type : Ty) (address : Value)
  | store (value address : Value)
  /-- The address of a field. -/
  | field (struct : StructId) (base : Value) (index : Nat)
  | binary (op : IntOp) (lhs rhs : Value)
  | compare (predicate : Predicate) (lhs rhs : Value)
  /-- Extension to a wider integer with zero bits. -/
  | widen (value : Value) (type : Ty)
  | call (callee : Callee) (type : FnType) (args : List Value)
  /-- The value that belongs to the block control came from. -/
  | phi (type : Ty) (incoming : List (Value × BlockRef))
  | jump (target : BlockRef)
  | branch (cond : Value) (yes no : BlockRef)
  | ret (value : Option Value)
  | unreachable
deriving Repr

instance : Inhabited Op := ⟨.unreachable⟩

namespace Op

/-- The type of the result; none if there is none. -/
def resultType? : Op → Option Ty
  | alloca _ | field .. => some .ptr
  | load t _ | widen _ t | phi t _ => some t
  | binary _ lhs _ => some lhs.type
  | compare .. => some .i1
  | call _ t _ => t.result
  | store .. | jump _ | branch .. | ret _ | unreachable => none

/-- Whether the operation ends its block. -/
def isTerminator : Op → Bool
  | jump _ | branch .. | ret _ | unreachable => true
  | _ => false

/-- The blocks that control may go to next. -/
def successors : Op → List BlockRef
  | jump target => [target]
  | branch _ yes no => [yes, no]
  | _ => []

end Op

/-- An instruction with its number in the function and the name of its result. -/
structure Instruction where
  id : Nat
  name : String
  op : Op
deriving Repr

/-- A block: its label and its instructions in order. -/
structure Block where
  label : String
  instructions : List Instruction := []
deriving Repr

instance : Inhabited Block := ⟨{ label := "" }⟩

namespace Block

/-- The instruction that ends the block, if its last one does. -/
def terminator? (b : Block) : Option Op :=
  match b.instructions.getLast? with
  | some i => if i.op.isTerminator then some i.op else none
  | none => none

/-- Whether the block ends in a terminator. -/
def isTerminated (b : Block) : Bool :=
  b.terminator?.isSome

/-- The blocks that control may go to from this block. -/
def successors (b : Block) : List BlockRef :=
  match b.terminator? with
  | some op => op.successors
  | none => []

end Block

/-- A function; one without blocks is declared only. -/
structure Function where
  name : String
  type : FnType
  /-- The blocks in order of creation. -/
  blocks : Array Block := #[]
  /-- The numbers of the blocks in layout order; the first is the entry. -/
  layout : List Nat := []
  /-- The names of the parameters; an empty name is none. -/
  paramNames : List String
  /-- The names of parameters, results and blocks. -/
  names : NameTable := .locals
  /-- The number of the next instruction. -/
  nextId : Nat := 0
deriving Repr

namespace Function

instance : Inhabited Function := ⟨{ name := "", type := default, paramNames := [] }⟩

/-- A function that is declared only. -/
def declared (name : String) (type : FnType) : Function :=
  { name, type, paramNames := type.params.map fun _ => "" }

/-- Whether the function has blocks. -/
def hasBody (f : Function) : Bool :=
  !f.blocks.isEmpty

/-- The block with a number. -/
def block (f : Function) (number : Nat) : Block :=
  f.blocks.getD number default

/-- The number of the entry block. -/
def entryBlock? (f : Function) : Option Nat :=
  f.layout.head?

/-- The labels in layout order. -/
def labels (f : Function) : List String :=
  f.layout.map fun number => (f.block number).label

/-- Change a block. -/
def modifyBlock (f : Function) (number : Nat) (change : Block → Block) : Function :=
  { f with blocks := f.blocks.modify number change }

end Function

/-- A constant global. -/
structure Global where
  name : String
  type : Ty
  init : Const
deriving Repr

instance : Inhabited Global := ⟨{ name := "", type := default, init := default }⟩

/-- A module. -/
structure Module where
  name : String
  structs : Structs := #[]
  structNames : NameTable := .structs
  globals : Array Global := #[]
  functions : Array Function := #[]
  /-- The names of globals and functions. -/
  symbols : NameTable := .symbols
deriving Repr

namespace Module

instance : Inhabited Module := ⟨{ name := "" }⟩

/-- The function with a number. -/
def function (m : Module) (id : FunctionId) : Function :=
  m.functions.getD id default

/-- The number of the function with a name. -/
def findFunction? (m : Module) (name : String) : Option FunctionId :=
  m.functions.findIdx? (·.name == name)

/-- A block of a function. -/
def block (m : Module) (b : BlockRef) : Block :=
  (m.function b.function).block b.block

/-- Change a function. -/
def modifyFunction (m : Module) (id : FunctionId) (change : Function → Function) : Module :=
  { m with functions := m.functions.modify id change }

/-- Change a block. -/
def modifyBlock (m : Module) (b : BlockRef) (change : Block → Block) : Module :=
  m.modifyFunction b.function (·.modifyBlock b.block change)

end Module

end ClassLang.IR
