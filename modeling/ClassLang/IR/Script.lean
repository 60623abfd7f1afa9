import ClassLang.IR.Builder
import ClassLang.IR.Check
import ClassLang.IR.Printer

/-!
# Building by numbers

A script builds a module with commands that refer to types, values, blocks and functions by number.
Each command that hands something out gives it the next number of its kind, also if the same thing
has a number already; where a command refuses its operand it hands the operand's own number back.
-/

namespace ClassLang.IR

/-- The types of a function by number. -/
structure ScriptSignature where
  params : List Nat
  result : Option Nat
  varargs : Bool
deriving DecidableEq, Repr

/-- A command of a script. -/
inductive Command where
  | intType (width : Width)
  | ptrType
  | namedStruct (name : String)
  | typeOf (value : Nat)
  | constInt (width : Width) (value : Int)
  | constNull
  | constString (text : String)
  | constStruct (type : Nat) (fields : List Nat)
  | functionValue (function : Nat)
  | getParam (function index : Nat)
  | addConstant (name : String) (type init : Nat)
  | binary (op : IntOp) (lhs rhs : Nat) (name : String)
  | not (value : Nat) (name : String)
  | compare (predicate : Predicate) (lhs rhs : Nat) (name : String)
  | comparePtr (predicate : Predicate) (lhs rhs : Nat) (name : String)
  | widen (value type : Nat) (name : String)
  | cast (value type : Nat) (name : String)
  | alloca (function : Nat) (name : String) (type : Nat)
  | load (type address : Nat) (name : String)
  | structField (type base index : Nat) (name : String)
  | call (function : Nat) (args : List Nat) (name : String)
  | callIndirect (sig : ScriptSignature) (target : Nat) (args : List Nat) (name : String)
  | phi (type : Nat) (incoming : List (Nat × Nat)) (name : String)
  | declareFunction (name : String) (sig : ScriptSignature)
  | getFunction (name : String)
  | appendBlock (function : Nat) (label : String)
  | structHasBody (type : Nat)
  | signatureMatches (function : Nat) (sig : ScriptSignature)
  | hasBody (function : Nat)
  | terminated
  | verify
  | structName (type : Nat)
  | functionName (function : Nat)
  | sizeOf (type : Nat)
  | hostSize
  | current
  | blockLabels (function : Nat)
  | errors
  | print
  | setStructBody (type : Nat) (fields : List Nat)
  | setParamName (function index : Nat) (name : String)
  | setCurrentFunction (function : Nat)
  | positionAtEnd (block : Nat)
  | moveBlockToEnd (block : Nat)
  | save
  | restore
  | store (value address : Nat)
  | jump (block : Nat)
  | branch (cond yes no : Nat)
  | ret (value : Nat)
  | retVoid
  | unreachable
deriving DecidableEq, Repr

/-- The answer to a command. -/
inductive Answer where
  | nothing
  | number (n : Nat)
  | truth (b : Bool)
  | text (s : String)
  | texts (lines : List String)
  /-- The current function and block. -/
  | place (function block : Option Nat)
deriving DecidableEq, Repr

/-- The state of a script. -/
structure Script where
  builder : Builder
  types : Array Ty := #[]
  values : Array Value := #[]
  blocks : Array BlockRef := #[]
  /-- The saved positions, latest first, each with the number of its block. -/
  saved : List (Position × Option Nat) := []
  /-- The number of the current block. -/
  currentBlock : Option Nat := none

namespace Script

/-- A script that builds a module of the given name. -/
def ofName (name : String) : Script := { builder := .ofName name }

variable (s : Script)

/-- The type with a number. -/
def type (n : Nat) : Ty := s.types.getD n default

/-- The value with a number. -/
def value (n : Nat) : Value := s.values.getD n default

/-- The block with a number. -/
def block (n : Nat) : BlockRef := s.blocks.getD n { function := 0, block := 0 }

/-- The types of a function. -/
def signature (sig : ScriptSignature) : FnType :=
  { params := sig.params.map s.type, result := sig.result.map s.type, varargs := sig.varargs }

/-- Hand out a type. -/
def giveType (t : Ty) : Answer × Script :=
  (.number s.types.size, { s with types := s.types.push t })

/-- Hand out a value. -/
def giveValue (v : Value) : Answer × Script :=
  (.number s.values.size, { s with values := s.values.push v })

/-- Hand out a value if there is one. -/
def giveValue? : Option Value → Answer × Script
  | some v => s.giveValue v
  | none => (.nothing, s)

/-- Run a step of building. -/
def build {α : Type} (step : Build α) : α × Script :=
  let (a, builder) := step.run s.builder
  (a, { s with builder })

/-- Run a step of building and hand out its value. -/
def buildValue (step : Build Value) : Answer × Script :=
  let (v, s) := s.build step
  s.giveValue v

/-- Run a step of building that may have a value. -/
def buildValue? (step : Build (Option Value)) : Answer × Script :=
  let (v, s) := s.build step
  s.giveValue? v

/-- Run a step of building without an answer. -/
def act (step : Build Unit) : Answer × Script :=
  (.nothing, (s.build step).2)

/-- Run a step of building that takes an operand back if it refuses it. -/
def buildUnless (refused : Bool) (operand : Nat) (step : Build Value) : Answer × Script :=
  let (v, s) := s.build step
  if refused then (.number operand, s) else s.giveValue v

/-- Run a command. -/
def run (c : Command) : Answer × Script :=
  match c with
  | .intType w => s.giveType (.int w)
  | .ptrType => s.giveType .ptr
  | .namedStruct name =>
    let (t, s) := s.build (Build.namedStruct name)
    s.giveType t
  | .typeOf v => s.giveType (s.value v).type
  | .constInt w n => s.giveValue (.const (.int w (w.wrap n)))
  | .constNull => s.giveValue (.const .null)
  | .constString text => s.giveValue (.const (.bytes (text.toUTF8.toList ++ [0])))
  | .constStruct t fields => s.buildValue (Build.constStruct (s.type t) (fields.map s.value))
  | .functionValue f => s.giveValue (.const (.functionAddr f))
  | .getParam f index => s.giveValue (s.builder.param f index)
  | .addConstant name t init => s.buildValue (Build.addConstant name (s.type t) (s.value init))
  | .binary op lhs rhs name => s.buildValue (Build.binary op (s.value lhs) (s.value rhs) name)
  | .not v name => s.buildValue (Build.not (s.value v) name)
  | .compare p lhs rhs name => s.buildValue (Build.compare p (s.value lhs) (s.value rhs) name)
  | .comparePtr p lhs rhs name =>
    s.buildValue (Build.comparePtr p (s.value lhs) (s.value rhs) name)
  | .widen v t name =>
    s.buildUnless (!(s.value v).isInt || !(s.type t).isInt) v
      (Build.widen (s.value v) (s.type t) name)
  | .cast v _ _ => s.giveValue (s.value v)
  | .alloca f name t => s.buildValue (Build.entryAlloca f name (s.type t))
  | .load t address name =>
    s.buildUnless (!(s.value address).isPtr) address
      (Build.load (s.type t) (s.value address) name)
  | .structField t base index name =>
    s.buildValue (Build.structField (s.type t) (s.value base) index name)
  | .call f args name => s.buildValue? (Build.call f (args.map s.value) name)
  | .callIndirect sig target args name =>
    s.buildValue?
      (Build.callIndirect (s.signature sig) (s.value target) (args.map s.value) name)
  | .phi t incoming name =>
    match incoming with
    | [(single, _)] => (.number single, s)
    | _ =>
      s.buildValue? (Build.phi (s.type t)
        (incoming.map fun (v, b) => (s.value v, s.block b)) name)
  | .declareFunction name sig =>
    let (f, s) := s.build (Build.declareFunction name (s.signature sig))
    (.number f, s)
  | .getFunction name =>
    match s.builder.function? name with
    | some f => (.number f, s)
    | none => (.nothing, s)
  | .appendBlock f label =>
    let (b, s) := s.build (Build.appendBlock f label)
    (.number s.blocks.size, { s with blocks := s.blocks.push b })
  | .structHasBody t => (.truth (s.builder.structHasBody (s.type t)), s)
  | .signatureMatches f sig =>
    (.truth ((s.builder.module.function f).type == s.signature sig), s)
  | .hasBody f => (.truth (s.builder.module.function f).hasBody, s)
  | .terminated => (.truth s.builder.isTerminated, s)
  | .verify => (.truth s.builder.module.isWellFormed, s)
  | .structName t =>
    match s.builder.structName? (s.type t) with
    | some name => (.text name, s)
    | none => (.nothing, s)
  | .functionName f => (.text (s.builder.module.function f).name, s)
  | .sizeOf t => (.number (s.builder.sizeOf (s.type t)), s)
  | .hostSize => (.number (s.builder.sizeOf .ptr), s)
  | .current => (.place s.builder.currentFunction s.currentBlock, s)
  | .blockLabels f => (.texts (s.builder.module.function f).labels, s)
  | .errors => (.number s.builder.errors, s)
  | .print => (.texts s.builder.module.lines, s)
  | .setStructBody t fields => s.act (Build.setStructBody (s.type t) (fields.map s.type))
  | .setParamName f index name => s.act (Build.setParamName f index name)
  | .setCurrentFunction f => s.act (Build.setCurrentFunction f)
  | .positionAtEnd b =>
    ({ s with currentBlock := some b } : Script).act (Build.positionAtEnd (s.block b))
  | .moveBlockToEnd b => s.act (Build.moveBlockToEnd (s.block b))
  | .save => (.nothing, { s with saved := (s.builder.position, s.currentBlock) :: s.saved })
  | .restore =>
    match s.saved with
    | [] => (.nothing, s)
    | (position, currentBlock) :: saved =>
      ({ s with saved, currentBlock } : Script).act (Build.restore position)
  | .store v address => s.act (Build.store (s.value v) (s.value address))
  | .jump b => s.act (Build.jump (s.block b))
  | .branch cond yes no =>
    s.act (Build.branch (s.value cond) (s.block yes) (s.block no))
  | .ret v => s.act (Build.ret (s.value v))
  | .retVoid => s.act Build.retVoid
  | .unreachable => s.act Build.unreachable

end Script

end ClassLang.IR
