import ClassLang.Execution.Host
import ClassLang.IR.Check

/-!
# Calling compiled functions

An evaluator holds a well-formed module, what its functions without a body stand for, and the world
they run in. Functions are called by name; one that takes no parameters and has the expected result
can be called.
-/

namespace ClassLang.Execution

open IR (FunctionId Ty)

/-- The result that a caller expects. -/
inductive ResultKind where
  | integer | address | nothing
deriving DecidableEq, Repr

namespace ResultKind

/-- The result type of a function with this result. -/
def type : ResultKind → Option Ty
  | integer => some .i32
  | address => some .ptr
  | nothing => none

/-- The signature of a function without parameters that has this result. -/
def signature : ResultKind → String
  | integer => "i32 ()"
  | address => "ptr ()"
  | nothing => "void ()"

end ResultKind

/-- Why a function cannot be called or bound. -/
inductive EvalError where
  /-- The module is not well formed. -/
  | invalid
  | missing (name : String)
  /-- A function with a body cannot stand for one of the surroundings. -/
  | defined (name : String)
  | signature (name : String) (expected : ResultKind)
  /-- The call came to an operation that is not defined. -/
  | stuck (name : String)
  /-- The call was not over within its bound. -/
  | unfinished (name : String)
deriving DecidableEq, Repr

/-- The text of an error. -/
def EvalError.message : EvalError → String
  | invalid => "module does not verify"
  | missing name => s!"no function '{name}' in the module"
  | defined name => s!"'{name}' has a body and cannot be bound to an external address"
  | signature name expected => s!"'{name}' does not have the signature '{expected.signature}'"
  | stuck name => s!"'{name}' came to an undefined operation"
  | unfinished name => s!"'{name}' did not finish"

/-- A module ready to run. -/
structure Evaluator where
  module : IR.Module
  /-- What functions without a body stand for; the latest binding of a function counts. -/
  bindings : List (FunctionId × HostFunction) := []
  world : World Host

namespace Evaluator

/-- The bound on the steps of one call. -/
def stepLimit : Nat := Nat.pow 2 48

/-- Make a module ready to run. -/
def load (m : IR.Module) : Except EvalError Evaluator :=
  if m.isWellFormed then
    .ok { module := m, world := { memory := Memory.ofGlobals m.structs m.globals, host := {} } }
  else .error .invalid

/-- What the machine needs to know. -/
def context (e : Evaluator) : Context Host where
  module := e.module
  external function args world := do (← e.bindings.lookup function).call? args world

/-- The function with a name. -/
def function (e : Evaluator) (name : String) : Except EvalError FunctionId :=
  match e.module.findFunction? name with
  | some id => .ok id
  | none => .error (.missing name)

/-- Let a function without a body stand for one of the surroundings. -/
def bind (e : Evaluator) (name : String) (target : HostFunction) : Except EvalError Evaluator := do
  let id ← e.function name
  if (e.module.function id).hasBody then throw (.defined name)
  return { e with bindings := (id, target) :: e.bindings }

/-- Bind every function of the surroundings that the module declares without a body. -/
def bindAll (e : Evaluator) : Evaluator :=
  HostFunction.all.foldl (fun e f => (e.bind f.name f).toOption.getD e) e

/-- Call a function without parameters by name. -/
def call (e : Evaluator) (expected : ResultKind) (name : String) :
    Except EvalError (Option Datum × Evaluator) := do
  let id ← e.function name
  let type := (e.module.function id).type
  if !type.params.isEmpty || type.result != expected.type then throw (.signature name expected)
  match e.context.runFunction stepLimit id [] e.world with
  | .finished result world => return (result, { e with world })
  | .stuck => throw (.stuck name)
  | .unfinished => throw (.unfinished name)

/-- The text of the string record at an address: its length in bytes, and after that the address of
its characters. -/
def text? (e : Evaluator) (record : Address) : Option String := do
  let .int .w32 length ← e.world.memory.load? .i32 record | none
  let .address chars ← e.world.memory.load? .ptr (← record.shift? 8) | none
  textOfBytes? (← e.world.memory.bytesFrom? chars length.toNat)

/-- Forget what was written down so far. -/
def clearNotes (e : Evaluator) : Evaluator :=
  { e with world := { e.world with host := { e.world.host with notes := #[] } } }

end Evaluator

end ClassLang.Execution
