import ClassLang.Lowering.Layout

/-!
# Function bodies

A function under construction has one exit block. Every `return`, and the end of the body, leads
there; the exit block merges the returned values and returns. Locals live in stack slots made in
the entry block.
-/

namespace ClassLang

open IR (BlockRef Build FunctionId Ty Value)

/-- Where a name finds its value. -/
inductive Storage where
  /-- A value that never changes: what a pattern binds. -/
  | fixed (value : Value)
  /-- A stack slot with values of the given type. -/
  | slot (address : Value) (type : Ty)

/-- A function under construction. -/
structure Body where
  function : FunctionId
  /-- The walk whose findings describe the body. -/
  walk : InstanceId
  /-- The type whose method is generated. -/
  owner : Option TypeId
  /-- The receiver; there is none in functions and lambdas. -/
  receiver : Option Value := none
  /-- The names in scope; the first entry of a name counts. -/
  scope : List (String × Storage) := []
  /-- The function's name in messages. -/
  name : String
  /-- The declared result. -/
  result : TypeId
  exit : BlockRef
  /-- The value and block of every edge to the exit block that brings a value. -/
  returnSites : List (Value × BlockRef) := []

/-- A step of generating a function body. -/
abbrev Lower := StateT Body Emit

namespace Lower

variable (ctx : LoweringContext)

/-- Stop because a type does not fit. -/
def mismatch {α : Type} (text : String) : Lower α :=
  Emit.fail (.typeMismatch text)

/-- Stop because an invariant of the compiler is broken. -/
def broken {α : Type} (text : String) : Lower α :=
  Emit.broken text

/-- Run a step of building. -/
def build {α : Type} (step : Build α) : Lower α :=
  Emit.build step

/-- The concrete type recorded for a node. -/
def typeOf (node : NodeId) : Lower TypeId := do
  let t ← Emit.ofExcept (ctx.typed.table.typeOf { walk := (← get).walk, node })
  Emit.resolve ctx t

/-- What a node means. -/
def target (node : NodeId) : Lower Target := do
  Emit.ofExcept (ctx.typed.table.target { walk := (← get).walk, node })

/-- A new block of the function. -/
def block (label : String) : Lower BlockRef := do
  build (Build.appendBlock (← get).function label)

/-- Whether nothing can be added at the current place. -/
def terminated : Lower Bool :=
  return (← getThe Output).builder.isTerminated

/-! ## Locals -/

/-- Bind a name. -/
def bind (name : String) (storage : Storage) : Lower Unit :=
  modify fun b => { b with scope := (name, storage) :: b.scope }

/-- Make a local with a value. -/
def bindLocal (name : String) (value : Value) (t : TypeId) : Lower Unit := do
  let type ← Emit.valueType ctx t
  let function := (← get).function
  let slot ← build do
    let slot ← Build.entryAlloca function (name ++ ".addr") type
    Build.store value slot
    pure slot
  bind name (.slot slot type)

/-- Copy a parameter into a local of its name. -/
def bindParam (index : Nat) (name : String) (t : TypeId) : Lower Unit := do
  let function := (← get).function
  build (Build.setParamName function index name)
  let value := (← getThe Output).builder.param function index
  bindLocal ctx name value t

/-- The value of a local. -/
def loadLocal (name : String) : Lower Value := do
  match (← get).scope.lookup name with
  | some (.fixed value) => pure value
  | some (.slot address type) => build (Build.load type address name)
  | none => broken s!"'{name}' has no storage in this function"

/-- The receiver of the method. -/
def receiver : Lower Value := do
  match (← get).receiver with
  | some value => pure value
  | none => mismatch "'self' is not available inside a lambda"

/-! ## Conversion -/

/-- Room for a struct: in the function's stack frame, or from the memory function. -/
def allocate (type : Ty) (onStack : Bool) (name : String) : Lower Value := do
  let o ← getThe Output
  if onStack then
    build (Build.entryAlloca (← get).function name type)
  else
    let size : Value := .const (.int .w64 (o.builder.sizeOf type))
    match ← build (Build.call o.malloc [size] name) with
    | some address => pure address
    | none => broken "malloc returned no value"

/-- Box a value together with the record of its type. -/
def boxDynamic (value : Value) (t : TypeId) : Lower Value := do
  let struct ← Emit.dynamicLayout ctx t
  let header ← Emit.layout ctx .dynamic
  let record ← Emit.runtimeType ctx t
  let box ← allocate struct false "dynamic"
  build do
    let headerAddress ← Build.structField struct box 0 "dynamic.header"
    let typeSlot ← Build.structField header headerAddress 0 "dynamic.type"
    Build.store record typeSlot
    let payload ← Build.structField struct box 1 "dynamic.value"
    Build.store value payload
  pure box

/-- Whether a box holds a value of type `t`. -/
def dynamicHolds (box : Value) (t : TypeId) : Lower Value := do
  let header ← Emit.layout ctx .dynamic
  let record ← Emit.runtimeType ctx t
  build do
    let typeSlot ← Build.structField header box 0 "type.ptr"
    let held ← Build.load .ptr typeSlot "type"
    Build.comparePtr .eq held record "holds"

/-- The value in a box that holds a value of type `t`. -/
def unboxDynamic (box : Value) (t : TypeId) : Lower Value := do
  let struct ← Emit.dynamicLayout ctx t
  let type ← Emit.valueType ctx t
  build do
    let slot ← Build.structField struct box 1 "payload.ptr"
    Build.load type slot "payload"

/-- Turn a value of type `source` into one of type `wanted`. -/
def convert (value : Value) (source wanted : TypeId) : Lower Value := do
  match ctx.pool.conversion? source wanted with
  | some .identity => pure value
  | some .widenBool => build (Build.widen value .i32 "widen")
  | some .castClosure => pure value
  | some .wrapDynamic => boxDynamic ctx value source
  | none =>
    let shown := ctx.pool.display source
    mismatch s!"unable to convert a '{shown}' to a '{ctx.pool.display wanted}'"

/-! ## Returning -/

/-- Whether the function returns nothing. -/
def returnsVoid : Lower Bool :=
  return (← get).result = .void

/-- Go to the exit block without a value. -/
def returnVoid : Lower Unit := do
  build (Build.jump (← get).exit)

/-- Go to the exit block with a value of type `t`. -/
def returnValue (value : Value) (t : TypeId) : Lower Unit := do
  let value ← convert ctx value t (← get).result
  match (← getThe Output).builder.currentBlock with
  | some block => modify fun b => { b with returnSites := b.returnSites ++ [(value, block)] }
  | none => pure ()
  returnVoid

/-- The end of a body is reached with the value of the body's node, if it has one. -/
def fallThrough (value : Option Value) (body : NodeId) : Lower Unit := do
  let b ← get
  if b.result = .void then returnVoid
  else
    match value with
    | some value => returnValue ctx value (← typeOf ctx body)
    | none =>
      let wanted := ctx.pool.display b.result
      mismatch s!"'{b.name}' can reach its end without returning a '{wanted}'"

/-- Open a function for its body. -/
def start (function : FunctionId) (walk : InstanceId) (owner : Option TypeId) (name : String)
    (result : TypeId) : Emit Body := do
  if ((← get).builder.module.function function).hasBody then
    Emit.fail (.typeMismatch s!"'{name}' is defined more than once")
  let result ← Emit.resolve ctx result
  let exit ← Emit.build do
    let entry ← Build.appendBlock function "entry"
    let exit ← Build.appendBlock function "exit"
    Build.setCurrentFunction function
    Build.positionAtEnd entry
    pure exit
  pure { function, walk, owner, name, result, exit }

/-- Generate a body with `lower`, then the exit block. -/
def finish (lower : NodeId → Lower (Option Value)) (body : NodeId) : Lower Unit := do
  let value ← lower body
  if !(← terminated) then fallThrough ctx value body
  let b ← get
  build do
    Build.moveBlockToEnd b.exit
    Build.positionAtEnd b.exit
  if b.result = .void then build Build.retVoid
  else
    let type ← Emit.valueType ctx b.result
    build do
      match ← Build.phi type b.returnSites "return_value" with
      | some value => Build.ret value
      | none => Build.unreachable

end Lower

end ClassLang
