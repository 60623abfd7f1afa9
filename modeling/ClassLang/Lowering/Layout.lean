import ClassLang.Lowering.Output

/-!
# Types in generated code

Integers, Booleans and Chars are passed as they are; everything else is the address of a struct,
which is laid out on first use:

* a `String` is a length and the address of its bytes, a `Type` the address of its name, a `Dynamic`
  the address of a `Type`;
* a class has one field for each instance variable, in order;
* a data type is its tag, and a case is the data type's struct followed by the fields;
* a closure is the address of its function followed by the captured values;
* a boxed value is a `Dynamic` followed by the value.

Every type has a struct of its own, also if it is spelled like another one.
-/

namespace ClassLang.Emit

open IR (Build FnType FunctionId Ty Value)

variable (ctx : LoweringContext)

/-- The type that `t` stands for, which must be known by now. -/
def resolve (t : TypeId) : Emit TypeId :=
  ofExcept (ctx.pool.resolveStrict t)

/-- The type of a value in generated code. -/
def valueType (t : TypeId) : Emit Ty := do
  match ctx.pool.data (← resolve ctx t) with
  | .integer => pure .i32
  | .boolean => pure .i1
  | .char => pure .i8
  | .void => broken "'Void' has no value representation"
  | .var _ | .derived .. => broken "unresolved type reached code generation"
  | _ => pure .ptr

/-- The result of a function in generated code. -/
def returnType (t : TypeId) : Emit (Option Ty) := do
  if (← resolve ctx t) = .void then pure none
  else return some (← valueType ctx t)

/-- A new struct with the given fields. -/
def defineStruct (name : String) (fields : List Ty) : Emit Ty := build do
  let t ← Build.namedStruct name
  Build.setStructBody t fields
  pure t

/-- Remember the struct of a type. -/
def setLayout (t : TypeId) (struct : Ty) : Emit Unit :=
  modify fun o => { o with layouts := (t, struct) :: o.layouts }

/-- The name of a closure's struct. -/
def closureLayoutName (shape : ClosureShape) : String :=
  let spelled (ts : List TypeId) : String := ", ".intercalate (ts.map ctx.pool.display)
  let signature := "(" ++ spelled shape.params ++ " => " ++ ctx.pool.display shape.result ++ ")"
  if shape.captures.isEmpty then "lambda<" ++ signature ++ ">"
  else "lambda<" ++ signature ++ ", " ++ spelled shape.captures ++ ">"

/-- The struct of a closure. Closures with the same parts share it, and all closures begin with
the address of their function. -/
def closureLayout (params : List TypeId) (result : TypeId) (captures : List TypeId) :
    Emit Ty := do
  let params ← params.mapM (resolve ctx)
  let result ← resolve ctx result
  let captures ← captures.mapM (resolve ctx)
  let shape : ClosureShape := { params, result, captures }
  match (← get).closureLayouts.lookup shape with
  | some t => pure t
  | none =>
    let fields ← captures.mapM (valueType ctx)
    let t ← defineStruct (closureLayoutName ctx shape) (.ptr :: fields)
    modify fun o => { o with closureLayouts := (shape, t) :: o.closureLayouts }
    pure t

/-- The struct of a data type, which holds its tag. -/
def dataLayout (t : TypeId) : Emit Ty := do
  let t ← resolve ctx t
  match (← get).layouts.lookup t, ctx.pool.data t with
  | some struct, _ => pure struct
  | none, .data name _ _ =>
    let struct ← defineStruct name [.i32]
    setLayout t struct
    pure struct
  | none, _ => broken s!"'{ctx.pool.display t}' has no struct layout"

/-- The struct that values of a type point at. A class is remembered before its fields are looked
at. -/
def layout (t : TypeId) : Emit Ty := do
  let t ← resolve ctx t
  match (← get).layouts.lookup t with
  | some struct => pure struct
  | none =>
    let struct ← match ctx.pool.data t with
      | .string => defineStruct "String" [.i32, .ptr]
      | .typeRecord => defineStruct "Type" [.ptr]
      | .dynamic => defineStruct "Dynamic" [.ptr]
      | .reference name ivars _ => do
        let struct ← build (Build.namedStruct name)
        setLayout t struct
        let fields ← ivars.mapM fun (_, type) => valueType ctx type
        build (Build.setStructBody struct fields)
        pure struct
      | .data name _ _ => defineStruct name [.i32]
      | .variant name _ _ owner fields => do
        let envelope ← dataLayout ctx owner
        let fields ← fields.mapM fun (_, type) => valueType ctx type
        defineStruct name (envelope :: fields)
      | .closure params result captures => closureLayout ctx params result captures
      | _ => broken s!"'{ctx.pool.display t}' has no struct layout"
    setLayout t struct
    pure struct

/-- The type of a closure's function, which takes the closure itself first. -/
def closureFnType (params : List TypeId) (result : TypeId) : Emit FnType := do
  let params ← params.mapM (valueType ctx)
  pure { params := .ptr :: params, result := ← returnType ctx result }

/-- The type of a function; a method takes its receiver first. -/
def signatureType (sig : Signature) (receiver : Bool) : Emit FnType := do
  let params ← sig.paramTypes.mapM (valueType ctx)
  pure {
    params := if receiver then .ptr :: params else params
    result := ← returnType ctx sig.result
    varargs := sig.varargs }

/-- The struct of a value of type `payload` boxed as `Dynamic`. -/
def dynamicLayout (payload : TypeId) : Emit Ty := do
  let payload ← resolve ctx payload
  match (← get).dynamicLayouts.lookup payload with
  | some t => pure t
  | none =>
    let header ← layout ctx .dynamic
    let value ← valueType ctx payload
    let t ← defineStruct ("talon.Dynamic[" ++ ctx.pool.display payload ++ "]") [header, value]
    modify fun o => { o with dynamicLayouts := (payload, t) :: o.dynamicLayouts }
    pure t

/-- The address of the `String` record of a text. -/
def stringLiteral (text : String) : Emit Value := do
  match (← get).strings.lookup text with
  | some record => pure record
  | none =>
    let length := text.utf8ByteSize
    if length ≥ Nat.pow 2 31 then fail (.typeMismatch "string literal is too long")
    let struct ← layout ctx .string
    let record ← build do
      let data : Value := .const (.bytes (text.toUTF8.toList ++ [0]))
      let chars ← Build.addConstant ".str" data.type data
      let init ← Build.constStruct struct [.const (.int .w32 length), chars]
      Build.addConstant ".string" struct init
    modify fun o => { o with strings := (text, record) :: o.strings }
    pure record

/-- The address of the record that describes a type at run time. -/
def runtimeType (t : TypeId) : Emit Value := do
  let t ← resolve ctx t
  match (← get).runtimeTypes.lookup t with
  | some record => pure record
  | none =>
    let name := ctx.pool.display t
    let nameRecord ← stringLiteral ctx name
    let struct ← layout ctx .type
    let record ← build do
      let init ← Build.constStruct struct [nameRecord]
      Build.addConstant ("talon.Type." ++ name) struct init
    modify fun o => { o with runtimeTypes := (t, record) :: o.runtimeTypes }
    pure record

/-- The parts of a case: its symbol, short name, tag, data type and fields. The tag is the position of
the case in its data type. It is taken to fit into a signed number of 32 bits, as it does in every
data type of at most `2 ^ 31` cases; the program checks this wherever it uses a tag and reports an
internal error otherwise. -/
structure CaseParts where
  name : String
  shortName : String
  tag : Nat
  owner : TypeId
  fields : List (String × TypeId)

/-- The parts of a type that must be a case. -/
def caseParts (t : TypeId) : Emit CaseParts :=
  match ctx.pool.view t with
  | .variant name shortName tag owner fields => pure { name, shortName, tag, owner, fields }
  | _ => broken s!"'{ctx.pool.display t}' is not a data case"

/-- The address of the constant of a case without fields. -/
def singleton (t : TypeId) : Emit Value := do
  let t ← resolve ctx t
  match (← get).singletons.lookup t with
  | some value => pure value
  | none =>
    let parts ← caseParts ctx t
    let struct ← layout ctx t
    let envelope ← dataLayout ctx parts.owner
    let value ← build do
      let tag ← Build.constStruct envelope [.const (.int .w32 parts.tag)]
      let init ← Build.constStruct struct [tag]
      Build.addConstant (parts.name ++ ".singleton") struct init
    modify fun o => { o with singletons := (t, value) :: o.singletons }
    pure value

/-! ## Functions -/

/-- Declare the function of a signature, or find it declared with the same types. -/
def declareFunction (sig : Signature) (receiver : Bool) : Emit FunctionId := do
  let type ← signatureType ctx sig receiver
  let b := (← get).builder
  match b.function? sig.linkName with
  | some id =>
    if (b.module.function id).type ≠ type then
      fail (.typeMismatch s!"'{sig.linkName}' is declared twice with different types")
    pure id
  | none => build (Build.declareFunction sig.linkName type)

/-- The function of a signature, which must have been declared. -/
def functionFor (sig : Signature) : Emit FunctionId := do
  match (← get).builder.function? sig.linkName with
  | some id => pure id
  | none => broken s!"function '{sig.linkName}' was never declared"

end ClassLang.Emit
