import ClassLang.Lowering.Body
import ClassLang.Typing.Arguments

/-!
# Expressions in generated code

Operators, locals, calls, constructions and lambdas. What a name or call means was decided by
typing; here it is only looked up. The argument `lower` generates the parts of an expression.
-/

namespace ClassLang.Lower

open IR (Build IntOp Predicate Ty Value)

variable (ctx : LoweringContext) (lower : NodeId → Lower (Option Value))

/-- Generate a node that must have a value. -/
def lowerValue (node : NodeId) : Lower Value := do
  match ← lower node with
  | some value => pure value
  | none => broken s!"node {node} produced no value"

/-! ## Operators -/

/-- The integer operation of an arithmetic operator, with the name of its result. -/
def arithmetic? : BinaryOp → Option (IntOp × String)
  | .add => some (.add, "add")
  | .sub => some (.sub, "sub")
  | .mul => some (.mul, "mul")
  | .div => some (.sdiv, "sdiv")
  | .rem => some (.srem, "srem")
  | .shl => some (.shl, "shl")
  | .shr => some (.ashr, "ashr")
  | _ => none

/-- The comparison of a comparison operator. -/
def predicate? : BinaryOp → Option Predicate
  | .lt => some .slt
  | .gt => some .sgt
  | .le => some .sle
  | .ge => some .sge
  | .eq => some .eq
  | .ne => some .ne
  | _ => none

/-- `lhs op rhs`; the right operand is turned into the type of the left one. -/
def lowerBinary (node : NodeId) (op : BinaryOp) (lhs rhs : NodeId) : Lower Value := do
  let lhsType ← typeOf ctx lhs
  let rhsType ← typeOf ctx rhs
  let l ← lowerValue lower lhs
  let r ← lowerValue lower rhs
  let r ← convert ctx r rhsType lhsType
  match ctx.pool.operator? lhsType op with
  | none => Emit.fail (.unknownOperation op.symbol (ctx.pool.display lhsType))
  | some (.arith op) =>
    match arithmetic? op with
    | some (op, name) => build (Build.binary op l r name)
    | none => broken "comparison used as arithmetic"
  | some (.compare op) =>
    match predicate? op with
    | some p => build (Build.compare p l r "cmp")
    | none => broken "arithmetic used as comparison"
  | some _ => broken s!"operator at node {node} resolved to a method"

/-! ## Locals and instance variables -/

/-- What an identifier or call turned out to be, in words. -/
def describe : Target → String
  | .localVar => "a local"
  | .singleton _ => "a case"
  | .closure _ => "a closure"
  | .method _ => "a method"
  | .selfMethod _ => "a method of the receiver"
  | .element _ => "a field"
  | .function _ => "a function"
  | .construct .. => "a construction"
  | .constructCase .. => "a case construction"
  | .builtin _ => "a built-in function"

/-- A bare name. -/
def lowerIdent (node : NodeId) (name : String) : Lower Value := do
  match ← target ctx node with
  | .localVar => loadLocal name
  | .singleton t => Emit.singleton ctx t
  | other => broken s!"identifier resolved to {describe other}"

/-- The address and type of an instance variable of the receiver. -/
def ivarSlot (name : String) : Lower (Value × Ty) := do
  let b ← get
  let unavailable : Lower (Value × Ty) :=
    mismatch s!"instance variable '@{name}' is not available here"
  match b.owner, b.receiver with
  | some owner, some receiver =>
    match ctx.pool.view owner with
    | .reference _ ivars _ =>
      match ivarIndex? ivars name, ivarType? ivars name with
      | some index, some t =>
        let struct ← Emit.layout ctx owner
        let type ← Emit.valueType ctx t
        let slot ← build (Build.structField struct receiver index (name ++ ".ptr"))
        pure (slot, type)
      | _, _ => Emit.fail (.uninitialized ("@" ++ name))
    | _ => unavailable
  | _, _ => unavailable

/-- Read an instance variable. -/
def lowerIvar (name : String) : Lower Value := do
  let (slot, type) ← ivarSlot ctx name
  build (Build.load type slot name)

/-- `var name = value`. -/
def lowerVar (node : NodeId) (name : String) (value : NodeId) : Lower Value := do
  let valueType ← typeOf ctx value
  let varType ← typeOf ctx node
  let v ← lowerValue lower value
  let v ← convert ctx v valueType varType
  bindLocal ctx name v varType
  pure v

/-- `target = value`; the value of the assignment is the value as it was before conversion. -/
def lowerAssign (target value : NodeId) : Lower Value := do
  let valueType ← typeOf ctx value
  let targetType ← typeOf ctx target
  let v ← lowerValue lower value
  let converted ← convert ctx v valueType targetType
  match ctx.tree.node target with
  | .ivar name =>
    let (slot, _) ← ivarSlot ctx name
    build (Build.store converted slot)
  | .ident name =>
    match (← get).scope.lookup name with
    | some (.slot address _) => build (Build.store converted address)
    | some (.fixed _) => mismatch s!"cannot assign to '{name}'; it is bound by a 'when' pattern"
    | none => broken s!"'{name}' has no storage in this function"
  | _ => broken "assignment to a non-variable"
  pure v

/-! ## Calls -/

/-- The arguments of a call to `sig` in parameter order, turned into the parameters' types. They
are evaluated as written. Further arguments of a variadic call are passed as they are, except that
a Boolean becomes an Integer. -/
def lowerArgs (sig : Signature) (args : List NodeId) : Lower (List Value) := do
  let labelled := args.zipIdx.map fun (arg, position) =>
    match ctx.tree.node arg with
    | .namedArg name _ => (some name, position)
    | _ => (none, position)
  let ordered ← Emit.ofExcept (orderArguments sig labelled)
  let lowered ← args.mapM fun arg => do
    let value ← lowerValue lower arg
    pure (value, ← typeOf ctx arg)
  let at' (position : Nat) : Value × TypeId := lowered.getD position (default, .void)
  let fixed ← (ordered.fixed.zip sig.params).mapM fun (position, param) =>
    let (value, t) := at' position
    convert ctx value t param.type
  let extra ← ordered.extra.mapM fun position =>
    let (value, t) := at' position
    if t = .boolean then convert ctx value t .integer else pure value
  pure (fixed ++ extra)

/-- Call the function of `sig`, with the receiver first if it is a method. -/
def callFunction (sig : Signature) (receiver : Option Value) (args : List NodeId) :
    Lower (Option Value) := do
  let function ← Emit.functionFor sig
  let values ← lowerArgs ctx lower sig args
  build (Build.call function (receiver.toList ++ values) sig.name)

/-- Read a field of a built-in record. -/
def lowerElement (node receiver : NodeId) (method : String) (index : Nat) : Lower Value := do
  let receiverType ← typeOf ctx receiver
  let resultType ← typeOf ctx node
  let object ← lowerValue lower receiver
  let struct ← Emit.layout ctx receiverType
  let type ← Emit.valueType ctx resultType
  build do
    let slot ← Build.structField struct object index (method ++ ".ptr")
    Build.load type slot method

/-- Call the closure held by a local. The address of its function is the first field of every
closure. -/
def callClosure (name : String) (sig : Signature) (args : List NodeId) :
    Lower (Option Value) := do
  let closure ← loadLocal name
  let header ← Emit.closureLayout ctx sig.paramTypes sig.result []
  let type ← Emit.closureFnType ctx sig.paramTypes sig.result
  let values ← lowerArgs ctx lower sig args
  build do
    let slot ← Build.structField header closure 0 "fn.ptr"
    let function ← Build.load .ptr slot "fn"
    Build.callIndirect type function (closure :: values) "closure.call"

/-! ## Construction -/

/-- Make an instance of a class and initialize it. -/
def constructObject (t : TypeId) (init : Option Signature) (args : List NodeId)
    (onStack : Bool) : Lower Value := do
  let struct ← Emit.layout ctx t
  let object ← allocate struct onStack "object"
  match init with
  | some init =>
    let function ← Emit.functionFor init
    let values ← lowerArgs ctx lower init args
    let _ ← build (Build.call function (object :: values) "")
  | none =>
    if !args.isEmpty then broken "arguments passed to a class without 'initialize'"
  pure object

/-- Make a case: its tag, then its fields. -/
def constructCase (t : TypeId) (sig : Signature) (args : List NodeId) (onStack : Bool) :
    Lower Value := do
  let parts ← Emit.caseParts ctx t
  let values ← lowerArgs ctx lower sig args
  let struct ← Emit.layout ctx t
  let envelopeStruct ← Emit.dataLayout ctx parts.owner
  let object ← allocate struct onStack "case"
  build do
    let envelope ← Build.structField struct object 0 "envelope"
    let tagSlot ← Build.structField envelopeStruct envelope 0 "tag.ptr"
    Build.store (.const (.int .w32 parts.tag)) tagSlot
    (values.zip parts.fields).zipIdx.forM fun ((value, (field, _)), index) => do
      let slot ← Build.structField struct object (index + 1) (field ++ ".ptr")
      Build.store value slot
  pure object

/-- The construction that a node means. -/
def lowerConstruction (node : NodeId) (args : List NodeId) (onStack : Bool) : Lower Value := do
  match ← target ctx node with
  | .construct t init => constructObject ctx lower t init args onStack
  | .constructCase t sig => constructCase ctx lower t sig args onStack
  | other => broken s!"construction resolved to {describe other}"

/-- `!condition` or `~construction`. -/
def lowerUnary (op : UnaryOp) (operand : NodeId) : Lower Value := do
  match op with
  | .not =>
    let value ← lowerValue lower operand
    build (Build.not value "not")
  | .stack =>
    match ctx.tree.node operand with
    | .call _ _ args => lowerConstruction ctx lower operand args true
    | .templatedInstance _ _ args => lowerConstruction ctx lower operand args true
    | _ => mismatch "'~' must be applied to a construction"

/-- A call, by what it means. -/
def lowerCall (node : NodeId) (receiver : Option NodeId) (method : String)
    (args : List NodeId) : Lower (Option Value) := do
  let explicitReceiver : Lower NodeId :=
    match receiver with
    | some receiver => pure receiver
    | none => broken "method call without a receiver"
  match ← target ctx node with
  | .function sig => callFunction ctx lower sig none args
  | .method sig =>
    let object ← lowerValue lower (← explicitReceiver)
    callFunction ctx lower sig (some object) args
  | .selfMethod sig =>
    let object ← Lower.receiver
    callFunction ctx lower sig (some object) args
  | .element index =>
    let receiver ← explicitReceiver
    return some (← lowerElement ctx lower node receiver method index)
  | .closure sig => callClosure ctx lower method sig args
  | .construct .. => return some (← lowerConstruction ctx lower node args false)
  | .constructCase .. => return some (← lowerConstruction ctx lower node args false)
  | .builtin .reclaim =>
    match args with
    | [object] =>
      let object ← lowerValue lower object
      let _ ← build (Build.call (← getThe Output).free [object] "")
      pure none
    | _ => broken "'reclaim' takes one argument"
  | other => broken s!"call resolved to {describe other}"

/-! ## Lambdas -/

/-- The name for the next lambda's function. -/
def nextLambdaName : Lower String :=
  modifyGetThe Output fun o =>
    (s!"_Tc_lambda.{o.nextLambda}", { o with nextLambda := o.nextLambda + 1 })

/-- Generate the body of a lambda whose closure has the given struct. The closure comes in as the
first parameter; captured values are copied from it into locals. -/
def lambdaBody (struct : Ty) (params : List (NodeId × TypeId)) (captures : List (String × TypeId))
    (body : NodeId) : Lower Unit := do
  let function := (← get).function
  build (Build.setParamName function 0 "closure")
  let closure := (← getThe Output).builder.param function 0
  params.zipIdx.forM fun ((param, t), index) => do
    match ctx.tree.node param with
    | .ident name => bindParam ctx (index + 1) name t
    | .typed name _ => bindParam ctx (index + 1) name t
    | _ => broken "lambda parameter is not a name"
  captures.zipIdx.forM fun ((name, t), index) => do
    let type ← Emit.valueType ctx t
    let value ← build do
      let slot ← Build.structField struct closure (index + 1) (name ++ ".ptr")
      Build.load type slot name
    bindLocal ctx name value t
  finish ctx lower body

/-- A lambda: a function of its own, and a closure that holds its address and a copy of every
captured local. -/
def lowerLambda (node : NodeId) (params : List NodeId) (captures : List String)
    (body : NodeId) : Lower Value := do
  let t ← typeOf ctx node
  match ctx.pool.view t with
  | .closure paramTypes result captureTypes =>
    let struct ← Emit.layout ctx t
    let type ← Emit.closureFnType ctx paramTypes result
    let name ← nextLambdaName
    let function ← build (Build.declareFunction name type)
    let saved := (← getThe Output).builder.position
    let inner ← start ctx function (← get).walk none name result
    let _ ← (lambdaBody ctx lower struct (params.zip paramTypes) (captures.zip captureTypes)
      body).run inner
    build (Build.restore saved)
    let object ← allocate struct false "closure"
    build do
      let slot ← Build.structField struct object 0 "fn.ptr"
      Build.store (.const (.functionAddr function)) slot
    captures.zipIdx.forM fun (name, index) => do
      let value ← loadLocal name
      build do
        let slot ← Build.structField struct object (index + 1) (name ++ ".ptr")
        Build.store value slot
    pure object
  | _ => broken "lambda is not typed as a closure"

end ClassLang.Lower
