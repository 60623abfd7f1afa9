import ClassLang.Typing.Arguments
import ClassLang.Typing.TypeExpr

/-!
# Calls and constructions

A call is resolved to a `Target`, which is recorded on its node together with the signature that
the arguments were checked against. A lambda whose parameters are still open takes their types from
the closure type it is passed as.

The type of the arguments comes from the argument `infer`.
-/

namespace ClassLang.Typing

variable {σ : Type} (ctx : TypingContext σ) (infer : NodeId → Typing σ TypeId)

/-- The parameters of a closure type. -/
def closureParams? (p : Pool) (t : TypeId) : Option (List TypeId) :=
  match p.view t with
  | .closure params _ _ => some params
  | _ => none

/-- Fix the open parameter types of a lambda of type `given` from the closure type `wanted` that it
is passed as. -/
def unifyClosureParams (given wanted : TypeId) : Typing σ Unit := do
  let pool := (← get).pool
  match closureParams? pool given, closureParams? pool wanted with
  | some params, some wanted =>
    if params.length = wanted.length then
      (params.zip wanted).forM fun (var, target) => do
        if (← get).pool.data var = .var none then updatePool (·.unify var target)
  | _, _ => pure ()

/-- The name of a named argument. -/
def argumentLabel (arg : NodeId) : Option String :=
  match ctx.tree.node arg with
  | .namedArg name _ => some name
  | _ => none

/-- Type the arguments of a call to `sig` and check them against its parameters. -/
def checkArguments (sig : Signature) (args : List NodeId) : Typing σ Unit := do
  let typed ← args.mapM fun arg => return (argumentLabel ctx arg, ← infer arg)
  let ordered ← ofExcept (orderArguments sig typed)
  (ordered.fixed.zip sig.params).zipIdx.forM fun ((given, param), i) => do
    unifyClosureParams given param.type
    let pool := (← get).pool
    if !pool.canConvert given param.type then
      let shown := pool.display given
      let wanted := pool.display param.type
      mismatch
        s!"unable to pass a '{shown}' as a '{wanted}' for argument {i + 1} of '{sig.name}'"
  ordered.extra.forM fun extra => do
    let t ← ofExcept ((← get).pool.resolveStrict extra)
    if t = .void then mismatch s!"cannot pass a 'Void' value to '{sig.name}'"

/-- `Type(args...)`: a class instance or a data case. -/
def inferConstruction (node : NodeId) (t : TypeId) (args : List NodeId) : Typing σ TypeId := do
  let pool := (← get).pool
  match pool.data t with
  | .reference name _ methods =>
    let init := methods.find? (·.name == "initialize")
    match init with
    | some init => checkArguments ctx infer init args
    | none =>
      if !args.isEmpty then
        args.forM fun arg => do let _ ← infer arg
        fail (.missingArguments name 0 args.length)
    setTarget node (.construct t init)
    pure t
  | .variant name shortName _ owner fields =>
    let sig : Signature := {
      name := shortName
      linkName := name
      params := fields.map fun (name, type) => { name := some name, type }
      result := owner }
    checkArguments ctx infer sig args
    setTarget node (.constructCase t sig)
    pure owner
  | _ => mismatch s!"'{pool.display t}' cannot be constructed"

/-- A call with a receiver: a function or type of an imported module, or a method. -/
def inferReceiverCall (node receiver : NodeId) (method : String) (args : List NodeId) :
    Typing σ TypeId := do
  match ← importedModule with
  | some (moduleName, id) =>
    record receiver .void
    match ctx.importer.exports? (← get).imports id with
    | none => fail (.internal "imported module has no namespace")
    | some exports =>
      match exports.function? method, exports.type? method with
      | some sig, _ =>
        checkArguments ctx infer sig args
        setTarget node (.function sig)
        pure sig.result
      | none, some t => inferConstruction ctx infer node t args
      | none, none => mismatch s!"module '{moduleName}' has no function '{method}'"
  | none =>
    let given ← infer receiver
    let t ← ofExcept ((← get).pool.resolveStrict given)
    let pool := (← get).pool
    match pool.findSignature? t method with
    | none => mismatch s!"'{pool.display t}' has no method '{method}'"
    | some sig =>
      checkArguments ctx infer sig args
      match ← ofExcept ((← get).pool.findOperation t method) with
      | .element index _ => setTarget node (.element index)
      | _ => setTarget node (.method sig)
      pure sig.result
where
  /-- The imported module that the receiver names. -/
  importedModule : Typing σ (Option (String × ModuleId)) := do
    match ctx.tree.node receiver with
    | .ident name =>
      match (← get).scopes.lookup name with
      | some (.module id) => pure (some (name, id))
      | _ => pure none
    | _ => pure none

/-- A call of a built-in function. -/
def inferBuiltin (node : NodeId) (builtin : Builtin) (args : List NodeId) : Typing σ TypeId := do
  match builtin, args with
  | .reclaim, [object] =>
    let t ← infer object
    let pool := (← get).pool
    if !pool.isByPointer t then mismatch s!"cannot reclaim a '{pool.display t}'"
  | .reclaim, _ => fail (.missingArguments "reclaim" 1 args.length)
  setTarget node (.builtin builtin)
  pure .void

/-- A call without a receiver. The name is looked up as a closure in a local, a method of the
enclosing type, a function of the module and a type to construct, in this order; a name that is
bound nowhere may be a built-in function. -/
def inferBareCall (node : NodeId) (method : String) (args : List NodeId) : Typing σ TypeId := do
  let s ← get
  let binding := s.scopes.lookup method
  match binding with
  | some (.value t) =>
    match s.pool.view t with
    | .closure params result _ =>
      let sig : Signature := {
        name := method
        linkName := method
        params := params.map fun type => { name := none, type }
        result }
      checkArguments ctx infer sig args
      setTarget node (.closure sig)
      pure result
    | _ => mismatch s!"'{method}' is a '{s.pool.display t}', not a function"
  | _ =>
    match s.scopes.currentType.bind (s.pool.findSignature? · method),
        s.exports.function? method with
    | some sig, _ =>
      checkArguments ctx infer sig args
      setTarget node (.selfMethod sig)
      pure sig.result
    | none, some sig =>
      checkArguments ctx infer sig args
      setTarget node (.function sig)
      pure sig.result
    | none, none =>
      match binding with
      | some (.type t) => inferConstruction ctx infer node t args
      | some (.genericCase ..) =>
        mismatch s!"case '{method}' of a generic type needs a type argument"
      | some (.module _) => mismatch s!"module '{method}' called like a function"
      | some (.value _) => mismatch s!"unknown function '{method}'"
      | none =>
        match Builtin.ofName? method with
        | some builtin => inferBuiltin infer node builtin args
        | none => mismatch s!"unknown function '{method}'"

/-- `Box<Integer>(...)` or `Some<Integer>(...)`. -/
def inferTemplatedInstance (node : NodeId) (name : String) (typeArgs args : List NodeId) :
    Typing σ TypeId := do
  let typeArgs ← typeArgs.mapM (typeExpr ctx)
  let scopes := (← get).scopes
  match scopes.findTemplate name with
  | some id =>
    let t ← expand ctx (typeExpr ctx) id typeArgs
    inferConstruction ctx infer node t args
  | none =>
    match scopes.lookup name with
    | some (.genericCase template index) =>
      let owner ← expand ctx (typeExpr ctx) template typeArgs
      match ((← get).pool.cases owner)[index]? with
      | some t => inferConstruction ctx infer node t args
      | none => fail (.internal "expanded data type lost a case")
    | _ => mismatch s!"'{name}' is not a generic type"

end ClassLang.Typing
