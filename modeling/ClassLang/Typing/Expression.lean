import ClassLang.Typing.Call

/-!
# Expressions and statements

The type of each construct of a method body, given the types of its parts through the argument
`infer`. Names are bound in the innermost frame as they are declared.
-/

namespace ClassLang.Typing

variable {σ : Type} (ctx : TypingContext σ) (infer : NodeId → Typing σ TypeId)

/-- A bare name: a variable, or a case without fields. -/
def inferIdent (node : NodeId) (name : String) : Typing σ TypeId := do
  let s ← get
  match s.scopes.lookup name with
  | some (.value t) =>
    setTarget node .localVar
    pure t
  | some (.type t) =>
    match s.pool.view t with
    | .variant _ _ _ owner [] =>
      setTarget node (.singleton t)
      pure owner
    | .variant .. => mismatch s!"case '{name}' has fields; construct it with arguments"
    | _ => mismatch s!"type '{name}' used as a value"
  | some (.genericCase ..) => mismatch s!"case '{name}' of a generic type needs a type argument"
  | some (.module _) => mismatch s!"module '{name}' used as a value"
  | none => fail (.uninitialized name)

/-- The type of an instance variable in scope. -/
def ivarInScope (name : String) : Typing σ TypeId := do
  match (← get).scopes.lookupIvar name with
  | some t => pure t
  | none => fail (.uninitialized ("@" ++ name))

/-- `var name [: Type] = value`. The variable has the declared type if there is one. -/
def inferVar (name : String) (declared : Option NodeId) (value : NodeId) : Typing σ TypeId := do
  let given ← infer value
  if (← get).pool.resolve given = .void then
    mismatch s!"'{name}' cannot be initialized with a value of type 'Void'"
  let t ← match declared with
    | none => pure given
    | some declared => do
      let wanted ← typeExpr ctx declared
      let pool := (← get).pool
      if !pool.canConvert given wanted then
        let shown := pool.display wanted
        mismatch
          s!"'{name}' is declared as '{shown}' but initialized with a '{pool.display given}'"
      pure wanted
  modifyScopes (·.bind name (.value t))
  pure t

/-- `target = value`. An instance variable takes what converts to its type, a local only its own
type. -/
def inferAssign (target value : NodeId) : Typing σ TypeId := do
  let given ← infer value
  match ctx.tree.node target with
  | .ivar name =>
    let t ← ivarInScope name
    let pool := (← get).pool
    if !pool.canConvert given t then
      mismatch s!"cannot assign a '{pool.display given}' to '@{name}' of type '{pool.display t}'"
    record target t
  | .ident name =>
    match (← get).scopes.lookupValue name with
    | none => fail (.uninitialized name)
    | some t =>
      let pool := (← get).pool
      if !pool.sameType given t then
        mismatch s!"cannot assign a '{pool.display given}' to '{name}' of type '{pool.display t}'"
      setTarget target .localVar
      record target t
  | _ => mismatch "only locals and instance variables can be assigned"
  pure given

/-- `lhs op rhs`. While an operand is open, so is the result. -/
def inferBinary (op : BinaryOp) (lhs rhs : NodeId) : Typing σ TypeId := do
  let l ← infer lhs
  let r ← infer rhs
  let pool := (← get).pool
  if pool.isUnresolved l then makeType (·.derive l op r)
  else if pool.isUnresolved r then makeType (·.derive r op l)
  else ofExcept (pool.operatorResult l op r)

/-- `~construction` or `!condition`. -/
def inferUnary (op : UnaryOp) (operand : NodeId) : Typing σ TypeId := do
  let t ← infer operand
  let s ← get
  match op with
  | .stack =>
    match s.table.target (← visit operand) with
    | .ok (.construct ..) => pure t
    | .ok (.constructCase ..) => pure t
    | _ => mismatch "'~' must be applied to a construction"
  | .not =>
    if s.pool.resolve t = .boolean then pure .boolean
    else fail (.unknownOperation "!" (s.pool.display t))

/-- The condition of a branch or loop: a Boolean, or an Integer to compare with zero. -/
def inferCondition (cond : NodeId) : Typing σ Unit := do
  let t ← infer cond
  let pool := (← get).pool
  let resolved := pool.resolve t
  if resolved ≠ .boolean ∧ resolved ≠ .integer then
    mismatch s!"a condition must be a 'Boolean', got a '{pool.display t}'"

/-- The case of the data type `owner` that a pattern names. -/
def patternCase (type : NodeId) (owner : TypeId) : Typing σ TypeId :=
  match ctx.tree.node type with
  | .namedType name => do
    let pool := (← get).pool
    match (pool.cases owner).find? (fun t => pool.caseShortName? t == some name) with
    | none => mismatch s!"'{name}' is not a case of '{pool.display owner}'"
    | some t =>
      record type t
      pure t
  | _ => mismatch "a data pattern must name a case"

/-- A frame that binds the fields of a case, all of them or none. -/
def caseFrame (t : TypeId) (binders : List String) : Typing σ Scope := do
  let pool := (← get).pool
  let fields := pool.caseFields t
  if binders.isEmpty then pure {}
  else if binders.length ≠ fields.length then
    let bound := binders.length
    mismatch s!"'{pool.display t}' has {fields.length} fields but the pattern binds {bound}"
  else
    pure (Scope.bindValues {} (binders.zip (fields.map (·.2))))

/-- The pattern of an arm of a `case` over a value of type `scrutinee`: the frame of the arm's body
and the type the pattern tests for. -/
def inferPattern (scrutinee : TypeId) (onDynamic : Bool) (type : NodeId)
    (binder : Option String) (fields : List String) : Typing σ (Scope × TypeId) := do
  let bindTo (t : TypeId) (frame : Scope) : Scope :=
    frame.bindValues (binder.toList.map ((·, t)))
  if onDynamic then
    let t ← typeExpr ctx type
    if !fields.isEmpty then mismatch "a 'Dynamic' pattern cannot bind fields"
    pure (bindTo t {}, t)
  else
    let t ← patternCase ctx type scrutinee
    let frame ← caseFrame t fields
    pure (bindTo scrutinee frame, t)

/-- One arm of a `case` over a value of type `scrutinee`. -/
def inferArm (scrutinee : TypeId) (onDynamic : Bool) (arm : NodeId) : Typing σ Unit := do
  match ctx.tree.node arm with
  | .arm pattern body =>
    match ctx.tree.node pattern with
    | .pattern type binder fields =>
      let (frame, t) ← inferPattern ctx scrutinee onDynamic type binder fields
      record pattern t
      let _ ← withFrame frame (infer body)
      record arm .void
    | _ => fail (.internal "'when' without a pattern")
  | _ => fail (.internal "case arm is not a 'when'")

/-- `case cond; when ...; end` over a data or `Dynamic` value. -/
def inferSelect (cond : NodeId) (arms : List NodeId) : Typing σ TypeId := do
  let given ← infer cond
  let pool := (← get).pool
  let scrutinee := pool.resolve given
  let onDynamic ← match pool.data scrutinee with
    | .data .. => pure false
    | .dynamic => pure true
    | _ => mismatch s!"case needs a data or 'Dynamic' value, got a '{pool.display scrutinee}'"
  arms.forM (inferArm ctx infer scrutinee onDynamic)
  pure .void

/-- `return [value]` against the declared result of the enclosing method. -/
def inferReturn (value : Option NodeId) : Typing σ TypeId := do
  match (← get).returnType, value with
  | none, _ => mismatch "'return' outside of a method"
  | some expected, none =>
    if expected ≠ .void then
      mismatch s!"missing return value of type '{(← get).pool.display expected}'"
  | some expected, some value =>
    let t ← infer value
    if expected = .void then
      mismatch "returning a value from a method without a return type"
    let pool := (← get).pool
    if !pool.canConvert t expected then
      let wanted := pool.display expected
      mismatch s!"cannot return a '{pool.display t}' from a method returning '{wanted}'"
  pure .void

/-- The parameters of a lambda by name; one without a declared type gets an open variable. -/
def lambdaParams (params : List NodeId) : Typing σ (List (String × TypeId)) :=
  params.mapM fun param => do
    let (name, t) ← match ctx.tree.node param with
      | .typed name type => do pure (name, ← typeExpr ctx type)
      | .ident name => do pure (name, ← makeType (·.freshVar))
      | _ => fail (.internal "lambda parameter is not a name")
    record param t
    pure (name, t)

/-- The captured locals of a lambda by name. -/
def lambdaCaptures (captures : List String) : Typing σ (List (String × TypeId)) :=
  captures.mapM fun name => do
    match (← get).scopes.lookupValue name with
    | some t => pure (name, t)
    | none => fail (.uninitialized name)

/-- `|params| body`. The captured locals are copied in by value. -/
def inferLambda (params : List NodeId) (captures : List String) (body : NodeId) :
    Typing σ TypeId := do
  let params ← lambdaParams ctx params
  let captures ← lambdaCaptures captures
  let frame := Scope.bindValues {} (params ++ captures)
  let result ← withFrame frame (withReturnType none (infer body))
  makeType (·.closure (params.map (·.2)) result (captures.map (·.2)))

end ClassLang.Typing
