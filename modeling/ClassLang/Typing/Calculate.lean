import ClassLang.Typing.Expression

/-!
# Typing a module

The walk over a module has four steps: declare all types, templates, traits and imports by name; lay
out instance variables and cases; build all signatures; walk all bodies. Then the member bodies of
generic expansions are walked, those they bring about included. `calculate` is the whole of it.
-/

namespace ClassLang.Typing

variable {σ : Type} (ctx : TypingContext σ)

/-! ## Names -/

/-- Declare a class or data type under its name. -/
def declareTypeName (decl : NodeId) (name : String) (t : TypeId) : Typing σ Unit := do
  modify fun s => { s with
    scopes := s.scopes.bindModule name (.type t)
    exports := s.exports.setType name t }
  record decl t

/-- Declare a generic class or data type. -/
def declareTemplate (decl : NodeId) (name param : String) : Typing σ TemplateId :=
  modifyGet fun s =>
    let id := s.templates.length
    (id, { s with
      templates := s.templates ++ [{ name, param, decl }]
      scopes := s.scopes.registerTemplate name id })

/-- Import a module and bind it to the last part of its path. -/
def importPath (path : List String) : Typing σ Unit := do
  match path.getLast? with
  | none => fail (.internal "empty import path")
  | some last =>
    let id ← fun s =>
      match ctx.importer.resolve path (".".intercalate path) (s.pool, s.imports) with
      | .ok id (pool, imports) => .ok id { s with pool, imports }
      | .error e (pool, imports) => .error e { s with pool, imports }
    modifyScopes (·.bindModule last (.module id))

/-- First step: the names that a top-level statement declares. -/
def declareType (statement : NodeId) : Typing σ Unit :=
  match ctx.tree.node statement with
  | .package path => modify fun s => { s with package := some (".".intercalate path) }
  | .importModule path => importPath ctx path
  | .traitDef name body => modifyScopes (·.registerTrait name body)
  | .classDef name none _ => do
    let linkName ← qualified name
    declareTypeName statement name (← makeType (·.newReference linkName))
  | .dataDef name none _ _ => do
    let linkName ← qualified name
    declareTypeName statement name (← makeType (·.newData linkName))
  | .classDef name (some param) _ => do
    let _ ← declareTemplate statement name param
  | .dataDef name (some param) cases _ => do
    let template ← declareTemplate statement name param
    cases.zipIdx.forM fun (decl, index) =>
      match ctx.tree.node decl with
      | .caseDef name _ => modifyScopes (·.bindModule name (.genericCase template index))
      | _ => pure ()
  | _ => pure ()

/-! ## Layouts -/

/-- Second step: the layout of a class, or the cases of a data type. -/
def layOutType (statement : NodeId) : Typing σ Unit :=
  match ctx.tree.node statement with
  | .classDef _ none body => do
    let t ← recorded statement
    let ivars ← collectIvars ctx (typeExpr ctx) body
    updatePool (·.setIvars t ivars)
  | .dataDef _ none cases _ => do
    let t ← recorded statement
    let added ← addCases ctx (typeExpr ctx) t cases
    added.forM fun variant => modify fun s =>
      match s.pool.caseShortName? variant with
      | some name => { s with
          scopes := s.scopes.bindModule name (.type variant)
          exports := s.exports.setType name variant }
      | none => s
  | _ => pure ()

/-! ## Signatures -/

/-- Declare a top-level function. -/
def declareFunction (statement : NodeId) (name : String) : Typing σ Unit := do
  let sig ← signatureOf ctx (typeExpr ctx) statement none
  if ((← get).exports.function? name).isSome then
    mismatch s!"function '{name}' is already defined"
  let v ← visit statement
  modify fun s => { s with
    exports := s.exports.addFunction sig
    table := s.table.setSignature v sig }

/-- Third step: the signature of a function, or those of a type's methods. -/
def declareSignature (statement : NodeId) : Typing σ Unit :=
  match ctx.tree.node statement with
  | .methodDef name _ _ _ => declareFunction ctx statement name
  | .methodDec name _ _ _ => declareFunction ctx statement name
  | .classDef _ none body => declareIn body
  | .dataDef _ none _ (some body) => declareIn body
  | _ => pure ()
where
  /-- Declare the methods of a type's body. -/
  declareIn (body : NodeId) : Typing σ Unit := do
    let t ← recorded statement
    withTypeFrame t (declareMethods ctx (typeExpr ctx) body t)

/-! ## Bodies -/

/-- The frame of a method body: its named parameters. -/
def methodFrame (params : List NodeId) (sig : Signature) : Scope :=
  Scope.bindValues {} ((params.zip sig.params).filterMap fun (node, param) =>
    match ctx.tree.node node, param.name with
    | .typed name _, some _ => some (name, param.type)
    | _, _ => none)

/-- Type the body of a method against its declared signature. -/
def walkMethod (infer : NodeId → Typing σ TypeId) (node : NodeId) : Typing σ Unit := do
  match ctx.tree.node node with
  | .methodDef _ params _ body =>
    let v ← visit node
    let sig ← ofExcept ((← get).table.signature v)
    let t ← withFrame (methodFrame ctx params sig) (withReturnType (some sig.result) (infer body))
    let pool := (← get).pool
    if sig.result ≠ .void ∧ t ≠ .void ∧ !pool.isUnresolved t ∧ !pool.canConvert t sig.result then
      let wanted := pool.display sig.result
      mismatch s!"'{sig.name}' returns '{wanted}' but its body ends with a '{pool.display t}'"
  | _ => fail (.internal "method walk on a non-method")

/-- Walk the members of a type's body, those of included traits under the walks that their
declaration opened. -/
def walkMembersWithin (infer : NodeId → Typing σ TypeId) : Nat → NodeId → Typing σ Unit
  | 0, _ => throw .outOfFuel
  | fuel + 1, body =>
    let keepType (statement : NodeId) : Typing σ Unit := do
      let v ← visit statement
      if ((← get).table.get? v).isNone then record statement .void
    (ctx.tree.statements body).forM fun statement => do
      match ctx.tree.node statement with
      | .methodDef .. =>
        walkMethod ctx infer statement
        record statement .void
      | .inclusion name =>
        let traitBody ← findTrait name
        let v ← visit statement
        match (← get).table.inclusion? v with
        | none => fail (.internal "trait inclusion was not declared")
        | some included =>
          withWalk included (walkMembersWithin infer fuel traitBody)
          record statement .void
      | .ivarDecl .. => keepType statement
      | .methodDec .. => keepType statement
      | _ =>
        let _ ← infer statement

/-- Walk the members of a type's body. -/
def walkMembers (infer : NodeId → Typing σ TypeId) (body : NodeId) : Typing σ Unit :=
  walkMembersWithin ctx infer (ctx.tree.size + 1) body

/-- The declaration of a class or data type: its members are walked now, unless it is generic. -/
def walkDeclaredType (infer : NodeId → Typing σ TypeId) (decl : NodeId)
    (typeParam : Option String) (body : Option NodeId) : Typing σ TypeId := do
  if typeParam.isSome then pure .void
  else
    let t ← recorded decl
    match body with
    | some body => withTypeFrame t (walkMembers ctx infer body)
    | none => pure ()
    pure t

/-- The type of a node, given the types of its parts. -/
def inferNode (infer : NodeId → Typing σ TypeId) (node : NodeId) : Typing σ TypeId :=
  match ctx.tree.node node with
  | .seq statements => statements.foldlM (fun _ statement => infer statement) .void
  | .number _ => pure .integer
  | .bool _ => pure .boolean
  | .text _ => pure .string
  | .ident name => inferIdent node name
  | .ivar name => ivarInScope name
  | .selfRef => do
    match (← get).scopes.currentType with
    | some t => pure t
    | none => fail (.uninitialized "self")
  | .varargs => pure .void
  | .typed .. | .namedType _ | .pointerType _ | .templatedType .. | .closureType .. =>
    typeExpr ctx node
  | .methodDef .. => do
    walkMethod ctx infer node
    pure .void
  | .methodDec .. | .traitDef .. => pure .void
  | .classDef _ typeParam body => walkDeclaredType ctx infer node typeParam (some body)
  | .dataDef _ typeParam _ body => walkDeclaredType ctx infer node typeParam body
  | .caseDef .. => recorded node
  | .ivarDecl _ type => typeExpr ctx type
  | .inclusion _ => mismatch "'include' is only allowed inside a class body"
  | .var name type value => inferVar ctx infer name type value
  | .assign target value => inferAssign ctx infer target value
  | .call (some receiver) method args => inferReceiverCall ctx infer node receiver method args
  | .call none method args => inferBareCall ctx infer node method args
  | .namedArg _ value => infer value
  | .templatedInstance name typeArgs args =>
    inferTemplatedInstance ctx infer node name typeArgs args
  | .binary op lhs rhs => inferBinary infer op lhs rhs
  | .unary op operand => inferUnary infer op operand
  | .branch cond yes no => do
    inferCondition infer cond
    let _ ← infer yes
    no.forM fun no => do let _ ← infer no
    pure .void
  | .loop cond body => do
    inferCondition infer cond
    let _ ← infer body
    pure .void
  | .select cond arms => inferSelect ctx infer cond arms
  | .arm .. | .pattern .. => fail (.internal "case arm visited outside of its case")
  | .ret value => inferReturn infer value
  | .lambda params captures body => inferLambda ctx infer params captures body
  | .importModule _ | .package _ => pure .void

/-- The type of a node, recorded on it, with a bound on the nesting. -/
def inferWithin : Nat → NodeId → Typing σ TypeId
  | 0, _ => throw .outOfFuel
  | fuel + 1, node => do
    let t ← inferNode ctx (inferWithin fuel) node
    record node t
    pure t

/-- The type of a node, recorded on it. -/
def infer (node : NodeId) : Typing σ TypeId :=
  inferWithin ctx ctx.tree.walkBudget node

/-! ## Expansions -/

/-- Walk the member bodies of an expansion. -/
def walkExpansion (id : TemplateId) (index : Nat) : Typing σ Unit := do
  let s ← get
  let template := s.templates.getD id default
  let body := match ctx.tree.node template.decl with
    | .classDef _ _ body => some body
    | .dataDef _ _ _ body => body
    | _ => none
  match body, template.expansions[index]? with
  | some body, some expansion =>
    let frame := (Scope.forType expansion.type (s.pool.ivars expansion.type)).bind template.param
      (.type (expansion.args.headD .void))
    withIsolatedFrame expansion.walk frame (walkMembers ctx (infer ctx) body)
  | _, _ => pure ()

/-- Work off the queue of expansions, including those that are added on the way. -/
def drainPending : Nat → Typing σ Unit
  | 0 => do
    if !(← get).pending.isEmpty then throw .outOfFuel
  | fuel + 1 => do
    match (← get).pending with
    | [] => pure ()
    | (id, index) :: rest =>
      modify fun s => { s with pending := rest }
      walkExpansion ctx id index
      drainPending fuel

/-- Type the whole tree. -/
def calculate : Typing σ TypedModule := do
  let statements := ctx.tree.statements ctx.tree.root
  statements.forM (declareType ctx)
  statements.forM (layOutType ctx)
  statements.forM (declareSignature ctx)
  let _ ← infer ctx ctx.tree.root
  drainPending ctx ctx.tree.expansionBudget
  let s ← get
  pure { table := s.table, templates := s.templates, exports := s.exports }

end ClassLang.Typing
