import ClassLang.Typing.Declaration

/-!
# Type expressions

The meaning of `Integer`, `*T`, `Box<Integer>` and `Closure<(A) -> R>`. A generic type is expanded
on first use: `expand` makes the concrete type, lays it out and declares its methods against the
module's scope alone, and queues its member bodies for later. An expansion is registered before its
members are looked at, so a type may mention itself.
-/

namespace ClassLang.Typing

variable {σ : Type} (ctx : TypingContext σ)

/-- Register an expansion of a template and give its position among the template's expansions. -/
def addExpansion (id : TemplateId) (expansion : Expansion) : Typing σ Nat :=
  modifyGet fun s =>
    let template := s.templates.getD id default
    let extended := { template with expansions := template.expansions ++ [expansion] }
    (template.expansions.length, { s with templates := s.templates.set id extended })

/-- Lay out an expanded type and declare its methods. -/
def declareExpanded (typeExpr : NodeId → Typing σ TypeId) (decl : NodeId) (t : TypeId) :
    Typing σ Unit :=
  match ctx.tree.node decl with
  | .classDef _ _ body => do
    let ivars ← collectIvars ctx typeExpr body
    modifyScopes fun c => ivars.foldl (fun c (name, type) => c.addIvar name type) c
    updatePool (·.setIvars t ivars)
    declareMethods ctx typeExpr body t
  | .dataDef _ _ cases body => do
    let _ ← addCases ctx typeExpr t cases
    match body with
    | some body => declareMethods ctx typeExpr body t
    | none => pure ()
  | _ => pure ()

/-- The concrete type of a template applied to `args`, made on first use. -/
def expand (typeExpr : NodeId → Typing σ TypeId) (id : TemplateId) (args : List TypeId) :
    Typing σ TypeId := do
  let s ← get
  let template := s.templates.getD id default
  match template.expansions.find? (fun e => s.pool.sameTypes e.args args) with
  | some expansion => pure expansion.type
  | none =>
    match args with
    | [arg] =>
      let name := (← qualified template.name) ++ "<" ++ (← spell arg) ++ ">"
      let walk ← modifyGet fun s =>
        let (walk, table) := s.table.freshInstance
        (walk, { s with table })
      let t ← match ctx.tree.node template.decl with
        | .classDef .. => makeType (·.newReference name)
        | .dataDef .. => makeType (·.newData name)
        | _ => fail (.internal "template is not a type declaration")
      let index ← addExpansion id { args, type := t, walk }
      modifyScopes (·.bindModule name (.type t))
      modifyTable (·.record { walk, node := template.decl } t)
      withIsolatedFrame walk ((Scope.forType t []).bind template.param (.type arg))
        (declareExpanded ctx typeExpr template.decl t)
      modify fun s => { s with pending := s.pending ++ [(id, index)] }
      pure t
    | _ =>
      mismatch s!"'{template.name}' takes exactly one type argument, got {args.length}"

/-- The type that a name denotes. -/
def namedType (name : String) : Typing σ TypeId := do
  let scopes := (← get).scopes
  match scopes.lookup name with
  | some (.type t) => pure t
  | some _ => mismatch s!"'{name}' is not a type"
  | none =>
    if (scopes.findTemplate name).isSome then mismatch s!"'{name}' needs a type argument"
    else fail (.uninitialized name)

/-- The type that a type expression denotes, recorded on its node, with a bound on the nesting. -/
def typeExprWithin : Nat → NodeId → Typing σ TypeId
  | 0, _ => throw .outOfFuel
  | fuel + 1, node => do
    let t ← match ctx.tree.node node with
      | .namedType name => namedType name
      | .pointerType target => do
        let target ← typeExprWithin fuel target
        makeType (·.pointer target)
      | .templatedType name args => do
        match (← get).scopes.findTemplate name with
        | none => mismatch s!"'{name}' is not a generic type"
        | some id =>
          let args ← args.mapM (typeExprWithin fuel)
          expand ctx (typeExprWithin fuel) id args
      | .closureType params result => do
        let params ← params.mapM (typeExprWithin fuel)
        let result ← typeExprWithin fuel result
        makeType (·.closure params result [])
      | .typed _ type => typeExprWithin fuel type
      | _ => fail (.internal "node is not a type expression")
    record node t
    pure t

/-- The type that a type expression denotes, recorded on its node. -/
def typeExpr (node : NodeId) : Typing σ TypeId :=
  typeExprWithin ctx ctx.tree.walkBudget node

end ClassLang.Typing
