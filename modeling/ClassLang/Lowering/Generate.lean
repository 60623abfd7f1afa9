import ClassLang.Lowering.Control

/-!
# Generating a module

All functions and methods of a module are declared first, so that bodies can call each other in any
order; then the bodies are generated. A generic declaration stands for all its expansions, and a
class has the methods of the traits it includes, each under the walk of its inclusion.
-/

namespace ClassLang

open IR (Build Value)

namespace Lower

variable (ctx : LoweringContext)

/-- Generate a node, given how its parts are generated. There is a value if the node has one. -/
def lowerNode (lower : NodeId → Lower (Option Value)) (node : NodeId) : Lower (Option Value) := do
  match ctx.tree.node node with
  | .seq statements => lowerSeq lower statements
  | .number n =>
    if -Nat.pow 2 31 ≤ n ∧ n < Nat.pow 2 31 then pure (some (.const (.int .w32 n)))
    else mismatch s!"integer literal {n} does not fit in an 'Integer'"
  | .bool b => pure (some (.const (.bool b)))
  | .text s => return some (← Emit.stringLiteral ctx s)
  | .ident name => return some (← lowerIdent ctx node name)
  | .ivar name => return some (← lowerIvar ctx name)
  | .selfRef => return some (← receiver)
  | .typed .. | .varargs | .namedType _ | .pointerType _ | .templatedType .. | .closureType .. =>
    pure none
  | .methodDef .. | .methodDec .. | .classDef .. | .dataDef .. | .caseDef .. | .ivarDecl ..
  | .traitDef .. | .inclusion _ | .importModule _ | .package _ =>
    mismatch "declarations are only allowed at the top level or in a type body"
  | .var name _ value => return some (← lowerVar ctx lower node name value)
  | .assign target value => return some (← lowerAssign ctx lower target value)
  | .call receiver method args => lowerCall ctx lower node receiver method args
  | .namedArg _ value => lower value
  | .templatedInstance _ _ args => return some (← lowerConstruction ctx lower node args false)
  | .binary op lhs rhs => return some (← lowerBinary ctx lower node op lhs rhs)
  | .unary op operand => return some (← lowerUnary ctx lower op operand)
  | .branch cond yes no =>
    lowerBranch ctx lower cond yes no
    pure none
  | .loop cond body =>
    lowerLoop ctx lower cond body
    pure none
  | .select cond arms =>
    lowerSelect ctx lower cond arms
    pure none
  | .arm .. | .pattern .. => broken "case arm visited outside of its case"
  | .ret value =>
    lowerReturn ctx lower value
    pure none
  | .lambda params captures body => return some (← lowerLambda ctx lower node params captures body)

/-- Generate a node, with a bound on the nesting. -/
def lowerWithin : Nat → NodeId → Lower (Option Value)
  | 0, _ => throw .outOfFuel
  | fuel + 1, node => lowerNode ctx (lowerWithin fuel) node

/-- Generate a node. The parts of a node come before it in the tree, so nodes nest at most as deep
as there are nodes. -/
def lower (node : NodeId) : Lower (Option Value) :=
  lowerWithin ctx (ctx.tree.size + 1) node

end Lower

namespace Emit

variable (ctx : LoweringContext)

/-- Generate the body of a method or function; `owner` is the type of its receiver. -/
def defineMethod (node : NodeId) (walk : InstanceId) (owner : Option TypeId) : Emit Unit := do
  match ctx.tree.node node with
  | .methodDef _ _ _ body =>
    let sig ← ofExcept (ctx.typed.table.signature { walk, node })
    let function ← functionFor sig
    let start ← Lower.start ctx function walk owner sig.name sig.result
    let step : Lower Unit := do
      let first ← match owner with
        | some _ => do
          Lower.build (Build.setParamName function 0 "self")
          let receiver := (← getThe Output).builder.param function 0
          modify fun b => { b with receiver := some receiver }
          pure 1
        | none => pure 0
      (sig.params.zipIdx first).forM fun (param, index) => do
        match param.name with
        | some name => Lower.bindParam ctx index name param.type
        | none => pure ()
      Lower.finish ctx (Lower.lower ctx) body
    let _ ← step.run start
  | _ => broken "method body requested for a non-method"

/-- The methods declared in a body with the walks of their signatures, those of included traits in
the place of the inclusion. -/
def methodsWithin : Nat → NodeId → InstanceId → Emit (List (InstanceId × NodeId))
  | 0, _, _ => throw .outOfFuel
  | fuel + 1, body, walk => do
    let found ← (ctx.tree.statements body).mapM fun statement => do
      match ctx.tree.node statement with
      | .methodDef .. => pure [(walk, statement)]
      | .methodDec .. => pure [(walk, statement)]
      | .inclusion name =>
        match ctx.typed.table.inclusion? { walk, node := statement }, ctx.trait? name with
        | none, _ => broken "include was not typed before generation"
        | some _, none => broken s!"trait '{name}' is not declared in this module"
        | some included, some traitBody => methodsWithin fuel traitBody included
      | _ => pure []
    pure found.flatten

/-- The methods of a type declaration. -/
def methods (decl : NodeId) (walk : InstanceId) : Emit (List (InstanceId × NodeId)) :=
  let body := match ctx.tree.node decl with
    | .classDef _ _ body => some body
    | .dataDef _ _ _ body => body
    | _ => none
  match body with
  | some body => methodsWithin ctx (ctx.tree.size + 1) body walk
  | none => pure []

/-- Lay out a type and declare its methods. -/
def declareType (decl : NodeId) (walk : InstanceId) (t : TypeId) : Emit Unit := do
  let _ ← layout ctx t
  (ctx.pool.cases t).forM fun variant => do let _ ← layout ctx variant
  (← methods ctx decl walk).forM fun (walk, node) => do
    let sig ← ofExcept (ctx.typed.table.signature { walk, node })
    let _ ← declareFunction ctx sig true

/-- Generate the methods of a type that have a body. -/
def defineType (decl : NodeId) (walk : InstanceId) (t : TypeId) : Emit Unit := do
  (← methods ctx decl walk).forM fun (walk, node) =>
    match ctx.tree.node node with
    | .methodDef .. => defineMethod ctx node walk (some t)
    | _ => pure ()

/-- The walks of a type declaration: its own, or those of all expansions of a generic one. -/
def typeInstances (decl : NodeId) : Emit (List (InstanceId × TypeId)) := do
  match ctx.typed.templateFor? decl with
  | some template => pure (template.expansions.map fun e => (e.walk, e.type))
  | none => return [(0, ← ofExcept (ctx.typed.table.typeOf { walk := 0, node := decl }))]

/-- Do something for each walk of a type declaration. -/
def forInstances (decl : NodeId) (step : NodeId → InstanceId → TypeId → Emit Unit) : Emit Unit := do
  (← typeInstances ctx decl).forM fun (walk, t) => step decl walk t

/-- Declare what a top-level statement declares. -/
def declareStatement (statement : NodeId) : Emit Unit := do
  let declare : Emit Unit := do
    let sig ← ofExcept (ctx.typed.table.signature { walk := 0, node := statement })
    let _ ← declareFunction ctx sig false
  match ctx.tree.node statement with
  | .methodDef .. => declare
  | .methodDec .. => declare
  | .classDef .. => forInstances ctx statement (declareType ctx)
  | .dataDef .. => forInstances ctx statement (declareType ctx)
  | .traitDef .. | .importModule _ | .package _ => pure ()
  | _ =>
    fail (.typeMismatch ("only declarations may appear at the top level of a module; "
      ++ "move statements into 'main'"))

/-- Generate the bodies of what a top-level statement declares. -/
def defineStatement (statement : NodeId) : Emit Unit :=
  match ctx.tree.node statement with
  | .methodDef .. => defineMethod ctx statement 0 none
  | .classDef .. => forInstances ctx statement (defineType ctx)
  | .dataDef .. => forInstances ctx statement (defineType ctx)
  | _ => pure ()

/-- Generate a module. -/
def generate : Emit Unit := do
  let statements := ctx.tree.statements ctx.tree.root
  statements.forM (declareStatement ctx)
  statements.forM (defineStatement ctx)

end Emit

/-- The backend that generates intermediate code. -/
def Backend.code : Backend Output where
  generate tree pool typed := Emit.generate { tree, pool, typed }

/-- Compile a unit and what it imports into a module of the given name. -/
def compile (store : ModuleStore) (name : String) (tree : SyntaxTree) : Except Halt IR.Module :=
  match Session.compileUnit Backend.code store tree
      (Pool.initial, { output := Output.ofName name }) with
  | .error h _ => .error h
  | .ok _ (_, session) => (session.output.finish).mapError .error

end ClassLang
