import ClassLang.Typing.State

/-!
# Declared members

The instance variables of a class, the cases of a data type and the signatures of methods. A class
takes over the members of the traits it includes, each inclusion under a walk of its own.

Everything here needs the meaning of type expressions, which in turn needs the members of generic
types; so the functions take it as the argument `typeExpr`.
-/

namespace ClassLang.Typing

variable {σ : Type} (ctx : TypingContext σ) (typeExpr : NodeId → Typing σ TypeId)

/-- The body of a trait. -/
def findTrait (name : String) : Typing σ NodeId := do
  match (← get).scopes.findTrait name with
  | some body => pure body
  | none => fail (.uninitialized name)

/-- Add the instance variables declared in a body to a layout, those of included traits in the
place of the inclusion. Only declarations of the body itself are recorded. -/
def collectIvarsInto : Nat → NodeId → Bool → List (String × TypeId) →
    Typing σ (List (String × TypeId))
  | 0, _, _, _ => throw .outOfFuel
  | fuel + 1, body, recording, ivars =>
    let step (ivars : List (String × TypeId)) (statement : NodeId) :
        Typing σ (List (String × TypeId)) :=
      match ctx.tree.node statement with
      | .ivarDecl name type => do
        let t ← typeExpr type
        if ivars.any (·.1 == name) then
          mismatch s!"instance variable '@{name}' is declared twice"
        if recording then record statement t
        pure (ivars ++ [(name, t)])
      | .inclusion name => do
        collectIvarsInto fuel (← findTrait name) false ivars
      | _ => pure ivars
    (ctx.tree.statements body).foldlM step ivars

/-- The layout of a class with the given body. -/
def collectIvars (body : NodeId) : Typing σ (List (String × TypeId)) :=
  collectIvarsInto ctx typeExpr (ctx.tree.size + 1) body true []

/-- The fields of a case, in order. -/
def caseFields (caseName : String) (fields : List NodeId) :
    Typing σ (List (String × TypeId)) :=
  fields.mapM fun field =>
    match ctx.tree.node field with
    | .typed name type => do
      let t ← typeExpr type
      record field t
      pure (name, t)
    | _ => mismatch s!"fields of case '{caseName}' need a declared type"

/-- Make the cases of the data type `owner` in declaration order. -/
def addCases (owner : TypeId) (cases : List NodeId) : Typing σ (List TypeId) := do
  let ownerName ← spell owner
  cases.mapM fun decl =>
    match ctx.tree.node decl with
    | .caseDef name fields => do
      let fields ← caseFields ctx typeExpr name fields
      let s ← get
      let (t, pool) ← ofExcept (s.pool.addCase owner (ownerName ++ "." ++ name) name fields)
      set { s with pool }
      record decl t
      pure t
    | _ => fail (.internal "data declaration holds a non-case")

/-- The declared parameters of a method, and whether it is variadic. Only the last parameter may
be `...`. -/
def declaredParams (method : String) (params : List NodeId) : Typing σ (List Param × Bool) :=
  let step : List Param × Bool → NodeId × Nat → Typing σ (List Param × Bool)
    | (declared, varargs), (param, i) =>
      match ctx.tree.node param with
      | .typed name type => do
        let t ← typeExpr type
        record param t
        pure (declared ++ [{ name := some name, type := t }], varargs)
      | .varargs =>
        if i + 1 = params.length then pure (declared, true)
        else mismatch s!"parameter {i + 1} of '{method}' needs a declared type"
      | _ => mismatch s!"parameter {i + 1} of '{method}' needs a declared type"
  params.zipIdx.foldlM step ([], false)

/-- The symbol of a method: what its attribute says, else a name made of the owner's, else the
qualified name; `main` is never qualified. -/
def linkName (owner : Option TypeId) (attr : Option Attribute) (name : String) :
    Typing σ String :=
  match owner, attr with
  | _, some attr => pure ((attr.value? "name").getD name)
  | some owner, none => return "_Tc_" ++ (← spell owner) ++ "_" ++ name
  | none, none => if name = "main" then pure name else qualified name

/-- The signature of a method declared by a node; `owner` is the type it belongs to. -/
def signatureOf (node : NodeId) (owner : Option TypeId) : Typing σ Signature :=
  match ctx.tree.node node with
  | .methodDef name params result _ => build name params result none
  | .methodDec name params result attr => build name params result attr
  | _ => fail (.internal "signature of a non-method")
where
  /-- The signature from the parts of a declaration. -/
  build (name : String) (params : List NodeId) (result : Option NodeId)
      (attr : Option Attribute) : Typing σ Signature := do
    let (params, varargs) ← declaredParams ctx typeExpr name params
    let result ← match result with
      | some result => typeExpr result
      | none => pure .void
    let linkName ← linkName owner attr name
    pure { name, linkName, params, result, varargs }

/-- Register the methods declared in a body, and those of included traits, on `owner`. -/
def declareMethodsWithin : Nat → NodeId → TypeId → Typing σ Unit
  | 0, _, _ => throw .outOfFuel
  | fuel + 1, body, owner =>
    (ctx.tree.statements body).forM fun statement => do
      let declare : Typing σ Unit := do
        let sig ← signatureOf ctx typeExpr statement (some owner)
        updatePool (·.addMethod owner sig)
        let v ← visit statement
        modifyTable (·.setSignature v sig)
      match ctx.tree.node statement with
      | .methodDef .. => declare
      | .methodDec .. => declare
      | .inclusion name => do
        let traitBody ← findTrait name
        let included ← modifyGet fun s =>
          let (walk, table) := s.table.freshInstance
          (walk, { s with table })
        let v ← visit statement
        modifyTable (·.setInclusion v included)
        withWalk included (declareMethodsWithin fuel traitBody owner)
      | _ => pure ()

/-- Register the methods of a type's body. -/
def declareMethods (body : NodeId) (owner : TypeId) : Typing σ Unit :=
  declareMethodsWithin ctx typeExpr (ctx.tree.size + 1) body owner

end ClassLang.Typing
