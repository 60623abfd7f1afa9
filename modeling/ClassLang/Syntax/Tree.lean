import ClassLang.Syntax.Operator

/-!
# Syntax trees

A compilation unit is a flat array of nodes that refer to each other by position. Children are
stored before their parents, and a node may have several parents. `SyntaxTree.WellFormed` states
the order; everything that walks a tree reads nodes through `SyntaxTree.node`.
-/

namespace ClassLang

/-- The position of a node in its tree. -/
abbrev NodeId := Nat

/-- `%Name(key="value", ...)` in front of a method declaration. -/
structure Attribute where
  name : String
  values : List (String × String)
deriving DecidableEq, Repr

namespace Attribute

/-- The value of the first entry for `key`. -/
def value? (a : Attribute) (key : String) : Option String :=
  a.values.lookup key

/-- `%Import(name="link")`, which fixes the symbol of a declaration. -/
def importing (link : String) : Attribute :=
  { name := "Import", values := [("name", link)] }

end Attribute

/-- Every construct of the language. -/
inductive Node where
  /-- Statements in order; the value is that of the last one. -/
  | seq (statements : List NodeId)
  | number (value : Int)
  | bool (value : Bool)
  | text (value : String)
  | ident (name : String)
  /-- `@name`. -/
  | ivar (name : String)
  /-- `self` inside a method body. -/
  | selfRef
  /-- `name : Type` in a parameter list or pattern. -/
  | typed (name : String) (type : NodeId)
  /-- `...` as the last parameter of a declaration. -/
  | varargs
  | namedType (name : String)
  /-- `*T`. -/
  | pointerType (target : NodeId)
  /-- `Name<Arg>` in type position. -/
  | templatedType (name : String) (args : List NodeId)
  /-- `Closure<(A, B) -> R>`. -/
  | closureType (params : List NodeId) (result : NodeId)
  | methodDef (name : String) (params : List NodeId) (result : Option NodeId) (body : NodeId)
  /-- A declaration without a body, usually of an external function. -/
  | methodDec (name : String) (params : List NodeId) (result : Option NodeId)
      (attr : Option Attribute)
  | classDef (name : String) (typeParam : Option String) (body : NodeId)
  | dataDef (name : String) (typeParam : Option String) (cases : List NodeId)
      (body : Option NodeId)
  /-- One case of a data declaration; the fields are `typed` nodes. -/
  | caseDef (name : String) (fields : List NodeId)
  /-- `var @name : Type` inside a class body. -/
  | ivarDecl (name : String) (type : NodeId)
  | traitDef (name : String) (body : NodeId)
  /-- `include Trait` inside a class body. -/
  | inclusion (name : String)
  | var (name : String) (type : Option NodeId) (value : NodeId)
  | assign (target value : NodeId)
  | call (receiver : Option NodeId) (method : String) (args : List NodeId)
  /-- `name: value` inside an argument list. -/
  | namedArg (name : String) (value : NodeId)
  /-- `Name<TypeArgs>(args)`. -/
  | templatedInstance (name : String) (typeArgs args : List NodeId)
  | binary (op : BinaryOp) (lhs rhs : NodeId)
  | unary (op : UnaryOp) (operand : NodeId)
  | branch (cond yes : NodeId) (no : Option NodeId)
  | loop (cond body : NodeId)
  /-- `case cond; when ...; end`; the arms are `arm` nodes. -/
  | select (cond : NodeId) (arms : List NodeId)
  /-- `when pattern => body`. -/
  | arm (matched body : NodeId)
  /-- `Case(a, b)` or `name : Type`: a type to test and the names it binds. -/
  | pattern (type : NodeId) (binder : Option String) (fields : List String)
  | ret (value : Option NodeId)
  /-- `|params| body`; `captures` names the outer locals that are copied in. -/
  | lambda (params : List NodeId) (captures : List String) (body : NodeId)
  | importModule (path : List String)
  | package (path : List String)
deriving DecidableEq, Repr

namespace Node

/-- The children of a node in source order. -/
def children : Node → List NodeId
  | seq statements => statements
  | number _ | bool _ | text _ | ident _ | ivar _ | selfRef | varargs | namedType _ => []
  | typed _ type => [type]
  | pointerType target => [target]
  | templatedType _ args => args
  | closureType params result => params ++ [result]
  | methodDef _ params result body => params ++ result.toList ++ [body]
  | methodDec _ params result _ => params ++ result.toList
  | classDef _ _ body => [body]
  | dataDef _ _ cases body => cases ++ body.toList
  | caseDef _ fields => fields
  | ivarDecl _ type => [type]
  | traitDef _ body => [body]
  | inclusion _ => []
  | var _ type value => type.toList ++ [value]
  | assign target value => [target, value]
  | call receiver _ args => receiver.toList ++ args
  | namedArg _ value => [value]
  | templatedInstance _ typeArgs args => typeArgs ++ args
  | binary _ lhs rhs => [lhs, rhs]
  | unary _ operand => [operand]
  | branch cond yes no => cond :: yes :: no.toList
  | loop cond body => [cond, body]
  | select cond arms => cond :: arms
  | arm matched body => [matched, body]
  | pattern type _ _ => [type]
  | ret value => value.toList
  | lambda params _ body => params ++ [body]
  | importModule _ | package _ => []

end Node

/-- A compilation unit: its nodes and the node everything hangs from. -/
structure SyntaxTree where
  nodes : Array Node
  root : NodeId
deriving DecidableEq, Repr

namespace SyntaxTree

/-- How many nodes the tree has. -/
def size (tree : SyntaxTree) : Nat :=
  tree.nodes.size

/-- The node at a position. A position outside the tree reads as an empty sequence. -/
def node (tree : SyntaxTree) (id : NodeId) : Node :=
  tree.nodes.getD id (.seq [])

/-- The statements of a sequence, or the node itself. -/
def statements (tree : SyntaxTree) (id : NodeId) : List NodeId :=
  match tree.node id with
  | .seq statements => statements
  | _ => [id]

/-- Children come before their parents and the root is a node of the tree. -/
def WellFormed (tree : SyntaxTree) : Prop :=
  tree.root < tree.size ∧ ∀ id, id < tree.size → ∀ child ∈ (tree.node id).children, child < id

/-- Well-formedness is a check of every node against its children. -/
instance (tree : SyntaxTree) : Decidable tree.WellFormed :=
  inferInstanceAs (Decidable (_ ∧ ∀ id, id < tree.size → ∀ child ∈ _, _))

/-- The tree whose root is a sequence of `statements` appended to `nodes`. -/
def ofStatements (nodes : Array Node) (statements : List NodeId) : SyntaxTree :=
  { nodes := nodes.push (.seq statements), root := nodes.size }

/-- How deep a walk over the tree may nest. Between two nested generic expansions or trait
inclusions a walk only descends, and a walk that ends never nests the same expansion twice, so a
cube of the size leaves room for every walk that ends. -/
def walkBudget (tree : SyntaxTree) : Nat :=
  Nat.pow (tree.size + 4) 3

/-- How many generic expansions a walk may work off. Without an endless chain of expansions the
arguments are the tree's type expressions with the arguments of enclosing expansions filled in, of
which there are at most exponentially many. -/
def expansionBudget (tree : SyntaxTree) : Nat :=
  Nat.pow 4 (tree.size + 1)

end SyntaxTree

end ClassLang
