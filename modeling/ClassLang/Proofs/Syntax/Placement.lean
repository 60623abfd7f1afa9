import ClassLang.Proofs.Typing.Members

/-!
# Where declarations stand

A tree is `Regular` if the parts of its nodes are of the kinds that the nodes ask for and all
declarations stand in their places: functions and types at top level, methods also in the bodies of
types and traits, cases in data types. What is left is code, and code consists of code.
-/

namespace ClassLang

namespace Node

/-- A node that denotes a type. -/
def isTypeExpr : Node → Bool
  | typed .. | namedType _ | pointerType _ | templatedType .. | closureType .. => true
  | _ => false

/-- The children of a node that denote types. -/
def typeParts : Node → List NodeId
  | typed _ type => [type]
  | pointerType target => [target]
  | templatedType _ args => args
  | closureType params result => params ++ [result]
  | methodDef _ _ result _ => result.toList
  | methodDec _ _ result _ => result.toList
  | ivarDecl _ type => [type]
  | var _ type _ => type.toList
  | templatedInstance _ typeArgs _ => typeArgs
  | pattern type _ _ => [type]
  | _ => []

/-- The children of a node that are typed as code. -/
def codeParts : Node → List NodeId
  | seq statements => statements
  | methodDef _ _ _ body => [body]
  | var _ _ value => [value]
  | assign _ value => [value]
  | call receiver _ args => receiver.toList ++ args
  | namedArg _ value => [value]
  | templatedInstance _ _ args => args
  | binary _ lhs rhs => [lhs, rhs]
  | unary _ operand => [operand]
  | branch cond yes no => cond :: yes :: no.toList
  | loop cond body => [cond, body]
  | select cond _ => [cond]
  | arm _ body => [body]
  | ret value => value.toList
  | lambda _ _ body => [body]
  | _ => []

/-- The body of a class, data type or trait. -/
def memberBody? : Node → Option NodeId
  | classDef _ _ body => some body
  | dataDef _ _ _ body => body
  | traitDef _ body => some body
  | _ => none

def isMethodDef : Node → Bool
  | methodDef .. => true
  | _ => false

def isCase : Node → Bool
  | caseDef .. => true
  | _ => false

/-- A node that may be typed as code: it declares no function, type or case, and it is no part of a
`case` expression. -/
def isCode (d : Node) : Bool :=
  match d with
  | arm .. | pattern .. => false
  | d => !(d.isMethodDef || d.declaresType || d.isCase)

/-- The declaration of a class or data type. -/
def isNominal : Node → Bool
  | classDef .. => true
  | dataDef .. => true
  | _ => false

def isSeq : Node → Bool
  | seq _ => true
  | _ => false

end Node

namespace SyntaxTree

variable (tree : SyntaxTree)

/-- The arm of a `case` expression, with a pattern. -/
def isArm (id : NodeId) : Bool :=
  match tree.node id with
  | .arm matched _ =>
    match tree.node matched with
    | .pattern .. => true
    | _ => false
  | _ => false

/-- The parameter of a lambda: a name, with a type or without. -/
def isLambdaParam (id : NodeId) : Bool :=
  match tree.node id with
  | .typed .. | .ident _ => true
  | _ => false

/-- What the node asks of its other parts: cases, arms and parameters are such, and a path to import
is not empty. -/
def kindsFit (d : Node) : Bool :=
  match d with
  | .dataDef _ _ cases _ => cases.all fun variant => (tree.node variant).isCase
  | .select _ arms => arms.all tree.isArm
  | .lambda params _ _ => params.all tree.isLambdaParam
  | .importModule path => !path.isEmpty
  | _ => true

/-- The sequence of the statements at top level, or in the body of a type or trait. -/
def IsBody (id : NodeId) : Prop :=
  (tree.node id).isSeq ∧
    (id = tree.root ∨ ∃ decl < tree.size, (tree.node decl).memberBody? = some id)

/-- A node that is typed as code. -/
def IsCode (id : NodeId) : Prop :=
  (tree.node id).isCode ∧ ¬ tree.IsBody id

/-- A statement in the body of a type or trait. -/
def IsMember (id : NodeId) : Prop :=
  (tree.node id).isMethodDef ∨ tree.IsCode id

/-- A statement at top level. -/
def IsTopLevel (id : NodeId) : Prop :=
  (tree.node id).declaresType ∨ tree.IsMember id

instance (id : NodeId) : Decidable (tree.IsBody id) :=
  inferInstanceAs (Decidable (_ ∧ (_ ∨ ∃ decl < tree.size, _ = some id)))

instance (id : NodeId) : Decidable (tree.IsCode id) :=
  inferInstanceAs (Decidable (_ ∧ _))

instance (id : NodeId) : Decidable (tree.IsMember id) :=
  inferInstanceAs (Decidable (_ ∨ _))

instance (id : NodeId) : Decidable (tree.IsTopLevel id) :=
  inferInstanceAs (Decidable (_ ∨ _))

/-- The parts of all nodes are of the kinds that the nodes ask for, wherever declarations stand. -/
structure WellKinded : Prop where
  types : ∀ id < tree.size, ∀ part ∈ (tree.node id).typeParts, (tree.node part).isTypeExpr
  kinds : ∀ id < tree.size, tree.kindsFit (tree.node id)

/-- The parts of all nodes are of the right kinds, and all declarations are in their places. -/
structure Regular : Prop extends tree.WellKinded where
  code : ∀ id < tree.size, ¬ tree.IsBody id → ∀ part ∈ (tree.node id).codeParts, tree.IsCode part
  members : ∀ decl < tree.size, ∀ body ∈ (tree.node decl).memberBody?,
    ∀ statement ∈ tree.statements body, tree.IsMember statement
  topLevel : ∀ statement ∈ tree.statements tree.root, tree.IsTopLevel statement

instance : Decidable tree.WellKinded :=
  decidable_of_iff ((∀ id < tree.size, ∀ part ∈ (tree.node id).typeParts,
      (tree.node part).isTypeExpr) ∧ ∀ id < tree.size, tree.kindsFit (tree.node id))
    ⟨fun h => ⟨h.1, h.2⟩, fun h => ⟨h.1, h.2⟩⟩

instance : Decidable tree.Regular :=
  decidable_of_iff (tree.WellKinded ∧
    (∀ id < tree.size, ¬ tree.IsBody id →
      ∀ part ∈ (tree.node id).codeParts, tree.IsCode part) ∧
    (∀ decl < tree.size, ∀ body ∈ (tree.node decl).memberBody?,
      ∀ statement ∈ tree.statements body, tree.IsMember statement) ∧
    ∀ statement ∈ tree.statements tree.root, tree.IsTopLevel statement)
    ⟨fun h => ⟨h.1, h.2.1, h.2.2.1, h.2.2.2⟩, fun h => ⟨h.1, h.2, h.3, h.4⟩⟩

/-- Nodes that are no empty sequence are nodes of the tree. -/
theorem lt_size_of_node_ne {id : NodeId} (h : tree.node id ≠ .seq []) : id < tree.size := by
  by_contra hlt
  refine h ?_
  rw [node, Array.getD_eq_getD_getElem?, Array.getElem?_eq_none (Nat.le_of_not_lt hlt)]
  rfl

namespace Regular

variable {tree} {id part : NodeId}

theorem typePart (h : tree.Regular) (hpart : part ∈ (tree.node id).typeParts) :
    (tree.node part).isTypeExpr := by
  refine h.types id (tree.lt_size_of_node_ne fun hnode => ?_) part hpart
  simp [hnode, Node.typeParts] at hpart

theorem kind (h : tree.Regular) (id : NodeId) : tree.kindsFit (tree.node id) := by
  by_cases hnode : tree.node id = .seq []
  · simp [hnode, kindsFit]
  · exact h.kinds id (tree.lt_size_of_node_ne hnode)

/-- The code parts of code are code. -/
theorem codePart (h : tree.Regular) (hid : ¬ tree.IsBody id)
    (hpart : part ∈ (tree.node id).codeParts) : tree.IsCode part := by
  refine h.code id (tree.lt_size_of_node_ne fun hnode => ?_) hid part hpart
  simp [hnode, Node.codeParts] at hpart

/-- Nodes other than sequences are no bodies of declarations. -/
theorem codePart_of_not_seq (h : tree.Regular) (hid : (tree.node id).isSeq = false)
    (hpart : part ∈ (tree.node id).codeParts) : tree.IsCode part :=
  h.codePart (fun hbody => absurd (hid.symm.trans hbody.1) (by simp)) hpart

theorem member (h : tree.Regular) {decl body statement : NodeId}
    (hbody : (tree.node decl).memberBody? = some body) (hstatement : statement ∈ tree.statements body) :
    tree.IsMember statement := by
  refine h.members decl (tree.lt_size_of_node_ne fun hnode => ?_) body hbody statement hstatement
  simp [hnode, Node.memberBody?] at hbody

end Regular

end SyntaxTree

end ClassLang
