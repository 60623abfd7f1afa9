import ClassLang.Syntax.Tree
import ClassLang.Types.Basic

/-!
# Returns in a body

The code of a node consists of the code of its `inlineParts`; the body of a lambda is a function of
its own. `ReturnsFit` says of a body with a declared result that `return` stands without a value only
where nothing is to be returned, and never in a lambda.
-/

namespace ClassLang.SyntaxTree

/-- The nodes whose code is part of the code of a node. -/
def inlineParts (tree : SyntaxTree) (id : NodeId) : List NodeId :=
  match tree.node id with
  | .seq statements => statements
  | .var _ _ value => [value]
  | .assign _ value => [value]
  | .call receiver _ args => receiver.toList ++ args
  | .namedArg _ value => [value]
  | .templatedInstance _ _ args => args
  | .binary _ lhs rhs => [lhs, rhs]
  | .unary _ operand => [operand]
  | .branch cond yes no => cond :: yes :: no.toList
  | .loop cond body => [cond, body]
  | .select cond arms => cond :: arms.filterMap fun arm =>
      match tree.node arm with
      | .arm _ body => some body
      | _ => none
  | .ret value => value.toList
  | _ => []

/-- Every `return` in the code of a node fits the declared result of the enclosing method, of which
there is none in a lambda. -/
inductive ReturnsFit (tree : SyntaxTree) : Option TypeId → NodeId → Prop
  | intro {expected : Option TypeId} {id : NodeId}
      (bare : tree.node id = .ret none → expected = some .void)
      (parts : ∀ part ∈ tree.inlineParts id, ReturnsFit tree expected part)
      (lambda : ∀ params captures body, tree.node id = .lambda params captures body →
        ReturnsFit tree none body) : ReturnsFit tree expected id

namespace ReturnsFit

variable {tree : SyntaxTree} {expected : Option TypeId} {id : NodeId}

theorem bare (h : tree.ReturnsFit expected id) (hnode : tree.node id = .ret none) :
    expected = some .void := by
  cases h with
  | intro bare _ _ => exact bare hnode

theorem part (h : tree.ReturnsFit expected id) {part : NodeId}
    (hpart : part ∈ tree.inlineParts id) : tree.ReturnsFit expected part := by
  cases h with
  | intro _ parts _ => exact parts part hpart

theorem lambda (h : tree.ReturnsFit expected id) {params : List NodeId} {captures : List String}
    {body : NodeId} (hnode : tree.node id = .lambda params captures body) :
    tree.ReturnsFit none body := by
  cases h with
  | intro _ _ lambda => exact lambda params captures body hnode

/-- A node without parts that is neither a `return` nor a lambda. -/
theorem of_leaf (hret : tree.node id ≠ .ret none) (hparts : tree.inlineParts id = [])
    (hlambda : ∀ params captures body, tree.node id ≠ .lambda params captures body) :
    tree.ReturnsFit expected id :=
  .intro (fun h => absurd h hret) (by simp [hparts]) fun params captures body h =>
    absurd h (hlambda params captures body)

end ReturnsFit

end ClassLang.SyntaxTree
