import Mathlib.Data.List.Nodup
import Mathlib.Logic.Relation
import ClassLang.Syntax.Tree

/-!
# Tree-shaped units

A unit may share nodes between several parents. It is `TreeShaped` if it does not: every node occurs
at most once among the children of all nodes. Then what stands below one top-level statement does
not stand below another one.
-/

namespace ClassLang.SyntaxTree

open Relation (ReflTransGen)

variable {tree : SyntaxTree} {a b node parent child : NodeId}

/-- No node occurs twice as a child. -/
structure TreeShaped (tree : SyntaxTree) : Prop where
  wellFormed : tree.WellFormed
  nodup : ∀ id, id < tree.size → (tree.node id).children.Nodup
  parent_eq : ∀ a, a < tree.size → ∀ b, b < tree.size → ∀ child ∈ (tree.node a).children,
    child ∈ (tree.node b).children → a = b

instance (tree : SyntaxTree) : Decidable tree.TreeShaped :=
  decidable_of_iff (tree.WellFormed ∧ (∀ id, id < tree.size → (tree.node id).children.Nodup) ∧
    ∀ a, a < tree.size → ∀ b, b < tree.size → ∀ child ∈ (tree.node a).children,
      child ∈ (tree.node b).children → a = b)
    ⟨fun h => ⟨h.1, h.2.1, h.2.2⟩, fun h => ⟨h.1, h.2, h.3⟩⟩

/-- The nodes below a node, itself included. -/
def Below (tree : SyntaxTree) : NodeId → NodeId → Prop :=
  ReflTransGen fun parent child => child ∈ (tree.node parent).children

/-- Only nodes of the tree have children. -/
theorem lt_size_of_mem_children (h : child ∈ (tree.node parent).children) :
    parent < tree.size := by
  by_contra hlt
  rw [node, Array.getD_eq_getD_getElem?, Array.getElem?_eq_none (Nat.le_of_not_lt hlt)] at h
  simp [Node.children] at h

/-- The statements of a body stand below it. -/
theorem below_of_mem_statements {body statement : NodeId}
    (h : statement ∈ tree.statements body) : tree.Below body statement := by
  unfold statements at h
  split at h
  · next statements hnode => exact .single (by simpa [hnode, Node.children] using h)
  · rw [List.mem_singleton] at h
    exact h ▸ .refl

namespace TreeShaped

/-- A node has at most one parent. -/
theorem parent_unique (h : tree.TreeShaped) (ha : child ∈ (tree.node a).children)
    (hb : child ∈ (tree.node b).children) : a = b :=
  h.parent_eq a (lt_size_of_mem_children ha) b (lt_size_of_mem_children hb) child ha hb

theorem child_lt (h : tree.TreeShaped) (hchild : child ∈ (tree.node parent).children) :
    child < parent :=
  h.wellFormed.2 parent (lt_size_of_mem_children hchild) child hchild

theorem le_of_below (h : tree.TreeShaped) (hbelow : tree.Below a b) : b ≤ a := by
  induction hbelow with
  | refl => exact Nat.le_refl a
  | tail _ hstep ih => exact Nat.le_trans (Nat.le_of_lt (h.child_lt hstep)) ih

/-- No statement is listed twice. -/
theorem nodup_statements (h : tree.TreeShaped) (body : NodeId) : (tree.statements body).Nodup := by
  unfold statements
  split
  · next statements hnode =>
      by_cases hlt : body < tree.size
      · simpa [hnode, Node.children] using h.nodup body hlt
      · rw [node, Array.getD_eq_getD_getElem?, Array.getElem?_eq_none (Nat.le_of_not_lt hlt)] at hnode
        cases hnode
        exact List.nodup_nil
  · exact List.nodup_singleton body

/-- Of two nodes above a third one, one is above the other. -/
theorem below_total (h : tree.TreeShaped) (ha : tree.Below a node) (hb : tree.Below b node) :
    tree.Below a b ∨ tree.Below b a := by
  have hunique : Relator.RightUnique (Function.swap fun parent child =>
      child ∈ (tree.node parent).children) := fun _ _ _ h₁ h₂ => h.parent_unique h₁ h₂
  have htotal := ReflTransGen.total_of_right_unique hunique ha.swap hb.swap
  exact htotal.symm.imp (fun h => h.swap) fun h => h.swap

/-- Siblings are not below each other. -/
theorem not_below_of_siblings (h : tree.TreeShaped) (ha : a ∈ (tree.node parent).children)
    (hb : b ∈ (tree.node parent).children) (hne : a ≠ b) : ¬ tree.Below a b := by
  intro hbelow
  rcases hbelow.cases_tail with heq | ⟨p, hp, hstep⟩
  · exact hne heq.symm
  · -- the parent of `b` is the common parent, which is above `a`
    obtain rfl := h.parent_unique hstep hb
    exact absurd (h.le_of_below hp) (Nat.not_le_of_lt (h.child_lt ha))

/-- Nothing stands below two statements of one body. -/
theorem disjoint_statements (h : tree.TreeShaped) {body : NodeId}
    (ha : a ∈ tree.statements body) (hb : b ∈ tree.statements body) (hne : a ≠ b)
    (hbelow : tree.Below a node) : ¬ tree.Below b node := by
  intro hbelow'
  unfold statements at ha hb
  split at ha
  · next statements hnode =>
      simp only [hnode] at hb
      have hchild : ∀ statement ∈ statements, statement ∈ (tree.node body).children :=
        fun _ hmem => by simpa [hnode, Node.children] using hmem
      rcases h.below_total hbelow hbelow' with hab | hba
      · exact h.not_below_of_siblings (hchild a ha) (hchild b hb) hne hab
      · exact h.not_below_of_siblings (hchild b hb) (hchild a ha) (Ne.symm hne) hba
  · next hnode =>
      rw [List.mem_singleton] at ha
      split at hb
      · next statements hseq => exact absurd hseq (hnode statements)
      · rw [List.mem_singleton] at hb
        exact hne (ha.trans hb.symm)

end TreeShaped

end ClassLang.SyntaxTree
