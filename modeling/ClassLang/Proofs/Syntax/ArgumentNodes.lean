import ClassLang.Proofs.Syntax.TreeShape
import ClassLang.Proofs.Typing.Members

/-!
# Nodes that are arguments

What is typed as an argument of a call is an argument of that call only: in a tree-shaped unit a node
has one parent. Declarations, type expressions, patterns and statements are no arguments, and what
stands below one argument of a call does not stand below another one.
-/

namespace ClassLang.SyntaxTree

variable {tree : SyntaxTree} {node parent child call body : NodeId}

/-- The arguments of a call or construction; none for any other node. -/
def callArgs? (tree : SyntaxTree) (id : NodeId) : Option (List NodeId) :=
  match tree.node id with
  | .call _ _ args => some args
  | .templatedInstance _ _ args => some args
  | _ => none

/-- The node is an argument of a call that belongs to the unit. -/
def ArgOf (tree : SyntaxTree) (call node : NodeId) : Prop :=
  tree.Below tree.root call ∧ ∃ args, tree.callArgs? call = some args ∧ node ∈ args

/-- The node is an argument of some call. -/
def IsArg (tree : SyntaxTree) (node : NodeId) : Prop :=
  ∃ call, tree.ArgOf call node

/-- Arguments are children. -/
theorem mem_children_of_callArgs {args : List NodeId} (h : tree.callArgs? call = some args)
    (hnode : node ∈ args) : node ∈ (tree.node call).children := by
  unfold callArgs? at h
  split at h <;> cases h
  · next hcall => simp [hcall, Node.children, hnode]
  · next hcall => simp [hcall, Node.children, hnode]

theorem ArgOf.mem_children (h : tree.ArgOf call node) : node ∈ (tree.node call).children := by
  obtain ⟨-, args, hargs, hnode⟩ := h
  exact mem_children_of_callArgs hargs hnode

/-- The body of a type declaration is a child. -/
theorem mem_children_of_bodyOf {decl : NodeId} (hbody : tree.bodyOf? decl = some body) :
    body ∈ (tree.node decl).children := by
  unfold bodyOf? at hbody
  split at hbody
  · next hnode =>
      cases hbody
      simp [hnode, Node.children]
  · next hnode =>
      subst hbody
      simp [hnode, Node.children]
  · cases hbody

/-- A trait is declared by a statement of the unit. -/
theorem exists_trait {name : String} (hbody : tree.traits.lookup name = some body) :
    ∃ statement ∈ tree.statements tree.root, tree.node statement = .traitDef name body := by
  have hmem := mem_of_lookup_eq_some hbody
  rw [traits, List.mem_reverse, List.mem_filterMap] at hmem
  obtain ⟨statement, hstatement, hnode⟩ := hmem
  refine ⟨statement, hstatement, ?_⟩
  split at hnode <;> cases hnode
  assumption

/-- The body of a trait stands below the root. -/
theorem below_trait {name : String} (hbody : tree.traits.lookup name = some body) :
    tree.Below tree.root body := by
  obtain ⟨statement, hstatement, hnode⟩ := exists_trait hbody
  exact (below_of_mem_statements hstatement).tail (by simp [hnode, Node.children])

namespace TreeShaped

/-- A child can only be an argument of its parent. -/
theorem call_eq (h : tree.TreeShaped) (hchild : child ∈ (tree.node parent).children)
    (harg : tree.ArgOf call child) : call = parent :=
  h.parent_unique harg.mem_children hchild

/-- A child that is not among the arguments of its parent is no argument. -/
theorem not_isArg (h : tree.TreeShaped) (hchild : child ∈ (tree.node parent).children)
    (hnot : ∀ args, tree.callArgs? parent = some args → child ∉ args) : ¬ tree.IsArg child := by
  rintro ⟨call, harg⟩
  obtain rfl := h.call_eq hchild harg
  obtain ⟨-, args, hargs, hmem⟩ := harg
  exact hnot args hargs hmem

/-- The children of a node other than a call are no arguments. -/
theorem not_isArg_child (h : tree.TreeShaped) (hparent : tree.callArgs? parent = none)
    (hchild : child ∈ (tree.node parent).children) : ¬ tree.IsArg child :=
  h.not_isArg hchild (by simp [hparent])

/-- The receiver of a call is none of its arguments. -/
theorem not_isArg_receiver (h : tree.TreeShaped) {receiver : NodeId} {method : String}
    {args : List NodeId} (hcall : tree.node call = .call (some receiver) method args) :
    ¬ tree.IsArg receiver := by
  have hchild : receiver ∈ (tree.node call).children := by simp [hcall, Node.children]
  refine h.not_isArg hchild fun args' hargs hmem => ?_
  obtain rfl : args = args' := by simpa [callArgs?, hcall] using hargs
  have hnodup := h.nodup call (lt_size_of_mem_children hchild)
  rw [hcall] at hnodup
  exact (List.nodup_cons.mp hnodup).1 hmem

/-- The type arguments of a construction are none of its arguments. -/
theorem not_isArg_typeArg (h : tree.TreeShaped) {name : String} {typeArgs args : List NodeId}
    (hcall : tree.node call = .templatedInstance name typeArgs args) (hnode : node ∈ typeArgs) :
    ¬ tree.IsArg node := by
  have hchild : node ∈ (tree.node call).children := by simp [hcall, Node.children, hnode]
  refine h.not_isArg hchild fun args' hargs hmem => ?_
  obtain rfl : args = args' := by simpa [callArgs?, hcall] using hargs
  have hnodup := h.nodup call (lt_size_of_mem_children hchild)
  rw [hcall] at hnodup
  exact (List.nodup_append.mp hnodup).2.2 node hnode node hmem rfl

/-- Nothing that belongs to the unit stands above its root. -/
theorem not_isArg_root (h : tree.TreeShaped) : ¬ tree.IsArg tree.root := by
  rintro ⟨call, harg⟩
  exact absurd (h.le_of_below harg.1) (Nat.not_le_of_lt (h.child_lt harg.mem_children))

/-- The statements of a body are no arguments. -/
theorem not_isArg_statement (h : tree.TreeShaped) (hbody : ¬ tree.IsArg body)
    (hnode : node ∈ tree.statements body) : ¬ tree.IsArg node := by
  unfold statements at hnode
  split at hnode
  · next statements hseq =>
      have hnone : tree.callArgs? body = none := by simp [callArgs?, hseq]
      exact h.not_isArg_child hnone (by simpa [hseq, Node.children] using hnode)
  · rw [List.mem_singleton] at hnode
    rwa [hnode]

/-- The body of a trait is no argument. -/
theorem not_isArg_trait (h : tree.TreeShaped) {name : String}
    (hbody : tree.traits.lookup name = some body) : ¬ tree.IsArg body := by
  obtain ⟨statement, -, hnode⟩ := exists_trait hbody
  have hnone : tree.callArgs? statement = none := by simp [callArgs?, hnode]
  exact h.not_isArg_child hnone (by simp [hnode, Node.children])

/-- The body of a type declaration is no argument. -/
theorem not_isArg_body (h : tree.TreeShaped) {decl : NodeId}
    (hbody : tree.bodyOf? decl = some body) : ¬ tree.IsArg body := by
  have hnone : tree.callArgs? decl = none := by
    unfold bodyOf? at hbody
    split at hbody <;> simp_all [callArgs?]
  exact h.not_isArg_child hnone (mem_children_of_bodyOf hbody)

/-- No argument of a call is listed twice. -/
theorem nodup_args (h : tree.TreeShaped) {args : List NodeId}
    (hargs : tree.callArgs? call = some args) : args.Nodup := by
  cases args with
  | nil => exact List.nodup_nil
  | cons arg args =>
      have hlt : call < tree.size :=
        lt_size_of_mem_children (mem_children_of_callArgs hargs List.mem_cons_self)
      have hnodup := h.nodup call hlt
      unfold callArgs? at hargs
      split at hargs <;> cases hargs
      · next hcall =>
          rw [hcall] at hnodup
          exact (List.nodup_append.mp hnodup).2.1
      · next hcall =>
          rw [hcall] at hnodup
          exact (List.nodup_append.mp hnodup).2.1

end TreeShaped

end ClassLang.SyntaxTree
