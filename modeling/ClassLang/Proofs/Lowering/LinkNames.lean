import ClassLang.Proofs.Lowering.Readiness

/-!
# The link names of a module

A module declares functions and methods, a method on the type that its declaration makes in one of
its walks. Without an attribute the link name is spelled from the names: `Declaration.spelled`.
Different declarations on types that are displayed differently have different link names, unless
they are spelled alike, and `Declaration.SpelledAlike` says when that is so.
-/

namespace ClassLang

open Relation (ReflTransGen)

/-- The visits that the body of a declaration comes to in one of its walks. -/
def TypeTable.ComesTo (table : TypeTable) (tree : SyntaxTree) (decl : NodeId) (walk : InstanceId)
    (v : Visit) : Prop :=
  ∃ body statement, tree.bodyOf? decl = some body ∧ statement ∈ tree.statements body ∧
    ReflTransGen (table.Includes tree) { walk, node := statement } v

/-- A function, or a method with the type that it is declared on: the one that a declaration makes in
one of its walks. -/
inductive Declaration where
  | function (statement : NodeId)
  | method (decl : NodeId) (walk : InstanceId) (owner : TypeId) (visit : Visit)

namespace Declaration

/-- Where the signature is recorded. -/
def visit : Declaration → Visit
  | .function statement => { walk := 0, node := statement }
  | .method _ _ _ visit => visit

/-- The type of the receiver. -/
def owner? : Declaration → Option TypeId
  | .function _ => none
  | .method _ _ owner _ => some owner

/-- The name, if the declaration has no attribute. -/
def plainName? (tree : SyntaxTree) (d : Declaration) : Option String :=
  match tree.method? d.visit.node with
  | some (name, none) => some name
  | _ => none

/-- The link name of a declaration without an attribute. -/
def spelled (p : Pool) (package : Option String) (d : Declaration) (name : String) : String :=
  match d.owner? with
  | some owner => methodLink (p.display owner) name
  | none => functionLink package name

/-- The link names of two declarations are spelled alike although the declarations differ: the
names of two methods overlap, or a function is named like a method is linked. -/
def SpelledAlike (p : Pool) (package : Option String) (d d' : Declaration)
    (name name' : String) : Prop :=
  match d.owner?, d'.owner? with
  | some owner, some owner' =>
    NamesOverlap (p.display owner) name (p.display owner') name' ∨
      NamesOverlap (p.display owner') name' (p.display owner) name
  | some owner, none => functionLink package name' = methodLink (p.display owner) name
  | none, some owner => functionLink package name = methodLink (p.display owner) name'
  | none, none => False

theorem plainName?_eq_some_iff {tree : SyntaxTree} {d : Declaration} {name : String} :
    d.plainName? tree = some name ↔ tree.method? d.visit.node = some (name, none) := by
  unfold plainName?
  split <;> simp_all

/-- A method is not spelled like another one if the names of its type and itself have no
underscore. -/
theorem SpelledAlike.underscore {p : Pool} {package : Option String} {decl decl' : NodeId}
    {walk walk' : InstanceId} {owner owner' : TypeId} {visit visit' : Visit} {name name' : String}
    (h : (method decl walk owner visit).SpelledAlike p package (method decl' walk' owner' visit')
      name name') : '_' ∈ (p.display owner).toList ∨ '_' ∈ name.toList := by
  rcases h with h | h
  · exact .inr h.underscore.2
  · exact .inl h.underscore.1

end Declaration

namespace TypedModule

variable (m : TypedModule) (tree : SyntaxTree)

/-- The functions and methods of a module. -/
def Has : Declaration → Prop
  | .function statement => statement ∈ tree.statements tree.root ∧ tree.IsMethod statement
  | .method decl walk owner visit =>
    decl ∈ tree.statements tree.root ∧ m.HasInstance decl walk owner ∧
      m.table.ComesTo tree decl walk visit ∧ tree.IsMethod visit.node

/-- The types that are declared in a module, those of expansions among them, are displayed
differently. -/
def DisplaysApart (p : Pool) : Prop :=
  ∀ decl ∈ tree.statements tree.root, ∀ decl' ∈ tree.statements tree.root,
    tree.IsTypeDecl decl → tree.IsTypeDecl decl' → ∀ walk owner walk' owner',
      m.HasInstance decl walk owner → m.HasInstance decl' walk' owner' →
        (decl, walk, owner) ≠ (decl', walk', owner') → p.display owner ≠ p.display owner'

/-- The link name of the signature that was recorded for a declaration. -/
def linkName? (d : Declaration) : Option String :=
  m.table.signatures[d.visit]?.map (·.linkName)

/-- Two different declarations without attributes are spelled alike. -/
def Clash (p : Pool) (package : Option String) (d d' : Declaration) : Prop :=
  d ≠ d' ∧ m.Has tree d ∧ m.Has tree d' ∧ ∃ name name', d.plainName? tree = some name ∧
    d'.plainName? tree = some name' ∧ d.SpelledAlike p package d' name name'

variable {m tree}

/-- A method of a statement of the body of a type declaration. -/
theorem Has.of_statement {decl statement : NodeId} {walk : InstanceId} {owner : TypeId}
    (body : NodeId)
    (htop : decl ∈ tree.statements tree.root) (hinstance : m.HasInstance decl walk owner)
    (hbody : tree.bodyOf? decl = some body) (hstatement : statement ∈ tree.statements body)
    (hmethod : tree.IsMethod statement) :
    m.Has tree (.method decl walk owner { walk, node := statement }) :=
  ⟨htop, hinstance, ⟨body, statement, hbody, hstatement, .refl⟩, hmethod⟩

theorem linkName?_eq_some_iff {d : Declaration} {link : String} :
    m.linkName? d = some link ↔
      ∃ sig, m.table.signature d.visit = .ok sig ∧ sig.linkName = link := by
  unfold linkName? TypeTable.signature
  cases m.table.signatures[d.visit]? <;> simp

end TypedModule

/-- A declaration that has a body declares a type. -/
theorem SyntaxTree.isTypeDecl_of_bodyOf? {tree : SyntaxTree} {decl body : NodeId}
    (h : tree.bodyOf? decl = some body) : tree.IsTypeDecl decl := by
  unfold bodyOf? at h
  unfold IsTypeDecl
  split at h <;> simp_all

namespace Typing.Delivered

variable {σ : Type} {ctx : TypingContext σ} {known : σ → String → Prop} {s : TypingState σ}
  {d d' : Declaration} {name name' : String}

/-- A method is registered on its type, under a name that no other method of that type has. -/
theorem method_registers (h : Delivered ctx known s) {decl : NodeId} {walk : InstanceId}
    {owner : TypeId} {visit : Visit} (hd : s.typed.Has ctx.tree (.method decl walk owner visit)) :
    s.table.Registered ctx.tree s.pool owner [] visit ∧
      ∀ other, s.typed.Has ctx.tree (.method decl walk owner other) → visit ≠ other →
        ∀ name attr name' attr', ctx.tree.method? visit.node = some (name, attr) →
          ctx.tree.method? other.node = some (name', attr') → name ≠ name' := by
  obtain ⟨htop, hinstance, ⟨body, statement, hbody, hstatement, hreach⟩, hmethod⟩ := hd
  have hregisters := h.instance_declared htop (SyntaxTree.isTypeDecl_of_bodyOf? hbody) hinstance
    body hbody
  have hstart : ∀ statement ∈ ctx.tree.statements body, (⟨walk, statement⟩ : Visit) ∈
      (ctx.tree.statements body).map fun statement => { walk, node := statement } :=
    fun _ hmem => List.mem_map_of_mem hmem
  refine ⟨hregisters.registered (hstart statement hstatement) hreach hmethod, ?_⟩
  rintro other ⟨-, -, ⟨body', statement', hbody', hstatement', hreach'⟩, -⟩ hne
  obtain rfl : body = body' := Option.some.inj (hbody.symm.trans hbody')
  exact hregisters.apart _ (hstart statement hstatement) _ (hstart statement' hstatement')
    visit other hreach hreach' hne

/-- Every declaration has a recorded signature, and without an attribute its link name is spelled
from the names. -/
theorem linkName_eq (h : Delivered ctx known s) (hd : s.typed.Has ctx.tree d)
    (hname : d.plainName? ctx.tree = some name) :
    s.typed.linkName? d = some (d.spelled s.pool s.package name) := by
  rw [Declaration.plainName?_eq_some_iff] at hname
  -- the name of the signature is the declared one
  have hlinked : ∀ {sig : Signature} {link : String → String},
      s.table.signatures[d.visit]? = some sig → sig.NamedBy ctx.tree d.visit.node link →
        s.typed.linkName? d = some (link name) := by
    intro sig link hsig hnamed
    obtain ⟨attr, hdeclared⟩ := hnamed.declared
    rw [hname] at hdeclared
    obtain ⟨rfl, rfl⟩ := Prod.mk.inj (Option.some.inj hdeclared)
    have hsig : s.typed.table.signatures[d.visit]? = some sig := hsig
    rw [TypedModule.linkName?, hsig, Option.map_some, hnamed.linked hname]
  cases d with
  | function statement =>
      obtain ⟨sig, hsig, -, hnamed⟩ := (h.signed statement hd.1).function hd.2
      exact hlinked hsig hnamed
  | method decl walk owner visit =>
      obtain ⟨sig, type, hsig, -, -, htype, hnamed⟩ := (h.method_registers hd).1
      rw [hlinked hsig hnamed, ← Pool.display_of_nominalName htype]
      rfl

/-- Different declarations have the same link name only if they are spelled alike. -/
theorem spelled_eq_iff (h : Delivered ctx known s)
    (hdisplay : s.typed.DisplaysApart ctx.tree s.pool) (hd : s.typed.Has ctx.tree d)
    (hd' : s.typed.Has ctx.tree d') (hne : d ≠ d') (hname : d.plainName? ctx.tree = some name)
    (hname' : d'.plainName? ctx.tree = some name') :
    d.spelled s.pool s.package name = d'.spelled s.pool s.package name' ↔
      d.SpelledAlike s.pool s.package d' name name' := by
  rw [Declaration.plainName?_eq_some_iff] at hname hname'
  cases d with
  | function statement =>
      cases d' with
      | function statement' =>
          refine ⟨fun heq => ?_, False.elim⟩
          have hstatements : statement ≠ statement' := fun heq => hne (heq ▸ rfl)
          exact h.functions statement hd.1 statement' hd'.1 hstatements _ _ _ _ hname hname'
            (functionLink_injective s.package heq)
      | method => exact Iff.rfl
  | method decl walk owner visit =>
      cases d' with
      | function => exact eq_comm
      | method decl' walk' owner' visit' =>
          refine methodLink_eq_iff.trans (or_iff_right ?_)
          rintro ⟨htype, rfl⟩
          by_cases hsame : (decl, walk, owner) = (decl', walk', owner')
          · cases hsame
            have hvisits : visit ≠ visit' := fun heq => hne (heq ▸ rfl)
            exact (h.method_registers hd).2 visit' hd' hvisits _ _ _ _ hname hname' rfl
          · obtain ⟨htop, hinstance, ⟨body, _, hbody, _⟩, -⟩ := hd
            obtain ⟨htop', hinstance', ⟨body', _, hbody', _⟩, -⟩ := hd'
            exact hdisplay decl htop decl' htop' (SyntaxTree.isTypeDecl_of_bodyOf? hbody)
              (SyntaxTree.isTypeDecl_of_bodyOf? hbody') _ _ _ _ hinstance hinstance' hsame htype

end Typing.Delivered

/-! ## Deciding whether types are displayed differently -/

namespace TypedModule

variable (m : TypedModule) (tree : SyntaxTree)

instance (statement : NodeId) : Decidable (tree.IsTypeDecl statement) := by
  unfold SyntaxTree.IsTypeDecl
  split <;> infer_instance

instance (decl : NodeId) (walk : InstanceId) (owner : TypeId) :
    Decidable (m.HasInstance decl walk owner) := by
  unfold HasInstance
  split <;> infer_instance

/-- The types that a declaration makes, with their walks. -/
def instancesOf (decl : NodeId) : List (InstanceId × TypeId) :=
  match m.templateFor? decl with
  | some template => template.expansions.map fun e => (e.walk, e.type)
  | none => (m.table.get? { walk := 0, node := decl }).toList.map fun owner => (0, owner)

/-- All types that are declared in a module, with their declarations and walks. -/
def instances : List (NodeId × InstanceId × TypeId) :=
  ((tree.statements tree.root).filter (tree.IsTypeDecl ·)).flatMap fun decl =>
    (m.instancesOf decl).map (decl, ·)

variable {m tree}

theorem mem_instancesOf {decl : NodeId} {walk : InstanceId} {owner : TypeId} :
    (walk, owner) ∈ m.instancesOf decl ↔ m.HasInstance decl walk owner := by
  unfold instancesOf HasInstance
  cases m.templateFor? decl with
  | some template => simp
  | none => simp [and_comm, eq_comm]

theorem mem_instances {decl : NodeId} {walk : InstanceId} {owner : TypeId} :
    (decl, walk, owner) ∈ m.instances tree ↔ decl ∈ tree.statements tree.root ∧
      tree.IsTypeDecl decl ∧ m.HasInstance decl walk owner := by
  simp [instances, mem_instancesOf, and_assoc]

instance (p : Pool) : Decidable (m.DisplaysApart tree p) :=
  decidable_of_iff (∀ x ∈ m.instances tree, ∀ y ∈ m.instances tree, x ≠ y →
      p.display x.2.2 ≠ p.display y.2.2) <| by
    constructor
    · intro h decl htop decl' htop' hdecl hdecl' walk owner walk' owner' hinstance hinstance'
      exact h (decl, walk, owner) (mem_instances.mpr ⟨htop, hdecl, hinstance⟩)
        (decl', walk', owner') (mem_instances.mpr ⟨htop', hdecl', hinstance'⟩)
    · rintro h ⟨decl, walk, owner⟩ hx ⟨decl', walk', owner'⟩ hy
      obtain ⟨htop, hdecl, hinstance⟩ := mem_instances.mp hx
      obtain ⟨htop', hdecl', hinstance'⟩ := mem_instances.mp hy
      exact h decl htop decl' htop' hdecl hdecl' walk owner walk' owner' hinstance hinstance'

end TypedModule

end ClassLang
