import Mathlib.Data.List.Nodup
import Mathlib.Logic.Relation
import ClassLang.Syntax.Tree
import ClassLang.Typing.Calculate

/-!
# The members of type declarations

A class or data type has the methods of its body and those of the traits that it includes, each
inclusion under the walk that was recorded for it. A generic declaration has them once for each
expansion. `IsMember` says which visits the bodies of a declaration come to, and `Links` which
functions and methods a module declares. `Throughout` is a property of all methods that a statement
of such a body comes to. `walkMember` is one step of the walk over a body.
-/

namespace ClassLang

open Relation (ReflTransGen)

/-- What is found under a key stands in the list. -/
theorem mem_of_lookup_eq_some {α β : Type} [BEq α] [LawfulBEq α] {l : List (α × β)} {a : α} {b : β}
    (h : l.lookup a = some b) : (a, b) ∈ l := by
  obtain ⟨l₁, l₂, rfl, -⟩ := List.lookup_eq_some_iff.1 h
  simp

/-- The declaration of a type that is not generic. -/
def Node.declaresType : Node → Bool
  | .classDef _ none _ => true
  | .dataDef _ none _ _ => true
  | _ => false

namespace SyntaxTree

variable (tree : SyntaxTree)

/-- The body of a class or data type. -/
def bodyOf? (decl : NodeId) : Option NodeId :=
  match tree.node decl with
  | .classDef _ _ body => some body
  | .dataDef _ _ _ body => body
  | _ => none

/-- Whether a statement declares a function or method, with a body or without. -/
def IsMethod (statement : NodeId) : Prop :=
  match tree.node statement with
  | .methodDef .. => True
  | .methodDec .. => True
  | _ => False

/-- Whether a statement declares a class or data type. -/
def IsTypeDecl (statement : NodeId) : Prop :=
  match tree.node statement with
  | .classDef .. => True
  | .dataDef .. => True
  | _ => False

/-- The traits declared at top level with their bodies, the last one first. -/
def traits : List (String × NodeId) :=
  ((tree.statements tree.root).filterMap fun statement =>
    match tree.node statement with
    | .traitDef name body => some (name, body)
    | _ => none).reverse

end SyntaxTree

/-! ## Inclusions -/

/-- What a table of visits holds after an entry was put in. -/
theorem getElem?_insert_visit {β : Type} (m : Std.TreeMap Visit β Visit.order) (v w : Visit)
    (b : β) : (m.insert v b)[w]? = if w = v then some b else m[w]? := by
  by_cases h : w = v
  · simp [h]
  · have hne : Visit.order v w ≠ .eq := fun he => h (Visit.eq_of_order he).symm
    simp [Std.TreeMap.getElem?_insert, hne, h]

namespace TypeTable

variable {table table' : TypeTable} {tree : SyntaxTree} {P Q : Visit → Prop} {v w : Visit}

/-- A statement of the trait that an inclusion pulls in. -/
def Includes (table : TypeTable) (tree : SyntaxTree) (inclusion statement : Visit) : Prop :=
  ∃ name body, tree.node inclusion.node = .inclusion name ∧
    table.inclusion? inclusion = some statement.walk ∧ tree.traits.lookup name = some body ∧
    statement.node ∈ tree.statements body

/-- All inclusions that a statement comes to are known, and `P` holds of all methods. -/
inductive Throughout (table : TypeTable) (tree : SyntaxTree) (P : Visit → Prop) : Visit → Prop
  | single {v : Visit} (hnot : ∀ name, tree.node v.node ≠ .inclusion name)
      (h : tree.IsMethod v.node → P v) : Throughout table tree P v
  | inclusion {v : Visit} {name : String} {walk : InstanceId} {body : NodeId}
      (hnode : tree.node v.node = .inclusion name) (hwalk : table.inclusion? v = some walk)
      (hbody : tree.traits.lookup name = some body)
      (h : ∀ statement ∈ tree.statements body,
        Throughout table tree P { walk, node := statement }) : Throughout table tree P v

/-- A property of all methods is kept when inclusions are. -/
theorem Throughout.mono (h : table.Throughout tree P v) (hP : ∀ v, P v → Q v)
    (hincluded : ∀ v walk, table.inclusion? v = some walk → table'.inclusion? v = some walk) :
    table'.Throughout tree Q v := by
  induction h with
  | single hnot h => exact .single hnot fun hmethod => hP _ (h hmethod)
  | inclusion hnode hwalk hbody _ ih =>
      exact .inclusion hnode (hincluded _ _ hwalk) hbody fun statement hstatement =>
        ih statement hstatement

/-- The property holds wherever the statement leads to. -/
theorem Throughout.reached (h : table.Throughout tree P v)
    (hreach : ReflTransGen (table.Includes tree) v w) : table.Throughout tree P w := by
  induction hreach with
  | refl => exact h
  | tail _ hstep ih =>
      obtain ⟨name, body, hnode, hwalk, hbody, hmem⟩ := hstep
      cases ih with
      | single hnot => exact absurd hnode (hnot name)
      | inclusion hnode' hwalk' hbody' h =>
          rw [hnode] at hnode'
          cases hnode'
          rw [hwalk] at hwalk'
          cases hwalk'
          rw [hbody] at hbody'
          cases hbody'
          exact h _ hmem

/-- A method that is reached has the property. -/
theorem Throughout.method (h : table.Throughout tree P v) (hmethod : tree.IsMethod v.node) :
    P v := by
  cases h with
  | single _ h => exact h hmethod
  | inclusion hnode => simp [SyntaxTree.IsMethod, hnode] at hmethod

/-- An inclusion that is reached is known, and so is its trait. -/
theorem Throughout.known (h : table.Throughout tree P v) {name : String}
    (hnode : tree.node v.node = .inclusion name) :
    (table.inclusion? v).isSome ∧ (tree.traits.lookup name).isSome := by
  cases h with
  | single hnot => exact absurd hnode (hnot name)
  | inclusion hnode' hwalk hbody =>
      rw [hnode] at hnode'
      cases hnode'
      exact ⟨by simp [hwalk], by simp [hbody]⟩

/-- The walk of an inclusion has a higher number than that of its statement, and no other inclusion
has it. -/
structure InclusionsAscend (table : TypeTable) : Prop where
  lt : ∀ v walk, table.inclusion? v = some walk → v.walk < walk
  inj : ∀ v w walk, table.inclusion? v = some walk → table.inclusion? w = some walk → v = w

namespace InclusionsAscend

theorem walk_le (h : table.InclusionsAscend) (hreach : ReflTransGen (table.Includes tree) v w) :
    v.walk ≤ w.walk := by
  induction hreach with
  | refl => exact Nat.le_refl _
  | tail _ hstep ih =>
      obtain ⟨_, _, _, hwalk, _, _⟩ := hstep
      exact Nat.le_trans ih (Nat.le_of_lt (h.lt _ _ hwalk))

/-- What is reached from a statement is reached from no other one in the same walk. -/
theorem eq_of_reached (h : table.InclusionsAscend) {v' : Visit} (hwalk : v.walk = v'.walk)
    (hreach : ReflTransGen (table.Includes tree) v w)
    (hreach' : ReflTransGen (table.Includes tree) v' w) : v = v' := by
  -- whatever comes into the walk in which both begin comes from before it
  have hstays : ∀ {a b c : Visit}, a.walk = b.walk → ReflTransGen (table.Includes tree) a c →
      ¬ table.Includes tree c b := by
    rintro a b c hab hac ⟨_, _, _, hcb, _, _⟩
    exact absurd (h.lt _ _ hcb) (Nat.not_lt.mpr (hab ▸ h.walk_le hac))
  induction hreach with
  | refl =>
      rcases hreach'.cases_tail with heq | ⟨c, hc, hstep⟩
      · exact heq
      · exact absurd hstep (hstays hwalk.symm hc)
  | @tail b w hvb hstep ih =>
      rcases hreach'.cases_tail with rfl | ⟨c, hc, hstep'⟩
      · exact absurd hstep (hstays hwalk hvb)
      · obtain ⟨_, _, _, hinto, _, _⟩ := hstep
        obtain ⟨_, _, _, hinto', _, _⟩ := hstep'
        exact ih (h.inj _ _ _ hinto hinto' ▸ hc)

end InclusionsAscend

end TypeTable

/-! ## Expansions -/

/-- An expansion by the positions of template and expansion, with the declaration it is of. -/
def expansionAt? (templates : List Template) (id index : Nat) : Option (NodeId × Expansion) :=
  templates[id]?.bind fun template => template.expansions[index]?.map fun e => (template.decl, e)

/-- The default template has no expansion. -/
theorem expansionAt?_eq_some_iff {templates : List Template} {id index : Nat} {decl : NodeId}
    {e : Expansion} : expansionAt? templates id index = some (decl, e) ↔
      (templates.getD id default).decl = decl ∧
        (templates.getD id default).expansions[index]? = some e := by
  unfold expansionAt?
  cases hid : templates[id]? with
  | none => simp [List.getD, hid, default]
  | some template => simp [List.getD, hid, and_comm]

/-- An expansion is of a declaration that has a template. -/
theorem decl_mem_of_expansionAt? {templates : List Template} {id index : Nat} {decl : NodeId}
    {e : Expansion} (h : expansionAt? templates id index = some (decl, e)) :
    decl ∈ templates.map (·.decl) := by
  simp only [expansionAt?, Option.bind_eq_some_iff, Option.map_eq_some_iff, Prod.mk.injEq] at h
  obtain ⟨template, htemplate, _, _, rfl, _⟩ := h
  exact List.mem_map_of_mem (List.mem_of_getElem? htemplate)

namespace TypedModule

variable (m : TypedModule) (tree : SyntaxTree)

/-- The walks over a type declaration. -/
def IsInstance (decl : NodeId) (walk : InstanceId) : Prop :=
  match m.templateFor? decl with
  | some template => ∃ e ∈ template.expansions, e.walk = walk
  | none => walk = 0

/-- The type that a declaration makes in one of its walks. -/
def HasInstance (decl : NodeId) (walk : InstanceId) (owner : TypeId) : Prop :=
  match m.templateFor? decl with
  | some template => ∃ e ∈ template.expansions, e.walk = walk ∧ e.type = owner
  | none => walk = 0 ∧ m.table.get? { walk := 0, node := decl } = some owner

/-- The statements of the bodies of a type declaration, those of included traits among them. -/
def IsMember (decl : NodeId) (visit : Visit) : Prop :=
  ∃ body walk statement, tree.bodyOf? decl = some body ∧ m.IsInstance decl walk ∧
    statement ∈ tree.statements body ∧
    ReflTransGen (m.table.Includes tree) { walk, node := statement } visit

/-- The functions and methods that a statement at top level declares. -/
def Declares (statement : NodeId) (visit : Visit) : Prop :=
  tree.IsMethod visit.node ∧ (visit = { walk := 0, node := statement } ∨
    m.IsMember tree statement visit)

/-- The link names of all functions and methods of the module. -/
def Links (name : String) : Prop :=
  ∃ statement ∈ tree.statements tree.root, ∃ visit sig, m.Declares tree statement visit ∧
    m.table.signature visit = .ok sig ∧ sig.linkName = name

variable {m tree} {decl : NodeId} {walk : InstanceId} {owner : TypeId} {template : Template}

theorem HasInstance.isInstance (h : m.HasInstance decl walk owner) : m.IsInstance decl walk := by
  unfold HasInstance at h
  unfold IsInstance
  split at h
  · obtain ⟨e, he, hwalk, -⟩ := h
    exact ⟨e, he, hwalk⟩
  · exact h.1

theorem templateFor?_eq_none_iff :
    m.templateFor? decl = none ↔ decl ∉ m.templates.map (·.decl) := by
  simp [templateFor?, List.find?_eq_none]

/-- The expansions of a declaration by position. -/
theorem mem_expansions_iff (hdistinct : (m.templates.map (·.decl)).Nodup)
    (htemplate : m.templateFor? decl = some template) {e : Expansion} :
    e ∈ template.expansions ↔ ∃ id index, expansionAt? m.templates id index = some (decl, e) := by
  have hdecl : template.decl = decl := by simpa using List.find?_some htemplate
  have hmem := List.mem_of_find?_eq_some htemplate
  constructor
  · intro he
    obtain ⟨id, hid⟩ := List.mem_iff_getElem?.mp hmem
    obtain ⟨index, hindex⟩ := List.mem_iff_getElem?.mp he
    exact ⟨id, index, by simp [expansionAt?, hid, hindex, hdecl]⟩
  · rintro ⟨id, index, he⟩
    simp only [expansionAt?, Option.bind_eq_some_iff, Option.map_eq_some_iff,
      Prod.mk.injEq] at he
    obtain ⟨other, hother, e', he', hdecl', rfl⟩ := he
    -- declarations of templates are distinct, so the template found is the one at `id`
    have hsame : other = template :=
      List.inj_on_of_nodup_map hdistinct (List.mem_of_getElem? hother) hmem
        (hdecl'.trans hdecl.symm)
    exact hsame ▸ List.mem_of_getElem? he'

/-- The walks of a declaration by position: those of its expansions, or walk 0 if it is not
generic. -/
theorem isInstance_iff (hdistinct : (m.templates.map (·.decl)).Nodup) :
    m.IsInstance decl walk ↔
      (∃ id index e, expansionAt? m.templates id index = some (decl, e) ∧ e.walk = walk) ∨
        decl ∉ m.templates.map (·.decl) ∧ walk = 0 := by
  unfold IsInstance
  cases htemplate : m.templateFor? decl with
  | none =>
      have hnot := templateFor?_eq_none_iff.mp htemplate
      refine ⟨fun h => .inr ⟨hnot, h⟩, ?_⟩
      rintro (⟨id, index, e, he, -⟩ | ⟨-, h⟩)
      · exact absurd (decl_mem_of_expansionAt? he) hnot
      · exact h
  | some template =>
      constructor
      · rintro ⟨e, he, hwalk⟩
        obtain ⟨id, index, he⟩ := (mem_expansions_iff hdistinct htemplate).mp he
        exact .inl ⟨id, index, e, he, hwalk⟩
      · rintro (⟨id, index, e, he, hwalk⟩ | ⟨hnot, -⟩)
        · exact ⟨e, (mem_expansions_iff hdistinct htemplate).mpr ⟨id, index, he⟩, hwalk⟩
        · rw [templateFor?_eq_none_iff.mpr hnot] at htemplate
          cases htemplate

end TypedModule

/-! ## Walking members -/

namespace Typing

variable {σ : Type} {ctx : TypingContext σ}

/-- The walk over one statement in the body of a type; `inner` walks the bodies of included
traits. -/
def walkMember (ctx : TypingContext σ) (infer : NodeId → Typing σ TypeId)
    (inner : NodeId → Typing σ Unit) (statement : NodeId) : Typing σ Unit := do
  let keepType : Typing σ Unit := do
    let v ← visit statement
    if ((← get).table.get? v).isNone then record statement .void
  match ctx.tree.node statement with
  | .methodDef .. =>
    walkMethod ctx infer statement
    record statement .void
  | .inclusion name =>
    let traitBody ← findTrait name
    let v ← visit statement
    match (← get).table.inclusion? v with
    | none => fail (.internal "trait inclusion was not declared")
    | some included =>
      withWalk included (inner traitBody)
      record statement .void
  | .ivarDecl .. => keepType
  | .methodDec .. => keepType
  | _ =>
    let _ ← infer statement

/-- The statements of a body are walked one after the other. -/
theorem walkMembersWithin_succ (infer : NodeId → Typing σ TypeId) (fuel : Nat) (body : NodeId) :
    walkMembersWithin ctx infer (fuel + 1) body =
      (ctx.tree.statements body).forM (walkMember ctx infer (walkMembersWithin ctx infer fuel)) :=
  rfl

end Typing

end ClassLang
