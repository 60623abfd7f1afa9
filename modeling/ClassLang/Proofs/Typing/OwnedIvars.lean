import ClassLang.Proofs.Typing.CheckedModules
import ClassLang.Proofs.Typing.IvarRecords

/-!
# Instance variables belong to classes

Members of a type are walked with the instance variables of its layout in scope, under the walk of
the declaration or expansion, and those of included traits under the walks of the inclusions. So
what is recorded for an instance variable stands in the layout of a class that has the code around it
among its members. `Owned` is this invariant, together with the layouts themselves; it holds while
statements are typed and the queue of expansions is worked off.
-/

namespace ClassLang

open Relation (ReflTransGen)

/-- Below the parts of a statement there is no other one. -/
theorem SyntaxTree.TreeShaped.not_statement_of_below {tree : SyntaxTree} (h : tree.TreeShaped)
    {body top part node : NodeId} (htop : top ∈ tree.statements body)
    (hpart : part ∈ (tree.node top).children) (hbelow : tree.Below part node) :
    node ∉ tree.statements body := by
  intro hnode
  by_cases heq : top = node
  · subst heq
    exact absurd (h.le_of_below hbelow) (Nat.not_le_of_lt (h.child_lt hpart))
  · exact h.disjoint_statements htop hnode heq (.head hpart hbelow) .refl

/-- The body of a type declaration is a part of it. -/
theorem SyntaxTree.mem_children_of_bodyOf? {tree : SyntaxTree} {decl body : NodeId}
    (h : tree.bodyOf? decl = some body) : body ∈ (tree.node decl).children := by
  unfold bodyOf? at h
  split at h <;> simp_all [Node.children]

/-- The body of a trait is a part of its declaration. -/
theorem SyntaxTree.exists_trait_of_lookup {tree : SyntaxTree} {name : String} {body : NodeId}
    (h : tree.traits.lookup name = some body) :
    ∃ statement ∈ tree.statements tree.root, body ∈ (tree.node statement).children := by
  have hmem := mem_of_lookup_eq_some h
  rw [traits, List.mem_reverse, List.mem_filterMap] at hmem
  obtain ⟨statement, hstatement, hbody⟩ := hmem
  refine ⟨statement, hstatement, ?_⟩
  split at hbody
  · next hnode =>
      cases hbody
      simp [hnode, Node.children]
  · cases hbody

/-- Templates in scope are among those that the module registered. -/
theorem ScopeChain.Registered.templatesBelow {tree : SyntaxTree} {count : Nat} {c : ScopeChain}
    (h : c.Registered tree count) : c.TemplatesBelow count where
  base := ⟨h.templates, h.cases⟩
  inner frame hframe :=
    have hplain := h.inner frame hframe
    ⟨by simp [hplain.templates], fun entry hentry id index heq =>
      absurd heq (hplain.cases entry hentry id index)⟩

namespace Typing

variable {σ : Type} {ctx : TypingContext σ} {start s t u : TypingState σ} {opened : Environs}
  {l : Licence}

/-! ## Types and their members -/

/-- The type that a declaration makes under a walk: that of a plain declaration, or the one of an
expansion. -/
inductive Makes (tree : SyntaxTree) (table : TypeTable) (templates : List Template)
    (decl : NodeId) : InstanceId → TypeId → Prop
  | plain {r : TypeId} (hdecl : (tree.node decl).declaresType = true)
      (hr : table.get? ⟨0, decl⟩ = some r) : Makes tree table templates decl 0 r
  | expansion {id index : Nat} {e : Expansion}
      (he : expansionAt? templates id index = some (decl, e)) :
      Makes tree table templates decl e.walk e.type

/-- What is made stays made while types of declarations and expansions are kept. -/
theorem Makes.mono {tree : SyntaxTree} {table table' : TypeTable}
    {templates templates' : List Template} {decl : NodeId} {walk : InstanceId} {r : TypeId}
    (h : Makes tree table templates decl walk r)
    (hplain : (tree.node decl).declaresType = true → ∀ r, table.get? ⟨0, decl⟩ = some r →
      table'.get? ⟨0, decl⟩ = some r)
    (hexpansions : ∀ id index x, expansionAt? templates id index = some x →
      expansionAt? templates' id index = some x) : Makes tree table' templates' decl walk r := by
  cases h with
  | plain hdecl hr => exact .plain hdecl (hplain hdecl r hr)
  | expansion he => exact .expansion (hexpansions _ _ _ he)

/-- A statement in the body of a type, or in that of a trait that the type includes. -/
def MemberOf (tree : SyntaxTree) (s : TypingState σ) (owner : TypeId) (v : Visit) : Prop :=
  ∃ decl walk member, Makes tree s.table s.templates decl walk owner ∧ InBody tree decl member ∧
    ReflTransGen (s.table.Includes tree) ⟨walk, member⟩ v

/-- A node in a member of a type. -/
def CodeOf (tree : SyntaxTree) (s : TypingState σ) (owner : TypeId) (v : Visit) : Prop :=
  ∃ member, MemberOf tree s owner ⟨v.walk, member⟩ ∧ tree.Below member v.node

/-! ## Layouts -/

/-- The instance variables of a plain class, as the turn of its declaration gave them. The names of
the module are declared in `start`. -/
def ClassLaidOut (ctx : TypingContext σ) (start : TypingState σ) (decl body : NodeId)
    (ivars : List (String × TypeId)) : Prop :=
  ∃ u v, LoopComesTo (ctx.tree.statements ctx.tree.root) (layOutType ctx) start decl u ∧
    collectIvars ctx (typeExpr ctx) body u = .ok ivars v ∧
      IvarsLaidOut ctx u.environs v.environs (fun name => ctx.tree.traits.lookup name) 0 [] body ivars

/-- A statement was laid out between these surroundings. -/
def LayoutTurn (ctx : TypingContext σ) (start : TypingState σ) (first last : Environs) : Prop :=
  ∃ statement u v,
    LoopComesTo (ctx.tree.statements ctx.tree.root) (layOutType ctx) start statement u ∧
      layOutType ctx statement u = .ok () v ∧ first = u.environs ∧ last = v.environs

/-- An expansion was laid out in the turn of a statement, or since `opened`. -/
def LaidSince (ctx : TypingContext σ) (start : TypingState σ) (opened now : Environs) (p : Pool)
    (decl : NodeId) (e : Expansion) : Prop :=
  ∃ first last, (LayoutTurn ctx start first last ∨ first = opened ∧ last = now) ∧
    ExpansionLaidOut ctx first last ctx.tree.traits p decl e

namespace LaidSince

variable {now later : Environs} {p : Pool} {decl : NodeId} {e : Expansion}

/-- An expansion stays laid out. -/
theorem mono (h : LaidSince ctx start opened now p decl e) (hlater : now.Precedes later) :
    LaidSince ctx start opened later p decl e := by
  obtain ⟨first, last, hturn | ⟨rfl, rfl⟩, hlaid⟩ := h
  · exact ⟨first, last, .inl hturn, hlaid⟩
  · exact ⟨first, later, .inr ⟨rfl, rfl⟩, hlaid.widen (.refl _) hlater⟩

theorem of_ivarList_eq (h : LaidSince ctx start opened now p decl e) {q : Pool}
    (hq : q.ivarList e.type = p.ivarList e.type) : LaidSince ctx start opened now q decl e := by
  obtain ⟨first, last, hturn, hlaid⟩ := h
  exact ⟨first, last, hturn, hlaid.of_ivarList_eq hq⟩

/-- The turn of a statement is over. -/
theorem close (h : LaidSince ctx start opened now p decl e) (hturn : LayoutTurn ctx start opened now)
    (opened' now' : Environs) : LaidSince ctx start opened' now' p decl e := by
  obtain ⟨first, last, hold | ⟨rfl, rfl⟩, hlaid⟩ := h
  · exact ⟨first, last, .inl hold, hlaid⟩
  · exact ⟨first, last, .inl hturn, hlaid⟩

end LaidSince

/-- All expansions are laid out, and the plain classes among `done`. Since `opened` nothing but type
expressions, signatures and code was read. -/
structure Laid (ctx : TypingContext σ) (start : TypingState σ) (opened : Environs)
    (done : List NodeId) (s : TypingState σ) : Prop extends Orderly ctx s where
  decls : ∀ decl ∈ s.templates.map (·.decl), decl ∈ ctx.tree.statements ctx.tree.root
  params : ∀ template ∈ s.templates,
    (ctx.tree.node template.decl).typeParam? = some template.param
  /-- Outside of types there are no instance variables. -/
  base : s.scopes.base.ivars = []
  /-- Plain types are declared at top level. -/
  plain : ∀ v r, (ctx.tree.node v.node).declaresType = true → s.table.get? v = some r →
    v.walk = 0 ∧ v.node ∈ ctx.tree.statements ctx.tree.root
  named : ∀ decl walk r, Makes ctx.tree s.table s.templates decl walk r →
    ∃ name, (s.pool.data r).nominalName? = some name
  classes : ∀ decl ∈ done, ∀ name body r, ctx.tree.node decl = .classDef name none body →
    s.table.get? ⟨0, decl⟩ = some r → ClassLaidOut ctx start decl body (s.pool.ivarList r)
  expansions : ∀ id index decl e, expansionAt? s.templates id index = some (decl, e) →
    LaidSince ctx start opened s.environs s.pool decl e
  since : opened.Precedes s.environs

namespace Laid

variable {done : List NodeId} {decl : NodeId} {walk : InstanceId} {r : TypeId}

theorem lt_size (h : Laid ctx start opened done s)
    (hmakes : Makes ctx.tree s.table s.templates decl walk r) :
    r < s.pool.size := by
  obtain ⟨name, hname⟩ := h.named decl walk r hmakes
  exact Pool.lt_size_of_data_ne fun hdata => by simp [hdata, TypeData.nominalName?] at hname

/-- The instance variables in scope in the body of a type are those of its layout. -/
theorem ivars_eq (h : Laid ctx start opened done s)
    (hmakes : Makes ctx.tree s.table s.templates decl walk r) :
    s.pool.ivars r = s.pool.ivarList r := by
  obtain ⟨name, hname⟩ := h.named decl walk r hmakes
  refine Pool.ivars_eq_ivarList ?_
  cases hdata : s.pool.data r <;> simp_all [TypeData.nominalName?, TypeData.isVar]

/-- A type that is made after a watched stretch was made before, or it is that of a new
expansion. -/
theorem makes_cases {inside : NodeId → Prop} (hwatched : Watched ctx s inside l t)
    (hle : Watches ctx l s t) (h : Makes ctx.tree t.table t.templates decl walk r) :
    Makes ctx.tree s.table s.templates decl walk r ∨
      ∃ e, e.type = r ∧ MadeExpansion ctx l s t decl e := by
  cases h with
  | plain hdecl hr => exact .inl (.plain hdecl ((hwatched.plain _ hdecl).symm.trans hr))
  | expansion he =>
      rcases hle.made _ _ _ _ he with hold | hmade
      · exact .inl (.expansion hold)
      · exact .inr ⟨_, rfl, hmade⟩

/-- Layouts stay while code is watched. -/
theorem watched {inside : NodeId → Prop} {free : Prop} (h : Laid ctx start opened done s)
    (hwatched : Watched ctx s inside l t) (hle : Watches ctx l s t) (hsteady : Steady free s t)
    (hordered : Orderly ctx t)
    (hlayouts : ∀ r < s.pool.size, t.pool.ivarList r = s.pool.ivarList r) :
    Laid ctx start opened done t := by
  obtain ⟨new, hbase, -⟩ := hle.base
  exact { hordered with
    decls := hsteady.decls ▸ h.decls
    params := hwatched.params
    base := by rw [hbase, h.base]
    plain := fun v r hdecl hr => h.plain v r hdecl ((hwatched.plain v hdecl).symm.trans hr)
    named := fun decl walk r hmakes => by
      rcases makes_cases hwatched hle hmakes with hold | ⟨e, rfl, hmade⟩
      · exact (h.named decl walk r hold).imp fun _ => hle.evolves.nominalName?
      · exact hmade.named
    classes := fun decl hdone name body r hnode hr => by
      have hdecl : (ctx.tree.node decl).declaresType = true := by simp [hnode, Node.declaresType]
      have hold := (hwatched.plain ⟨0, decl⟩ hdecl).symm.trans hr
      rw [hlayouts r (h.lt_size (.plain hdecl hold))]
      exact h.classes decl hdone name body r hnode hold
    expansions := fun id index decl e he => by
      rcases hle.made id index decl e he with hold | hmade
      · exact ((h.expansions id index decl e hold).mono hle.toRestores.precedes).of_ivarList_eq
          (hlayouts e.type (h.lt_size (.expansion hold)))
      · exact ⟨opened, t.environs, .inr ⟨rfl, rfl⟩,
          h.scopes.traits ▸ hmade.laidOut.widen h.since (.refl _)⟩
    since := h.since.trans hle.toRestores.precedes }

end Laid

/-! ## What is recorded for instance variables -/

/-- All types are laid out, and what is recorded for an instance variable stands in the layout of a
type that has it in its code. -/
structure Owned (ctx : TypingContext σ) (start : TypingState σ) (opened : Environs)
    (s : TypingState σ) : Prop
    extends Laid ctx start opened (ctx.tree.statements ctx.tree.root) s where
  owned : ∀ v name r, ctx.tree.node v.node = .ivar name → s.table.get? v = some r →
    ∃ owner, CodeOf ctx.tree s owner v ∧ (name, r) ∈ s.pool.ivarList owner

/-- How typing changes the state once all types are laid out. -/
structure Settles (tree : SyntaxTree) (s t : TypingState σ) : Prop where
  steady : Steady False s t
  restores : Restores .any s t
  layouts : ∀ r < s.pool.size, t.pool.ivarList r = s.pool.ivarList r
  plain : ∀ v, (tree.node v.node).declaresType = true → t.table.get? v = s.table.get? v

namespace Settles

variable {tree : SyntaxTree}

theorem refl (tree : SyntaxTree) (s : TypingState σ) : Settles tree s s :=
  ⟨.refl s, .refl _ s, fun _ _ => rfl, fun _ _ => rfl⟩

theorem trans (h : Settles tree s t) (h' : Settles tree t u) : Settles tree s u where
  steady := h.steady.trans h'.steady
  restores := h.restores.trans h'.restores
  layouts r hr := (h'.layouts r (Nat.lt_of_lt_of_le hr h.restores.evolves.size_le)).trans
    (h.layouts r hr)
  plain v hv := (h'.plain v hv).trans (h.plain v hv)

/-- An instance variable of a layout stays there. -/
theorem mem_ivarList (h : Settles tree s t) {owner : TypeId} {ivar : String × TypeId}
    (hivar : ivar ∈ s.pool.ivarList owner) : ivar ∈ t.pool.ivarList owner := by
  by_cases howner : owner < s.pool.size
  · rwa [h.layouts owner howner]
  · simp [Pool.ivarList_of_le (Nat.le_of_not_lt howner)] at hivar

theorem memberOf (h : Settles tree s t) (hs : Orderly ctx s) {owner : TypeId} {v : Visit}
    (hmember : MemberOf tree s owner v) : MemberOf tree t owner v := by
  obtain ⟨decl, walk, member, hmakes, hbody, hreach⟩ := hmember
  refine ⟨decl, walk, member, hmakes.mono (fun hdecl r hr => (h.plain _ hdecl).trans hr)
    h.steady.expansions, hbody, hreach.lift id ?_⟩
  rintro v w ⟨name, body, hnode, hwalk, hbody, hmem⟩
  exact ⟨name, body, hnode, h.steady.inclusion hs hwalk, hbody, hmem⟩

theorem codeOf (h : Settles tree s t) (hs : Orderly ctx s) {owner : TypeId} {v : Visit}
    (hcode : CodeOf tree s owner v) : CodeOf tree t owner v := by
  obtain ⟨member, hmember, hbelow⟩ := hcode
  exact ⟨member, h.memberOf hs hmember, hbelow⟩

end Settles

/-- Whatever is typed once all types are laid out. -/
def owning (ctx : TypingContext σ) (start : TypingState σ) (opened : Environs) :
    Discipline Halt (TypingState σ) where
  inv := Owned ctx start opened
  le := Settles ctx.tree
  fails _ _ _ := True
  refl := .refl ctx.tree
  trans := .trans
  fails_trans _ _ := trivial

variable {α : Type} {step : Typing σ α} {Q R : α → TypingState σ → Prop}

/-- Where instance variables in the code are bound to what the layout of its type has, what is
recorded for them stands in this layout. -/
theorem owning_of_watched {inside : NodeId → Prop} (hcode : WatchedCode ctx s inside)
    (hs : Owned ctx start opened s) (hsteady : (steadily ctx False).KeepsAt s step Q)
    (hwatch : ((watching ctx hcode).discipline .any).KeepsAt s step R)
    (howner : ∀ node name r, inside node → s.scopes.lookupIvar name = some r →
      ∃ owner, CodeOf ctx.tree s owner ⟨s.walk, node⟩ ∧ (name, r) ∈ s.pool.ivarList owner) :
    (owning ctx start opened).KeepsAt s step fun _ _ => True := by
  cases hrun : step s with
  | error e t => exact .of_error hrun trivial
  | ok a t =>
      obtain ⟨hordered, hst, -⟩ := hsteady.ok hrun
      obtain ⟨hwatched, hle, -⟩ := hwatch.ok hrun
      have hlayouts (r) (hr : r < s.pool.size) : t.pool.ivarList r = s.pool.ivarList r :=
        hle.layouts r hr (by simp [Licence.any])
      have hsettles : Settles ctx.tree s t := ⟨hst, hle.toRestores, hlayouts, hwatched.plain⟩
      refine .of_ok hrun { hs.toLaid.watched hwatched hle hst hordered hlayouts with
        owned := fun v name r hnode hr => ?_ } hsettles trivial
      have hfound : ∃ owner, CodeOf ctx.tree s owner v ∧ (name, r) ∈ s.pool.ivarList owner := by
        rcases hwatched.ivars v name r hnode hr with hold | ⟨hwalk, hinside, hlookup⟩
        · exact hs.owned v name r hnode hold
        · rw [show v = ⟨s.walk, v.node⟩ from hwalk ▸ rfl]
          exact howner v.node name r hinside hlookup
      obtain ⟨owner, hcode, hivar⟩ := hfound
      exact ⟨owner, hsettles.codeOf hs.toOrderly hcode, hsettles.mem_ivarList hivar⟩

/-- Nothing is recorded for instance variables. -/
theorem WatchedCode.nowhere (ctx : TypingContext σ) (s : TypingState σ) :
    WatchedCode ctx s fun _ => False :=
  ⟨fun h _ => h, fun _ h => h.elim⟩

theorem Owned.watched (hs : Owned ctx start opened s) {inside : NodeId → Prop}
    {names : String → Prop} :
    Watched ctx s inside (.body names) s :=
  .refl hs.scopes.templatesBelow hs.params

/-- A finding for a node that is no instance variable. -/
theorem record_owning {node : NodeId} {r : TypeId} (hs : Owned ctx start opened s)
    (h : (ctx.tree.node node).takesAnyType = true ∨
      (ctx.tree.node node).declaresType = true ∧ s.table.get? ⟨s.walk, node⟩ = some r) :
    (owning ctx start opened).KeepsAt s (record node r) fun _ _ => True := by
  let rules := watching ctx (WatchedCode.nowhere ctx s)
  have hwatched : rules.inv .any s := hs.watched
  have hmay : MayRecord ctx rules.inside (rules.inv .any) (rules.le .any) .any s node r := by
    rcases h with hany | ⟨hdecl, hr⟩
    · exact .of_takesAnyType hany
    · exact .of_declaresType hdecl hwatched (rules.refl .any s) hr
  have hkeeps : (rules.discipline .any).KeepsAt s (record node r) fun _ _ => True :=
    WalkRules.Keeps.record_at hwatched hmay
  exact owning_of_watched (WatchedCode.nowhere ctx s) hs
    (IsSteady.record node r s hs.toOrderly rfl) hkeeps fun _ _ _ h => h.elim

/-- The recorded type of a node is found, and nothing changes. -/
theorem recorded_keeps {D : Discipline Halt (TypingState σ)} (hs : D.inv s)
    (hfails : ∀ e, D.fails s e s) (node : NodeId) :
    D.KeepsAt s (recorded node) fun r t => t = s ∧ s.table.get? ⟨s.walk, node⟩ = some r := by
  refine .bind_read hs (b := ⟨s.walk, node⟩) rfl (.bind_read hs (b := s) rfl ?_)
  unfold TypeTable.typeOf
  split
  · next r hr => exact .pure hs ⟨rfl, hr⟩
  · exact .of_error rfl (hfails _)

/-! ## Contexts -/

theorem within_owning {enter : TypingState σ → TypingState σ}
    {leave : TypingState σ → TypingState σ → TypingState σ}
    (h : (owning ctx start opened).KeepsAt (enter s) step fun _ _ => True)
    (hleave : ∀ t, Owned ctx start opened t → Settles ctx.tree (enter s) t →
      Owned ctx start opened (leave s t) ∧ Settles ctx.tree s (leave s t)) :
    (owning ctx start opened).KeepsAt s (within enter leave step) fun _ _ => True := by
  cases hrun : step (enter s) with
  | error e t => exact .of_error (within_error hrun) trivial
  | ok a t =>
      obtain ⟨ht, hle, -⟩ := h.ok hrun
      obtain ⟨howned, hsettles⟩ := hleave t ht hle
      exact .of_ok (within_ok hrun) howned hsettles trivial

theorem withWalk_owning {walk : InstanceId} (hs : Owned ctx start opened s)
    (h : (owning ctx start opened).KeepsAt { s with walk } step fun _ _ => True) :
    (owning ctx start opened).KeepsAt s (withWalk walk step) fun _ _ => True :=
  within_owning h fun _ ht hle =>
    ⟨{ ht with walk_lt := Nat.lt_of_lt_of_le hs.walk_lt hle.steady.next_le },
      hle.steady.of_within ⟨rfl, rfl, rfl, rfl⟩ ⟨rfl, rfl, rfl, rfl⟩ rfl hle.steady.returnType
        False.elim,
      hle.restores.of_walk, hle.layouts, hle.plain⟩

theorem withTypeFrame_owning {r : TypeId} (hs : Owned ctx start opened s)
    (h : ∀ t, t = { s with scopes := s.scopes.push (.forType r (s.pool.ivars r)) } →
      Owned ctx start opened t → (owning ctx start opened).KeepsAt t step fun _ _ => True) :
    (owning ctx start opened).KeepsAt s (withTypeFrame r step) fun _ _ => True := by
  refine .bind_read hs (b := s) rfl (within_owning (h _ rfl ?_) fun t ht hle => ⟨?_, ?_⟩)
  · exact { hs with scopes := hs.scopes.push .forType }
  · exact { ht with scopes := ht.scopes.pop }
  · exact ⟨hle.steady.of_within ⟨rfl, rfl, rfl, rfl⟩ ⟨rfl, rfl, rfl, rfl⟩ hle.steady.walk
      hle.steady.returnType False.elim, hle.restores.of_frame .forType, hle.layouts, hle.plain⟩

/-! ## Members -/

/-- The body is one of the type, or of a trait that the type includes, and the instance variables in
scope are those of the type. -/
structure BodyEntered (ctx : TypingContext σ) (s : TypingState σ) (owner : TypeId) (body : NodeId) :
    Prop where
  place : ∃ top ∈ ctx.tree.statements ctx.tree.root, body ∈ (ctx.tree.node top).children
  members : ∀ statement ∈ ctx.tree.statements body, MemberOf ctx.tree s owner ⟨s.walk, statement⟩
  lookup : ∀ name r, s.scopes.lookupIvar name = some r → (name, r) ∈ s.pool.ivarList owner

namespace BodyEntered

variable {owner : TypeId} {body : NodeId}

theorem later (h : BodyEntered ctx s owner body) (hs : Orderly ctx s) (hle : Settles ctx.tree s t) :
    BodyEntered ctx t owner body where
  place := h.place
  members statement hstatement :=
    hle.steady.walk ▸ hle.memberOf hs (h.members statement hstatement)
  lookup name r hr := by
    rw [hle.restores.lookupIvar_eq (by simp [Licence.any])] at hr
    exact hle.mem_ivarList (h.lookup name r hr)

/-- The body of an included trait. -/
theorem included (h : BodyEntered ctx s owner body) {statement traitBody : NodeId} {name : String}
    {walk : InstanceId} (hstatement : statement ∈ ctx.tree.statements body)
    (hnode : ctx.tree.node statement = .inclusion name)
    (hwalk : s.table.inclusion? ⟨s.walk, statement⟩ = some walk)
    (htrait : ctx.tree.traits.lookup name = some traitBody) :
    BodyEntered ctx { s with walk } owner traitBody where
  place := SyntaxTree.exists_trait_of_lookup htrait
  members inner hinner := by
    obtain ⟨decl, walk, member, hmakes, hbody, hreach⟩ := h.members statement hstatement
    exact ⟨decl, walk, member, hmakes, hbody,
      hreach.tail ⟨name, traitBody, hnode, hwalk, htrait, hinner⟩⟩
  lookup := h.lookup

/-- The body of a type in the frame of the type. -/
theorem of_makes {done : List NodeId} {decl : NodeId} {frame : Scope}
    (hs : Laid ctx start opened done s)
    (hmakes : Makes ctx.tree s.table s.templates decl s.walk owner)
    (hdecl : decl ∈ ctx.tree.statements ctx.tree.root) (hbody : ctx.tree.bodyOf? decl = some body)
    (hinner : s.scopes.inner = [frame]) (hivars : frame.ivars = (s.pool.ivars owner).reverse) :
    BodyEntered ctx s owner body where
  place := ⟨decl, hdecl, SyntaxTree.mem_children_of_bodyOf? hbody⟩
  members statement hstatement :=
    ⟨decl, s.walk, statement, hmakes, ⟨body, hbody, hstatement⟩, .refl⟩
  lookup name r hr := by
    simp only [ScopeChain.lookupIvar, ScopeChain.frames, hinner, List.singleton_append,
      List.findSome?_cons, hs.base, List.lookup_nil, List.findSome?_nil] at hr
    cases hfound : frame.ivars.lookup name with
    | none => simp [hfound] at hr
    | some r' =>
        obtain rfl : r' = r := by simpa [hfound] using hr
        have hmem := mem_of_lookup_eq_some hfound
        rwa [hivars, List.mem_reverse, hs.ivars_eq hmakes] at hmem

end BodyEntered

/-- The body of a trait that is included. -/
theorem findTrait_owning (name : String) (hs : Owned ctx start opened s) :
    (owning ctx start opened).KeepsAt s (findTrait name) fun body t =>
      t = s ∧ ctx.tree.traits.lookup name = some body := by
  refine .bind_read hs (b := s) rfl ?_
  split
  · next body hbody => exact .pure hs ⟨rfl, (hs.scopes.findTrait_eq name).symm.trans hbody⟩
  · exact .of_error rfl trivial

/-- The type of a declaration in a body stays recorded. -/
theorem keepType_owning {statement : NodeId} (hs : Owned ctx start opened s)
    (hany : (ctx.tree.node statement).takesAnyType = true) :
    (owning ctx start opened).KeepsAt s (do
      let v ← visit statement
      if ((← get).table.get? v).isNone then record statement .void) fun _ _ => True := by
  refine .bind_read hs (b := ⟨s.walk, statement⟩) rfl (.bind_read hs (b := s) rfl ?_)
  split
  · exact record_owning hs (.inl hany)
  · exact .pure hs trivial

/-- Code below which no plain type is declared at top level. -/
theorem Owned.watchedCode (hs : Owned ctx start opened s) {node : NodeId}
    (hnot : ∀ other, ctx.tree.Below node other → (ctx.tree.node other).declaresType = true →
      other ∉ ctx.tree.statements ctx.tree.root) : WatchedCode ctx s (ctx.tree.Below node) where
  child h hchild := h.tail hchild
  plain other hother hdecl := Option.eq_none_iff_forall_ne_some.mpr fun r hr =>
    hnot other hother hdecl (hs.plain ⟨s.walk, other⟩ r hdecl hr).2

section Members

variable {owner : TypeId} {body statement : NodeId}

/-- What is recorded for instance variables in the code of a member stands in the layout. -/
theorem owning_of_member {hcode : WatchedCode ctx s (ctx.tree.Below statement)}
    (hs : Owned ctx start opened s)
    (h : BodyEntered ctx s owner body) (hstatement : statement ∈ ctx.tree.statements body)
    (hsteady : (steadily ctx False).KeepsAt s step Q)
    (hwatch : ((watching ctx hcode).discipline .any).KeepsAt s step R) :
    (owning ctx start opened).KeepsAt s step fun _ _ => True :=
  owning_of_watched hcode hs hsteady hwatch fun _ name r hbelow hr =>
    ⟨owner, ⟨statement, h.members statement hstatement, hbelow⟩, h.lookup name r hr⟩

theorem watching_infersCode {inside : NodeId → Prop} (hcode : WatchedCode ctx s inside)
    (bound : Nat) : (watching ctx hcode).InfersCode (inferWithin ctx bound) :=
  fun node _ hinside =>
    WalkRules.inferWithin_keeps bound node False.elim (fun _ _ => trivial) hinside

variable (hshape : ctx.tree.TreeShaped)

include hshape

theorem walkMember_owning (bound : Nat) {inner : NodeId → Typing σ Unit}
    (hinner : ∀ t owner body, Owned ctx start opened t → BodyEntered ctx t owner body →
      (owning ctx start opened).KeepsAt t (inner body) fun _ _ => True)
    (hs : Owned ctx start opened s) (h : BodyEntered ctx s owner body)
    (hstatement : statement ∈ ctx.tree.statements body) :
    (owning ctx start opened).KeepsAt s (walkMember ctx (inferWithin ctx bound) inner statement)
      fun _ _ => True := by
  obtain ⟨top, htop, hpart⟩ := h.place
  have hcode : WatchedCode ctx s (ctx.tree.Below statement) :=
    hs.watchedCode fun other hother _ => hshape.not_statement_of_below htop hpart
      ((SyntaxTree.below_of_mem_statements hstatement).trans hother)
  have hbodies := watching_infersCode hcode bound
  unfold walkMember
  dsimp only
  split
  · next hnode =>
      have hmethod : ((watching ctx hcode).discipline .any).KeepsAt s
          (walkMethod ctx (inferWithin ctx bound) statement) fun _ _ => True :=
        WalkRules.walkMethod_keeps hbodies hs.watched .refl False.elim
      refine .bind (owning_of_member hs h hstatement
        (walkMethod_returns (inferWithin_returns bound) statement hs.toOrderly) hmethod) ?_
      exact fun _ u hu _ _ =>
        record_owning hu (.inl (by simp [hnode, Node.takesAnyType, Node.declaresType]))
  · next name hnode =>
      refine .bind (findTrait_owning name hs) ?_
      rintro traitBody t ht - ⟨rfl, htrait⟩
      refine .bind_read hs (b := ⟨t.walk, statement⟩) rfl (.bind_read hs (b := t) rfl ?_)
      split
      · exact .of_error rfl trivial
      · next included hincluded =>
          have hentered : Owned ctx start opened { t with walk := included } :=
            { hs with walk_lt := (hs.inclusions_lt _ _ hincluded).2 }
          refine .bind (withWalk_owning hs (hinner _ owner traitBody hentered
            (h.included hstatement hnode hincluded htrait))) ?_
          exact fun _ u hu _ _ =>
            record_owning hu (.inl (by simp [hnode, Node.takesAnyType, Node.declaresType]))
  · next hnode =>
      exact keepType_owning hs (by simp [hnode, Node.takesAnyType, Node.declaresType])
  · next hnode =>
      exact keepType_owning hs (by simp [hnode, Node.takesAnyType, Node.declaresType])
  · refine .bind (owning_of_member hs h hstatement
      (inferWithin_returns bound s.returnType statement s hs.toOrderly rfl)
      (hbodies statement False.elim .refl s hs.watched)) fun _ u hu _ _ => .pure hu trivial

/-- The members of a type are walked, those of included traits in the walks of the inclusions. -/
theorem walkMembersWithin_owning (bound fuel : Nat) (hs : Owned ctx start opened s)
    (h : BodyEntered ctx s owner body) :
    (owning ctx start opened).KeepsAt s (walkMembersWithin ctx (inferWithin ctx bound) fuel body)
      fun _ _ => True := by
  induction fuel generalizing s owner body with
  | zero => exact .of_error rfl trivial
  | succ fuel ih =>
      rw [walkMembersWithin_succ]
      refine Discipline.forM_keeps (P := fun _ => True) _ hs trivial ?_
      exact fun statement hstatement t ht hle _ => walkMember_owning hshape bound
        (fun _ _ _ hu => ih hu) ht (h.later hs.toOrderly hle) hstatement

end Members

/-! ## Statements -/

/-- At top level there are no instance variables in scope. -/
theorem Owned.lookupIvar_eq_none (hs : Owned ctx start opened s) (hinner : s.scopes.inner = [])
    (name : String) :
    s.scopes.lookupIvar name = none := by
  simp [ScopeChain.lookupIvar, ScopeChain.frames, hinner, hs.base]

section Statements

variable {statement : NodeId} (hshape : ctx.tree.TreeShaped)

include hshape

/-- The members of a plain type are walked. -/
theorem walkDeclaredType_owning (bound : Nat) {body : Option NodeId} (hs : Owned ctx start opened s)
    (hwalk : s.walk = 0) (hinner : s.scopes.inner = [])
    (hstatement : statement ∈ ctx.tree.statements ctx.tree.root)
    (hdecl : (ctx.tree.node statement).declaresType = true)
    (hbody : ctx.tree.bodyOf? statement = body) :
    (owning ctx start opened).KeepsAt s
      (walkDeclaredType ctx (inferWithin ctx bound) statement none body)
      fun r t => t.table.get? ⟨t.walk, statement⟩ = some r := by
  unfold walkDeclaredType
  refine .bind (recorded_keeps hs (fun _ => trivial) statement) ?_
  rintro r t ht - ⟨rfl, hr⟩
  have hmakes : Makes ctx.tree t.table t.templates statement t.walk r :=
    hwalk ▸ .plain hdecl (hwalk ▸ hr)
  have hkept (u : TypingState σ) (hle : Settles ctx.tree t u) :
      u.table.get? ⟨u.walk, statement⟩ = some r := by
    rw [hle.steady.walk, hle.plain _ hdecl]
    exact hr
  cases body with
  | none => exact .pure hs hr
  | some body =>
      refine .bind (withTypeFrame_owning hs fun u heq hu => ?_) fun _ u hu hle _ =>
        .pure hu (hkept u hle)
      subst heq
      have hframe : (t.scopes.push (.forType r (t.pool.ivars r))).inner =
          [.forType r (t.pool.ivars r)] := by
        simp [ScopeChain.push, hinner]
      exact walkMembersWithin_owning hshape bound _ hu
        (.of_makes hu.toLaid hmakes hstatement hbody hframe rfl)

/-- A statement at top level is typed. -/
theorem inferStatement_owning (fuel : Nat) (hs : Owned ctx start opened s) (hwalk : s.walk = 0)
    (hinner : s.scopes.inner = []) (hstatement : statement ∈ ctx.tree.statements ctx.tree.root) :
    (owning ctx start opened).KeepsAt s (inferWithin ctx fuel statement) fun _ _ => True := by
  cases fuel with
  | zero => exact .of_error rfl trivial
  | succ fuel =>
      by_cases hdecl : (ctx.tree.node statement).declaresType = true
      · have hnode : inferNode ctx (inferWithin ctx fuel) statement =
            walkDeclaredType ctx (inferWithin ctx fuel) statement none
              (ctx.tree.bodyOf? statement) := by
          unfold Node.declaresType at hdecl
          split at hdecl <;> simp_all [inferNode, SyntaxTree.bodyOf?]
        unfold inferWithin
        rw [hnode]
        refine .bind (walkDeclaredType_owning hshape fuel hs hwalk hinner hstatement hdecl rfl) ?_
        exact fun r t ht _ hr => .bind (record_owning ht (.inr ⟨hdecl, hr⟩)) fun _ u hu _ _ =>
          .pure hu trivial
      · have hcode : WatchedCode ctx s (ctx.tree.Below statement) := by
          refine hs.watchedCode fun other hother hother' htop => ?_
          by_cases heq : statement = other
          · exact hdecl (heq ▸ hother')
          · exact hshape.disjoint_statements hstatement htop heq hother .refl
        refine owning_of_watched hcode hs
          (inferWithin_returns (fuel + 1) s.returnType statement s hs.toOrderly rfl)
          (watching_infersCode hcode (fuel + 1) statement False.elim .refl s hs.watched) ?_
        intro node name r _ hr
        rw [hs.lookupIvar_eq_none hinner] at hr
        cases hr

/-- All statements are typed. -/
theorem infer_owning (hs : Owned ctx start opened s) (hwalk : s.walk = 0)
    (hinner : s.scopes.inner = []) :
    (owning ctx start opened).KeepsAt s (Typing.infer ctx ctx.tree.root) fun _ _ => True := by
  have hstatement (fuel : Nat) {statement : NodeId} {t : TypingState σ}
      (hmem : statement ∈ ctx.tree.statements ctx.tree.root) (ht : Owned ctx start opened t)
      (hle : Settles ctx.tree s t) :
      (owning ctx start opened).KeepsAt t (inferWithin ctx fuel statement) fun _ _ => True :=
    inferStatement_owning hshape fuel ht (hle.steady.walk.trans hwalk)
      (hle.restores.inner_eq_nil_iff.mpr hinner) hmem
  unfold Typing.infer
  cases hroot : ctx.tree.node ctx.tree.root with
  | seq statements =>
      have hmem (statement) (h : statement ∈ statements) :
          statement ∈ ctx.tree.statements ctx.tree.root := by
        simpa [SyntaxTree.statements, hroot] using h
      cases ctx.tree.walkBudget with
      | zero => exact .of_error rfl trivial
      | succ fuel =>
          rw [inferWithin, inferNode, hroot]
          refine .bind (P := fun _ _ => True) ?_ fun r t ht _ _ => .bind (record_owning ht (.inl ?_))
            fun _ u hu _ _ => .pure hu trivial
          · exact Discipline.foldlM_keeps statements hs trivial fun statement h _ t ht hle _ =>
              hstatement fuel (hmem statement h) ht hle
          · simp [hroot, Node.takesAnyType, Node.declaresType]
  | _ =>
      refine hstatement _ ?_ hs (.refl ctx.tree s)
      simp [SyntaxTree.statements, hroot]

/-! ## Expansions -/

/-- The members of an expansion are walked. -/
theorem walkExpansion_owned (id : TemplateId) (index : Nat) (hs : Owned ctx start opened s) :
    (Discipline.onSuccess _ _).KeepsAt s (walkExpansion ctx id index) fun _ t =>
      Owned ctx start opened t := by
  unfold walkExpansion
  refine .bind_read trivial (b := s) rfl ?_
  dsimp only
  split
  · next body expansion hfound hexpansion =>
      have hbody : ctx.tree.bodyOf? (s.templates.getD id default).decl = some body := hfound
      have he := expansionAt?_eq_some_iff.2 ⟨rfl, hexpansion⟩
      let frame := (Scope.forType expansion.type (s.pool.ivars expansion.type)).bind
        (s.templates.getD id default).param (.type (expansion.args.headD .void))
      let entered : TypingState σ := { s with
        scopes := s.scopes.isolate.push frame, walk := expansion.walk, returnType := none }
      have hentered : Owned ctx start opened entered := { hs with
        walk_lt := hs.expansions_lt id index _ _ he
        scopes := hs.scopes.isolate.push (Scope.Plain.forType.bind (by simp)) }
      have hmembers : (owning ctx start opened).KeepsAt entered (walkMembers ctx (infer ctx) body)
          fun _ _ => True :=
        walkMembersWithin_owning hshape _ _ hentered (.of_makes hentered.toLaid (.expansion he)
          (hs.decls _ (decl_mem_of_expansionAt? he)) hbody rfl rfl)
      cases hrun : walkMembers ctx (infer ctx) body entered with
      | error e t => exact .of_error (within_error hrun) trivial
      | ok a t =>
          obtain ⟨ht, hle, -⟩ := hmembers.ok hrun
          refine .of_ok (within_ok hrun) trivial trivial { ht with
            walk_lt := Nat.lt_of_lt_of_le hs.walk_lt hle.steady.next_le
            scopes := ?_ }
          exact ht.scopes.restore (hle.steady.count.symm ▸ hs.scopes)
  · exact .pure trivial hs

/-- The queue of expansions is worked off. -/
theorem drainPending_owned (fuel : Nat) (hs : Owned ctx start opened s) :
    (Discipline.onSuccess _ _).KeepsAt s (drainPending ctx fuel) fun _ t =>
      Owned ctx start opened t := by
  induction fuel generalizing s with
  | zero =>
      unfold drainPending
      refine .bind_read trivial (b := s) rfl ?_
      split
      · exact .of_error rfl trivial
      · exact .pure trivial hs
  | succ fuel ih =>
      unfold drainPending
      refine .bind_read trivial (b := s) rfl ?_
      split
      · exact .pure trivial hs
      · next id index rest _ =>
          have htaken : Owned ctx start opened { s with pending := rest } := { hs with }
          refine .bind (P := fun _ t => Owned ctx start opened t) (.of_ok rfl trivial trivial htaken)
            fun _ t _ _ ht => ?_
          exact .bind (walkExpansion_owned hshape id index ht) fun _ u _ _ hu => ih hu

end Statements

end Typing

end ClassLang
