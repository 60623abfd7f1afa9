import ClassLang.Proofs.Discipline
import ClassLang.Proofs.Pool.Operations
import ClassLang.Proofs.Syntax.TreeShape
import ClassLang.Proofs.Typing.Registration
import ClassLang.Typing.State

/-!
# What a typed module accounts for

Generating code walks the declarations of a module a second time and looks up what typing recorded.
`Accounted` is the invariant that makes the two walks meet: the table is complete, walks are
numbered freshly, traits and templates in scope are those of the tree, and every method in the pool
is declared in earlier modules or recorded at a visit that generating comes to. `accounting` adds
how the records may change: nothing that counts for declarations is overwritten, in walks that exist
only the statements in `F` get signatures and inclusions, new expansions are declared and queued,
and at walk 0 only the nodes in `G` get types and meanings.
-/

namespace ClassLang

open Relation (ReflTransGen)

/-- What typing has found so far. -/
def TypingState.typed {σ : Type} (s : TypingState σ) : TypedModule :=
  { table := s.table, templates := s.templates, exports := s.exports }

/-! ## Scopes -/

/-- A frame that declares no templates and traits. -/
structure Scope.Plain (frame : Scope) : Prop where
  templates : frame.templates = []
  traits : frame.traits = []
  cases : ∀ entry ∈ frame.names, ∀ id index, entry.2 ≠ .genericCase id index

/-- Templates in scope are among the given number, traits are those of the tree, and only the
module's frame declares them. -/
structure ScopeChain.Registered (tree : SyntaxTree) (count : Nat) (c : ScopeChain) : Prop where
  templates : ∀ entry ∈ c.base.templates, entry.2 < count
  cases : ∀ entry ∈ c.base.names, ∀ id index, entry.2 = .genericCase id index → id < count
  traits : c.base.traits = tree.traits
  inner : ∀ frame ∈ c.inner, frame.Plain

section Scopes

variable {tree : SyntaxTree} {count : Nat} {c : ScopeChain} {frame : Scope} {name : String}
  {b : Binding}

namespace Scope.Plain

theorem empty : ({} : Scope).Plain := ⟨rfl, rfl, by simp⟩

theorem forType {t : TypeId} {ivars : List (String × TypeId)} : (Scope.forType t ivars).Plain :=
  ⟨rfl, rfl, by simp [Scope.forType]⟩

theorem bind (h : frame.Plain) (hb : ∀ id index, b ≠ .genericCase id index) :
    (frame.bind name b).Plain := by
  refine ⟨h.templates, h.traits, fun entry hentry => ?_⟩
  simp only [Scope.bind, List.mem_cons] at hentry
  rcases hentry with rfl | hentry
  · exact hb
  · exact h.cases entry hentry

theorem bindValues {values : List (String × TypeId)} (h : frame.Plain) :
    (frame.bindValues values).Plain := by
  induction values generalizing frame with
  | nil => exact h
  | cons value values ih => exact ih (h.bind (by simp))

end Scope.Plain

namespace ScopeChain.Registered

theorem push (h : c.Registered tree count) (hframe : frame.Plain) :
    (c.push frame).Registered tree count := by
  refine ⟨h.templates, h.cases, h.traits, fun f hf => ?_⟩
  rcases List.mem_cons.mp hf with rfl | hf
  · exact hframe
  · exact h.inner f hf

theorem pop (h : c.Registered tree count) : c.pop.Registered tree count :=
  ⟨h.templates, h.cases, h.traits, fun f hf => h.inner f (List.mem_of_mem_tail hf)⟩

theorem isolate (h : c.Registered tree count) : c.isolate.Registered tree count :=
  ⟨h.templates, h.cases, h.traits, by simp [ScopeChain.isolate]⟩

theorem restore {c' : ScopeChain} (h : c.Registered tree count) (h' : c'.Registered tree count) :
    (c.restore c'.inner).Registered tree count :=
  ⟨h.templates, h.cases, h.traits, h'.inner⟩

theorem bindModule (h : c.Registered tree count)
    (hb : ∀ id index, b = .genericCase id index → id < count) :
    (c.bindModule name b).Registered tree count := by
  refine ⟨h.templates, fun entry hentry => ?_, h.traits, h.inner⟩
  rcases List.mem_cons.mp hentry with rfl | hentry
  · exact hb
  · exact h.cases entry hentry

theorem bind (h : c.Registered tree count) (hb : ∀ id index, b ≠ .genericCase id index) :
    (c.bind name b).Registered tree count := by
  unfold ScopeChain.bind ScopeChain.modifyInnermost
  split
  · exact h.bindModule fun id index heq => absurd heq (hb id index)
  · next s rest hinner =>
      refine ⟨h.templates, h.cases, h.traits, fun f hf => ?_⟩
      rcases List.mem_cons.mp hf with rfl | hf
      · exact (h.inner s (by simp [hinner])).bind hb
      · exact h.inner f (by simp [hinner, hf])

theorem addIvar {t : TypeId} (h : c.Registered tree count) :
    (c.addIvar name t).Registered tree count := by
  refine ⟨h.templates, h.cases, h.traits, ?_⟩
  suffices ∀ frames : List Scope, (∀ f ∈ frames, f.Plain) →
      ∀ f ∈ ScopeChain.addIvarIn name t frames, f.Plain from this c.inner h.inner
  intro frames
  induction frames with
  | nil => exact fun h => h
  | cons s rest ih =>
      intro hall f hf
      have hs := hall s (by simp)
      unfold ScopeChain.addIvarIn at hf
      split at hf <;> rcases List.mem_cons.mp hf with rfl | hf
      · exact ⟨hs.templates, hs.traits, hs.cases⟩
      · exact hall f (List.mem_cons_of_mem s hf)
      · exact hs
      · exact ih (fun f hf => hall f (List.mem_cons_of_mem s hf)) f hf

theorem foldl_addIvar {ivars : List (String × TypeId)} (h : c.Registered tree count) :
    (ivars.foldl (fun c (name, type) => c.addIvar name type) c).Registered tree count := by
  induction ivars generalizing c with
  | nil => exact h
  | cons entry ivars ih => exact ih h.addIvar

/-- A trait in scope is the one that the tree declares. -/
theorem findTrait_eq (h : c.Registered tree count) (name : String) :
    c.findTrait name = tree.traits.lookup name := by
  unfold ScopeChain.findTrait ScopeChain.frames
  rw [List.findSome?_append, List.findSome?_eq_none_iff.mpr, Option.none_or]
  · simp [h.traits]
  · intro frame hframe
    simp [(h.inner frame hframe).traits]

/-- A template in scope is one of the module. -/
theorem findTemplate_lt (h : c.Registered tree count) {id : TemplateId}
    (hid : c.findTemplate name = some id) : id < count := by
  obtain ⟨frame, hframe, hlookup⟩ := List.exists_of_findSome?_eq_some hid
  have hmem := mem_of_lookup_eq_some hlookup
  rcases List.mem_append.mp hframe with hframe | hframe
  · simp [(h.inner frame hframe).templates] at hmem
  · rw [List.mem_singleton] at hframe
    exact h.templates _ (hframe ▸ hmem)

/-- A case in scope is one of a template of the module. -/
theorem lookup_lt (h : c.Registered tree count) {id : TemplateId} {index : Nat}
    (hid : c.lookup name = some (.genericCase id index)) : id < count := by
  unfold ScopeChain.lookup at hid
  rw [Option.or_eq_some_iff] at hid
  rcases hid with hid | ⟨-, hid⟩
  · obtain ⟨frame, hframe, hlookup⟩ := List.exists_of_findSome?_eq_some hid
    have hmem := mem_of_lookup_eq_some hlookup
    rcases List.mem_append.mp hframe with hframe | hframe
    · exact absurd rfl ((h.inner frame hframe).cases _ hmem id index)
    · rw [List.mem_singleton] at hframe
      exact h.cases _ (hframe ▸ hmem) id index rfl
  · obtain ⟨t, -, ht⟩ := Option.map_eq_some_iff.1 hid
    cases ht

end ScopeChain.Registered

end Scopes

/-! ## The invariant -/

namespace Typing

variable {σ : Type} (ctx : TypingContext σ) (known : σ → String → Prop) (G F : NodeId → Prop)

/-- A visit to a statement in the body of a type declaration, which generating the module comes
to. -/
def Comes (tree : SyntaxTree) (s : TypingState σ) (v : Visit) : Prop :=
  ∃ statement ∈ tree.statements tree.root, s.typed.IsMember tree statement v

/-- The members of a declared type are declared in a walk: inclusions are known, and methods are
registered on the type. -/
def MembersDeclared (tree : SyntaxTree) (table : TypeTable) (p : Pool) (decl : NodeId)
    (owner : TypeId) (walk : InstanceId) : Prop :=
  ∀ body, tree.bodyOf? decl = some body → table.Registers tree p owner []
    ((tree.statements body).map fun statement => { walk, node := statement })

/-- The invariant of typing a module, as far as records are concerned. -/
structure Accounted (s : TypingState σ) : Prop where
  complete : s.table.Complete ctx.tree
  walk_lt : s.walk < s.table.nextInstance
  signatures_lt : ∀ v, s.table.HasSignature v → v.walk < s.table.nextInstance
  inclusions_lt : ∀ v walk, s.table.inclusion? v = some walk →
    v.walk < walk ∧ walk < s.table.nextInstance
  inclusions_inj : ∀ v w walk, s.table.inclusion? v = some walk →
    s.table.inclusion? w = some walk → v = w
  expansions_lt : ∀ id index decl e, expansionAt? s.templates id index = some (decl, e) →
    0 < e.walk ∧ e.walk < s.table.nextInstance
  expansions_inj : ∀ id index decl e id' index' decl' e',
    expansionAt? s.templates id index = some (decl, e) →
      expansionAt? s.templates id' index' = some (decl', e') → e.walk = e'.walk →
        id = id' ∧ index = index'
  scopes : s.scopes.Registered ctx.tree s.templates.length
  /-- Templates are generic declarations of the tree, each of them once. -/
  templates : ∀ decl ∈ s.templates.map (·.decl), decl ∈ ctx.tree.statements ctx.tree.root ∧
    (ctx.tree.node decl).declaresType = false
  distinct : (s.templates.map (·.decl)).Nodup
  /-- Methods are those of earlier modules or have a recorded signature. -/
  methods : ∀ t, ∀ sig ∈ (s.pool.data t).methods, known s.imports sig.linkName ∨
    ∃ v, ctx.tree.IsMethod v.node ∧ Comes ctx.tree s v ∧ s.table.signatures[v]? = some sig
  /-- Functions that the module offers have a recorded signature. -/
  functions : ∀ sig ∈ s.exports.functions, ∃ statement ∈ ctx.tree.statements ctx.tree.root,
    ctx.tree.IsMethod statement ∧
      s.table.signatures[({ walk := 0, node := statement } : Visit)]? = some sig

/-- Records that are kept by a step of typing, and those that it may add. -/
structure Preserves (s t : TypingState σ) : Prop where
  walk : t.walk = s.walk
  next_le : s.table.nextInstance ≤ t.table.nextInstance
  grows : s.table.Grows t.table
  /-- At walk 0 only the nodes in `G` are written. -/
  elsewhere : ∀ node, ¬ G node →
    t.table.get? { walk := 0, node } = s.table.get? { walk := 0, node } ∧
      t.table.targets[({ walk := 0, node } : Visit)]? =
        s.table.targets[({ walk := 0, node } : Visit)]?
  signatures : ∀ (v : Visit) sig, s.table.signatures[v]? = some sig →
    t.table.signatures[v]? = some sig
  inclusions : ∀ v walk, s.table.inclusion? v = some walk → t.table.inclusion? v = some walk
  /-- Signatures and inclusions are recorded in new walks, and in the current one for `F`. -/
  fresh : ∀ v, v.walk < s.table.nextInstance → ¬ (v.walk = s.walk ∧ F v.node) →
    (t.table.HasSignature v → s.table.HasSignature v) ∧
      ((t.table.inclusion? v).isSome → (s.table.inclusion? v).isSome)
  decls : t.templates.map (·.decl) = s.templates.map (·.decl)
  expansions : ∀ id index x, expansionAt? s.templates id index = some x →
    expansionAt? t.templates id index = some x
  imports : t.imports = s.imports
  pool : s.pool.Evolves t.pool
  functions : s.exports.functions ⊆ t.exports.functions
  package : t.package = s.package

/-- The types of declarations at top level stay recorded. -/
def KeepsOwners (tree : SyntaxTree) (s t : TypingState σ) : Prop :=
  ∀ decl, (tree.node decl).declaresType = true → ∀ r,
    s.table.get? { walk := 0, node := decl } = some r →
      t.table.get? { walk := 0, node := decl } = some r

/-- How a step of typing may change the records. -/
structure Accounts (s t : TypingState σ) : Prop extends Preserves G F s t where
  pending : s.pending ⊆ t.pending
  /-- New expansions are declared and queued. -/
  expanded : ∀ id index decl e, expansionAt? t.templates id index = some (decl, e) →
    expansionAt? s.templates id index = some (decl, e) ∨
      (id, index) ∈ t.pending ∧ MembersDeclared ctx.tree t.table t.pool decl e.type e.walk
  owners : KeepsOwners ctx.tree s t

variable {ctx known G F} {s t u : TypingState σ}

/-- Two states that differ in scopes, pool, walk and declared result only. -/
structure SameRecords (s t : TypingState σ) : Prop where
  table : t.table = s.table
  templates : t.templates = s.templates
  pending : t.pending = s.pending
  imports : t.imports = s.imports

/-- Two states that differ in scopes, walk and declared result only, and in that the pool may have
evolved. -/
structure KeepsRecords (s t : TypingState σ) : Prop extends SameRecords s t where
  pool : s.pool.Evolves t.pool
  functions : t.exports.functions = s.exports.functions
  package : t.package = s.package

namespace KeepsRecords

theorem refl (s : TypingState σ) : KeepsRecords s s :=
  ⟨⟨rfl, rfl, rfl, rfl⟩, .refl _, rfl, rfl⟩

theorem setPool (s : TypingState σ) {p : Pool} (hp : s.pool.Evolves p) :
    KeepsRecords s { s with pool := p } :=
  ⟨⟨rfl, rfl, rfl, rfl⟩, hp, rfl, rfl⟩

/-- Other scopes, another walk and another declared result. -/
theorem setContext (s : TypingState σ) (scopes : ScopeChain) (walk : InstanceId)
    (returnType : Option TypeId) : KeepsRecords s { s with scopes, walk, returnType } :=
  ⟨⟨rfl, rfl, rfl, rfl⟩, .refl _, rfl, rfl⟩

end KeepsRecords

/-- Members stay declared while records are kept. -/
theorem MembersDeclared.mono {tree : SyntaxTree} {decl : NodeId} {owner : TypeId}
    {walk : InstanceId} (h : MembersDeclared tree s.table s.pool decl owner walk)
    (hkeeps : Preserves G F s t) : MembersDeclared tree t.table t.pool decl owner walk :=
  fun body hbody => (h body hbody).mono hkeeps.pool hkeeps.signatures hkeeps.inclusions
    (List.Subset.refl _)

namespace Preserves

theorem hasSignature (h : Preserves G F s t) {v : Visit} (hv : s.table.HasSignature v) :
    t.table.HasSignature v := by
  obtain ⟨sig, hsig⟩ := Option.isSome_iff_exists.mp hv
  simp [TypeTable.HasSignature, h.signatures v sig hsig]

theorem refl (s : TypingState σ) : Preserves G F s s where
  walk := rfl
  next_le := Nat.le_refl _
  grows := .refl _
  elsewhere _ _ := ⟨rfl, rfl⟩
  signatures _ _ h := h
  inclusions _ _ h := h
  fresh _ _ _ := ⟨id, id⟩
  decls := rfl
  expansions _ _ _ h := h
  imports := rfl
  pool := .refl _
  functions := List.Subset.refl _
  package := rfl

/-- Two steps, of which the second may add records in another walk, if that did not exist before
the first. -/
theorem trans {F' : NodeId → Prop} {t' u' : TypingState σ} (h : Preserves G F s t)
    (ht : KeepsRecords t t') (h' : Preserves G F' t' u) (hu : KeepsRecords u u')
    (hwalk : u'.walk = s.walk)
    (hF : ∀ v : Visit, v.walk < s.table.nextInstance → v.walk = t'.walk → F' v.node →
      v.walk = s.walk ∧ F v.node) : Preserves G F s u' := by
  constructor
  · exact hwalk
  · rw [hu.table]
    exact Nat.le_trans h.next_le (ht.table ▸ h'.next_le)
  · rw [hu.table]
    exact h.grows.trans (ht.table ▸ h'.grows)
  · intro node hnode
    have hbefore := h.elsewhere node hnode
    have hafter := h'.elsewhere node hnode
    rw [hu.table]
    rw [ht.table] at hafter
    exact ⟨hafter.1.trans hbefore.1, hafter.2.trans hbefore.2⟩
  · intro v sig hsig
    rw [hu.table]
    exact h'.signatures v sig (ht.table ▸ h.signatures v sig hsig)
  · intro v walk hwalk
    rw [hu.table]
    exact h'.inclusions v walk (ht.table ▸ h.inclusions v walk hwalk)
  · intro v hv hnot
    have hbefore := h.fresh v hv hnot
    have hlt : v.walk < t'.table.nextInstance := ht.table ▸ Nat.lt_of_lt_of_le hv h.next_le
    have hafter := h'.fresh v hlt fun ⟨hsame, hnode⟩ => hnot (hF v hv hsame hnode)
    rw [ht.table] at hafter
    rw [hu.table]
    exact ⟨fun hsig => hbefore.1 (hafter.1 hsig), fun hwalk => hbefore.2 (hafter.2 hwalk)⟩
  · rw [hu.templates, h'.decls, ht.templates, h.decls]
  · intro id index x hx
    rw [hu.templates]
    exact h'.expansions id index x (ht.templates ▸ h.expansions id index x hx)
  · rw [hu.imports, h'.imports, ht.imports, h.imports]
  · exact ((h.pool.trans ht.pool).trans h'.pool).trans hu.pool
  · rw [hu.functions]
    exact List.Subset.trans h.functions (ht.functions ▸ h'.functions)
  · rw [hu.package, h'.package, ht.package, h.package]

end Preserves

namespace Accounts

theorem refl (s : TypingState σ) : Accounts ctx G F s s :=
  ⟨.refl s, List.Subset.refl _, fun _ _ _ _ h => .inl h, fun _ _ _ h => h⟩

theorem trans (h : Accounts ctx G F s t) (h' : Accounts ctx G F t u) : Accounts ctx G F s u := by
  refine ⟨h.toPreserves.trans (.refl t) h'.toPreserves (.refl u) (h'.walk.trans h.walk)
    fun v _ hwalk hnode => ⟨hwalk.trans h.walk, hnode⟩, List.Subset.trans h.pending h'.pending, ?_,
    fun decl hdecl r hr => h'.owners decl hdecl r (h.owners decl hdecl r hr)⟩
  intro id index decl e he
  rcases h'.expanded id index decl e he with ht | hnew
  · rcases h.expanded id index decl e ht with hs | ⟨hpending, hdeclared⟩
    · exact .inl hs
    · exact .inr ⟨h'.pending hpending, hdeclared.mono h'.toPreserves⟩
  · exact .inr hnew

end Accounts

/-- Members of declarations stay members. -/
theorem Comes.mono {tree : SyntaxTree} {v : Visit} (h : Comes tree s v)
    (hdistinct : (s.templates.map (·.decl)).Nodup) (hkeeps : Preserves G F s t) :
    Comes tree t v := by
  obtain ⟨statement, hstatement, body, walk, member, hbody, hwalk, hmember, hreach⟩ := h
  refine ⟨statement, hstatement, body, walk, member, hbody, ?_, hmember, ?_⟩
  · rw [TypedModule.isInstance_iff (m := t.typed) (hkeeps.decls.symm ▸ hdistinct :)]
    rcases (TypedModule.isInstance_iff (m := s.typed) hdistinct).mp hwalk with
      ⟨id, index, e, he, hwalk⟩ | ⟨hnot, hwalk⟩
    · exact .inl ⟨id, index, e, hkeeps.expansions id index _ he, hwalk⟩
    · exact .inr ⟨fun hmem => hnot (hkeeps.decls ▸ hmem :), hwalk⟩
  · refine hreach.lift id ?_
    rintro a b ⟨name, body, hnode, hincluded, hbody, hmem⟩
    exact ⟨name, body, hnode, hkeeps.inclusions _ _ hincluded, hbody, hmem⟩

/-- Methods stay accounted for while records are kept. -/
theorem Accounted.method_mono (h : Accounted ctx known s) (hkeeps : Preserves G F s t) {r : TypeId}
    {sig : Signature} (hsig : sig ∈ (s.pool.data r).methods) :
    known t.imports sig.linkName ∨ ∃ v, ctx.tree.IsMethod v.node ∧ Comes ctx.tree t v ∧
      t.table.signatures[v]? = some sig := by
  rcases h.methods r sig hsig with hknown | ⟨v, hmethod, hv, hrecorded⟩
  · exact .inl (hkeeps.imports ▸ hknown)
  · exact .inr ⟨v, hmethod, hv.mono h.distinct hkeeps, hkeeps.signatures v sig hrecorded⟩

/-- Functions stay accounted for while records are kept. -/
theorem Accounted.function_mono (h : Accounted ctx known s) (hkeeps : Preserves G F s t)
    {sig : Signature} (hsig : sig ∈ s.exports.functions) :
    ∃ statement ∈ ctx.tree.statements ctx.tree.root, ctx.tree.IsMethod statement ∧
      t.table.signatures[({ walk := 0, node := statement } : Visit)]? = some sig := by
  obtain ⟨statement, hstatement, hmethod, hrecorded⟩ := h.functions sig hsig
  exact ⟨statement, hstatement, hmethod, hkeeps.signatures _ sig hrecorded⟩

variable (ctx known G F)

/-- Typing accounts for its records, if it succeeds. -/
def accounting : Discipline Halt (TypingState σ) where
  inv := Accounted ctx known
  le := Accounts ctx G F
  fails _ _ _ := True
  refl := .refl
  trans := .trans
  fails_trans _ h := h

/-! ## Elementary steps -/

variable {ctx known G F} {α : Type} {Q : α → TypingState σ → Prop}

theorem fail_accounted {e : CompileError} : (accounting ctx known G F).KeepsAt s (fail e) Q :=
  .of_error rfl trivial

theorem throw_accounted {h : Halt} : (accounting ctx known G F).KeepsAt s (throw h) Q :=
  .of_error rfl trivial

theorem ofExcept_accounted {r : Except CompileError α} (hs : Accounted ctx known s)
    (hok : ∀ a, r = .ok a → Q a s) : (accounting ctx known G F).KeepsAt s (ofExcept r) Q := by
  cases r with
  | ok a => exact .pure hs (hok a rfl)
  | error e => exact fail_accounted

/-- A step that leaves the records alone. -/
theorem Accounts.of_same (h : KeepsRecords s t) (hwalk : t.walk = s.walk) :
    Accounts ctx G F s t := by
  refine ⟨(Preserves.refl s).trans (.refl s) (Preserves.refl s) h hwalk
    fun _ _ hv hF => ⟨hv, hF⟩, h.pending.symm ▸ List.Subset.refl _,
    fun id index decl e he => .inl ?_, fun _ _ _ hr => h.table.symm ▸ hr⟩
  rwa [h.templates] at he

/-- The records of a step, seen from a state with the same records. -/
theorem Accounts.of_within {F' : NodeId → Prop} (h : Accounts ctx G F' s t) {s' t' : TypingState σ}
    (hs : KeepsRecords s' s) (ht : KeepsRecords t t') (hwalk : t'.walk = s'.walk)
    (hF : ∀ node, F' node → s.walk = s'.walk ∧ F node) : Accounts ctx G F s' t' := by
  refine ⟨(Preserves.refl s').trans hs h.toPreserves ht hwalk
    fun v _ hv hnode => ⟨hv.trans (hF _ hnode).1, (hF _ hnode).2⟩, ?_, fun id index decl e he => ?_,
    fun decl hdecl r hr => ?_⟩
  · rw [ht.pending, ← hs.pending]
    exact h.pending
  · rw [ht.templates] at he
    rw [ht.pending, ← hs.templates]
    refine (h.expanded id index decl e he).imp_right fun ⟨hpending, hdeclared⟩ => ⟨hpending, ?_⟩
    rw [ht.table]
    exact fun body hbody => (hdeclared body hbody).mono ht.pool (fun _ _ h => h) (fun _ _ h => h)
      (List.Subset.refl _)
  · rw [ht.table]
    exact h.owners decl hdecl r (hs.table.symm ▸ hr)

/-- More statements may get signatures and inclusions. -/
theorem weaken_accounting {F' : NodeId → Prop} {step : Typing σ α}
    (h : (accounting ctx known G F).KeepsAt s step Q) (hF : ∀ node, F node → F' node) :
    (accounting ctx known G F').KeepsAt s step Q := by
  unfold Discipline.KeepsAt at h ⊢
  split at h
  · exact ⟨h.1, h.2.1.of_within (.refl _) (.refl _) h.2.1.walk
      fun node hnode => ⟨rfl, hF node hnode⟩, h.2.2⟩
  · trivial

namespace Accounted

/-- Another pool in which no method was added. -/
theorem setPool (h : Accounted ctx known s) {p : Pool} (hpool : s.pool.AddsNoMethod p) :
    Accounted ctx known { s with pool := p } :=
  { h with methods := fun r sig hsig => h.methods r sig (hpool.methods r hsig) }

/-- Other scopes that declare no templates and traits. -/
theorem setScopes (h : Accounted ctx known s) {c : ScopeChain}
    (hc : c.Registered ctx.tree s.templates.length) :
    Accounted ctx known { s with scopes := c } :=
  { h with scopes := hc }

/-- Another walk and declared result. -/
theorem setWalk (h : Accounted ctx known s) {walk : InstanceId} (result : Option TypeId)
    (hwalk : walk < s.table.nextInstance) :
    Accounted ctx known { s with walk, returnType := result } :=
  { h with walk_lt := hwalk }

end Accounted

theorem makeType_accounted {f : Pool → TypeId × Pool} {Q : TypeId → TypingState σ → Prop}
    (hs : Accounted ctx known s) (hpool : s.pool.AddsNoMethod (f s.pool).2)
    (hQ : Q (f s.pool).1 { s with pool := (f s.pool).2 }) :
    (accounting ctx known G F).KeepsAt s (makeType f) Q :=
  .of_ok rfl (hs.setPool hpool) (.of_same (.setPool s hpool.evolves) rfl) hQ

theorem updatePool_accounted {f : Pool → Except CompileError Pool}
    {Q : Unit → TypingState σ → Prop} (hs : Accounted ctx known s)
    (hok : ∀ p, f s.pool = .ok p → s.pool.AddsNoMethod p ∧ Q () { s with pool := p }) :
    (accounting ctx known G F).KeepsAt s (updatePool f) Q := by
  refine .bind_read hs (b := s) rfl (.bind (ofExcept_accounted hs (Q := fun p u =>
    f s.pool = .ok p ∧ u = s) fun p hp => ⟨hp, rfl⟩) ?_)
  rintro p _ - - ⟨hp, rfl⟩
  exact .of_ok rfl (hs.setPool (hok p hp).1) (.of_same (.setPool _ (hok p hp).1.evolves) rfl)
    (hok p hp).2

theorem modifyScopes_accounted {f : ScopeChain → ScopeChain} {Q : Unit → TypingState σ → Prop}
    (hs : Accounted ctx known s) (hf : (f s.scopes).Registered ctx.tree s.templates.length)
    (hQ : Q () { s with scopes := f s.scopes }) :
    (accounting ctx known G F).KeepsAt s (modifyScopes f) Q :=
  .of_ok rfl (hs.setScopes hf) (.of_same (.setContext _ _ _ _) rfl) hQ

/-- The nodes below `node` may be written in the current walk. -/
def Writable (tree : SyntaxTree) (G : NodeId → Prop) (s : TypingState σ) (node : NodeId) : Prop :=
  s.walk = 0 → ∀ n, tree.Below node n → G n

namespace Writable

variable {tree : SyntaxTree} {node part : NodeId}

theorem self (h : Writable tree G s node) : s.walk = 0 → G node :=
  fun hwalk => h hwalk node .refl

theorem below (h : Writable tree G s node) (hbelow : tree.Below node part) :
    Writable tree G s part :=
  fun hwalk n hn => h hwalk n (hbelow.trans hn)

theorem child (h : Writable tree G s node) (hpart : part ∈ (tree.node node).children) :
    Writable tree G s part :=
  h.below (.single hpart)

theorem mono (h : Writable tree G s node) (hle : Accounts ctx G F s t) : Writable tree G t node :=
  fun hwalk => h (hle.walk.symm.trans hwalk)

end Writable

theorem record_accounted {node : NodeId} {r : TypeId} {Q : Unit → TypingState σ → Prop}
    (hs : Accounted ctx known s) (hG : s.walk = 0 → G node)
    (hparts : s.table.PartsCovered ctx.tree { walk := s.walk, node })
    (hown : (ctx.tree.node node).declaresType = true → s.walk = 0 →
      s.table.get? { walk := 0, node } = some r)
    (hQ : Q () { s with table := s.table.record { walk := s.walk, node } r }) :
    (accounting ctx known G F).KeepsAt s (record node r) Q := by
  refine .of_ok rfl { hs with complete := hs.complete.record hparts }
    ⟨{ Preserves.refl (G := G) s with grows := s.table.grows_record _ r, elsewhere := ?_ },
      List.Subset.refl _, fun _ _ _ _ h => .inl h, fun decl hdecl r' hr' => ?_⟩ hQ
  · intro other hother
    refine ⟨(s.table.get?_record _ _ r).trans (if_neg ?_), rfl⟩
    intro heq
    rw [Visit.mk.injEq] at heq
    exact hother (heq.2 ▸ hG heq.1.symm)
  · refine (s.table.get?_record _ _ r).trans ?_
    split
    · next heq =>
        obtain ⟨hwalk, rfl⟩ := Visit.mk.inj heq
        exact (hown hdecl hwalk.symm).symm.trans hr'
    · exact hr'

theorem setTarget_accounted {node : NodeId} {target : Target} {Q : Unit → TypingState σ → Prop}
    (hs : Accounted ctx known s) (hG : s.walk = 0 → G node)
    (htarget : TypeTable.NeedsReceiver target →
      s.table.ReceiverCovered ctx.tree { walk := s.walk, node })
    (hQ : Q () { s with table := s.table.setTarget { walk := s.walk, node } target }) :
    (accounting ctx known G F).KeepsAt s (setTarget node target) Q := by
  refine .of_ok rfl { hs with complete := hs.complete.setTarget htarget }
    ⟨{ Preserves.refl (G := G) s with grows := s.table.grows_setTarget _ target, elsewhere := ?_ },
      List.Subset.refl _, fun _ _ _ _ h => .inl h, fun _ _ _ h => h⟩ hQ
  intro other hother
  refine ⟨rfl, (getElem?_insert_visit s.table.targets _ _ target).trans (if_neg ?_)⟩
  intro heq
  rw [Visit.mk.injEq] at heq
  exact hother (heq.2 ▸ hG heq.1.symm)

/-! ## Steps in another context -/

/-- A step in a changed state, after which parts of the state are put back. -/
theorem within_accounted {enter : TypingState σ → TypingState σ}
    {leave : TypingState σ → TypingState σ → TypingState σ} {step : Typing σ α}
    {R : α → TypingState σ → Prop} {F' : NodeId → Prop}
    (hstep : (accounting ctx known G F').KeepsAt (enter s) step R)
    (hleave : ∀ a t, Accounted ctx known t → Accounts ctx G F' (enter s) t → R a t →
      Accounted ctx known (leave s t) ∧ Accounts ctx G F s (leave s t) ∧ Q a (leave s t)) :
    (accounting ctx known G F).KeepsAt s (within enter leave step) Q := by
  unfold Discipline.KeepsAt at hstep ⊢
  unfold within
  cases hresult : step (enter s) with
  | ok a t =>
      simp only [hresult] at hstep ⊢
      exact hleave a t hstep.1 hstep.2.1 hstep.2.2
  | error e t => trivial

section Contexts

variable {step : Typing σ α} {R : α → TypeTable → Pool → InstanceId → Prop}

theorem withFrame_accounted {frame : Scope} (hs : Accounted ctx known s) (hframe : frame.Plain)
    (hstep : ∀ t, Accounted ctx known t → t.table = s.table → t.walk = s.walk →
      (accounting ctx known G F).KeepsAt t step fun a u => R a u.table u.pool u.walk) :
    (accounting ctx known G F).KeepsAt s (withFrame frame step) fun a u => R a u.table u.pool u.walk :=
  within_accounted (hstep _ (hs.setScopes (hs.scopes.push hframe)) rfl rfl)
    fun _ _ ht hle hR => ⟨ht.setScopes ht.scopes.pop,
      hle.of_within (.setContext _ _ _ _) (.setContext _ _ _ _) hle.walk
        fun _ h => ⟨rfl, h⟩, hR⟩

theorem withReturnType_accounted {result : Option TypeId} (hs : Accounted ctx known s)
    (hstep : ∀ t, Accounted ctx known t → t.table = s.table → t.walk = s.walk →
      (accounting ctx known G F).KeepsAt t step fun a u => R a u.table u.pool u.walk) :
    (accounting ctx known G F).KeepsAt s (withReturnType result step) fun a u =>
      R a u.table u.pool u.walk :=
  within_accounted (hstep _ (hs.setWalk result hs.walk_lt) rfl rfl)
    fun _ _ ht hle hR => ⟨ht.setWalk _ ht.walk_lt,
      hle.of_within (.setContext _ _ _ _) (.setContext _ _ _ _) hle.walk
        fun _ h => ⟨rfl, h⟩, hR⟩

theorem withTypeFrame_accounted (owner : TypeId) (step : Typing σ α) (hs : Accounted ctx known s)
    (hstep : ∀ t, Accounted ctx known t → t.table = s.table → t.walk = s.walk →
      (accounting ctx known G F).KeepsAt t step fun a u => R a u.table u.pool u.walk) :
    (accounting ctx known G F).KeepsAt s (withTypeFrame owner step) fun a u =>
      R a u.table u.pool u.walk :=
  .bind_read hs (b := s) rfl (withFrame_accounted hs .forType hstep)

end Contexts

section Walks

variable {step : Typing σ α} {walk : InstanceId} {R : α → TypeTable → Prop}

/-- A step in another walk that exists. -/
theorem withWalk_accounted (hs : Accounted ctx known s) (hwalk : walk < s.table.nextInstance)
    (hstep : ∀ t, Accounted ctx known t → t.table = s.table → t.walk = walk →
      (accounting ctx known G fun _ => False).KeepsAt t step fun a u => R a u.table) :
    (accounting ctx known G F).KeepsAt s (withWalk walk step) fun a u => R a u.table := by
  refine within_accounted (hstep _ (hs.setWalk _ hwalk) rfl rfl) fun _ t ht hle hR => ?_
  have hlt : s.walk < t.table.nextInstance := Nat.lt_of_lt_of_le hs.walk_lt hle.next_le
  exact ⟨ht.setWalk _ hlt,
    hle.of_within (.setContext _ _ _ _) (.setContext _ _ _ _) rfl
        fun _ h => h.elim, hR⟩

theorem withIsolatedFrame_accounted {frame : Scope} (hs : Accounted ctx known s)
    (hwalk : walk < s.table.nextInstance) (hframe : frame.Plain)
    (hstep : ∀ t, Accounted ctx known t → t.table = s.table → t.walk = walk →
      t.typed = s.typed →
      (accounting ctx known G fun _ => False).KeepsAt t step fun a u => R a u.table) :
    (accounting ctx known G F).KeepsAt s (withIsolatedFrame walk frame step) fun a u =>
      R a u.table := by
  refine within_accounted (hstep _ ?_ rfl rfl rfl) fun _ t ht hle hR => ?_
  · exact (hs.setScopes (hs.scopes.isolate.push hframe)).setWalk none hwalk
  · have hlt : s.walk < t.table.nextInstance := Nat.lt_of_lt_of_le hs.walk_lt hle.next_le
    refine ⟨(ht.setScopes (c := t.scopes.restore s.scopes.inner) ?_).setWalk _ hlt,
      hle.of_within (.setContext _ _ _ _) (.setContext _ _ _ _) rfl
        fun _ h => h.elim, hR⟩
    have hcount : t.templates.length = s.templates.length := by
      simpa using congrArg List.length hle.decls
    have hscopes := hs.scopes
    rw [← hcount] at hscopes
    exact ht.scopes.restore hscopes

end Walks

end Typing

end ClassLang
