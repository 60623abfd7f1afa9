import ClassLang.Proofs.Pool.Written
import ClassLang.Proofs.Typing.Context

/-!
# Expansions are made once

A generic type is expanded when it is first asked for. Asking again, with the same argument or one
that is equal to it, gives the expansion that is there and changes nothing, even while its members
are still being declared.

What decides this is the `Memory`: the pool and the templates with their expansions. `Memoized` says
what holds of the memory, and `Remembers` follows it through every single change. All expansions are
made for arguments that can be written down, of which no two are equal (`Catalogued`), and this is
what each step of typing keeps; `memoizing` are the rules for it. They also follow the queue: each
new expansion is queued exactly once.
-/

namespace ClassLang

open Relation (ReflTransGen)

variable {σ : Type}

/-- Only one type is equal to a single one. -/
theorem Pool.sameTypes_singleton {p : Pool} {a : TypeId} {types : List TypeId} :
    p.sameTypes [a] types = true ↔ ∃ b, types = [b] ∧ p.sameType a b = true := by
  rcases types with _ | ⟨b, _ | ⟨c, rest⟩⟩ <;> simp [Pool.sameTypes]

/-- What is remembered of expansions. -/
abbrev Memory := Pool × List Template

/-- What is remembered of expansions at this point. -/
def TypingState.memory (s : TypingState σ) : Memory :=
  (s.pool, s.templates)

/-- The smallest changes of what is remembered: an operation on the pool, a new template, or a new
expansion of a template. -/
inductive Memory.Step : Memory → Memory → Prop
  | pool {p q : Pool} {templates : List Template} (h : p.Change q) :
      Step (p, templates) (q, templates)
  | template {p : Pool} {templates : List Template} (name param : String) (decl : NodeId) :
      Step (p, templates) (p, templates ++ [({ name, param, decl } : Template)])
  | expansion {p : Pool} {templates : List Template} {id : TemplateId} {template : Template}
      (h : templates[id]? = some template) (e : Expansion) :
      Step (p, templates)
        (p, templates.set id { template with expansions := template.expansions ++ [e] })

namespace Typing

/-- Expansions are made once. -/
structure Memoized (ctx : TypingContext σ) (m : Memory) : Prop where
  /-- Every expansion has exactly one type argument. -/
  single : ∀ {id index decl e}, expansionAt? m.2 id index = some (decl, e) → e.args.length = 1
  /-- No two expansions of one template have equal arguments. -/
  distinct : ∀ {id index index' decl decl' e e'}, expansionAt? m.2 id index = some (decl, e) →
    expansionAt? m.2 id index' = some (decl', e') → m.1.sameTypes e.args e'.args = true →
      index = index'
  /-- Asking with arguments that are equal to those of an expansion gives its type and changes
  nothing. -/
  reused : ∀ {id index decl e}, expansionAt? m.2 id index = some (decl, e) →
    ∀ args, m.1.sameTypes e.args args = true →
      ∀ (typeExpr : NodeId → Typing σ TypeId) (s : TypingState σ), s.memory = m →
        expand ctx typeExpr id args s = .ok e.type s

/-- The second memory comes from the first by changes after each of which expansions are made
once. There are such changes; nothing ties the memories between to the states of some run. -/
def Remembers (ctx : TypingContext σ) : Memory → Memory → Prop :=
  ReflTransGen fun m m' => m.Step m' ∧ Memoized ctx m'

/-- A new template has no expansions. -/
theorem expansionAt?_append_new {templates : List Template} (name param : String) (decl : NodeId)
    {id index : Nat} :
    expansionAt? (templates ++ [({ name, param, decl } : Template)]) id index =
      expansionAt? templates id index := by
  unfold expansionAt?
  rw [List.getElem?_append]
  split
  · rfl
  · next hle =>
      rw [List.getElem?_eq_none (Nat.le_of_not_lt hle)]
      cases hid : [({ name, param, decl } : Template)][id - templates.length]? with
      | none => rfl
      | some template =>
          obtain rfl := List.mem_singleton.mp (List.mem_of_getElem? hid)
          rfl

/-! ## Expansions by written arguments -/

/-- Each expansion was made for one argument that can be written down, and no two of a template for
the same one. -/
structure Catalogued (m : Memory) : Prop where
  builtins : Pool.initial.Evolves m.1
  indexed : m.1.Indexed
  written : ∀ {id index decl e}, expansionAt? m.2 id index = some (decl, e) →
    ∃ arg, e.args = [arg] ∧ m.1.Written arg ∧ m.1.Written e.type
  distinct : ∀ {id index index' decl decl' e e'}, expansionAt? m.2 id index = some (decl, e) →
    expansionAt? m.2 id index' = some (decl', e') → e.args = e'.args → index = index'

namespace Catalogued

variable {p q : Pool} {templates : List Template} {id : TemplateId} {template : Template}

/-- Expansions whose arguments are equal to the same types are the same. -/
theorem index_eq {m : Memory} {index index' : Nat} {decl decl' : NodeId} {e e' : Expansion}
    {args : List TypeId} (h : Catalogued m) (he : expansionAt? m.2 id index = some (decl, e))
    (he' : expansionAt? m.2 id index' = some (decl', e')) (hsame : m.1.sameTypes e.args args = true)
    (hsame' : m.1.sameTypes e'.args args = true) : index = index' := by
  obtain ⟨arg, harg, hwritten, -⟩ := h.written he
  obtain ⟨arg', harg', hwritten', -⟩ := h.written he'
  rw [harg, Pool.sameTypes_singleton] at hsame
  rw [harg', Pool.sameTypes_singleton] at hsame'
  obtain ⟨x, rfl, hx⟩ := hsame
  obtain ⟨_, heq, hx'⟩ := hsame'
  cases heq
  refine h.distinct he he' ?_
  rw [harg, harg', h.indexed.interned.eq_of_sameType hwritten hwritten' hx hx']

/-- An expansion that is there is the one that is found. -/
theorem find?_eq {m : Memory} {index : Nat} {decl : NodeId} {e : Expansion} {args : List TypeId}
    (h : Catalogued m) (he : expansionAt? m.2 id index = some (decl, e))
    (hsame : m.1.sameTypes e.args args = true) :
    (m.2.getD id default).expansions.find? (fun e => m.1.sameTypes e.args args) = some e := by
  obtain ⟨hdecl, hat⟩ := expansionAt?_eq_some_iff.1 he
  cases hfound : (m.2.getD id default).expansions.find? (fun e => m.1.sameTypes e.args args) with
  | none => exact absurd hsame (List.find?_eq_none.mp hfound e (List.mem_of_getElem? hat))
  | some e' =>
      obtain ⟨index', hat'⟩ := List.mem_iff_getElem?.mp (List.mem_of_find?_eq_some hfound)
      have he' : expansionAt? m.2 id index' = some (decl, e') :=
        expansionAt?_eq_some_iff.2 ⟨hdecl, hat'⟩
      have hsame' : m.1.sameTypes e'.args args = true := by simpa using List.find?_some hfound
      cases h.index_eq he he' hsame hsame'
      exact hat'.symm.trans hat

/-- Where expansions are catalogued, they are made once. -/
theorem memoized {m : Memory} (h : Catalogued m) (ctx : TypingContext σ) : Memoized ctx m where
  single he := by
    obtain ⟨arg, harg, -⟩ := h.written he
    rw [harg, List.length_singleton]
  distinct {id index index' decl decl' e e'} he he' hsame := by
    obtain ⟨arg', harg', -⟩ := h.written he'
    refine h.index_eq he he' hsame ?_
    rw [harg', Pool.sameTypes_singleton]
    exact ⟨arg', rfl, Pool.sameType_of_resolve_eq rfl⟩
  reused {id index decl e} he args hsame typeExpr s hs := by
    have hfind := h.find?_eq he hsame
    subst hs
    have hfind' : (s.templates.getD id default).expansions.find?
      (fun e => s.pool.sameTypes e.args args) = some e := hfind
    unfold expand
    rw [get_bind_apply]
    simp only [hfind']
    rfl

theorem changePool (h : Catalogued (p, templates)) (hchange : p.Change q) :
    Catalogued (q, templates) where
  builtins := h.builtins.trans hchange.evolves
  indexed := hchange.indexed h.indexed
  written he := by
    obtain ⟨arg, harg, hwritten, htype⟩ := h.written he
    exact ⟨arg, harg, hwritten.mono hchange.evolves, htype.mono hchange.evolves⟩
  distinct := h.distinct

/-- A template is added. -/
theorem addTemplate (h : Catalogued (p, templates)) (name param : String) (decl : NodeId) :
    Catalogued (p, templates ++ [({ name, param, decl } : Template)]) where
  builtins := h.builtins
  indexed := h.indexed
  written he := h.written (expansionAt?_append_new name param decl ▸ he)
  distinct he he' := h.distinct (expansionAt?_append_new name param decl ▸ he)
    (expansionAt?_append_new name param decl ▸ he')

/-- An expansion is added, for an argument for which there is none. -/
theorem addExpansion (h : Catalogued (p, templates)) (hid : templates[id]? = some template)
    {arg r : TypeId} {walk : InstanceId} (harg : p.Written arg) (hr : p.Written r)
    (hnew : ∀ e ∈ template.expansions, e.args ≠ [arg]) :
    Catalogued (p, templates.set id { template with
      expansions := template.expansions ++ [{ args := [arg], type := r, walk }] }) := by
  have hat := expansionAt?_set hid { args := [arg], type := r, walk }
  have hold : ∀ {index decl e}, expansionAt? templates id index = some (decl, e) →
      e.args ≠ [arg] := by
    intro index decl e he
    obtain ⟨-, he⟩ := expansionAt?_eq_some_iff.1 he
    rw [List.getD_eq_getElem?_getD, hid] at he
    exact hnew e (List.mem_of_getElem? he)
  refine ⟨h.builtins, h.indexed, fun {other index decl e} he => ?_,
    fun {other index index' decl decl' e e'} he he' heq => ?_⟩
  · rw [hat] at he
    split at he
    · cases he
      exact ⟨arg, rfl, harg, hr⟩
    · exact h.written he
  · rw [hat] at he he'
    split at he <;> split at he'
    · next hi hi' => exact hi.2.trans hi'.2.symm
    · next hi _ =>
        cases he
        exact absurd heq.symm (hold (hi.1 ▸ he'))
    · next _ hi' =>
        cases he'
        exact absurd heq (hold (hi'.1 ▸ he))
    · exact h.distinct he he' heq

end Catalogued

end Typing

/-! ## Names -/

/-- All types that the frame gives a name to satisfy `P`. -/
def Scope.TypesIn (P : TypeId → Prop) (frame : Scope) : Prop :=
  ∀ entry ∈ frame.names, ∀ t, entry.2 = .type t → P t

namespace Scope

variable {P Q : TypeId → Prop} {frame : Scope}

theorem TypesIn.mono (h : frame.TypesIn P) (hPQ : ∀ t, P t → Q t) : frame.TypesIn Q :=
  fun entry hentry t ht => hPQ t (h entry hentry t ht)

theorem BindsValues.typesIn (h : frame.BindsValues) : frame.TypesIn P := by
  intro entry hentry t ht
  obtain ⟨r, hr⟩ := h.names entry hentry
  rw [hr] at ht
  cases ht

theorem TypesIn.bind (h : frame.TypesIn P) {name : String} {b : Binding}
    (hb : ∀ t, b = .type t → P t) : (frame.bind name b).TypesIn P := by
  intro entry hentry t ht
  rcases List.mem_cons.mp hentry with rfl | hentry
  · exact hb t ht
  · exact h entry hentry t ht

end Scope

/-- A property of all frames is kept if the change of the innermost one keeps it. -/
theorem ScopeChain.forall_modifyInnermost {P : Scope → Prop} {c : ScopeChain} {f : Scope → Scope}
    (hbase : P c.base) (hinner : ∀ frame ∈ c.inner, P frame) (hf : ∀ frame, P frame → P (f frame)) :
    P (c.modifyInnermost f).base ∧ ∀ frame ∈ (c.modifyInnermost f).inner, P frame := by
  obtain ⟨base, inner⟩ := c
  cases inner with
  | nil => exact ⟨hf base hbase, hinner⟩
  | cons frame rest =>
      obtain ⟨hframe, hrest⟩ := List.forall_mem_cons.mp hinner
      exact ⟨hbase, List.forall_mem_cons.mpr ⟨hf frame hframe, hrest⟩⟩

/-- All types that have a name in scope satisfy `P`. -/
structure ScopeChain.TypesIn (P : TypeId → Prop) (c : ScopeChain) : Prop where
  base : c.base.TypesIn P
  inner : ∀ frame ∈ c.inner, frame.TypesIn P

namespace ScopeChain.TypesIn

variable {P Q : TypeId → Prop} {c : ScopeChain}

theorem mono (h : c.TypesIn P) (hPQ : ∀ t, P t → Q t) : c.TypesIn Q :=
  ⟨h.base.mono hPQ, fun frame hframe => (h.inner frame hframe).mono hPQ⟩

/-- A name denotes a type that has this name in scope, or a built-in one. -/
theorem lookup (h : c.TypesIn P) {name : String} {t : TypeId}
    (hlookup : c.lookup name = some (.type t)) : P t ∨ t < Pool.initial.size := by
  unfold ScopeChain.lookup at hlookup
  rw [Option.or_eq_some_iff] at hlookup
  rcases hlookup with hfound | ⟨-, hbuiltin⟩
  · obtain ⟨frame, hframe, hentry⟩ := List.exists_of_findSome?_eq_some hfound
    have hmem := mem_of_lookup_eq_some hentry
    rcases List.mem_append.mp hframe with hframe | hframe
    · exact .inl (h.inner frame hframe _ hmem t rfl)
    · rw [List.mem_singleton.mp hframe] at hmem
      exact .inl (h.base _ hmem t rfl)
  · obtain ⟨r, hr, heq⟩ := Option.map_eq_some_iff.1 hbuiltin
    cases heq
    have hall : ∀ entry ∈ TypeId.builtinNames, entry.2 < Pool.initial.size := by decide
    exact .inr (hall _ (mem_of_lookup_eq_some hr))

theorem modifyInnermost (h : c.TypesIn P) {f : Scope → Scope}
    (hf : ∀ frame : Scope, frame.TypesIn P → (f frame).TypesIn P) :
    (c.modifyInnermost f).TypesIn P :=
  have hall := forall_modifyInnermost h.base h.inner hf
  ⟨hall.1, hall.2⟩

theorem registerTemplate (h : c.TypesIn P) {name : String} {id : TemplateId} :
    (c.registerTemplate name id).TypesIn P :=
  h.modifyInnermost (f := fun s => { s with templates := (name, id) :: s.templates }) fun _ h => h

theorem registerTrait (h : c.TypesIn P) {name : String} {body : NodeId} :
    (c.registerTrait name body).TypesIn P :=
  h.modifyInnermost (f := fun s => { s with traits := (name, body) :: s.traits }) fun _ h => h

theorem bindModule (h : c.TypesIn P) {name : String} {b : Binding} (hb : ∀ t, b = .type t → P t) :
    (c.bindModule name b).TypesIn P :=
  ⟨h.base.bind hb, h.inner⟩

theorem push (h : c.TypesIn P) {frame : Scope} (hframe : frame.TypesIn P) :
    (c.push frame).TypesIn P :=
  ⟨h.base, List.forall_mem_cons.mpr ⟨hframe, h.inner⟩⟩

theorem pop (h : c.TypesIn P) : c.pop.TypesIn P :=
  ⟨h.base, fun frame hframe => h.inner frame (List.mem_of_mem_tail hframe)⟩

theorem addIvar (h : c.TypesIn P) (name : String) (t : TypeId) : (c.addIvar name t).TypesIn P :=
  ⟨h.base, (Typing.forall_addIvarIn_iff name t c.inner fun _ => Iff.rfl).mpr h.inner⟩

end ScopeChain.TypesIn

namespace ScopeChain.TemplatesBelow

variable {count : Nat} {c : ScopeChain}

theorem push (h : c.TemplatesBelow count) {frame : Scope} (hframe : frame.TemplatesBelow count) :
    (c.push frame).TemplatesBelow count :=
  ⟨h.base, List.forall_mem_cons.mpr ⟨hframe, h.inner⟩⟩

theorem pop (h : c.TemplatesBelow count) : c.pop.TemplatesBelow count :=
  ⟨h.base, fun frame hframe => h.inner frame (List.mem_of_mem_tail hframe)⟩

theorem modifyInnermost (h : c.TemplatesBelow count) {f : Scope → Scope}
    (hf : ∀ frame : Scope, frame.TemplatesBelow count → (f frame).TemplatesBelow count) :
    (c.modifyInnermost f).TemplatesBelow count :=
  have hall := forall_modifyInnermost h.base h.inner hf
  ⟨hall.1, hall.2⟩

theorem registerTemplate (h : c.TemplatesBelow count) {name : String} {id : TemplateId}
    (hid : id < count) : (c.registerTemplate name id).TemplatesBelow count := by
  refine h.modifyInnermost fun frame hframe => ⟨fun entry hentry => ?_, hframe.cases⟩
  rcases List.mem_cons.mp hentry with rfl | hentry
  · exact hid
  · exact hframe.templates entry hentry

theorem registerTrait (h : c.TemplatesBelow count) {name : String} {body : NodeId} :
    (c.registerTrait name body).TemplatesBelow count :=
  h.modifyInnermost (f := fun s => { s with traits := (name, body) :: s.traits }) fun _ hframe =>
    ⟨hframe.templates, hframe.cases⟩

theorem bindModule (h : c.TemplatesBelow count) {name : String} {b : Binding}
    (hb : ∀ id index, b = .genericCase id index → id < count) :
    (c.bindModule name b).TemplatesBelow count := by
  refine ⟨⟨h.base.templates, fun entry hentry => ?_⟩, h.inner⟩
  rcases List.mem_cons.mp hentry with rfl | hentry
  · exact hb
  · exact h.base.cases entry hentry

theorem mono {count' : Nat} (h : c.TemplatesBelow count) (hle : count ≤ count') :
    c.TemplatesBelow count' := by
  have hframe : ∀ frame : Scope, frame.TemplatesBelow count → frame.TemplatesBelow count' :=
    fun frame hframe => ⟨fun entry hentry => Nat.lt_of_lt_of_le (hframe.templates entry hentry) hle,
      fun entry hentry id index heq =>
        Nat.lt_of_lt_of_le (hframe.cases entry hentry id index heq) hle⟩
  exact ⟨hframe _ h.base, fun frame hmem => hframe frame (h.inner frame hmem)⟩

end ScopeChain.TemplatesBelow

namespace Typing

variable {ctx : TypingContext σ} {s t u : TypingState σ}

/-! ## What each step keeps -/

/-- What holds of every state: expansions are catalogued, what has a name in scope can be written
down, and each expansion has a walk of its own. -/
structure Tidy (s : TypingState σ) : Prop where
  catalogued : Catalogued s.memory
  templates : s.scopes.TemplatesBelow s.templates.length
  types : s.scopes.TypesIn s.pool.Written
  next : 0 < s.table.nextInstance
  walks : ∀ {id index decl e}, expansionAt? s.templates id index = some (decl, e) →
    0 < e.walk ∧ e.walk < s.table.nextInstance
  apart : ∀ {id index decl e id' index' decl' e'},
    expansionAt? s.templates id index = some (decl, e) →
    expansionAt? s.templates id' index' = some (decl', e') → e.walk = e'.walk →
      id = id' ∧ index = index'

/-- What is remembered of expansions, and which of them are queued. -/
abbrev Ledger := Memory × List (TemplateId × Nat)

/-- What is remembered and queued at this point. -/
def ledger (s : TypingState σ) : Ledger :=
  (s.memory, s.pending)

/-- How a stretch of typing changes the ledger: expansions stay, and each new one is queued once. -/
structure Expands (ctx : TypingContext σ) (a b : Ledger) : Prop where
  remembers : Remembers ctx a.1 b.1
  evolves : a.1.1.Evolves b.1.1
  count : b.1.2.length = a.1.2.length
  kept : ∀ {id index x}, expansionAt? a.1.2 id index = some x →
    expansionAt? b.1.2 id index = some x
  queued : ∃ new, b.2 = a.2 ++ new ∧ new.Nodup ∧
    ∀ id index, (id, index) ∈ new ↔
      expansionAt? a.1.2 id index = none ∧ ∃ x, expansionAt? b.1.2 id index = some x

namespace Expands

variable {a b c : Ledger}

theorem refl (ctx : TypingContext σ) (a : Ledger) : Expands ctx a a where
  remembers := .refl
  evolves := .refl _
  count := rfl
  kept h := h
  queued := ⟨[], by simp, .nil, by simp +contextual⟩

theorem trans (h : Expands ctx a b) (h' : Expands ctx b c) : Expands ctx a c where
  remembers := h.remembers.trans h'.remembers
  evolves := h.evolves.trans h'.evolves
  count := h'.count.trans h.count
  kept hx := h'.kept (h.kept hx)
  queued := by
    obtain ⟨new, hb, hnodup, hnew⟩ := h.queued
    obtain ⟨new', hc, hnodup', hnew'⟩ := h'.queued
    refine ⟨new ++ new', by rw [hc, hb, List.append_assoc], ?_, fun id index => ?_⟩
    · -- what is new in the first stretch is not new in the second one
      refine List.nodup_append.mpr ⟨hnodup, hnodup', ?_⟩
      rintro ⟨id, index⟩ hmem _ hmem' rfl
      obtain ⟨-, x, hx⟩ := (hnew id index).mp hmem
      rw [((hnew' id index).mp hmem').1] at hx
      cases hx
    · rw [List.mem_append, hnew, hnew']
      cases hbefore : expansionAt? a.1.2 id index with
      | some x => simp [h.kept hbefore]
      | none =>
          cases hbetween : expansionAt? b.1.2 id index with
          | some x => simp [h'.kept hbetween]
          | none => simp

/-- The pool changes. -/
theorem of_pool {p q : Pool} {templates : List Template} {pending : List (TemplateId × Nat)}
    (h : Catalogued (p, templates)) (hchange : p.Change q) :
    Expands ctx ((p, templates), pending) ((q, templates), pending) :=
  { refl ctx ((p, templates), pending) with
    remembers := .single ⟨.pool hchange, (h.changePool hchange).memoized ctx⟩
    evolves := hchange.evolves }

end Expands

namespace Tidy

/-- The pool changes. -/
theorem changePool (h : Tidy s) (ctx : TypingContext σ) {q : Pool} (hchange : s.pool.Change q) :
    Tidy { s with pool := q } ∧ Expands ctx (ledger s) (ledger { s with pool := q }) :=
  ⟨{ h with
    catalogued := h.catalogued.changePool hchange
    types := h.types.mono fun _ ht => ht.mono hchange.evolves }, .of_pool h.catalogued hchange⟩

/-- A finding is recorded. -/
theorem records (h : Tidy s) {table : TypeTable} (hrecords : s.table.Records s.walk table) :
    Tidy { s with table } :=
  { h with
    next := Nat.lt_of_lt_of_le h.next hrecords.nextInstance_le
    walks := fun he =>
      ⟨(h.walks he).1, Nat.lt_of_lt_of_le (h.walks he).2 hrecords.nextInstance_le⟩ }

/-- A variable is bound. -/
theorem bind (h : Tidy s) (name : String) (r : TypeId) :
    Tidy { s with scopes := s.scopes.bind name (.value r) } := by
  have hrestores : Restores (.body fun _ => True) s
      { s with scopes := s.scopes.bind name (.value r) } := .bind True.intro r s
  exact { h with
    templates := hrestores.scopesKnown_iff.mpr h.templates
    types := h.types.modifyInnermost fun _ hframe => hframe.bind (by simp) }

/-- An instance variable is added to the frame of an expansion. -/
theorem addIvar (h : Tidy s) (name : String) (r : TypeId) :
    Tidy { s with scopes := s.scopes.addIvar name r } :=
  { h with
    templates := (Restores.addIvar 0 _ _ _).scopesKnown_iff.mpr h.templates
    types := h.types.addIvar _ _ }

/-- A frame is opened. -/
theorem push (h : Tidy s) {frame : Scope} (hframe : frame.BindsValues) :
    Tidy { s with scopes := s.scopes.push frame } :=
  { h with
    templates := h.templates.push hframe.templatesBelow
    types := h.types.push hframe.typesIn }

/-- A frame is closed. -/
theorem pop (h : Tidy s) : Tidy { s with scopes := s.scopes.pop } :=
  { h with templates := h.templates.pop, types := h.types.pop }

/-- A tidy state at another site. -/
theorem relocate (h : Tidy t) {site : Site}
    (htemplates : ∀ frame ∈ site.inner, frame.TemplatesBelow t.templates.length)
    (htypes : ∀ frame ∈ site.inner, frame.TypesIn t.pool.Written) : Tidy (t.relocate site) :=
  { h with
    templates := ⟨h.templates.base, htemplates⟩
    types := ⟨h.types.base, htypes⟩ }

/-- What was done elsewhere leaves the state tidy at the site from before. -/
theorem goBack (hs : Tidy s) (h : Tidy t) (hpool : s.pool.Evolves t.pool)
    (hcount : t.templates.length = s.templates.length) : Tidy (t.relocate s.site) := by
  refine h.relocate (fun frame hframe => ?_) fun frame hframe => ?_
  · rw [hcount]
    exact hs.templates.inner frame hframe
  · exact (hs.types.inner frame hframe).mono fun _ ht => ht.mono hpool

end Tidy

/-! ## New expansions -/

section Expansions

variable {id : TemplateId} {template : Template} {name : String} {arg r : TypeId} {p : Pool}

theorem Expanding.change (h : Expanding s id template name arg r p) : s.pool.Change p := by
  rcases h.made with hmade | hmade <;> cases hmade
  · exact .newReference _ name
  · exact .newData _ name

/-- The expansions with the new one. -/
theorem Expanding.expansionAt?_eq (h : Expanding s id template name arg r p)
    (hid : id < s.templates.length) (other index : Nat) :
    expansionAt? (openExpansion s id template name arg r p).templates other index =
      if other = id ∧ index = template.expansions.length then
        some (template.decl, { args := [arg], type := r, walk := s.table.nextInstance })
      else expansionAt? s.templates other index :=
  expansionAt?_openExpansion (h.template_eq hid) other index

/-- There is no expansion with this very argument. -/
theorem Expanding.args_ne (h : Expanding s id template name arg r p) :
    ∀ e ∈ template.expansions, e.args ≠ [arg] := by
  intro e he heq
  have hmissing := h.missing e he
  rw [heq, Pool.sameTypes_singleton.mpr ⟨arg, rfl, Pool.sameType_of_resolve_eq rfl⟩] at hmissing
  cases hmissing

/-- What is remembered after the type was made, and after the expansion was registered. -/
theorem Expanding.catalogued (h : Expanding s id template name arg r p) (hs : Tidy s)
    (hid : id < s.templates.length) (harg : s.pool.Written arg) :
    Catalogued (p, s.templates) ∧
      Catalogued (enterExpansion s id template name arg r p).memory := by
  have hpool := hs.catalogued.changePool h.change
  have hr : p.Written r := .of_nominalName h.type.2.1
  exact ⟨hpool, hpool.addExpansion (h.template_eq hid) (harg.mono h.change.evolves) hr h.args_ne⟩

theorem Expanding.remembers (h : Expanding s id template name arg r p) (hs : Tidy s)
    (hid : id < s.templates.length) (harg : s.pool.Written arg) :
    Remembers ctx s.memory (enterExpansion s id template name arg r p).memory := by
  obtain ⟨hmade, hregistered⟩ := h.catalogued hs hid harg
  have hstep : Memory.Step (p, s.templates) (enterExpansion s id template name arg r p).memory :=
    .expansion (h.template_eq hid) _
  exact .tail (.single ⟨.pool h.change, hmade.memoized ctx⟩) ⟨hstep, hregistered.memoized ctx⟩

theorem Tidy.enterExpansion (hs : Tidy s) (hid : id < s.templates.length)
    (harg : s.pool.Written arg) (h : Expanding s id template name arg r p) :
    Tidy (enterExpansion s id template name arg r p) := by
  have hmono : ∀ t, s.pool.Written t → p.Written t := fun _ ht => ht.mono h.change.evolves
  have hr : p.Written r := .of_nominalName h.type.2.1
  have hat := h.expansionAt?_eq hid
  refine {
    catalogued := (h.catalogued hs hid harg).2
    templates := ScopesKnown.enterExpansion hs.templates
    types := ⟨(hs.types.base.mono hmono).bind fun t ht => ?_, fun frame hframe => ?_⟩
    next := Nat.succ_pos _
    walks := fun {other index decl e} he => ?_
    apart := fun {other index decl e other' index' decl' e'} he he' heq => ?_ }
  · cases ht
    exact hr
  · rw [List.mem_singleton.mp hframe]
    refine Scope.BindsValues.forType.typesIn.bind fun t ht => ?_
    cases ht
    exact hmono arg harg
  · replace he := (hat other index).symm.trans he
    split at he
    · cases he
      exact ⟨hs.next, Nat.lt_succ_self _⟩
    · exact ⟨(hs.walks he).1, Nat.lt_succ_of_lt (hs.walks he).2⟩
  · -- the walk of the new expansion is later than all that were there
    replace he := (hat other index).symm.trans he
    replace he' := (hat other' index').symm.trans he'
    split at he <;> split at he'
    · next hi hi' => exact ⟨hi.1.trans hi'.1.symm, hi.2.trans hi'.2.symm⟩
    · cases he
      exact absurd heq (Nat.ne_of_gt (hs.walks he').2)
    · cases he'
      exact absurd heq (Nat.ne_of_lt (hs.walks he).2)
    · exact hs.apart he he' heq

/-- The whole of an expansion: it is registered, its members are declared, and it is queued. -/
theorem Expands.of_expansion (hs : Tidy s) (hid : id < s.templates.length)
    (harg : s.pool.Written arg) (hnew : Expanding s id template name arg r p)
    (h : Expands ctx (ledger (enterExpansion s id template name arg r p)) (ledger t)) :
    Expands ctx (ledger s) (ledger (leaveExpansion s id template t)) := by
  obtain ⟨hbefore, hafter⟩ := hnew.recorded hid
  have hat := hnew.expansionAt?_eq hid
  have hrecorded := h.kept hafter
  refine {
    remembers := (hnew.remembers hs hid harg).trans h.remembers
    evolves := hnew.change.evolves.trans h.evolves
    count := h.count.trans List.length_set
    kept := fun hx => h.kept (hnew.expansions hx)
    queued := ?_ }
  obtain ⟨new, hpending, hnodup, hmem⟩ := h.queued
  refine ⟨new ++ [(id, template.expansions.length)], ?_, ?_, fun other index => ?_⟩
  · show t.pending ++ _ = s.pending ++ _
    rw [← List.append_assoc]
    exact congrArg (· ++ _) hpending
  · refine List.nodup_append.mpr ⟨hnodup, List.nodup_singleton _, ?_⟩
    rintro x hx _ hx' rfl
    rw [List.mem_singleton.mp hx'] at hx
    exact absurd (((hmem _ _).mp hx).1.symm.trans hafter) (by simp)
  · rw [List.mem_append, hmem, List.mem_singleton, Prod.mk.injEq]
    show (expansionAt? (openExpansion s id template name arg r p).templates other index = none ∧ _) ∨
      _ ↔ _
    rw [hat]
    by_cases hsame : other = id ∧ index = template.expansions.length
    · obtain ⟨rfl, rfl⟩ := hsame
      simpa using ⟨hbefore, _, _, hrecorded⟩
    · simp only [hsame, if_false, or_false]
      rfl

end Expansions

/-- The rules of a walk on which expansions are made once and each new one is queued once. -/
def memoizing (ctx : TypingContext σ) : WalkRules ctx where
  inv _ := Tidy
  le _ s t := Expands ctx (ledger s) (ledger t)
  fails _ s t := Remembers ctx s.memory t.memory
  denoted r s := s.pool.Written r
  known id s := id < s.templates.length
  filling _ _ _ _ _ := True
  follows := False
  followed := False.elim
  strict := False
  guarantees := False.elim
  follows_of_strict := id
  refl _ s := .refl ctx (ledger s)
  trans := .trans
  fails_refl _ _ := .refl
  fails_trans h h' := h.remembers.trans h'
  denoted_mono _ hle hr := hr.mono hle.evolves
  known_mono _ hle hid := Nat.lt_of_lt_of_eq hid hle.count.symm
  types hs := ⟨hs, fun _ ht hle => ⟨ht, hle⟩, fun _ h => h⟩
  pool hs hpool _ := hs.changePool ctx hpool.change
  case hs _ _ _ hadded :=
    have hpool := hs.changePool ctx (.addCase hadded)
    ⟨hpool.1, hpool.2, True.intro⟩
  filling_body _ _ _ := True.intro
  filling_mono _ _ _ := True.intro
  table hs hrecords _ _ := ⟨hs.records hrecords, .refl ctx _⟩
  target _ _ _ _ hs _ := ⟨hs.records (.target _ _), .refl ctx _⟩
  value hs _ := ⟨hs.bind _ _, .refl ctx _⟩
  ivar hs := ⟨hs.addIvar _ _, .refl ctx _⟩
  frame hs hframe _ := ⟨hs.push hframe, fun _ ht hle => ⟨ht.pop, hle⟩, fun _ h => h⟩
  walk hs _ _ := ⟨{ hs with }, fun t ht hle => ⟨{ ht with }, hle⟩, fun t h => h⟩
  result hs := ⟨{ hs with }, fun t ht hle => ⟨{ ht with }, hle⟩, fun t h => h⟩
  expansion_enters hs hid harg hnew :=
    ⟨hs.enterExpansion hid harg hnew, fun _ _ _ _ _ => True.intro⟩
  expansion_leaves {l s id template name arg r p t} hs hid harg hnew ht hle _ _ := by
    have hexpands := Expands.of_expansion hs hid harg hnew hle
    have hback := hs.goBack ht hexpands.evolves hexpands.count
    have hr : p.Written r := .of_nominalName hnew.type.2.1
    exact ⟨{ hback with }, hexpands, hr.mono hle.evolves⟩
  expansion_breaks hs hid harg hnew h := (hnew.remembers hs hid harg).trans h
  denoted_name hs hlookup := (hs.types.lookup hlookup).elim id
    (Pool.Written.builtin hs.catalogued.builtins)
  denoted_pointer hs htarget := htarget.pointer hs.catalogued.indexed
  denoted_closure hs hparams hresult := .closure hs.catalogued.indexed hparams hresult
  denoted_case _ hadded := .addCase hadded
  denoted_expansion hs he := by
    obtain ⟨index, hat⟩ := List.mem_iff_getElem?.mp he
    obtain ⟨_, -, -, htype⟩ := hs.catalogued.written (expansionAt?_eq_some_iff.2 ⟨rfl, hat⟩)
    exact htype
  known_template hs hfound := hs.templates.findTemplate_lt hfound
  known_case hs hlookup := hs.templates.lookup_lt hlookup

end Typing

end ClassLang
