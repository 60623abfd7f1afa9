import ClassLang.Proofs.Typing.WalkedBodies

/-!
# A walk restores its context

Typing a node enters other walks, sets other declared results and opens frames, and on the way it may
expand generic types, which is done in isolation. Whether it succeeds or fails, all of this is undone
when it returns: the walk and the declared result are those from before, the frames below the
innermost one are unchanged, the innermost one has only got the variables that `var` statements in
it declare, and the module's frame has only got the names of expansions made meanwhile.
-/

namespace ClassLang

/-- The templates that the frame mentions are among the first `count`. -/
structure Scope.TemplatesBelow (count : Nat) (frame : Scope) : Prop where
  templates : ∀ entry ∈ frame.templates, entry.2 < count
  cases : ∀ entry ∈ frame.names, ∀ id index, entry.2 = .genericCase id index → id < count

namespace Scope

variable {count : Nat} {frame : Scope}

theorem BindsValues.templatesBelow (h : frame.BindsValues) : frame.TemplatesBelow count where
  templates := by simp [h.templates]
  cases entry hentry id index heq := by
    obtain ⟨t, ht⟩ := h.names entry hentry
    rw [ht] at heq
    cases heq

/-- Names that are no cases of generic types make no difference. -/
theorem templatesBelow_append_iff (new : List (String × Binding))
    (hnew : ∀ b ∈ new, ∀ id index, b.2 ≠ .genericCase id index) :
    ({ frame with names := new ++ frame.names } : Scope).TemplatesBelow count ↔
      frame.TemplatesBelow count := by
  constructor
  · exact fun h => ⟨h.templates, fun entry hentry =>
      h.cases entry (List.mem_append_right _ hentry)⟩
  · refine fun h => ⟨h.templates, fun entry hentry id index heq => ?_⟩
    rcases List.mem_append.mp hentry with hentry | hentry
    · exact absurd heq (hnew entry hentry id index)
    · exact h.cases entry hentry id index heq

theorem TemplatesBelow.bind (h : frame.TemplatesBelow count) {name : String} {b : Binding}
    (hb : ∀ id index, b ≠ .genericCase id index) : (frame.bind name b).TemplatesBelow count :=
  (templatesBelow_append_iff [(name, b)] (by simpa using hb)).mpr h

end Scope

/-- The templates that the frames mention are among the first `count`. -/
structure ScopeChain.TemplatesBelow (count : Nat) (c : ScopeChain) : Prop where
  base : c.base.TemplatesBelow count
  inner : ∀ frame ∈ c.inner, frame.TemplatesBelow count

namespace ScopeChain.TemplatesBelow

variable {count : Nat} {c : ScopeChain} {name : String} {id : TemplateId}

theorem frames (h : c.TemplatesBelow count) : ∀ frame ∈ c.frames, frame.TemplatesBelow count := by
  intro frame hframe
  rcases List.mem_append.mp hframe with hframe | hframe
  · exact h.inner frame hframe
  · rw [List.mem_singleton.mp hframe]
    exact h.base

theorem findTemplate_lt (h : c.TemplatesBelow count) (hid : c.findTemplate name = some id) :
    id < count := by
  obtain ⟨frame, hframe, hlookup⟩ := List.exists_of_findSome?_eq_some hid
  exact (h.frames frame hframe).templates _ (mem_of_lookup_eq_some hlookup)

theorem lookup_lt (h : c.TemplatesBelow count) {index : Nat}
    (hid : c.lookup name = some (.genericCase id index)) : id < count := by
  unfold ScopeChain.lookup at hid
  rw [Option.or_eq_some_iff] at hid
  rcases hid with hid | ⟨-, hid⟩
  · obtain ⟨frame, hframe, hlookup⟩ := List.exists_of_findSome?_eq_some hid
    exact (h.frames frame hframe).cases _ (mem_of_lookup_eq_some hlookup) id index rfl
  · obtain ⟨t, -, ht⟩ := Option.map_eq_some_iff.1 hid
    cases ht

end ScopeChain.TemplatesBelow

/-- All templates in scope are those of the module. -/
def TypingState.ScopesKnown {σ : Type} (s : TypingState σ) : Prop :=
  s.scopes.TemplatesBelow s.templates.length

namespace Typing

variable {σ : Type} {s t u : TypingState σ}

/-! ## Bindings -/

/-- A type that was made meanwhile, under its symbol: it is that of an expansion, if all templates
in scope are those of the module. -/
def ExpansionBinding (s t : TypingState σ) (b : String × Binding) : Prop :=
  ∃ r, b.2 = .type r ∧ s.pool.size ≤ r ∧ (t.pool.data r).nominalName? = some b.1 ∧
    (s.ScopesKnown → ∃ id index decl e, expansionAt? s.templates id index = none ∧
      expansionAt? t.templates id index = some (decl, e) ∧ e.type = r)

/-- A variable with one of the names that the licence allows. -/
def Licence.Allows : Licence → String × Binding → Prop
  | .body names, b => names b.1 ∧ ∃ r, b.2 = .value r
  | _, _ => False

theorem Licence.Allows.not_case {l : Licence} {b : String × Binding} (h : l.Allows b) (id index) :
    b.2 ≠ .genericCase id index := by
  cases l with
  | body names =>
      obtain ⟨-, r, hr⟩ := h
      simp [hr]
  | members => exact h.elim
  | types => exact h.elim

/-- The frames above the module's frame are the same, but for allowed variables in the innermost
one. -/
inductive InnerRestored (l : Licence) : List Scope → List Scope → Prop
  | none : InnerRestored l [] []
  | some {frame : Scope} {rest : List Scope} (vars : List (String × Binding))
      (h : ∀ b ∈ vars, l.Allows b) :
      InnerRestored l (frame :: rest) ({ frame with names := vars ++ frame.names } :: rest)

namespace InnerRestored

variable {l : Licence} {before after later : List Scope}

theorem refl (frames : List Scope) : InnerRestored l frames frames := by
  cases frames with
  | nil => exact .none
  | cons frame rest => exact .some [] (by simp)

theorem trans (h : InnerRestored l before after) (h' : InnerRestored l after later) :
    InnerRestored l before later := by
  cases h with
  | none => exact h'
  | some vars hvars =>
      cases h' with
      | some vars' hvars' =>
          rw [← List.append_assoc]
          refine .some (vars' ++ vars) fun b hb => ?_
          exact (List.mem_append.mp hb).elim (hvars' b) (hvars b)

theorem eq_nil_iff (h : InnerRestored l before after) : after = [] ↔ before = [] := by
  cases h <;> simp

theorem length_eq (h : InnerRestored l before after) : after.length = before.length := by
  cases h <;> rfl

theorem tail_eq (h : InnerRestored l before after) : after.tail = before.tail := by
  cases h <;> rfl

end InnerRestored

/-! ## Stretches of typing -/

/-- What a stretch of typing does to its context. In the frame in which an expansion is declared
anything may happen, as it is thrown away. -/
structure Restores (l : Licence) (s t : TypingState σ) : Prop where
  walk : t.walk = s.walk
  returnType : t.returnType = s.returnType
  evolves : s.pool.Evolves t.pool
  count : t.templates.length = s.templates.length
  expansions : ∀ id index x, expansionAt? s.templates id index = some x →
    expansionAt? t.templates id index = some x
  /-- The templates that the frames above the module's frame mention stay the same. -/
  mentions : ∀ count, (∀ frame ∈ t.scopes.inner, frame.TemplatesBelow count) ↔
    ∀ frame ∈ s.scopes.inner, frame.TemplatesBelow count
  inner : InnerRestored l s.scopes.inner t.scopes.inner ∨
    (∃ owner, l = .members owner) ∧ (t.scopes.inner = [] ↔ s.scopes.inner = [])
  base : ∃ new, t.scopes.base = { s.scopes.base with names := new ++ s.scopes.base.names } ∧
    ∀ b ∈ new, ExpansionBinding s t b ∨ s.scopes.inner = [] ∧ l.Allows b

namespace Restores

variable {l : Licence}

theorem refl (l : Licence) (s : TypingState σ) : Restores l s s where
  walk := rfl
  returnType := rfl
  evolves := .refl _
  count := rfl
  expansions _ _ _ h := h
  mentions _ := Iff.rfl
  inner := .inl (.refl _)
  base := ⟨[], rfl, by simp⟩

theorem inner_eq_nil_iff (h : Restores l s t) : t.scopes.inner = [] ↔ s.scopes.inner = [] :=
  h.inner.elim (·.eq_nil_iff) (·.2)

/-- No template comes into scope, and none goes out of it. -/
theorem scopesKnown_iff (h : Restores l s t) : t.ScopesKnown ↔ s.ScopesKnown := by
  obtain ⟨new, hbase, hnew⟩ := h.base
  have hnames : ∀ b ∈ new, ∀ id index, b.2 ≠ .genericCase id index := by
    intro b hb id index
    rcases hnew b hb with ⟨r, hr, -⟩ | ⟨-, hallowed⟩
    · simp [hr]
    · exact hallowed.not_case id index
  have hframe : ∀ count, t.scopes.base.TemplatesBelow count ↔
      s.scopes.base.TemplatesBelow count := by
    intro count
    rw [hbase]
    exact Scope.templatesBelow_append_iff new hnames
  constructor <;> intro hknown
  · exact ⟨h.count ▸ (hframe _).mp hknown.base, h.count ▸ (h.mentions _).mp hknown.inner⟩
  · refine ⟨?_, ?_⟩ <;> rw [h.count]
    · exact (hframe _).mpr hknown.base
    · exact (h.mentions _).mpr hknown.inner

end Restores

namespace ExpansionBinding

variable {l : Licence} {b : String × Binding}

/-- What was bound meanwhile stays bound to the type of an expansion. -/
theorem later (h : ExpansionBinding s t b) (hle : Restores l t u) : ExpansionBinding s u b := by
  obtain ⟨r, hb, hsize, hname, hrecorded⟩ := h
  refine ⟨r, hb, hsize, hle.evolves.nominalName? hname, fun hknown => ?_⟩
  obtain ⟨id, index, decl, e, hbefore, hafter, he⟩ := hrecorded hknown
  exact ⟨id, index, decl, e, hbefore, hle.expansions _ _ _ hafter, he⟩

/-- What was bound since then was bound since an earlier state. -/
theorem earlier (h : ExpansionBinding t u b) (hle : Restores l s t) : ExpansionBinding s u b := by
  obtain ⟨r, hb, hsize, hname, hrecorded⟩ := h
  refine ⟨r, hb, Nat.le_trans hle.evolves.size_le hsize, hname, fun hknown => ?_⟩
  obtain ⟨id, index, decl, e, hbefore, hafter, he⟩ := hrecorded (hle.scopesKnown_iff.mpr hknown)
  refine ⟨id, index, decl, e, ?_, hafter, he⟩
  cases hold : expansionAt? s.templates id index with
  | none => rfl
  | some x =>
      rw [hle.expansions _ _ _ hold] at hbefore
      cases hbefore

end ExpansionBinding

namespace Restores

variable {l : Licence}

theorem trans (h : Restores l s t) (h' : Restores l t u) : Restores l s u where
  walk := h'.walk.trans h.walk
  returnType := h'.returnType.trans h.returnType
  evolves := h.evolves.trans h'.evolves
  count := h'.count.trans h.count
  expansions id index x hx := h'.expansions id index x (h.expansions id index x hx)
  mentions count := (h'.mentions count).trans (h.mentions count)
  inner := by
    have hnil := h'.inner_eq_nil_iff.trans h.inner_eq_nil_iff
    rcases h.inner with hinner | ⟨hl, -⟩
    · exact h'.inner.imp hinner.trans fun hl => ⟨hl.1, hnil⟩
    · exact .inr ⟨hl, hnil⟩
  base := by
    obtain ⟨new, hbase, hnew⟩ := h.base
    obtain ⟨new', hbase', hnew'⟩ := h'.base
    refine ⟨new' ++ new, by rw [hbase', hbase, List.append_assoc], fun b hb => ?_⟩
    rcases List.mem_append.mp hb with hb | hb
    · exact (hnew' b hb).imp (·.earlier h) fun hvar => ⟨h.inner_eq_nil_iff.mp hvar.1, hvar.2⟩
    · exact (hnew b hb).imp_left (·.later h')

/-- A step that leaves the context alone. -/
theorem of_same (hscopes : t.scopes = s.scopes) (htemplates : t.templates = s.templates)
    (hpool : s.pool.Evolves t.pool) (hwalk : t.walk = s.walk)
    (hresult : t.returnType = s.returnType) : Restores l s t where
  walk := hwalk
  returnType := hresult
  evolves := hpool
  count := by rw [htemplates]
  expansions _ _ _ h := by rwa [htemplates]
  mentions _ := by rw [hscopes]
  inner := .inl (by rw [hscopes]; exact .refl _)
  base := ⟨[], by rw [hscopes]; rfl, by simp⟩

/-- A variable is bound in the innermost frame, which may be that of the module. -/
theorem bind {names : String → Prop} {name : String} (hname : names name) (r : TypeId)
    (s : TypingState σ) :
    Restores (.body names) s { s with scopes := s.scopes.bind name (.value r) } := by
  have hallowed : Licence.Allows (.body names) (name, .value r) := ⟨hname, r, rfl⟩
  unfold ScopeChain.bind ScopeChain.modifyInnermost
  cases hinner : s.scopes.inner with
  | nil =>
      refine { refl (.body names) s with
        mentions := fun _ => by rw [hinner]
        inner := .inl (by rw [hinner]; exact .none)
        base := ⟨[(name, .value r)], rfl, fun b hb => .inr ⟨hinner, ?_⟩⟩ }
      rw [List.mem_singleton.mp hb]
      exact hallowed
  | cons frame rest =>
      have hframe : InnerRestored (.body names) (frame :: rest) (frame.bind name (.value r) :: rest) :=
        .some [(name, .value r)] (by simpa using hallowed)
      refine { refl (.body names) s with
        mentions := fun count => ?_
        inner := .inl (by rw [hinner]; exact hframe) }
      have hsame : (frame.bind name (.value r)).TemplatesBelow count ↔
          frame.TemplatesBelow count :=
        Scope.templatesBelow_append_iff [(name, .value r)] (by simp)
      simp [hinner, hsame]

end Restores

/-- Adding an instance variable neither adds nor removes frames, and leaves alone what does not depend
on instance variables. -/
theorem forall_addIvarIn_iff (name : String) (r : TypeId) (frames : List Scope) {P : Scope → Prop}
    (hP : ∀ frame : Scope, P { frame with ivars := (name, r) :: frame.ivars } ↔ P frame) :
    (∀ frame ∈ ScopeChain.addIvarIn name r frames, P frame) ↔ ∀ frame ∈ frames, P frame := by
  induction frames with
  | nil => rfl
  | cons frame rest ih =>
      unfold ScopeChain.addIvarIn
      split
      · simp [hP]
      · simp [ih]

theorem addIvarIn_eq_nil_iff (name : String) (r : TypeId) (frames : List Scope) :
    ScopeChain.addIvarIn name r frames = [] ↔ frames = [] := by
  cases frames with
  | nil => rfl
  | cons frame rest =>
      unfold ScopeChain.addIvarIn
      split <;> simp

namespace Restores

variable {l : Licence}

theorem addIvar (owner : TypeId) (name : String) (r : TypeId) (s : TypingState σ) :
    Restores (.members owner) s { s with scopes := s.scopes.addIvar name r } :=
  { refl _ s with
    mentions := fun _ => forall_addIvarIn_iff name r s.scopes.inner fun _ =>
      ⟨fun h => ⟨h.templates, h.cases⟩, fun h => ⟨h.templates, h.cases⟩⟩
    inner := .inr ⟨⟨owner, rfl⟩, addIvarIn_eq_nil_iff name r s.scopes.inner⟩ }

/-- Where a type expression is read, only expansions get names. -/
theorem of_types (h : Restores .types s t) : Restores l s t where
  walk := h.walk
  returnType := h.returnType
  evolves := h.evolves
  count := h.count
  expansions := h.expansions
  mentions := h.mentions
  inner := by
    have hinner := h.inner.resolve_right fun ⟨⟨_, heq⟩, _⟩ => by cases heq
    generalize s.scopes.inner = before at hinner
    generalize t.scopes.inner = after at hinner
    cases hinner with
    | none => exact .inl .none
    | some vars hvars => exact .inl (.some vars fun b hb => (hvars b hb).elim)
  base := by
    obtain ⟨new, hbase, hnew⟩ := h.base
    exact ⟨new, hbase, fun b hb => (hnew b hb).imp_right fun hb => hb.2.elim⟩

/-- A stretch in another walk, which is left again. -/
theorem of_walk {walk : InstanceId} (h : Restores l { s with walk } t) :
    Restores l s { t with walk := s.walk } :=
  { h with walk := rfl }

/-- A stretch under another declared result, which is put back. -/
theorem of_result {returnType : Option TypeId} (h : Restores l { s with returnType } t) :
    Restores l s { t with returnType := s.returnType } :=
  { h with returnType := rfl }

/-- A stretch in a frame of its own. -/
theorem of_frame {frame : Scope} (hframe : frame.BindsValues)
    (h : Restores .any { s with scopes := s.scopes.push frame } t) :
    Restores l s { t with scopes := t.scopes.pop } := by
  have henter : s.ScopesKnown →
      TypingState.ScopesKnown { s with scopes := s.scopes.push frame } := by
    intro hknown
    refine ⟨hknown.base, fun f hf => ?_⟩
    rcases List.mem_cons.mp hf with rfl | hf
    · exact hframe.templatesBelow
    · exact hknown.inner f hf
  have htail : t.scopes.inner.tail = s.scopes.inner := by
    rcases h.inner with hinner | ⟨⟨_, hl⟩, -⟩
    · exact hinner.tail_eq
    · cases hl
  refine {
    walk := h.walk
    returnType := h.returnType
    evolves := h.evolves
    count := h.count
    expansions := h.expansions
    mentions := fun _ => by rw [← htail]; rfl
    inner := .inl ?_
    base := ?_ }
  · show InnerRestored l s.scopes.inner t.scopes.inner.tail
    rw [htail]
    exact .refl _
  · obtain ⟨new, hbase, hnew⟩ := h.base
    refine ⟨new, hbase, fun b hb => .inl ?_⟩
    rcases hnew b hb with ⟨r, hr, hsize, hname, hrecorded⟩ | ⟨hnil, -⟩
    · exact ⟨r, hr, hsize, hname, fun hknown => hrecorded (henter hknown)⟩
    · cases hnil

end Restores

/-! ## Expansions -/

section Expansions

variable {id : TemplateId} {template : Template} {name : String} {arg r : TypeId} {p : Pool}

/-- The type of a new expansion is the next one of the pool, under the name of the expansion. -/
theorem Expanding.type (h : Expanding s id template name arg r p) :
    r = s.pool.size ∧ (p.data r).nominalName? = some name ∧ s.pool.Evolves p := by
  rcases h.made with hmade | hmade <;> cases hmade
  · have hdata := Pool.data_push_self s.pool (.reference name [] [])
    exact ⟨rfl, congrArg TypeData.nominalName? hdata, (Pool.Change.newReference _ name).evolves⟩
  · have hdata := Pool.data_push_self s.pool (.data name [] [])
    exact ⟨rfl, congrArg TypeData.nominalName? hdata, (Pool.Change.newData _ name).evolves⟩

/-- A template in scope is one of the module. -/
theorem Expanding.template_eq (h : Expanding s id template name arg r p)
    (hid : id < s.templates.length) : s.templates[id]? = some template := by
  rw [← h.found, List.getD_eq_getElem?_getD, List.getElem?_eq_getElem hid]
  rfl

/-- Registering an expansion keeps those that were there. -/
theorem Expanding.expansions (h : Expanding s id template name arg r p) {other index : Nat}
    {x : NodeId × Expansion} (hx : expansionAt? s.templates other index = some x) :
    expansionAt? (openExpansion s id template name arg r p).templates other index = some x := by
  cases hid : s.templates[id]? with
  | none =>
      -- a template that does not exist gets no expansion
      have hset : (openExpansion s id template name arg r p).templates = s.templates :=
        List.set_eq_of_length_le (List.getElem?_eq_none_iff.mp hid)
      rwa [hset]
  | some found =>
      obtain rfl : found = template := by simpa [List.getD, hid] using h.found
      rw [expansionAt?_openExpansion hid, if_neg]
      · exact hx
      · rintro ⟨rfl, rfl⟩
        simp [expansionAt?, hid] at hx

/-- A new expansion of a template that exists is recorded after those that were there. -/
theorem Expanding.recorded (h : Expanding s id template name arg r p)
    (hid : id < s.templates.length) :
    expansionAt? s.templates id template.expansions.length = none ∧
      expansionAt? (openExpansion s id template name arg r p).templates id
        template.expansions.length =
          some (template.decl, { args := [arg], type := r, walk := s.table.nextInstance }) := by
  have hfound := h.template_eq hid
  rw [expansionAt?_openExpansion hfound, if_pos ⟨rfl, rfl⟩]
  exact ⟨by simp [expansionAt?, hfound], rfl⟩

/-- The type parameter stands for a type, so no template comes into scope with it. -/
theorem ScopesKnown.enterExpansion (h : s.ScopesKnown) :
    (enterExpansion s id template name arg r p).ScopesKnown := by
  have hcount : (Typing.enterExpansion s id template name arg r p).templates.length =
      s.templates.length := List.length_set
  refine ⟨?_, fun frame hframe => ?_⟩
  · rw [hcount]
    exact h.base.bind (by simp)
  · rw [List.mem_singleton.mp hframe]
    exact Scope.BindsValues.forType.templatesBelow.bind (by simp)

/-- A stretch in which the members of an expansion are declared: what it leaves behind in the context
is the name of the expansion and of those that it made in turn. -/
theorem Restores.of_expansion {l : Licence} {pending : List (TemplateId × Nat)}
    (hknown : s.ScopesKnown → id < s.templates.length)
    (hnew : Expanding s id template name arg r p)
    (h : Restores (.members r) (enterExpansion s id template name arg r p) t) :
    Restores l s { t.relocate s.site with pending } := by
  obtain ⟨hr, hname, hevolves⟩ := hnew.type
  have hcount : (enterExpansion s id template name arg r p).templates.length =
      s.templates.length := List.length_set
  refine {
    walk := rfl
    returnType := rfl
    evolves := hevolves.trans h.evolves
    count := h.count.trans hcount
    expansions := fun other index x hx => h.expansions other index x (hnew.expansions hx)
    mentions := fun _ => Iff.rfl
    inner := .inl (.refl _)
    base := ?_ }
  obtain ⟨new, hbase, hmade⟩ := h.base
  refine ⟨new ++ [(name, .type r)], ?_, fun b hb => .inl ?_⟩
  · show t.scopes.base = _
    rw [hbase, List.append_assoc]
    rfl
  rcases List.mem_append.mp hb with hb | hb
  · -- an expansion that was made while the members were declared is not one of those before
    rcases hmade b hb with ⟨r', hr', hsize, hname', hrecorded⟩ | ⟨hnil, -⟩
    · refine ⟨r', hr', Nat.le_trans hevolves.size_le hsize, hname', fun hs => ?_⟩
      obtain ⟨id', index, decl, e, hbefore, hafter, he⟩ := hrecorded (ScopesKnown.enterExpansion hs)
      refine ⟨id', index, decl, e, Option.eq_none_iff_forall_ne_some.mpr fun x hx => ?_, hafter, he⟩
      exact absurd (hbefore.symm.trans (hnew.expansions hx)) (by simp)
    · cases hnil
  · rw [List.mem_singleton.mp hb]
    refine ⟨r, rfl, Nat.le_of_eq hr.symm, h.evolves.nominalName? hname, fun hs => ?_⟩
    obtain ⟨hbefore, hafter⟩ := hnew.recorded (hknown hs)
    exact ⟨id, _, _, _, hbefore, h.expansions _ _ _ hafter, rfl⟩

end Expansions

/-! ## Typing a node -/

/-- The rules of a walk that restores its context, whether it succeeds or fails. -/
def restoring (ctx : TypingContext σ) : WalkRules ctx where
  inv _ _ := True
  le := Restores
  fails := Restores
  denoted _ _ := True
  known id s := s.ScopesKnown → id < s.templates.length
  filling _ _ _ _ _ := True
  follows := False
  followed := False.elim
  strict := False
  guarantees := False.elim
  follows_of_strict := id
  refl := .refl
  trans := .trans
  fails_refl := .refl
  fails_trans := .trans
  denoted_mono _ _ _ := True.intro
  known_mono _ hle hid hknown := hle.count ▸ hid (hle.scopesKnown_iff.mp hknown)
  types _ := ⟨True.intro, fun _ _ h => ⟨True.intro, h.of_types⟩, fun _ h => h.of_types⟩
  pool _ hpool _ := ⟨True.intro, .of_same rfl rfl hpool.change.evolves rfl rfl⟩
  case _ _ _ _ hadded :=
    ⟨True.intro, .of_same rfl rfl (Pool.Change.addCase hadded).evolves rfl rfl, True.intro⟩
  filling_body _ _ _ := True.intro
  filling_mono _ _ _ := True.intro
  table _ _ _ _ := ⟨True.intro, .of_same rfl rfl (.refl _) rfl rfl⟩
  target _ _ _ _ _ _ := ⟨True.intro, .of_same rfl rfl (.refl _) rfl rfl⟩
  value _ hname := ⟨True.intro, .bind hname _ _⟩
  ivar _ := ⟨True.intro, .addIvar _ _ _ _⟩
  frame _ hframe _ := ⟨True.intro, fun _ _ h => ⟨True.intro, h.of_frame hframe⟩,
    fun _ h => h.of_frame hframe⟩
  walk _ _ _ := ⟨True.intro, fun _ _ h => ⟨True.intro, h.of_walk⟩, fun _ h => h.of_walk⟩
  result _ := ⟨True.intro, fun _ _ h => ⟨True.intro, h.of_result⟩, fun _ h => h.of_result⟩
  expansion_enters _ _ _ _ := ⟨True.intro, fun _ _ _ _ _ => True.intro⟩
  expansion_leaves _ hknown _ hnew _ h _ _ := ⟨True.intro, h.of_expansion hknown hnew, True.intro⟩
  expansion_breaks _ hknown _ hnew h := h.of_expansion hknown hnew
  denoted_name _ _ := True.intro
  denoted_pointer _ _ := True.intro
  denoted_closure _ _ _ := True.intro
  denoted_case _ _ := True.intro
  denoted_expansion _ _ := True.intro
  known_template _ hid hknown := hknown.findTemplate_lt hid
  known_case _ hid hknown := hknown.lookup_lt hid

/-- A variable that a `var` statement in the frame of the node declares. -/
def VarBinding (tree : SyntaxTree) (node : NodeId) (b : String × Binding) : Prop :=
  tree.DeclaresVar b.1 node ∧ ∃ r, b.2 = .value r

/-- What typing a node leaves behind of its context. -/
structure ContextRestored (tree : SyntaxTree) (node : NodeId) (s t : TypingState σ) : Prop where
  walk : t.walk = s.walk
  returnType : t.returnType = s.returnType
  depth : t.scopes.depth = s.scopes.depth
  /-- The frames between the module's frame and the innermost one are unchanged. -/
  between : t.scopes.inner.tail = s.scopes.inner.tail
  /-- An innermost frame other than the module's one has only got variables of the same body. -/
  innermost : ∀ frame, s.scopes.inner.head? = some frame →
    ∃ vars, t.scopes.inner.head? = some { frame with names := vars ++ frame.names } ∧
      ∀ b ∈ vars, VarBinding tree node b
  /-- The module's frame has only got expansions made meanwhile, and where it is the innermost frame
  also variables of the same body. -/
  module : ∃ new, t.scopes.base = { s.scopes.base with names := new ++ s.scopes.base.names } ∧
    ∀ b ∈ new, ExpansionBinding s t b ∨ s.scopes.inner = [] ∧ VarBinding tree node b

/-- Typing a node restores its context, whether it succeeds or fails: the walk and the declared
result are as before, and of the frames only the innermost one and the module's one have got names,
those of variables declared in this body and of expansions made meanwhile. -/
theorem infer_restores_context (ctx : TypingContext σ) (fuel : Nat) (node : NodeId)
    (s : TypingState σ) :
    ContextRestored ctx.tree node s (finalState (inferWithin ctx fuel node s)) := by
  have hwalk : (restoring ctx).Keeps (.body fun name => ctx.tree.DeclaresVar name node)
      (inferWithin ctx fuel node) :=
    WalkRules.inferWithin_keeps fuel node False.elim (fun _ h => h) True.intro
  have hkeeps := hwalk s True.intro
  have hrestores : Restores (.body fun name => ctx.tree.DeclaresVar name node) s
      (finalState (inferWithin ctx fuel node s)) := by
    cases hrun : inferWithin ctx fuel node s with
    | ok r t => exact (hkeeps.ok hrun).2.1
    | error e t => exact (hkeeps.error hrun).1
  have hinner := hrestores.inner.resolve_right fun ⟨⟨_, h⟩, _⟩ => by cases h
  refine {
    walk := hrestores.walk
    returnType := hrestores.returnType
    depth := congrArg (· + 1) hinner.length_eq
    between := hinner.tail_eq
    innermost := fun frame hframe => ?_
    module := hrestores.base }
  generalize s.scopes.inner = before at hinner hframe
  generalize (finalState (inferWithin ctx fuel node s)).scopes.inner = after at hinner ⊢
  cases hinner with
  | none => cases hframe
  | some vars hvars =>
      cases hframe
      exact ⟨vars, rfl, hvars⟩

end Typing

end ClassLang
