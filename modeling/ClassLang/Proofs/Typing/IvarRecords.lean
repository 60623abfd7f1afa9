import ClassLang.Proofs.Typing.Layouts
import ClassLang.Proofs.Typing.WalkNumbers

/-!
# What is recorded for instance variables

While the code below a node is typed, an instance variable gets the type that its name is bound to in
the frames of the code. Frames of types are opened by declarations only, and inside of code there are
none; so this is the type that the name was bound to from the start. Expansions are made meanwhile,
each laid out before it is queued, and layouts that are there do not change.

The rules of a walk that say so are `watching`.
-/

namespace ClassLang

/-- The type parameter of a generic declaration. -/
def Node.typeParam? : Node → Option String
  | classDef _ param _ => param
  | dataDef _ param _ _ => param
  | _ => none

/-- Lookups of instance variables depend on the instance variables of the frames only. -/
theorem ScopeChain.lookupIvar_congr {c d : ScopeChain}
    (hinner : d.inner.map (·.ivars) = c.inner.map (·.ivars)) (hbase : d.base.ivars = c.base.ivars) :
    d.lookupIvar = c.lookupIvar := by
  funext name
  have hlookup (c : ScopeChain) : c.lookupIvar name =
      ((c.inner.map (·.ivars)) ++ [c.base.ivars]).findSome? fun ivars => ivars.lookup name := by
    simp [lookupIvar, frames, List.findSome?_append, List.findSome?_map, Function.comp_def]
  rw [hlookup, hlookup, hinner, hbase]

/-- Types are only ever added, or recorded anew. -/
theorem TypeTable.Records.get?_isSome {walk : InstanceId} {table after : TypeTable}
    (h : table.Records walk after) {v : Visit} (hv : (table.get? v).isSome) :
    (after.get? v).isSome := by
  cases h with
  | type node r => rw [TypeTable.get?_record]; split <;> simp_all
  | _ => exact hv

namespace Typing

variable {σ : Type} {ctx : TypingContext σ} {s t u : TypingState σ} {l : Licence}

/-- What names of instance variables are bound to stays the same. -/
theorem Restores.lookupIvar_eq (h : Restores l s t) (hl : ∀ owner, l ≠ .members owner) :
    t.scopes.lookupIvar = s.scopes.lookupIvar := by
  refine ScopeChain.lookupIvar_congr ?_ ?_
  · have hinner := h.inner.resolve_right fun ⟨⟨owner, heq⟩, _⟩ => hl owner heq
    generalize s.scopes.inner = before at hinner ⊢
    generalize t.scopes.inner = after at hinner ⊢
    cases hinner <;> rfl
  · obtain ⟨new, hbase, -⟩ := h.base
    rw [hbase]

theorem Restores.traits_eq (h : Restores l s t) : t.scopes.base.traits = s.scopes.base.traits := by
  obtain ⟨new, hbase, -⟩ := h.base
  rw [hbase]

/-! ## Expansions that are laid out -/

/-- The expansion of a class is laid out between the surroundings `first` and `last`, with the type
that it was made for bound to the type parameter. -/
def ExpansionLaidOut (ctx : TypingContext σ) (first last : Environs)
    (traits : List (String × NodeId)) (p : Pool) (decl : NodeId) (e : Expansion) : Prop :=
  ∀ name param body, ctx.tree.node decl = .classDef name (some param) body → ∃ arg, e.args = [arg] ∧
    IvarsLaidOut ctx first last (fun name => traits.lookup name) e.walk
      [(Scope.forType e.type []).bind param (.type arg)] body (p.ivarList e.type)

theorem ExpansionLaidOut.widen {first first' last last' : Environs}
    {traits : List (String × NodeId)} {p : Pool} {decl : NodeId} {e : Expansion}
    (h : ExpansionLaidOut ctx first last traits p decl e) (hfirst : first'.Precedes first)
    (hlast : last.Precedes last') : ExpansionLaidOut ctx first' last' traits p decl e := by
  intro name param body hnode
  obtain ⟨arg, hargs, hlaid⟩ := h name param body hnode
  exact ⟨arg, hargs, hlaid.widen hfirst hlast⟩

/-- Layouts of other types do not matter. -/
theorem ExpansionLaidOut.of_ivarList_eq {first last : Environs} {traits : List (String × NodeId)}
    {p q : Pool} {decl : NodeId} {e : Expansion}
    (h : ExpansionLaidOut ctx first last traits p decl e)
    (hq : q.ivarList e.type = p.ivarList e.type) :
    ExpansionLaidOut ctx first last traits q decl e := by
  intro name param body hnode
  rw [hq]
  exact h name param body hnode

/-- An expansion that was made in a stretch is laid out, and it is not the one whose members are
declared. -/
structure MadeExpansion (ctx : TypingContext σ) (l : Licence) (s t : TypingState σ) (decl : NodeId)
    (e : Expansion) : Prop where
  le_type : s.pool.size ≤ e.type
  named : ∃ name, (t.pool.data e.type).nominalName? = some name
  other : l ≠ .members e.type
  laidOut : ExpansionLaidOut ctx s.environs t.environs s.scopes.base.traits t.pool decl e

theorem MadeExpansion.type_lt {decl : NodeId} {e : Expansion} (h : MadeExpansion ctx l s t decl e) :
    e.type < t.pool.size := by
  obtain ⟨name, hname⟩ := h.named
  exact Pool.lt_size_of_data_ne fun hdata => by simp [hdata, TypeData.nominalName?] at hname

/-- How a stretch of typing changes what is watched. -/
structure Watches (ctx : TypingContext σ) (l : Licence) (s t : TypingState σ) : Prop
    extends Restores l s t, Changes l s t where
  made : ∀ id index decl e, expansionAt? t.templates id index = some (decl, e) →
    expansionAt? s.templates id index = some (decl, e) ∨ MadeExpansion ctx l s t decl e

namespace Watches

/-- A stretch that makes no expansion. -/
theorem of_same (h : Restores l s t) (h' : Changes l s t) (htemplates : t.templates = s.templates) :
    Watches ctx l s t :=
  { h, h' with made := fun _ _ _ _ he => .inl (htemplates ▸ he) }

theorem refl (ctx : TypingContext σ) (l : Licence) (s : TypingState σ) : Watches ctx l s s :=
  .of_same (.refl l s) (.refl l s) rfl

theorem trans (h : Watches ctx l s t) (h' : Watches ctx l t u) : Watches ctx l s u where
  toRestores := h.toRestores.trans h'.toRestores
  operations := (h.toChanges.trans h'.toChanges).operations
  layouts := (h.toChanges.trans h'.toChanges).layouts
  made id index decl e he := by
    rcases h'.made id index decl e he with he | hmade
    · refine (h.made id index decl e he).imp_right fun hmade =>
        { hmade with
          named := hmade.named.imp fun _ => h'.evolves.nominalName?
          laidOut := (hmade.laidOut.widen (.refl _) h'.toRestores.precedes).of_ivarList_eq
            (h'.layouts e.type hmade.type_lt hmade.other) }
    · exact .inr { hmade with
        le_type := Nat.le_trans h.evolves.size_le hmade.le_type
        laidOut := (h.toRestores.traits_eq ▸ hmade.laidOut).widen h.toRestores.precedes (.refl _) }

/-- A stretch in another context, in which expansions are made in the same way. -/
theorem congr {l' : Licence} {s' t' : TypingState σ} (h : Watches ctx l' s' t')
    (hrestores : Restores l s t) (hchanges : Changes l s t)
    (hfirst : s.environs.Precedes s'.environs) (hlast : t.environs = t'.environs)
    (hother : ∀ r, s.pool.size ≤ r → l ≠ .members r)
    (hbefore : ∀ id index decl e, expansionAt? s'.templates id index = some (decl, e) →
      expansionAt? s.templates id index = some (decl, e) ∨ MadeExpansion ctx l s t decl e) :
    Watches ctx l s t :=
  { hrestores, hchanges with
    made := fun id index decl e he => by
      have hpool : t.pool = t'.pool := congrArg Environs.pool hlast
      have htemplates : t.templates = t'.templates := congrArg Environs.templates hlast
      have htraits : s'.scopes.base.traits = s.scopes.base.traits := by
        obtain ⟨new, hbase⟩ := hfirst.base
        exact (congrArg Scope.traits hbase).trans rfl
      rcases h.made id index decl e (htemplates ▸ he) with he | hmade
      · exact hbefore id index decl e he
      · have hle := Nat.le_trans hfirst.pool.size_le hmade.le_type
        have hlaid := hmade.laidOut.widen hfirst (.refl _)
        rw [htraits, ← hlast, ← hpool] at hlaid
        exact .inr ⟨hle, hpool ▸ hmade.named, hother e.type hle, hlaid⟩ }

end Watches

/-! ## The code that is watched -/

/-- Code below which there is no recorded declaration, and what its instance variables are bound to
where it is entered. -/
structure WatchedCode (ctx : TypingContext σ) (start : TypingState σ) (inside : NodeId → Prop) :
    Prop where
  child : ∀ {node child}, inside node → child ∈ (ctx.tree.node node).children → inside child
  plain : ∀ node, inside node → (ctx.tree.node node).declaresType = true →
    start.table.get? ⟨start.walk, node⟩ = none

/-- While the code is typed, what is recorded for instance variables and for declarations of plain
types was recorded before, or the instance variable is one of the code and bound to that type. -/
structure Watched (ctx : TypingContext σ) (start : TypingState σ) (inside : NodeId → Prop)
    (l : Licence) (s : TypingState σ) : Prop where
  ivars : ∀ v name r, ctx.tree.node v.node = .ivar name → s.table.get? v = some r →
    start.table.get? v = some r ∨
      v.walk = start.walk ∧ inside v.node ∧ start.scopes.lookupIvar name = some r
  plain : ∀ v, (ctx.tree.node v.node).declaresType = true → s.table.get? v = start.table.get? v
  scopes : s.ScopesKnown
  /-- Templates are declarations of generic types. -/
  params : ∀ template ∈ s.templates,
    (ctx.tree.node template.decl).typeParam? = some template.param
  body : ∀ names, l = .body names →
    s.walk = start.walk ∧ s.scopes.lookupIvar = start.scopes.lookupIvar
  owner : ∀ r, l = .members r → r < s.pool.size

namespace Watched

variable {start : TypingState σ} {inside : NodeId → Prop} {l' : Licence}

theorem refl (hscopes : s.ScopesKnown)
    (hparams : ∀ template ∈ s.templates,
      (ctx.tree.node template.decl).typeParam? = some template.param)
    {names : String → Prop} : Watched ctx s inside (.body names) s where
  ivars _ _ _ _ h := .inl h
  plain _ _ := rfl
  scopes := hscopes
  params := hparams
  body _ _ := ⟨rfl, rfl⟩
  owner _ h := by cases h

/-- A later state in which the context is restored, with the findings that there were in `u`. -/
theorem later (hs : Watched ctx start inside l s) (h : Restores l s t)
    (hu : Watched ctx start inside l' u) (htable : ∀ v, t.table.get? v = u.table.get? v)
    (htemplates : t.templates = u.templates) : Watched ctx start inside l t where
  ivars v name r hnode hr := hu.ivars v name r hnode (htable v ▸ hr)
  plain v hv := (htable v).trans (hu.plain v hv)
  scopes := h.scopesKnown_iff.mpr hs.scopes
  params := htemplates ▸ hu.params
  body names hl := by
    obtain ⟨hwalk, hlookup⟩ := hs.body names hl
    exact ⟨h.walk.trans hwalk, (h.lookupIvar_eq (by simp [hl])).trans hlookup⟩
  owner r hl := Nat.lt_of_lt_of_le (hs.owner r hl) h.evolves.size_le

/-- A finding is recorded as the rules of a walk allow. -/
theorem record {table : TypeTable} {le : TypingState σ → TypingState σ → Prop}
    (hs : Watched ctx start inside l s) (hwalk : ∀ {t u}, le t u → u.walk = t.walk)
    (hrecords : s.table.Records s.walk table)
    (hnew : ∀ node r, table.get? ⟨s.walk, node⟩ = some r → s.table.get? ⟨s.walk, node⟩ = some r ∨
      MayRecord ctx inside (Watched ctx start inside l) le l s node r) :
    Watched ctx start inside l { s with table } := by
  -- what stands in other walks is not touched
  have hcases (v : Visit) (r : TypeId) (hr : table.get? v = some r) : s.table.get? v = some r ∨
      v.walk = s.walk ∧ MayRecord ctx inside (Watched ctx start inside l) le l s v.node r := by
    by_cases hv : v.walk = s.walk
    · obtain ⟨walk, node⟩ := v
      obtain rfl : walk = s.walk := hv
      exact (hnew node r hr).imp_right fun h => ⟨rfl, h⟩
    · exact .inl ((hrecords.agreesAt hv).type ▸ hr)
  refine { hs with ivars := fun v name r hnode hr => ?_, plain := fun v hplain => ?_ }
  · rcases hcases v r hr with hr | ⟨hv, hmay⟩
    · exact hs.ivars v name r hnode hr
    · obtain ⟨hinside, ⟨names, hl⟩, hlookup⟩ := hmay.ivar name hnode
      obtain ⟨hwalk, hsame⟩ := hs.body names hl
      exact .inr ⟨hv.trans hwalk, hinside, hsame ▸ hlookup⟩
  · rw [← hs.plain v hplain]
    cases hr : table.get? v with
    | none =>
        cases hold : s.table.get? v with
        | none => rfl
        | some r => simpa [hr] using hrecords.get?_isSome (v := v) (by simp [hold])
    | some r =>
        rcases hcases v r hr with hold | ⟨hv, hmay⟩
        · exact hold.symm
        · obtain ⟨t, ht, hle, hrt⟩ := hmay.plain hplain
          rw [← hwalk hle, ← hv] at hrt
          rw [hs.plain v hplain, ← ht.plain v hplain]
          exact hrt.symm

end Watched

/-! ## Expansions on the way -/

section Expansions

variable {start : TypingState σ} {inside : NodeId → Prop} {id : TemplateId} {template : Template}
  {name : String} {arg r : TypeId} {p : Pool}

theorem Expanding.param_eq (hnew : Expanding s id template name arg r p)
    (hs : Watched ctx start inside l s) (hid : id < s.templates.length) :
    (ctx.tree.node template.decl).typeParam? = some template.param :=
  hs.params template (List.mem_of_getElem? (hnew.template_eq hid))

/-- What is recorded for a new expansion is no instance variable and no plain type. -/
theorem Expanding.get?_openExpansion (hnew : Expanding s id template name arg r p)
    (hs : Watched ctx start inside l s) (hid : id < s.templates.length) {v : Visit}
    (hv : (ctx.tree.node v.node).typeParam? = none) :
    (openExpansion s id template name arg r p).table.get? v = s.table.get? v := by
  refine TypeTable.get?_record_of_ne _ _ ?_
  rintro rfl
  simp [hnew.param_eq hs hid] at hv

/-- The members of a new expansion are declared under the same watch. -/
theorem Watched.enterExpansion (hs : Watched ctx start inside l s) (hid : id < s.templates.length)
    (hnew : Expanding s id template name arg r p) :
    Watched ctx start inside (.members r) (enterExpansion s id template name arg r p) where
  ivars v name r' hnode hr := by
    refine hs.ivars v name r' hnode ?_
    rwa [← hnew.get?_openExpansion hs hid (v := v) (by simp [hnode, Node.typeParam?])]
  plain v hv := by
    refine (hnew.get?_openExpansion hs hid (v := v) ?_).trans (hs.plain v hv)
    unfold Node.declaresType at hv
    split at hv <;> simp_all [Node.typeParam?]
  scopes := ScopesKnown.enterExpansion hs.scopes
  params other hother := by
    rcases List.mem_or_eq_of_mem_set hother with hother | rfl
    · exact hs.params other hother
    · exact hnew.param_eq hs hid
  body _ h := by cases h
  owner r' h := by
    cases h
    obtain ⟨-, hname, -⟩ := hnew.type
    have hlt : r < p.size :=
      Pool.lt_size_of_data_ne fun hdata => by simp [hdata, TypeData.nominalName?] at hname
    exact hlt

/-- An expansion is declared with the traits of the module in scope. -/
theorem findTrait_enterExpansion :
    (enterExpansion s id template name arg r p).scopes.findTrait =
      fun name => s.scopes.base.traits.lookup name := by
  funext name
  cases hfound : s.scopes.base.traits.lookup name <;>
    simp [hfound, ScopeChain.findTrait, ScopeChain.frames, List.findSome?_cons, enterExpansion,
      openExpansion, TypingState.relocate, ScopeChain.bindModule, ScopeChain.restore,
      Scope.forType, Scope.bind]

/-- Opening an expansion adds to the surroundings. -/
theorem Expanding.precedes (hnew : Expanding s id template name arg r p) :
    s.environs.Precedes (enterExpansion s id template name arg r p).environs where
  pool := hnew.type.2.2
  base := ⟨[(name, .type r)], rfl⟩
  count := List.length_set
  expansions _ _ _ := hnew.expansions

/-- A new expansion is laid out when it is queued. -/
theorem Watches.of_expansion (hs : Watched ctx start inside l s) (hid : id < s.templates.length)
    (hnew : Expanding s id template name arg r p)
    (h : Watches ctx (.members r) (enterExpansion s id template name arg r p) t)
    (hdeclared : ∃ fuel, declareExpanded ctx (typeExprWithin ctx fuel) template.decl r
      (enterExpansion s id template name arg r p) = .ok () t) :
    Watches ctx l s (leaveExpansion s id template t) := by
  obtain ⟨hr, hname, hevolves⟩ := hnew.type
  have hrestores : Restores l s (leaveExpansion s id template t) :=
    h.toRestores.of_expansion (fun _ => hid) hnew
  have hchanges : Changes l s (leaveExpansion s id template t) :=
    ((changing ctx).expansion_leaves (l := l) True.intro True.intro True.intro hnew True.intro
      h.toChanges hdeclared False.elim).2.1
  have hother (r' : TypeId) (hr' : s.pool.size ≤ r') : l ≠ .members r' := fun hl =>
    Nat.not_lt_of_le hr' (hs.owner r' hl)
  have hfirst := hnew.precedes
  refine h.congr hrestores hchanges hfirst rfl hother ?_
  intro id' index decl e he
  have he : expansionAt? (openExpansion s id template name arg r p).templates id' index =
      some (decl, e) := he
  rw [expansionAt?_openExpansion (hnew.template_eq hid)] at he
  split at he
  · cases he
    refine .inr ⟨Nat.le_of_eq hr.symm, ⟨name, h.evolves.nominalName? hname⟩,
      hother r (Nat.le_of_eq hr.symm), ?_⟩
    intro name' param body hnode
    obtain rfl : param = template.param := by
      simpa [hnode, Node.typeParam?] using hnew.param_eq hs hid
    obtain ⟨fuel, hdeclared⟩ := hdeclared
    have hlaid := declareExpanded_laidOut hnode hdeclared
    rw [findTrait_enterExpansion] at hlaid
    exact ⟨arg, rfl, hlaid.widen hfirst (.refl _)⟩
  · exact .inl he

end Expansions

/-! ## The rules -/

/-- The rules of a walk in which instance variables get the types that their names are bound to where
the code is entered. -/
def watching (ctx : TypingContext σ) {start : TypingState σ} {inside : NodeId → Prop}
    (hcode : WatchedCode ctx start inside) : WalkRules ctx where
  inside := inside
  declares := False
  laysOut := False
  inv := Watched ctx start inside
  le := Watches ctx
  fails _ _ _ := True
  denoted _ _ := True
  known id s := id < s.templates.length
  filling _ _ _ _ _ := True
  follows := False
  followed := False.elim
  strict := False
  guarantees := False.elim
  follows_of_strict := id
  inside_child := hcode.child
  inside_of_declares := False.elim
  declares_of_recorded {names s decl r} hs hinside hdecl hr := by
    have hold := hs.plain ⟨s.walk, decl⟩ hdecl
    rw [hr, (hs.body names rfl).1, hcode.plain decl hinside hdecl] at hold
    cases hold
  refl := .refl ctx
  trans := .trans
  fails_refl _ _ := True.intro
  fails_trans _ _ := True.intro
  denoted_mono _ _ _ := True.intro
  known_mono _ hle hid := Nat.lt_of_lt_of_eq hid hle.count.symm
  types {l s} hs := {
    enters := { hs with
      body := by simp
      owner := by simp }
    leaves t ht hle := by
      have hother (r : TypeId) (hr : s.pool.size ≤ r) : l ≠ .members r := fun hl =>
        Nat.not_lt_of_le hr (hs.owner r hl)
      exact ⟨hs.later hle.toRestores.of_types ht (fun _ => rfl) rfl,
        hle.congr hle.toRestores.of_types (hle.toChanges.of_keeps (by simp)) (.refl _) rfl hother
          fun _ _ _ _ h => .inl h⟩
    breaks _ _ := True.intro }
  pool {l s q} hs hpool hlayouts := by
    have hrestores : Restores l s { s with pool := q } :=
      ((restoring ctx).pool (l := l) True.intro hpool fun _ => .inr (.inl True.intro)).2
    exact ⟨hs.later hrestores hs (fun _ => rfl) rfl,
      .of_same hrestores ((changing ctx).pool True.intro hpool hlayouts).2 rfl⟩
  case {l s owner cases count decl name params qualified fields r q} hs _ hdecl hnode hadded := by
    have hrestores : Restores l s { s with pool := q } :=
      ((restoring ctx).case (l := l) True.intro True.intro hdecl hnode hadded).2.1
    exact ⟨hs.later hrestores hs (fun _ => rfl) rfl,
      .of_same hrestores (.of_layouts (.addCase hadded) (.addCase hadded)) rfl, True.intro⟩
  filling_body _ _ _ := True.intro
  filling_mono _ _ _ := True.intro
  table {l s table} hs hrecords htargets hnew := by
    have hrestores : Restores l s { s with table } := .of_same rfl rfl (.refl _) rfl rfl
    exact ⟨hs.record (fun hle => hle.walk) hrecords hnew,
      .of_same hrestores ⟨.refl, fun _ _ _ => rfl⟩ rfl⟩
  target {l t u s node target} _ _ _ _ hs _ := by
    have hrestores : Restores l s { s with table := s.table.setTarget ⟨s.walk, node⟩ target } :=
      .of_same rfl rfl (.refl _) rfl rfl
    exact ⟨hs.later hrestores hs (fun _ => rfl) rfl,
      .of_same hrestores ⟨.refl, fun _ _ _ => rfl⟩ rfl⟩
  value {names s name r} hs hname := by
    have hrestores := Restores.bind hname r s
    exact ⟨hs.later hrestores hs (fun _ => rfl) rfl,
      .of_same hrestores ⟨.refl, fun _ _ _ => rfl⟩ rfl⟩
  ivar {owner s name r} hs := by
    have hrestores := Restores.addIvar owner name r s
    exact ⟨hs.later hrestores hs (fun _ => rfl) rfl,
      .of_same hrestores ⟨.refl, fun _ _ _ => rfl⟩ rfl⟩
  frame {names s frame} hs hframe hivars := {
    enters := { hs with
      scopes := ⟨hs.scopes.base, by
        intro f hf
        rcases List.mem_cons.mp hf with rfl | hf
        · exact hframe.templatesBelow
        · exact hs.scopes.inner f hf⟩
      body := fun _ _ => by
        obtain ⟨hwalk, hlookup⟩ := hs.body names rfl
        refine ⟨hwalk, .trans ?_ hlookup⟩
        funext name
        simp [ScopeChain.lookupIvar, ScopeChain.frames, ScopeChain.push, hivars.resolve_right id]
      owner := by simp [Licence.any] }
    leaves t ht hle := by
      have hrestores : Restores (.body names) s { t with scopes := t.scopes.pop } :=
        hle.toRestores.of_frame hframe
      exact ⟨hs.later hrestores ht (fun _ => rfl) rfl,
        hle.congr hrestores ⟨hle.operations, fun r hr _ => hle.layouts r hr (by simp [Licence.any])⟩
          (.refl _) rfl (by simp) fun _ _ _ _ h => .inl h⟩
    breaks _ _ := True.intro }
  walk {l s walk node} hs _ hmembers := by
    obtain ⟨owner, rfl⟩ := hmembers.resolve_left id
    exact {
      enters := { hs with body := by simp }
      leaves := fun t ht hle => ⟨hs.later hle.toRestores.of_walk ht (fun _ => rfl) rfl,
        hle.congr hle.toRestores.of_walk ⟨hle.operations, hle.layouts⟩ (.refl _) rfl
          (fun r hr heq => Nat.not_lt_of_le hr (hs.owner r heq)) fun _ _ _ _ h => .inl h⟩
      breaks := fun _ _ => True.intro }
  result {l s returnType} hs := {
    enters := { hs with }
    leaves t ht hle := ⟨hs.later hle.toRestores.of_result ht (fun _ => rfl) rfl,
      hle.congr hle.toRestores.of_result ⟨hle.operations, hle.layouts⟩ (.refl _) rfl
        (fun r hr heq => Nat.not_lt_of_le hr (hs.owner r heq)) fun _ _ _ _ h => .inl h⟩
    breaks _ _ := True.intro }
  expansion_enters hs hid _ hnew :=
    ⟨hs.enterExpansion hid hnew, fun _ _ _ _ _ => True.intro⟩
  expansion_leaves hs hid _ hnew ht hle hdeclared _ :=
    have hwatches := Watches.of_expansion hs hid hnew hle hdeclared
    ⟨hs.later hwatches.toRestores ht (fun _ => rfl) rfl, hwatches, True.intro⟩
  expansion_breaks _ _ _ _ _ := True.intro
  denoted_name _ _ := True.intro
  denoted_pointer _ _ := True.intro
  denoted_closure _ _ _ := True.intro
  denoted_case _ _ := True.intro
  denoted_expansion _ _ := True.intro
  known_template hs hid := hs.scopes.findTemplate_lt hid
  known_case hs hid := hs.scopes.lookup_lt hid

end Typing

end ClassLang
