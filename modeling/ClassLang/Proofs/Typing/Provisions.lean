import ClassLang.Proofs.Typing.Memoization
import ClassLang.Proofs.Typing.WalkedModules

/-!
# What typing relies on

Typing would stop with an internal error if a template were no class or data type, if a case in scope
were none of its template, if an imported module had no exports, or if an expansion were used before
it has all its cases. `Provided` and `LaidOut` say that none of this is so. An expansion lacks cases
only while its members are declared, which nobody can observe: when it is queued, they are all there.

So the rules of `providing` are strict: whatever the program, code in a regular tree never stops with
an internal error.
-/

namespace ClassLang

/-- The number of cases that a declaration lists. -/
def Node.caseCount : Node → Nat
  | dataDef _ _ cases _ => cases.length
  | _ => 0

/-! ## Names -/

/-- All names of the frame mean something that satisfies `B`. -/
def Scope.Binds (B : String → Binding → Prop) (frame : Scope) : Prop :=
  ∀ entry ∈ frame.names, B entry.1 entry.2

namespace Scope

variable {B C : String → Binding → Prop} {frame : Scope}

theorem Binds.mono (h : frame.Binds B) (hBC : ∀ name b, B name b → C name b) : frame.Binds C :=
  fun entry hentry => hBC _ _ (h entry hentry)

theorem Binds.bind (h : frame.Binds B) {name : String} {b : Binding} (hb : B name b) :
    (frame.bind name b).Binds B :=
  List.forall_mem_cons.mpr ⟨hb, h⟩

theorem BindsValues.binds (h : frame.BindsValues) (hB : ∀ name r, B name (.value r)) :
    frame.Binds B := by
  intro entry hentry
  obtain ⟨r, hr⟩ := h.names entry hentry
  exact hr ▸ hB entry.1 r

end Scope

/-- All names in scope mean something that satisfies `B`. -/
structure ScopeChain.Binds (B : String → Binding → Prop) (c : ScopeChain) : Prop where
  base : c.base.Binds B
  inner : ∀ frame ∈ c.inner, frame.Binds B

namespace ScopeChain.Binds

variable {B C : String → Binding → Prop} {c : ScopeChain} {name : String} {b : Binding}

theorem mono (h : c.Binds B) (hBC : ∀ name b, B name b → C name b) : c.Binds C :=
  ⟨h.base.mono hBC, fun frame hframe => (h.inner frame hframe).mono hBC⟩

/-- What no frame gives a meaning is a built-in type. -/
theorem lookup_cases (h : c.Binds B) (hlookup : c.lookup name = some b) :
    B name b ∨ ∃ t, b = .type t ∧ t < Pool.initial.size := by
  unfold ScopeChain.lookup at hlookup
  rw [Option.or_eq_some_iff] at hlookup
  rcases hlookup with hfound | ⟨-, hbuiltin⟩
  · obtain ⟨frame, hframe, hentry⟩ := List.exists_of_findSome?_eq_some hfound
    have hmem := mem_of_lookup_eq_some hentry
    rcases List.mem_append.mp hframe with hframe | hframe
    · exact .inl (h.inner frame hframe _ hmem)
    · rw [List.mem_singleton.mp hframe] at hmem
      exact .inl (h.base _ hmem)
  · obtain ⟨t, ht, rfl⟩ := Option.map_eq_some_iff.1 hbuiltin
    have hall : ∀ entry ∈ TypeId.builtinNames, entry.2 < Pool.initial.size := by decide
    exact .inr ⟨t, rfl, hall _ (mem_of_lookup_eq_some ht)⟩

theorem lookup (h : c.Binds B) (hlookup : c.lookup name = some b) (hb : ∀ t, b ≠ .type t) :
    B name b :=
  (h.lookup_cases hlookup).resolve_right fun ⟨t, ht, _⟩ => hb t ht

theorem modifyInnermost (h : c.Binds B) {f : Scope → Scope}
    (hf : ∀ frame : Scope, frame.Binds B → (f frame).Binds B) : (c.modifyInnermost f).Binds B :=
  have hall := forall_modifyInnermost h.base h.inner hf
  ⟨hall.1, hall.2⟩

theorem registerTemplate (h : c.Binds B) {id : TemplateId} : (c.registerTemplate name id).Binds B :=
  h.modifyInnermost (f := fun s => { s with templates := (name, id) :: s.templates }) fun _ h => h

theorem registerTrait (h : c.Binds B) {body : NodeId} : (c.registerTrait name body).Binds B :=
  h.modifyInnermost (f := fun s => { s with traits := (name, body) :: s.traits }) fun _ h => h

theorem bind (h : c.Binds B) (hb : B name b) : (c.bind name b).Binds B :=
  h.modifyInnermost fun _ hframe => hframe.bind hb

theorem bindModule (h : c.Binds B) (hb : B name b) : (c.bindModule name b).Binds B :=
  ⟨h.base.bind hb, h.inner⟩

theorem push (h : c.Binds B) {frame : Scope} (hframe : frame.Binds B) : (c.push frame).Binds B :=
  ⟨h.base, List.forall_mem_cons.mpr ⟨hframe, h.inner⟩⟩

theorem pop (h : c.Binds B) : c.pop.Binds B :=
  ⟨h.base, fun frame hframe => h.inner frame (List.mem_of_mem_tail hframe)⟩

theorem addIvar (h : c.Binds B) (name : String) (t : TypeId) : (c.addIvar name t).Binds B :=
  ⟨h.base, (Typing.forall_addIvarIn_iff name t c.inner fun _ => Iff.rfl).mpr h.inner⟩

end ScopeChain.Binds

namespace Typing

variable {σ : Type} {ctx : TypingContext σ} {s t u : TypingState σ}

/-! ## The invariant -/

/-- A case is one of its template, and an imported module has exports. -/
def Backed (ctx : TypingContext σ) (decls : List NodeId) (imports : σ) : Binding → Prop
  | .genericCase id index => ∃ decl, decls[id]? = some decl ∧ index < (ctx.tree.node decl).caseCount
  | .module id => (ctx.importer.exports? imports id).isSome
  | _ => True

/-- Templates are classes and data types, those in scope are templates of the module, and names in
scope are backed. -/
structure Provided (ctx : TypingContext σ) (s : TypingState σ) : Prop where
  known : s.ScopesKnown
  nominal : ∀ decl ∈ s.templates.map (·.decl), (ctx.tree.node decl).isNominal
  names : s.scopes.Binds fun _ => Backed ctx (s.templates.map (·.decl)) s.imports

/-- All expansions have their cases. -/
def LaidOut (ctx : TypingContext σ) (s : TypingState σ) : Prop :=
  ∀ id index decl e, expansionAt? s.templates id index = some (decl, e) →
    CasesLaidOut ctx.tree s.pool decl e.type

/-- What typing relies on under a licence: where the members of an expansion are declared, its cases
are not. -/
def ProvidedFor (ctx : TypingContext σ) (l : Licence) (s : TypingState σ) : Prop :=
  Provided ctx s ∧ ∀ names, l = .body names → LaidOut ctx s

/-- What typing relies on stays, and expansions that are new have all cases. -/
structure Sustains (ctx : TypingContext σ) (s t : TypingState σ) : Prop where
  evolves : s.pool.Evolves t.pool
  decls : t.templates.map (·.decl) = s.templates.map (·.decl)
  expansions : ∀ id index x, expansionAt? s.templates id index = some x →
    expansionAt? t.templates id index = some x
  laidOut : ∀ id index decl e, expansionAt? t.templates id index = some (decl, e) →
    expansionAt? s.templates id index = some (decl, e) ∨ CasesLaidOut ctx.tree t.pool decl e.type
  imports : t.imports = s.imports

theorem CasesLaidOut.mono {tree : SyntaxTree} {p q : Pool} {decl : NodeId} {r : TypeId}
    (h : CasesLaidOut tree p decl r) (he : p.Evolves q) : CasesLaidOut tree q decl r :=
  fun name param cases body hnode => (h name param cases body hnode).mono he

namespace Sustains

theorem of_same (hpool : s.pool.Evolves t.pool) (htemplates : t.templates = s.templates)
    (himports : t.imports = s.imports) : Sustains ctx s t where
  evolves := hpool
  decls := by rw [htemplates]
  expansions _ _ _ h := htemplates ▸ h
  laidOut _ _ _ _ h := .inl (htemplates ▸ h)
  imports := himports

theorem trans (h : Sustains ctx s t) (h' : Sustains ctx t u) : Sustains ctx s u where
  evolves := h.evolves.trans h'.evolves
  decls := h'.decls.trans h.decls
  expansions id index x hx := h'.expansions id index x (h.expansions id index x hx)
  laidOut id index decl e he := by
    rcases h'.laidOut id index decl e he with ht | hlaid
    · exact (h.laidOut id index decl e ht).imp_right (·.mono h'.evolves)
    · exact .inr hlaid
  imports := h'.imports.trans h.imports

/-- Expansions keep their cases, and new ones have them. -/
theorem keeps_laidOut (h : Sustains ctx s t) (hs : LaidOut ctx s) : LaidOut ctx t := by
  intro id index decl e he
  rcases h.laidOut id index decl e he with hold | hlaid
  · exact (hs id index decl e hold).mono h.evolves
  · exact hlaid

/-- There are as many templates as before. -/
theorem count (h : Sustains ctx s t) : t.templates.length = s.templates.length := by
  simpa using congrArg List.length h.decls

end Sustains

namespace Provided

/-- The pool, the findings and what is exported make no difference. -/
theorem congr (h : Provided ctx s) (htemplates : t.templates = s.templates)
    (himports : t.imports = s.imports) (hscopes : t.scopes = s.scopes) : Provided ctx t where
  known := by
    unfold TypingState.ScopesKnown
    rw [hscopes, htemplates]
    exact h.known
  nominal := htemplates ▸ h.nominal
  names := by
    rw [hscopes, htemplates, himports]
    exact h.names

theorem template (h : Provided ctx s) {id : TemplateId} (hid : id < s.templates.length) :
    ∃ template, s.templates[id]? = some template ∧ (ctx.tree.node template.decl).isNominal :=
  ⟨s.templates[id], List.getElem?_eq_getElem hid,
    h.nominal _ (List.mem_map_of_mem (List.getElem_mem hid))⟩

/-- The frame of an expansion is entered. -/
theorem isolate (h : Provided ctx s) (owner : TypeId) (ivars : List (String × TypeId))
    (param : String) (arg : TypeId) (walk : InstanceId) :
    Provided ctx (s.relocate {
      inner := [(Scope.forType owner ivars).bind param (.type arg)], walk, returnType := none }) where
  known := ⟨h.known.base, fun frame hframe => by
    rw [List.mem_singleton.mp hframe]
    exact Scope.BindsValues.forType.templatesBelow.bind (by simp)⟩
  nominal := h.nominal
  names := ⟨h.names.base, fun frame hframe => by
    rw [List.mem_singleton.mp hframe]
    exact (Scope.BindsValues.forType.binds fun _ _ => True.intro).bind True.intro⟩

/-- The frames above the module's frame are put back. -/
theorem goBack (hs : Provided ctx s) (ht : Provided ctx t) (hle : Sustains ctx s t) :
    Provided ctx (t.relocate s.site) where
  known := ⟨ht.known.base, fun frame hframe => by
    have hbelow := hs.known.inner frame hframe
    rwa [← hle.count] at hbelow⟩
  nominal := ht.nominal
  names := ⟨ht.names.base, fun frame hframe => by
    have hbinds := hs.names.inner frame hframe
    rwa [← hle.decls, ← hle.imports] at hbinds⟩

end Provided

/-! ## Expansions -/

section Expansions

variable {id : TemplateId} {template : Template} {name : String} {arg r : TypeId} {p : Pool}

theorem Provided.enterExpansion (hs : Provided ctx s) (hid : s.templates[id]? = some template) :
    Provided ctx (enterExpansion s id template name arg r p) := by
  have hdecls : (openExpansion s id template name arg r p).templates.map (·.decl) =
      s.templates.map (·.decl) := decls_openExpansion hid
  have hopened : Provided ctx (openExpansion s id template name arg r p) := by
    refine ⟨?_, ?_, ?_⟩
    · have hcount := congrArg List.length hdecls
      simp only [List.length_map] at hcount
      unfold TypingState.ScopesKnown
      rw [hcount]
      exact hs.known.bindModule (by simp)
    · rw [hdecls]
      exact hs.nominal
    · rw [hdecls]
      exact hs.names.bindModule (b := .type r) True.intro
  exact hopened.isolate r [] template.param arg s.table.nextInstance

/-- While members are declared, all expansions but the new one are sustained; in the end the new one
is too. -/
theorem Sustains.of_expansion (hid : s.templates[id]? = some template)
    (hnew : Expanding s id template name arg r p)
    (hle : Sustains ctx (enterExpansion s id template name arg r p) t)
    (hlaid : CasesLaidOut ctx.tree t.pool template.decl r) :
    Sustains ctx s (leaveExpansion s id template t) where
  evolves := hnew.type.2.2.trans hle.evolves
  decls := by
    have hdecls : (openExpansion s id template name arg r p).templates.map (·.decl) =
        s.templates.map (·.decl) := decls_openExpansion hid
    exact hle.decls.trans hdecls
  expansions other index x hx := hle.expansions other index x (hnew.expansions hx)
  laidOut other index decl e he := by
    rcases hle.laidOut other index decl e he with hold | hdone
    · have hold : expansionAt? (openExpansion s id template name arg r p).templates other index =
          some (decl, e) := hold
      rw [expansionAt?_openExpansion hid] at hold
      split at hold
      · cases hold
        exact .inr hlaid
      · exact .inl hold
    · exact .inr hdone
  imports := hle.imports

end Expansions

/-! ## The rules -/

/-- The pool changes. -/
theorem ProvidedFor.changePool {l : Licence} {q : Pool} (hs : ProvidedFor ctx l s)
    (hchange : s.pool.Change q) :
    ProvidedFor ctx l { s with pool := q } ∧ Sustains ctx s { s with pool := q } :=
  have hle : Sustains ctx s { s with pool := q } := .of_same hchange.evolves rfl rfl
  ⟨⟨hs.1.congr rfl rfl rfl, fun names hl => hle.keeps_laidOut (hs.2 names hl)⟩, hle⟩

/-- An expansion of a data type has the case at an index that its declaration has. -/
theorem CasesLaidOut.getElem? {tree : SyntaxTree} {p : Pool} {decl : NodeId} {r : TypeId} {index : Nat}
    (h : CasesLaidOut tree p decl r) (hindex : index < (tree.node decl).caseCount) :
    ((p.cases r)[index]?).isSome := by
  unfold Node.caseCount at hindex
  split at hindex
  · next hnode => exact (h _ _ _ _ hnode).getElem? hindex
  · exact absurd hindex (Nat.not_lt_zero _)

/-- Expansions are never lost. -/
theorem Sustains.isExpansion {id : TemplateId} {r : TypeId} (h : Sustains ctx s t)
    (hr : IsExpansion s id r) : IsExpansion t id r := by
  obtain ⟨index, decl, e, he, hr⟩ := hr
  exact ⟨index, decl, e, h.expansions _ _ _ he, hr⟩

/-- In a regular tree, the invariant rules out internal errors. -/
theorem guarantees_of_regular (hregular : ctx.tree.Regular) :
    Guarantees ctx (ProvidedFor ctx) (fun _ => Sustains ctx) fun id s =>
      id < s.templates.length where
  regular := hregular
  template h hid := h.1.template hid
  module h hlookup := h.1.names.lookup hlookup (by simp)
  variant := by
    rintro names s t name id index r hs hlookup hle ht ⟨at_, decl, e, he, rfl⟩
    obtain ⟨decl', hdecl', hindex⟩ := hs.1.names.lookup hlookup (by simp)
    have hsame : t.templates.map (·.decl) = s.templates.map (·.decl) := hle.decls
    -- the expansion is one of the template that the case belongs to
    obtain ⟨hdecl, -⟩ := expansionAt?_eq_some_iff.1 he
    obtain rfl : decl = decl' := by
      rw [← hsame, List.getElem?_map, Option.map_eq_some_iff] at hdecl'
      obtain ⟨template, htemplate, rfl⟩ := hdecl'
      simpa [List.getD, htemplate] using hdecl.symm
    exact (ht.2 names rfl id at_ decl e he).getElem? hindex

/-- The rules of a walk over a regular tree on which code never stops with an internal error. -/
def providing (ctx : TypingContext σ) (hregular : ctx.tree.Regular) : ModuleRules ctx where
  inv := ProvidedFor ctx
  le _ := Sustains ctx
  fails _ _ _ := True
  denoted _ _ := True
  known id s := id < s.templates.length
  filling _ _ _ _ _ := True
  follows := True
  followed _ := ⟨(·.evolves), (·.isExpansion), fun _ hid => hid⟩
  strict := True
  guarantees _ := guarantees_of_regular hregular
  follows_of_strict := id
  refl _ _ := .of_same (.refl _) rfl rfl
  trans := .trans
  fails_refl _ _ := True.intro
  fails_trans _ _ := True.intro
  denoted_mono _ _ _ := True.intro
  known_mono _ hle hid := hle.count.symm ▸ hid
  types hs := ⟨⟨hs.1, nofun⟩,
    fun t ht hle => ⟨⟨ht.1, fun names hl => hle.keeps_laidOut (hs.2 names hl)⟩, hle⟩,
    fun _ _ => True.intro⟩
  pool hs hpool _ := hs.changePool hpool.change
  case hs _ _ _ hadded :=
    have hpool := hs.changePool (.addCase hadded)
    ⟨hpool.1, hpool.2, True.intro⟩
  filling_body _ _ _ := True.intro
  filling_mono _ _ _ := True.intro
  table hs _ _ _ := ⟨⟨hs.1.congr rfl rfl rfl, hs.2⟩, .of_same (.refl _) rfl rfl⟩
  target _ _ _ _ hs _ := ⟨⟨hs.1.congr rfl rfl rfl, hs.2⟩, .of_same (.refl _) rfl rfl⟩
  value hs hname := ⟨⟨{ hs.1 with
    known := (Restores.bind hname _ _).scopesKnown_iff.mpr hs.1.known
    names := hs.1.names.bind True.intro }, hs.2⟩, .of_same (.refl _) rfl rfl⟩
  ivar hs := ⟨⟨{ hs.1 with
    known := (Restores.addIvar 0 _ _ _).scopesKnown_iff.mpr hs.1.known
    names := hs.1.names.addIvar _ _ }, nofun⟩, .of_same (.refl _) rfl rfl⟩
  frame {names s frame} hs hframe _ := {
    enters := ⟨{ hs.1 with
      known := hs.1.known.push hframe.templatesBelow
      names := hs.1.names.push (hframe.binds fun _ _ => True.intro) }, fun _ _ => hs.2 names rfl⟩
    leaves := fun t ht hle => ⟨⟨{ ht.1 with
      known := ht.1.known.pop
      names := ht.1.names.pop }, fun _ _ => ht.2 _ rfl⟩, { hle with }⟩
    breaks := fun _ _ => True.intro }
  walk hs _ _ := ⟨⟨hs.1.congr rfl rfl rfl, hs.2⟩,
    fun t ht hle => ⟨⟨ht.1.congr rfl rfl rfl, ht.2⟩, { hle with }⟩, fun _ _ => True.intro⟩
  result hs := ⟨⟨hs.1.congr rfl rfl rfl, hs.2⟩,
    fun t ht hle => ⟨⟨ht.1.congr rfl rfl rfl, ht.2⟩, { hle with }⟩, fun _ _ => True.intro⟩
  expansion_enters hs hid _ hnew :=
    ⟨⟨hs.1.enterExpansion (hnew.template_eq hid), nofun⟩, fun _ _ _ _ _ => True.intro⟩
  expansion_leaves {l s id template name arg r p t} hs hid _ hnew ht hle _ hlaid := by
    have hsustains := Sustains.of_expansion (hnew.template_eq hid) hnew hle (hlaid True.intro)
    have hback := hs.1.goBack ht.1 { hsustains with }
    exact ⟨⟨hback.congr rfl rfl rfl, fun names hl => hsustains.keeps_laidOut (hs.2 names hl)⟩,
      hsustains, True.intro⟩
  expansion_breaks _ _ _ _ _ := True.intro
  denoted_name _ _ := True.intro
  denoted_pointer _ _ := True.intro
  denoted_closure _ _ _ := True.intro
  denoted_case _ _ := True.intro
  denoted_expansion _ _ := True.intro
  known_template hs hfound := hs.1.known.findTemplate_lt hfound
  known_case hs hlookup := hs.1.known.lookup_lt hlookup
  exports _ hs := ⟨⟨hs.1.congr rfl rfl rfl, hs.2⟩, .of_same (.refl _) rfl rfl⟩
  caseName hs _ _ := ⟨⟨{ hs.1 with
    known := hs.1.known.bindModule (by simp)
    names := hs.1.names.bindModule True.intro }, hs.2⟩, .of_same (.refl _) rfl rfl⟩

end Typing

end ClassLang
