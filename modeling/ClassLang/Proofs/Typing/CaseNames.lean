import ClassLang.Proofs.Pool.Written
import ClassLang.Proofs.Typing.Provisions

/-!
# The names that cases are built by

A case is built by a name that is looked up in scope: directly, in an imported module, or as a case
of a generic data type at a position of its declaration. In scope, in modules and in declarations,
cases go by the name that they were declared with, and so do the cases of an expansion, which are
added in the order of the declaration. Only a type parameter names whatever case it stands for.

`Spelled` says this of a state, and of all meanings recorded so far; `naming` are the rules of a
walk that keep it.
-/

namespace ClassLang

/-- The name of the case at an index of a data declaration. -/
def SyntaxTree.caseName? (tree : SyntaxTree) (decl : NodeId) (index : Nat) : Option String :=
  match tree.node decl with
  | .dataDef _ _ cases _ =>
    match cases[index]?.map tree.node with
    | some (.caseDef name _) => some name
    | _ => none
  | _ => none

/-- The name that a bare name, a call or an instance is written with. -/
def Node.writtenName? : Node → Option String
  | .ident name => some name
  | .call _ name _ => some name
  | .templatedInstance name _ _ => some name
  | _ => none

/-- The name is that of a type parameter, and an expansion was made for this type. -/
def StandsFor (templates : List Template) (name : String) (t : TypeId) : Prop :=
  ∃ template ∈ templates, template.param = name ∧ ∃ e ∈ template.expansions, e.args = [t]

/-- A type goes by a name: it is no case, or a case that was declared with this name. -/
def Pool.GoesBy (p : Pool) (name : String) (t : TypeId) : Prop :=
  p.Written t ∧ ∀ short, (p.data t).shortName? = some short → short = name

/-- All types go by the names under which they are offered. -/
def Exports.Spelled (e : Exports) (p : Pool) : Prop :=
  ∀ entry ∈ e.types, p.GoesBy entry.1 entry.2

/-- In all modules, types go by the names under which they are offered. -/
def Importer.Spelled {σ : Type} (importer : Importer σ) (p : Pool) (imports : σ) : Prop :=
  ∀ id e, importer.exports? imports id = some e → e.Spelled p

/-! ## Names -/

section Names

variable {tree : SyntaxTree} {p q : Pool} {t : TypeId} {name : String} {e : Exports}

theorem Pool.GoesBy.mono (h : p.GoesBy name t) (he : p.Evolves q) : q.GoesBy name t := by
  have hlt : t < p.size := h.1.lt_size
  exact ⟨h.1.mono he, fun short hshort => h.2 short (he.shortName?_eq hlt ▸ hshort)⟩

/-- Cases can be written down. -/
theorem Pool.Written.of_shortName? (h : (p.data t).shortName? = some name) : p.Written t := by
  cases hd : p.data t with
  | «variant» link => exact .of_nominalName (congrArg TypeData.nominalName? hd)
  | _ => simp [hd, TypeData.shortName?] at h

/-- What is no case goes by any name. -/
theorem Pool.GoesBy.of_no_case (h : p.Written t) (hcase : (p.data t).shortName? = none) :
    p.GoesBy name t :=
  ⟨h, fun short hshort => by rw [hcase] at hshort; cases hshort⟩

/-- A new class is no case. -/
theorem Pool.GoesBy.newReference (p : Pool) (link : String) :
    (p.newReference link).2.GoesBy name (p.newReference link).1 :=
  have hdata := Pool.data_push_self p (.reference link [] [])
  .of_no_case (.of_nominalName (congrArg TypeData.nominalName? hdata))
    (congrArg TypeData.shortName? hdata)

/-- A new data type is no case. -/
theorem Pool.GoesBy.newData (p : Pool) (link : String) :
    (p.newData link).2.GoesBy name (p.newData link).1 :=
  have hdata := Pool.data_push_self p (.data link [] [])
  .of_no_case (.of_nominalName (congrArg TypeData.nominalName? hdata))
    (congrArg TypeData.shortName? hdata)

/-- The built-in types are no cases. -/
theorem Pool.GoesBy.builtin (he : Pool.initial.Evolves p) (ht : t < Pool.initial.size) :
    p.GoesBy name t := by
  refine .of_no_case (.builtin he ht) ?_
  have hall : ∀ t < Pool.initial.size, (Pool.initial.data t).shortName? = none := by decide
  rw [he.shortName?_eq ht, hall t ht]

namespace Exports.Spelled

theorem mono (h : e.Spelled p) (he : p.Evolves q) : e.Spelled q :=
  fun entry hentry => (h entry hentry).mono he

theorem setType (h : e.Spelled p) (ht : p.GoesBy name t) : (e.setType name t).Spelled p := by
  intro entry hentry
  rcases List.mem_append.mp hentry with hold | hnew
  · exact h entry (List.mem_of_mem_filter hold)
  · rw [List.mem_singleton.mp hnew]
    exact ht

end Exports.Spelled

theorem Importer.Spelled.mono {σ : Type} {importer : Importer σ} {imports : σ}
    (h : importer.Spelled p imports) (he : p.Evolves q) : importer.Spelled q imports :=
  fun id e hexports => (h id e hexports).mono he

/-- A declaration that lists a case names it. -/
theorem SyntaxTree.caseName?_eq {decl caseDecl : NodeId} {index : Nat} {name' : String}
    {param : Option String} {cases params : List NodeId} {body : Option NodeId}
    (hdecl : tree.node decl = .dataDef name' param cases body)
    (hindex : cases[index]? = some caseDecl) (hcase : tree.node caseDecl = .caseDef name params) :
    tree.caseName? decl index = some name := by
  simp [caseName?, hdecl, hindex, hcase]

/-- A declaration names cases that it lists. -/
theorem SyntaxTree.exists_of_caseName? {decl : NodeId} {index : Nat}
    (h : tree.caseName? decl index = some name) :
    ∃ name' param cases body caseDecl params, tree.node decl = .dataDef name' param cases body ∧
      cases[index]? = some caseDecl ∧ tree.node caseDecl = .caseDef name params := by
  unfold caseName? at h
  split at h
  · next name' param cases body hdecl =>
      split at h
      · next params hcase =>
          obtain ⟨caseDecl, hindex, hcase⟩ := Option.map_eq_some_iff.1 hcase
          cases h
          exact ⟨_, _, _, _, caseDecl, params, hdecl, hindex, hcase⟩
      · cases h
  · cases h

end Names

/-! ## Type parameters -/

section Parameters

variable {id : TemplateId} {template : Template} {templates : List Template} {arg r : TypeId}

/-- A new expansion takes nothing from what type parameters stand for. -/
theorem StandsFor.set (hid : templates[id]? = some template) {name : String} {t : TypeId}
    (h : StandsFor templates name t) (e : Expansion) :
    StandsFor (templates.set id { template with expansions := template.expansions ++ [e] })
      name t := by
  obtain ⟨found, hfound, hparam, other, hother, hargs⟩ := h
  obtain ⟨at_, hat⟩ := List.mem_iff_getElem?.mp hfound
  by_cases heq : id = at_
  · subst heq
    obtain rfl : template = found := Option.some.inj (hid.symm.trans hat)
    exact ⟨_, List.mem_set (List.getElem?_eq_some_iff.mp hid).1 _, hparam, other,
      List.mem_append_left _ hother, hargs⟩
  · refine ⟨found, List.mem_of_getElem? (i := at_) ?_, hparam, other, hother, hargs⟩
    rw [List.getElem?_set_ne heq]
    exact hat

/-- The type parameter stands for the argument of the new expansion. -/
theorem StandsFor.new (hid : templates[id]? = some template) (walk : InstanceId) :
    StandsFor (templates.set id { template with
      expansions := template.expansions ++ [{ args := [arg], type := r, walk }] })
      template.param arg :=
  ⟨_, List.mem_set (List.getElem?_eq_some_iff.mp hid).1 _, rfl, _,
    List.mem_append_right _ (List.mem_singleton_self _), rfl⟩

/-- The type parameter stands for the argument of an expansion that was made. -/
theorem StandsFor.of_expansionAt? {index : Nat} {decl : NodeId} {e : Expansion}
    (he : expansionAt? templates id index = some (decl, e)) (hargs : e.args = [arg]) :
    StandsFor templates (templates.getD id default).param arg := by
  obtain ⟨-, hat⟩ := expansionAt?_eq_some_iff.1 he
  have hmem := List.mem_of_getElem? hat
  rw [List.getD_eq_getElem?_getD] at hmem ⊢
  cases hid : templates[id]? with
  | none => simp [hid, default] at hmem
  | some template =>
      rw [hid] at hmem
      exact ⟨template, List.mem_of_getElem? hid, rfl, e, hmem, hargs⟩

end Parameters

namespace Typing

variable {σ : Type} {ctx : TypingContext σ} {s t u : TypingState σ} {l : Licence}

/-! ## The invariant -/

/-- What names in scope mean: a type that goes by the name or that a type parameter of that name
stands for, or a case that is declared with this name. -/
def Spells (tree : SyntaxTree) (templates : List Template) (p : Pool) (name : String) :
    Binding → Prop
  | .type t => p.GoesBy name t ∨ p.Written t ∧ StandsFor templates name t
  | .genericCase id index => ∃ decl, (templates.map (·.decl))[id]? = some decl ∧
      tree.caseName? decl index = some name
  | _ => True

/-- An expansion was made for one argument, its type is no case, and its cases have the names that
are declared in their places. -/
structure Matches (tree : SyntaxTree) (p : Pool) (decl : NodeId) (e : Expansion) : Prop where
  arg : ∃ arg, e.args = [arg] ∧ p.Written arg
  written : p.Written e.type
  noCase : (p.data e.type).shortName? = none
  cases : ∀ {index c name}, (p.caseList e.type)[index]? = some c →
    tree.caseName? decl index = some name → (p.data c).shortName? = some name

/-- A case is built at a node: the name that is written there is that of the case, or that of a type
parameter that stands for it. -/
def BuiltAs (tree : SyntaxTree) (templates : List Template) (p : Pool) (node : NodeId)
    (c : TypeId) : Prop :=
  p.Written c ∧ ∀ short, (p.data c).shortName? = some short →
    ∃ name, (tree.node node).writtenName? = some name ∧
      (short = name ∨ StandsFor templates name c)

/-- Cases go by their names. -/
structure Spelled (ctx : TypingContext σ) (s : TypingState σ) : Prop where
  known : s.ScopesKnown
  builtins : Pool.initial.Evolves s.pool
  indexed : s.pool.Indexed
  names : s.scopes.Binds (Spells ctx.tree s.templates s.pool)
  exports : s.exports.Spelled s.pool
  imports : ctx.importer.Spelled s.pool s.imports
  expansions : ∀ {id index decl e}, expansionAt? s.templates id index = some (decl, e) →
    Matches ctx.tree s.pool decl e
  targets : ∀ {visit : Visit} {target c}, s.table.targets[visit]? = some target →
    target.built? = some c → BuiltAs ctx.tree s.templates s.pool visit.node c

/-- Cases may not be added to the type under this licence. -/
def Licence.Closed : Licence → TypeId → Prop
  | .body _, _ => False
  | .members owner, r => r ≠ owner
  | .types, _ => True

/-- Expansions are sustained, the new ones have new types, type parameters stand for what they stood
for, and only types that the licence names get cases. -/
structure Continues (ctx : TypingContext σ) (l : Licence) (s t : TypingState σ) : Prop
    extends Sustains ctx s t where
  fresh : ∀ {id index decl e}, expansionAt? t.templates id index = some (decl, e) →
    expansionAt? s.templates id index = some (decl, e) ∨ s.pool.size ≤ e.type
  stands : ∀ {name r}, StandsFor s.templates name r → StandsFor t.templates name r
  closed : ∀ r < s.pool.size, l.Closed r → t.pool.caseList r = s.pool.caseList r

/-- So many of the listed cases were added to the type that the licence names, which is the type of
expansions of a declaration with these cases only. -/
def Filling (ctx : TypingContext σ) (l : Licence) (owner : TypeId) (cases : List NodeId)
    (count : Nat) (s : TypingState σ) : Prop :=
  match l with
  | .body _ => True
  | .members r => owner = r ∧ owner < s.pool.size ∧ (s.pool.caseList owner).length = count ∧
      ∀ {id index decl e}, expansionAt? s.templates id index = some (decl, e) → e.type = owner →
        ∃ name param body, ctx.tree.node decl = .dataDef name param cases body
  | .types => False

namespace Continues

/-- Templates and imports are what they were. -/
theorem of_same (hpool : s.pool.Evolves t.pool) (htemplates : t.templates = s.templates)
    (himports : t.imports = s.imports)
    (hclosed : ∀ r < s.pool.size, l.Closed r → t.pool.caseList r = s.pool.caseList r) :
    Continues ctx l s t where
  toSustains := .of_same hpool htemplates himports
  fresh h := .inl (htemplates ▸ h)
  stands h := htemplates ▸ h
  closed := hclosed

/-- The pool is what it was, too. -/
theorem of_frame (hpool : t.pool = s.pool) (htemplates : t.templates = s.templates)
    (himports : t.imports = s.imports) : Continues ctx l s t :=
  .of_same (hpool ▸ .refl _) htemplates himports fun _ _ _ => by rw [hpool]

theorem trans (h : Continues ctx l s t) (h' : Continues ctx l t u) : Continues ctx l s u where
  toSustains := h.toSustains.trans h'.toSustains
  fresh he := by
    rcases h'.fresh he with ht | hnew
    · exact h.fresh ht
    · exact .inr (Nat.le_trans h.evolves.size_le hnew)
  stands hs := h'.stands (h.stands hs)
  closed r hr hclosed :=
    (h'.closed r (Nat.lt_of_lt_of_le hr h.evolves.size_le) hclosed).trans (h.closed r hr hclosed)

/-- What adds no case at all continues under any licence. -/
theorem weaken (h : Continues ctx .types s t) : Continues ctx l s t :=
  { h with closed := fun r hr _ => h.closed r hr True.intro }

/-- The licence of a body forbids no cases. -/
theorem of_body {names names' : String → Prop} (h : Continues ctx (.body names) s t) :
    Continues ctx (.body names') s t :=
  { h with closed := fun _ _ => False.elim }

end Continues

theorem Spells.mono {p q : Pool} {templates templates' : List Template} {name : String}
    {b : Binding} (h : Spells ctx.tree templates p name b) (he : p.Evolves q)
    (hdecls : templates.map (·.decl) <+: templates'.map (·.decl))
    (hstands : ∀ {name r}, StandsFor templates name r → StandsFor templates' name r) :
    Spells ctx.tree templates' q name b := by
  cases b with
  | type r => exact h.imp (·.mono he) fun ⟨hr, hs⟩ => ⟨hr.mono he, hstands hs⟩
  | genericCase id index =>
      obtain ⟨decl, hdecl, hname⟩ := h
      obtain ⟨later, hlater⟩ := hdecls
      refine ⟨decl, ?_, hname⟩
      rw [← hlater, List.getElem?_append_left (List.getElem?_eq_some_iff.mp hdecl).1, hdecl]
  | _ => exact True.intro

theorem BuiltAs.mono {p q : Pool} {templates templates' : List Template} {node : NodeId}
    {c : TypeId} (h : BuiltAs ctx.tree templates p node c) (he : p.Evolves q)
    (hstands : ∀ {name r}, StandsFor templates name r → StandsFor templates' name r) :
    BuiltAs ctx.tree templates' q node c := by
  refine ⟨h.1.mono he, fun short hshort => ?_⟩
  obtain ⟨name, hname, hspelled⟩ := h.2 short (he.shortName?_eq h.1.lt_size ▸ hshort)
  exact ⟨name, hname, hspelled.imp_right hstands⟩

/-- Cases keep their names while none is added to the type. -/
theorem Matches.mono {p q : Pool} {decl : NodeId} {e : Expansion} (h : Matches ctx.tree p decl e)
    (he : p.Evolves q) (hcases : q.caseList e.type = p.caseList e.type) :
    Matches ctx.tree q decl e where
  arg := by
    obtain ⟨arg, hargs, harg⟩ := h.arg
    exact ⟨arg, hargs, harg.mono he⟩
  written := h.written.mono he
  noCase := (he.shortName?_eq h.written.lt_size).trans h.noCase
  cases hc hname := by
    have hshort := h.cases (hcases ▸ hc) hname
    rwa [he.shortName?_eq (Pool.Written.of_shortName? hshort).lt_size]

/-- All cases of an expansion whose declaration names a case are there. -/
theorem CasesLaidOut.lt_length {tree : SyntaxTree} {p : Pool} {decl : NodeId} {r : TypeId}
    {index : Nat} {name : String} (h : CasesLaidOut tree p decl r)
    (hname : tree.caseName? decl index = some name) : index < (p.caseList r).length := by
  obtain ⟨_, _, cases, _, _, _, hdecl, hindex, -⟩ := SyntaxTree.exists_of_caseName? hname
  obtain ⟨_, listed, _, hd, hle⟩ := h _ _ _ _ hdecl
  have hlist : p.caseList r = listed := by rw [Pool.caseList, hd]; rfl
  rw [hlist]
  exact Nat.lt_of_lt_of_le (List.getElem?_eq_some_iff.mp hindex).1 hle

/-! ## What each step keeps -/

/-- The invariant under a licence: where the members of an expansion are declared, its cases are not
all there. -/
def SpelledFor (ctx : TypingContext σ) (l : Licence) (s : TypingState σ) : Prop :=
  Spelled ctx s ∧ ∀ names, l = .body names → LaidOut ctx s

namespace Spelled

/-- The pool changes in a way that expansions still match their declarations. -/
theorem changePool (hs : Spelled ctx s) {q : Pool} (hchange : s.pool.Change q)
    (hmatches : ∀ {id index decl e}, expansionAt? s.templates id index = some (decl, e) →
      Matches ctx.tree q decl e) : Spelled ctx { s with pool := q } where
  known := hs.known
  builtins := hs.builtins.trans hchange.evolves
  indexed := hchange.indexed hs.indexed
  names := hs.names.mono fun _ _ hb => hb.mono hchange.evolves (List.prefix_refl _) id
  exports := hs.exports.mono hchange.evolves
  imports := hs.imports.mono hchange.evolves
  expansions := hmatches
  targets ht hbuilt := (hs.targets ht hbuilt).mono hchange.evolves id

/-- The frames above the module's frame are put back. -/
theorem goBack (hs : Spelled ctx s) (ht : Spelled ctx t) (hle : Continues ctx l s t) :
    Spelled ctx (t.relocate s.site) :=
  { ht with
    known := ⟨ht.known.base, fun frame hframe => by
      have hbelow := hs.known.inner frame hframe
      rwa [← hle.count] at hbelow⟩
    names := ⟨ht.names.base, fun frame hframe =>
      (hs.names.inner frame hframe).mono fun _ _ hb => 
        hb.mono hle.evolves (hle.decls ▸ List.prefix_refl _) hle.stands⟩ }

/-- A type gets a name by which it goes in the module's frame, and is exported. -/
theorem nameType (hs : Spelled ctx s) {name : String} {r : TypeId} (hr : s.pool.GoesBy name r) :
    Spelled ctx { s with
      scopes := s.scopes.bindModule name (.type r), exports := s.exports.setType name r } :=
  { hs with
    known := hs.known.bindModule (by simp)
    names := hs.names.bindModule (.inl hr)
    exports := hs.exports.setType hr }

/-- The meaning of a node is recorded. -/
theorem setTarget (hs : Spelled ctx s) {node : NodeId} {target : Target}
    (h : ∀ c, target.built? = some c → BuiltAs ctx.tree s.templates s.pool node c) :
    Spelled ctx { s with table := s.table.setTarget ⟨s.walk, node⟩ target } :=
  { hs with
    targets := fun {visit found c} hfound hbuilt => by
      simp only [TypeTable.setTarget, getElem?_insert_visit] at hfound
      split at hfound
      · next heq =>
          subst heq
          cases hfound
          exact h c hbuilt
      · exact hs.targets hfound hbuilt }

end Spelled

/-- The pool changes, but no data type gets a case. -/
theorem SpelledFor.changePool {q : Pool} (hs : SpelledFor ctx l s) (h : s.pool.Caseless q) :
    SpelledFor ctx l { s with pool := q } ∧ Continues ctx l s { s with pool := q } := by
  have hevolves := h.change.evolves
  have hle : Continues ctx l s { s with pool := q } :=
    .of_same hevolves rfl rfl fun r _ _ => h.caseList r
  exact ⟨⟨hs.1.changePool h.change fun he => (hs.1.expansions he).mono hevolves (h.caseList _),
    fun names hl => hle.keeps_laidOut (hs.2 names hl)⟩, hle⟩

/-- The next declared case is added to a data type. -/
theorem SpelledFor.addCase {owner r : TypeId} {cases params : List NodeId} {count : Nat}
    {decl : NodeId} {name qualified : String} {fields : List (String × TypeId)} {q : Pool}
    (hs : SpelledFor ctx l s) (hfilling : Filling ctx l owner cases count s)
    (hcase : cases[count]? = some decl) (hnode : ctx.tree.node decl = .caseDef name params)
    (hadded : s.pool.addCase owner qualified name fields = .ok (r, q)) :
    SpelledFor ctx l { s with pool := q } ∧ Continues ctx l s { s with pool := q } ∧
      Filling ctx l owner cases (count + 1) { s with pool := q } := by
  have hchange : s.pool.Change q := .addCase hadded
  have hevolves := hchange.evolves
  obtain ⟨-, howner, hothers, tag, hdata⟩ := Pool.caseList_addCase hadded
  have hmatches {id index decl' e} (he : expansionAt? s.templates id index = some (decl', e)) :
      Matches ctx.tree q decl' e := by
    have hmatch := hs.1.expansions he
    by_cases htype : e.type = owner
    · obtain ⟨arg, hargs, harg⟩ := hmatch.arg
      refine ⟨⟨arg, hargs, harg.mono hevolves⟩, hmatch.written.mono hevolves,
        (hevolves.shortName?_eq hmatch.written.lt_size).trans hmatch.noCase,
        fun {i c name'} hc hname' => ?_⟩
      rw [htype, howner] at hc
      rcases Nat.lt_or_ge i (s.pool.caseList owner).length with hlt | hge
      · rw [List.getElem?_append_left hlt] at hc
        have hshort := hmatch.cases (htype ▸ hc) hname'
        rwa [hevolves.shortName?_eq (Pool.Written.of_shortName? hshort).lt_size]
      · -- the new case: it is the next one of the declaration, unless all of them were there
        obtain rfl : i = (s.pool.caseList owner).length := by
          have hlt := (List.getElem?_eq_some_iff.mp hc).1
          rw [List.length_append, List.length_singleton] at hlt
          omega
        obtain rfl : c = r := by simpa using hc.symm
        cases l with
        | body names =>
            have hlaid := hs.2 names rfl _ _ _ _ he
            exact absurd (htype ▸ hlaid.lt_length hname') (Nat.lt_irrefl _)
        | members _ =>
            obtain ⟨-, -, hcount, hdecl⟩ := hfilling
            obtain ⟨_, _, _, hdecl⟩ := hdecl he htype
            rw [hcount, ctx.tree.caseName?_eq hdecl hcase hnode] at hname'
            cases hname'
            rw [hdata]
            rfl
        | types => exact hfilling.elim
    · exact hmatch.mono hevolves (hothers _ htype)
  have hle : Continues ctx l s { s with pool := q } := by
    refine .of_same hevolves rfl rfl fun x _ hclosed => hothers x ?_
    cases l with
    | body names => exact hclosed.elim
    | members _ => exact hfilling.1 ▸ hclosed
    | types => exact hfilling.elim
  refine ⟨⟨hs.1.changePool hchange hmatches, fun names hl => hle.keeps_laidOut (hs.2 names hl)⟩,
    hle, ?_⟩
  cases l with
  | body names => exact True.intro
  | members _ =>
      obtain ⟨hr, hlt, hcount, hdecl⟩ := hfilling
      exact ⟨hr, Nat.lt_of_lt_of_le hlt hevolves.size_le, by simp [howner, hcount], hdecl⟩
  | types => exact hfilling.elim

/-- Reading a type expression adds no case to a data type that is being filled. -/
theorem Filling.mono {owner : TypeId} {cases : List NodeId} {count : Nat}
    (h : Filling ctx l owner cases count s) (hle : Continues ctx .types s t) :
    Filling ctx l owner cases count t := by
  cases l with
  | body names => exact True.intro
  | members _ =>
      obtain ⟨hr, hlt, hcount, hdecl⟩ := h
      refine ⟨hr, Nat.lt_of_lt_of_le hlt hle.evolves.size_le, ?_, fun he htype => ?_⟩
      · rw [hle.closed owner hlt True.intro, hcount]
      · rcases hle.fresh he with hold | hnew
        · exact hdecl hold htype
        · exact absurd (htype ▸ hnew) (Nat.not_le_of_lt hlt)
  | types => exact h

/-! ## Building cases -/

/-- A case is built by its name, or by a type parameter that stands for it. -/
theorem Constructed.builtAs {node : NodeId} {r : TypeId} (h : Constructed ctx t u node r)
    (ht : Spelled ctx t) (hle : Continues ctx l t u) (hu : Spelled ctx u) :
    BuiltAs ctx.tree u.templates u.pool node r := by
  cases h with
  | @named name hnode hlookup =>
      have hname : (ctx.tree.node node).writtenName? = some name := by
        rcases hnode with hnode | ⟨args, hnode⟩ <;> rw [hnode] <;> rfl
      suffices BuiltAs ctx.tree t.templates t.pool node r from this.mono hle.evolves hle.stands
      rcases ht.names.lookup_cases hlookup with (hgoes | ⟨hwritten, hstands⟩) | ⟨_, heq, hlt⟩
      · exact ⟨hgoes.1, fun short hshort => ⟨name, hname, .inl (hgoes.2 short hshort)⟩⟩
      · exact ⟨hwritten, fun short hshort => ⟨name, hname, .inr hstands⟩⟩
      · cases heq
        have hgoes : t.pool.GoesBy name r := .builtin ht.builtins hlt
        exact ⟨hgoes.1, fun short hshort => ⟨name, hname, .inl (hgoes.2 short hshort)⟩⟩
  | @imported receiver name args id e hnode hexports htype =>
      have hgoes : t.pool.GoesBy name r := ht.imports id e hexports _ (mem_of_lookup_eq_some htype)
      suffices BuiltAs ctx.tree t.templates t.pool node r from this.mono hle.evolves hle.stands
      exact ⟨hgoes.1, fun short hshort => ⟨name, by rw [hnode]; rfl, .inl (hgoes.2 short hshort)⟩⟩
  | expanded hexpansion =>
      obtain ⟨index, decl, e, he, rfl⟩ := hexpansion
      have hmatch := hu.expansions he
      exact ⟨hmatch.written, fun short hshort => by rw [hmatch.noCase] at hshort; cases hshort⟩
  | @generic name typeArgs args id index owner hnode hlookup howner hcase =>
      obtain ⟨at_, decl, e, he, rfl⟩ := howner
      obtain ⟨decl', hdecl', hname⟩ := ht.names.lookup hlookup (by simp)
      -- the expansion is one of the declaration that names the case
      obtain ⟨hdecl, -⟩ := expansionAt?_eq_some_iff.1 he
      obtain rfl : decl = decl' := by
        rw [← hle.decls, List.getElem?_map, Option.map_eq_some_iff] at hdecl'
        obtain ⟨template, htemplate, rfl⟩ := hdecl'
        simpa [List.getD, htemplate] using hdecl.symm
      have hmatch := hu.expansions he
      rw [Pool.cases_eq_caseList hmatch.written.isVar_eq] at hcase
      have hshort := hmatch.cases hcase hname
      refine ⟨.of_shortName? hshort, fun short hshort' => ⟨name, by rw [hnode]; rfl, .inl ?_⟩⟩
      exact Option.some.inj (hshort'.symm.trans hshort)

/-! ## Expansions -/

section Expansions

variable {id : TemplateId} {template : Template} {name : String} {arg r : TypeId} {p : Pool}

/-- The type of a new expansion is no case and has none. -/
theorem Expanding.blank (h : Expanding s id template name arg r p) :
    (p.data r).shortName? = none ∧ ∀ t, p.caseList t = s.pool.caseList t := by
  rcases h.made with hmade | hmade <;> cases hmade
  · exact ⟨congrArg TypeData.shortName? (Pool.data_push_self _ _),
      (Pool.Appends.push s.pool _).caseList_eq rfl⟩
  · exact ⟨congrArg TypeData.shortName? (Pool.data_push_self _ _),
      (Pool.Appends.push s.pool _).caseList_eq rfl⟩

/-- The members of a new expansion begin to be declared. -/
theorem Spelled.enterExpansion (hs : Spelled ctx s) (hid : s.templates[id]? = some template)
    (harg : s.pool.Written arg) (hnew : Expanding s id template name arg r p) :
    Spelled ctx (enterExpansion s id template name arg r p) := by
  obtain ⟨hr, hnominal, hevolves⟩ := hnew.type
  obtain ⟨hcase, hcases⟩ := hnew.blank
  have hchange := hnew.change
  have hwritten : p.Written r := .of_nominalName hnominal
  have hdecls : (openExpansion s id template name arg r p).templates.map (·.decl) =
      s.templates.map (·.decl) := decls_openExpansion hid
  have hstands {name : String} {t : TypeId} (h : StandsFor s.templates name t) :
      StandsFor (openExpansion s id template name arg r p).templates name t := h.set hid _
  exact {
    known := ScopesKnown.enterExpansion hs.known
    builtins := hs.builtins.trans hevolves
    indexed := hchange.indexed hs.indexed
    names := by
      have hbase := hs.names.base.mono fun _ _ hb =>
        hb.mono hevolves (hdecls ▸ List.prefix_refl _) hstands
      refine ⟨hbase.bind (.inl (.of_no_case hwritten hcase)), fun frame hframe => ?_⟩
      rw [List.mem_singleton.mp hframe]
      exact (Scope.BindsValues.forType.binds fun _ _ => True.intro).bind
        (.inr ⟨harg.mono hevolves, .new hid _⟩)
    exports := hs.exports.mono hevolves
    imports := hs.imports.mono hevolves
    expansions := fun {other index decl e} he => by
      replace he : expansionAt? (openExpansion s id template name arg r p).templates other index =
        some (decl, e) := he
      rw [expansionAt?_openExpansion hid] at he
      split at he
      · cases he
        refine ⟨⟨arg, rfl, harg.mono hevolves⟩, hwritten, hcase, fun hc _ => ?_⟩
        have hc : (p.caseList r)[_]? = some _ := hc
        rw [hcases, Pool.caseList_of_le (Nat.le_of_eq hr.symm)] at hc
        cases hc
      · exact (hs.expansions he).mono hevolves (hcases _)
    targets := fun ht hbuilt => (hs.targets ht hbuilt).mono hevolves hstands }

/-- No declared case was added to a new expansion yet. -/
theorem Filling.start (hs : Spelled ctx s) (hid : s.templates[id]? = some template)
    (hnew : Expanding s id template name arg r p) {name' : String} {param : Option String}
    {cases : List NodeId} {body : Option NodeId}
    (hdecl : ctx.tree.node template.decl = .dataDef name' param cases body) :
    Filling ctx (.members r) r cases 0 (Typing.enterExpansion s id template name arg r p) := by
  obtain ⟨hr, hnominal, -⟩ := hnew.type
  refine ⟨rfl, (Pool.Written.of_nominalName hnominal).lt_size, ?_,
    fun {other index decl e} he htype => ?_⟩
  · have hnone : p.caseList r = [] := by
      rw [hnew.blank.2, Pool.caseList_of_le (Nat.le_of_eq hr.symm)]
    exact congrArg List.length hnone
  · replace he : expansionAt? (openExpansion s id template name arg r p).templates other index =
      some (decl, e) := he
    rw [expansionAt?_openExpansion hid] at he
    split at he
    · cases he
      exact ⟨_, _, _, hdecl⟩
    · -- the expansions that were there have older types
      exact absurd (htype.trans hr) (Nat.ne_of_lt (hs.expansions he).written.lt_size)

/-- The whole of an expansion: it is registered, its members are declared, and it is queued. -/
theorem Continues.of_expansion (hid : s.templates[id]? = some template)
    (hnew : Expanding s id template name arg r p)
    (hle : Continues ctx (.members r) (Typing.enterExpansion s id template name arg r p) t)
    (hlaid : CasesLaidOut ctx.tree t.pool template.decl r) :
    Continues ctx l s (leaveExpansion s id template t) := by
  obtain ⟨hr, -, hevolves⟩ := hnew.type
  refine {
    toSustains := .of_expansion hid hnew hle.toSustains hlaid
    fresh := fun {other index decl e} he => ?_
    stands := fun h => hle.stands (h.set hid _)
    closed := fun x hx _ => ?_ }
  · rcases hle.fresh he with hold | hlater
    · replace hold : expansionAt? (openExpansion s id template name arg r p).templates other index =
        some (decl, e) := hold
      rw [expansionAt?_openExpansion hid] at hold
      split at hold
      · cases hold
        exact .inr (Nat.le_of_eq hr.symm)
      · exact .inl hold
    · exact .inr (Nat.le_trans hevolves.size_le hlater)
  · have hne : x ≠ r := hr ▸ Nat.ne_of_lt hx
    exact (hle.closed x (Nat.lt_of_lt_of_le hx hevolves.size_le) hne).trans (hnew.blank.2 x)

end Expansions

/-! ## The rules -/

/-- The rules of a walk on which cases go by their names. -/
def naming (ctx : TypingContext σ) : ModuleRules ctx where
  inv := SpelledFor ctx
  le := Continues ctx
  fails _ s t := s.pool.Evolves t.pool ∧ t.imports = s.imports
  denoted r s := s.pool.Written r
  known id s := id < s.templates.length
  filling := Filling ctx
  follows := True
  followed _ := ⟨(·.evolves), (·.isExpansion), fun _ hid => hid⟩
  strict := False
  guarantees := False.elim
  follows_of_strict := False.elim
  refl _ _ := .of_frame rfl rfl rfl
  trans := .trans
  fails_refl _ s := ⟨.refl _, rfl⟩
  fails_trans hle h := ⟨hle.evolves.trans h.1, h.2.trans hle.imports⟩
  denoted_mono _ hle hr := hr.mono hle.evolves
  known_mono _ hle hid := hle.count.symm ▸ hid
  types hs := ⟨⟨hs.1, nofun⟩,
    fun t ht hle => ⟨⟨ht.1, fun names hl => hle.keeps_laidOut (hs.2 names hl)⟩, hle.weaken⟩,
    fun _ h => h⟩
  pool hs hpool _ := hs.changePool hpool
  case hs hfilling hcase hnode hadded := hs.addCase hfilling hcase hnode hadded
  filling_body _ _ _ := True.intro
  filling_mono _ hle hfilling := hfilling.mono hle
  table hs _ htargets _ := ⟨⟨{ hs.1 with targets := fun h => hs.1.targets (htargets ▸ h) }, hs.2⟩,
    .of_frame rfl rfl rfl⟩
  target ht htu hu hus hs hbuilt := ⟨⟨hs.1.setTarget fun c hc =>
    ((hbuilt True.intro c hc).builtAs ht.1 htu hu.1).mono hus.evolves hus.stands, hs.2⟩,
    .of_frame rfl rfl rfl⟩
  value hs hname := ⟨⟨{ hs.1 with
    known := (Restores.bind hname _ _).scopesKnown_iff.mpr hs.1.known
    names := hs.1.names.bind True.intro }, hs.2⟩, .of_frame rfl rfl rfl⟩
  ivar hs := ⟨⟨{ hs.1 with
    known := (Restores.addIvar 0 _ _ _).scopesKnown_iff.mpr hs.1.known
    names := hs.1.names.addIvar _ _ }, nofun⟩, .of_frame rfl rfl rfl⟩
  frame {names s frame} hs hframe _ := {
    enters := ⟨{ hs.1 with
      known := hs.1.known.push hframe.templatesBelow
      names := hs.1.names.push (hframe.binds fun _ _ => True.intro) }, fun _ _ => hs.2 names rfl⟩
    leaves := fun t ht hle => ⟨⟨{ ht.1 with
      known := ht.1.known.pop
      names := ht.1.names.pop }, fun _ _ => ht.2 _ rfl⟩, { hle.of_body with }⟩
    breaks := fun _ h => h }
  walk hs _ _ := ⟨⟨{ hs.1 with }, hs.2⟩,
    fun t ht hle => ⟨⟨{ ht.1 with }, ht.2⟩, { hle with }⟩, fun _ h => h⟩
  result hs := ⟨⟨{ hs.1 with }, hs.2⟩,
    fun t ht hle => ⟨⟨{ ht.1 with }, ht.2⟩, { hle with }⟩, fun _ h => h⟩
  expansion_enters hs hid harg hnew :=
    have hfound := hnew.template_eq hid
    ⟨⟨hs.1.enterExpansion hfound harg hnew, nofun⟩,
      fun _ _ _ _ hdecl => .start hs.1 hfound hnew hdecl⟩
  expansion_leaves {l s id template name arg r p t} hs hid _ hnew ht hle _ hlaid := by
    have hcontinues : Continues ctx l s (leaveExpansion s id template t) :=
      .of_expansion (hnew.template_eq hid) hnew hle (hlaid True.intro)
    have hback : Spelled ctx (t.relocate s.site) :=
      hs.1.goBack ht.1 (l := l) { hcontinues with }
    refine ⟨⟨{ hback with }, fun names hl => hcontinues.keeps_laidOut (hs.2 names hl)⟩,
      hcontinues, ?_⟩
    exact (Pool.Written.of_nominalName hnew.type.2.1).mono hle.evolves
  expansion_breaks _ _ _ hnew h := ⟨hnew.type.2.2.trans h.1, h.2⟩
  denoted_name hs hlookup := by
    rcases hs.1.names.lookup_cases hlookup with (hgoes | ⟨hwritten, -⟩) | ⟨_, heq, hlt⟩
    · exact hgoes.1
    · exact hwritten
    · cases heq
      exact .builtin hs.1.builtins hlt
  denoted_pointer hs htarget := .pointer hs.1.indexed htarget
  denoted_closure hs hparams hresult := .closure hs.1.indexed hparams hresult
  denoted_case _ hadded := .addCase hadded
  denoted_expansion {l s id e} hs he := by
    obtain ⟨index, hat⟩ := List.mem_iff_getElem?.mp he
    exact (hs.1.expansions (expansionAt?_eq_some_iff.2 ⟨rfl, hat⟩)).written
  known_template hs hfound := hs.1.known.findTemplate_lt hfound
  known_case hs hlookup := hs.1.known.lookup_lt hlookup
  exports _ hs := ⟨⟨{ hs.1 with }, hs.2⟩, .of_frame rfl rfl rfl⟩
  caseName hs hr hname := ⟨⟨hs.1.nameType ⟨hr, fun short hshort =>
    Option.some.inj ((Pool.caseShortName?_of_shortName? hshort).symm.trans hname)⟩, hs.2⟩,
    .of_frame rfl rfl rfl⟩

end Typing

end ClassLang
