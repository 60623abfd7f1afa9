import ClassLang.Proofs.Typing.Memoization
import ClassLang.Proofs.Typing.WalkedBodies

/-!
# What type expressions say

A type expression says something only about what its names are bound to. With these in place of the
names it is a `TypeTerm`, and `readTypeWithin` gives the term along with the type. What a term
stands for is found in the memory without making anything: pointers and closures in the tables of
the pool, expansions in the catalogue. Once a term was read its type is found, and it is found from
then on (`TypeTerm.find?_mono`), so reading the term again gives the very same type.
-/

namespace ClassLang

variable {σ : Type}

/-- A type expression with what its names are bound to in place of the names. -/
inductive TypeTerm
  | named (t : TypeId)
  | pointer (target : TypeTerm)
  | applied (id : TemplateId) (args : List TypeTerm)
  | closure (params : List TypeTerm) (result : TypeTerm)

namespace TypeTerm

mutual

/-- The type that a term stands for, if there is one already. -/
def find? (m : Memory) : TypeTerm → Option TypeId
  | .named t => some t
  | .pointer target => do m.1.shared? (.pointer (← find? m target))
  | .applied id args => do
    let args ← findAll? m args
    let e ← (m.2.getD id default).expansions.find? (·.args == args)
    pure e.type
  | .closure params result => do
    m.1.shared? (.closure (← findAll? m params) (← find? m result) [])

/-- The types that the terms stand for, if there are all of them. -/
def findAll? (m : Memory) : List TypeTerm → Option (List TypeId)
  | [] => some []
  | term :: terms => do pure ((← find? m term) :: (← findAll? m terms))

end

/-- All of the terms are found if each one is. -/
theorem findAll?_map {α : Type} {m : Memory} {f : α → TypeTerm} {g : α → TypeId} {items : List α}
    (h : ∀ a ∈ items, (f a).find? m = some (g a)) :
    findAll? m (items.map f) = some (items.map g) := by
  induction items with
  | nil => rfl
  | cons a items ih =>
      obtain ⟨ha, hitems⟩ := List.forall_mem_cons.mp h
      simp [findAll?, ha, ih hitems]

end TypeTerm

/-! ## What is found stays -/

namespace Pool

variable {p q : Pool} {d : TypeData} {t : TypeId}

/-- The tables have what was shared. -/
theorem Indexed.shared?_share (h : p.Indexed) (hd : d.isShared = true) :
    (p.share d).2.shared? d = some (p.share d).1 := by
  rcases p.share_cases d with ⟨t, hfound, heq⟩ | ⟨-, hnew, happends⟩
  · rw [heq]
    exact hfound
  · rw [(h.share d).shared hd, happends.data_eq, if_pos hnew]

/-- What the tables have stays in them. -/
theorem Evolves.shared?_mono (he : p.Evolves q) (hp : p.Indexed) (hq : q.Indexed)
    (h : p.shared? d = some t) : q.shared? d = some t := by
  have hd : d.isShared = true := by
    by_contra hd
    rw [p.shared?_of_not_isShared (by simpa using hd)] at h
    cases h
  have hdata := hp.data_of_shared? h
  have hlt : t < p.size := lt_size_of_data_ne (by rw [hdata]; rintro rfl; cases hd)
  rw [hq.shared hd, ← hdata]
  exact (he.becomes t hlt).eq_of_isShared (.inl (hdata ▸ hd))

end Pool

/-- Entries only evolve, and expansions are kept. -/
structure Memory.Extends (m m' : Memory) : Prop where
  evolves : m.1.Evolves m'.1
  kept : ∀ {id index x}, expansionAt? m.2 id index = some x → expansionAt? m'.2 id index = some x

namespace Memory.Extends

variable {m m' m'' : Memory}

theorem refl (m : Memory) : Extends m m :=
  ⟨.refl _, id⟩

theorem trans (h : Extends m m') (h' : Extends m' m'') : Extends m m'' :=
  ⟨h.evolves.trans h'.evolves, fun hx => h'.kept (h.kept hx)⟩

/-- Each change of what is remembered extends it. -/
theorem step (h : m.Step m') : Extends m m' := by
  cases h with
  | pool h => exact ⟨h.evolves, id⟩
  | template name param decl =>
      exact ⟨.refl _, fun hx => (Typing.expansionAt?_append_new name param decl).trans hx⟩
  | expansion hid e =>
      refine ⟨.refl _, fun {other index x} hx => ?_⟩
      rw [Typing.expansionAt?_set hid, if_neg]
      · exact hx
      · rintro ⟨rfl, rfl⟩
        obtain ⟨-, hat⟩ := expansionAt?_eq_some_iff.1 hx
        simp [List.getD_eq_getElem?_getD, hid] at hat

theorem of_remembers {ctx : TypingContext σ} (h : Typing.Remembers ctx m m') : Extends m m' := by
  induction h with
  | refl => exact .refl _
  | tail _ hstep ih => exact ih.trans (.step hstep.1)

end Memory.Extends

namespace Typing

/-- An expansion is found by the argument that it was made for. -/
theorem Catalogued.find?_args {m : Memory} {id : TemplateId} {index : Nat} {decl : NodeId}
    {e : Expansion} (h : Catalogued m) (he : expansionAt? m.2 id index = some (decl, e)) :
    (m.2.getD id default).expansions.find? (·.args == e.args) = some e := by
  obtain ⟨hdecl, hat⟩ := expansionAt?_eq_some_iff.1 he
  cases hfound : (m.2.getD id default).expansions.find? (·.args == e.args) with
  | none =>
      exact absurd (beq_self_eq_true e.args)
        (List.find?_eq_none.mp hfound e (List.mem_of_getElem? hat))
  | some e' =>
      obtain ⟨index', hat'⟩ := List.mem_iff_getElem?.mp (List.mem_of_find?_eq_some hfound)
      have hargs : e'.args = e.args := by simpa using List.find?_some hfound
      cases h.distinct (expansionAt?_eq_some_iff.2 ⟨hdecl, hat'⟩) he hargs
      exact hat'.symm.trans hat

end Typing

namespace TypeTerm

variable {m m' : Memory}

mutual

/-- The type that a term stands for stays the same. -/
theorem find?_mono (h : m.Extends m') (hm : Typing.Catalogued m) (hm' : Typing.Catalogued m') :
    ∀ {term : TypeTerm} {t : TypeId}, term.find? m = some t → term.find? m' = some t
  | .named _, _, ht => ht
  | .pointer target, t, ht => by
      obtain ⟨u, hu, ht⟩ := Option.bind_eq_some_iff.mp ht
      exact Option.bind_eq_some_iff.mpr ⟨u, find?_mono h hm hm' hu,
        h.evolves.shared?_mono hm.indexed hm'.indexed ht⟩
  | .applied id args, t, ht => by
      obtain ⟨types, htypes, ht⟩ := Option.bind_eq_some_iff.mp ht
      obtain ⟨e, he, ht⟩ := Option.bind_eq_some_iff.mp ht
      obtain ⟨index, hat⟩ := List.mem_iff_getElem?.mp (List.mem_of_find?_eq_some he)
      have hargs : e.args = types := by simpa using List.find?_some he
      have hkept := h.kept (expansionAt?_eq_some_iff.2 ⟨rfl, hat⟩)
      exact Option.bind_eq_some_iff.mpr ⟨types, findAll?_mono h hm hm' htypes,
        Option.bind_eq_some_iff.mpr ⟨e, hargs ▸ hm'.find?_args hkept, ht⟩⟩
  | .closure params result, t, ht => by
      obtain ⟨types, htypes, ht⟩ := Option.bind_eq_some_iff.mp ht
      obtain ⟨u, hu, ht⟩ := Option.bind_eq_some_iff.mp ht
      exact Option.bind_eq_some_iff.mpr ⟨types, findAll?_mono h hm hm' htypes,
        Option.bind_eq_some_iff.mpr ⟨u, find?_mono h hm hm' hu,
          h.evolves.shared?_mono hm.indexed hm'.indexed ht⟩⟩

theorem findAll?_mono (h : m.Extends m') (hm : Typing.Catalogued m) (hm' : Typing.Catalogued m') :
    ∀ {terms : List TypeTerm} {types : List TypeId}, findAll? m terms = some types →
      findAll? m' terms = some types
  | [], _, htypes => htypes
  | term :: terms, types, htypes => by
      obtain ⟨t, ht, htypes⟩ := Option.bind_eq_some_iff.mp htypes
      obtain ⟨rest, hrest, htypes⟩ := Option.bind_eq_some_iff.mp htypes
      exact Option.bind_eq_some_iff.mpr ⟨t, find?_mono h hm hm' ht,
        Option.bind_eq_some_iff.mpr ⟨rest, findAll?_mono h hm hm' hrest, htypes⟩⟩

end

end TypeTerm

namespace Typing

variable {ctx : TypingContext σ} {s t u : TypingState σ}

/-! ## Expanding -/

/-- A run of `expand` finds an expansion, or it makes one: the expansion is registered, its members
are declared, and it is queued. -/
inductive ExpandRun (ctx : TypingContext σ) (typeExpr : NodeId → Typing σ TypeId) (id : TemplateId)
    (args : List TypeId) (s : TypingState σ) : TypeId → TypingState σ → Prop
  | found {e : Expansion} (he : e ∈ (s.templates.getD id default).expansions)
      (hsame : s.pool.sameTypes e.args args = true) : ExpandRun ctx typeExpr id args s e.type s
  | made {template : Template} {arg r : TypeId} {name : String} {p : Pool} {t : TypingState σ}
      (hargs : args = [arg]) (hnew : Expanding s id template name arg r p)
      (hdeclared : declareExpanded ctx typeExpr template.decl r
        (enterExpansion s id template name arg r p) = .ok () t) :
      ExpandRun ctx typeExpr id args s r (leaveExpansion s id template t)

/-- What `expand` does when there is no expansion yet. -/
theorem expandRun_of_made {typeExpr : NodeId → Typing σ TypeId} {id : TemplateId}
    {template : Template} {arg r : TypeId} {name : String} {f : Pool → TypeId × Pool}
    (hnew : Expanding s id template name arg (f s.pool).1 (f s.pool).2)
    (h : makeExpansion ctx typeExpr id template name arg f s = .ok r u) :
    ExpandRun ctx typeExpr id [arg] s r u := by
  cases hrun : declareExpanded ctx typeExpr template.decl (f s.pool).1
      (enterExpansion s id template name arg (f s.pool).1 (f s.pool).2) with
  | error e t => cases h.symm.trans (makeExpansion_error hnew.found hrun)
  | ok a t =>
      cases h.symm.trans (makeExpansion_ok hnew.found hrun)
      exact .made rfl hnew hrun

theorem expandRun_of_expand {typeExpr : NodeId → Typing σ TypeId} {id : TemplateId}
    {args : List TypeId} {r : TypeId} (h : expand ctx typeExpr id args s = .ok r u) :
    ExpandRun ctx typeExpr id args s r u := by
  unfold expand at h
  rw [get_bind_apply] at h
  generalize htemplate : s.templates.getD id default = template at h
  cases hfound : template.expansions.find? (fun e => s.pool.sameTypes e.args args) with
  | some e =>
      simp only [hfound] at h
      cases h
      exact .found (htemplate ▸ List.mem_of_find?_eq_some hfound) (by simpa using List.find?_some hfound)
  | none =>
      simp only [hfound] at h
      have hmissing : ∀ e ∈ template.expansions, s.pool.sameTypes e.args args = false := by
        simpa [List.find?_eq_none] using hfound
      match args with
      | [arg] =>
          obtain ⟨pre, _, hpre, h⟩ := bind_eq_ok.mp h
          cases hpre
          obtain ⟨spelt, _, hspelt, h⟩ := bind_eq_ok.mp h
          cases hspelt
          cases hnode : ctx.tree.node template.decl with
          | classDef =>
              simp only [hnode] at h
              exact expandRun_of_made (f := (·.newReference _)) ⟨htemplate, hmissing, .inl rfl⟩ h
          | dataDef =>
              simp only [hnode] at h
              exact expandRun_of_made (f := (·.newData _)) ⟨htemplate, hmissing, .inr rfl⟩ h
          | _ =>
              simp only [hnode] at h
              cases h
      | [] | _ :: _ :: _ => cases h

/-! ## Reading -/

variable (ctx) in
/-- The type that a type expression denotes, together with the term that is read. -/
def readTypeWithin : Nat → NodeId → Typing σ (TypeTerm × TypeId)
  | 0, _ => throw .outOfFuel
  | fuel + 1, node => do
    let read ← match ctx.tree.node node with
      | .namedType name => do
        let t ← namedType name
        pure (.named t, t)
      | .pointerType target => do
        let target ← readTypeWithin fuel target
        let t ← makeType (·.pointer target.2)
        pure (.pointer target.1, t)
      | .templatedType name args => do
        match (← get).scopes.findTemplate name with
        | none => mismatch s!"'{name}' is not a generic type"
        | some id =>
          let args ← args.mapM (readTypeWithin fuel)
          let t ← expand ctx (typeExprWithin ctx fuel) id (args.map (·.2))
          pure (.applied id (args.map (·.1)), t)
      | .closureType params result => do
        let params ← params.mapM (readTypeWithin fuel)
        let result ← readTypeWithin fuel result
        let t ← makeType (·.closure (params.map (·.2)) result.2 [])
        pure (.closure (params.map (·.1)) result.1, t)
      | .typed _ type => readTypeWithin fuel type
      | _ => fail (.internal "node is not a type expression")
    record node read.2
    pure read

/-- What is collected in a loop may be mapped on the way. -/
theorem mapM_map_eq {α β γ : Type} {f : α → Typing σ β} {f' : α → Typing σ γ} {g : β → γ}
    (h : ∀ a, g <$> f a = f' a) (items : List α) : List.map g <$> items.mapM f = items.mapM f' := by
  induction items with
  | nil => simp
  | cons a items ih => simp [← ih, ← h]

/-- Reading gives the type that the type expression denotes and does nothing else. -/
theorem snd_readTypeWithin (fuel : Nat) (node : NodeId) :
    (·.2) <$> readTypeWithin ctx fuel node = typeExprWithin ctx fuel node := by
  induction fuel generalizing node with
  | zero => rfl
  | succ fuel ih =>
      have hall := mapM_map_eq ih
      unfold readTypeWithin typeExprWithin
      cases ctx.tree.node node with
      | namedType => simp
      | pointerType => simp [← ih]
      | closureType => simp [← hall, ← ih]
      | typed => simp [← ih]
      | templatedType name =>
          dsimp only
          rw [map_bind]
          refine bind_congr fun s => ?_
          cases s.scopes.findTemplate name with
          | none => rfl
          | some => simp [← hall]
      | _ => rfl

/-! ## What was read is found -/

/-- The type of the term is found in the memory, and it can be written down. -/
structure Found (read : TypeTerm × TypeId) (s : TypingState σ) : Prop where
  written : s.pool.Written read.2
  found : read.1.find? s.memory = some read.2

theorem Found.stable (ctx : TypingContext σ) {l : Licence} (read : TypeTerm × TypeId) :
    ((memoizing ctx).discipline l).Stable (Found read) := fun _ _ hs hle ht h =>
  ⟨h.written.mono hle.evolves, TypeTerm.find?_mono ⟨hle.evolves, hle.kept⟩ hs.catalogued
    ht.catalogued h.found⟩

/-- A pointer to what was read. -/
theorem Found.pointer {read : TypeTerm × TypeId} (h : Found read s) (hs : Tidy s)
    (ht : Tidy { s with pool := (s.pool.pointer read.2).2 })
    (hle : Expands ctx (ledger s) (ledger { s with pool := (s.pool.pointer read.2).2 })) :
    Found (.pointer read.1, (s.pool.pointer read.2).1)
      { s with pool := (s.pool.pointer read.2).2 } := by
  refine ⟨h.written.pointer hs.catalogued.indexed, Option.bind_eq_some_iff.mpr ⟨read.2, ?_, ?_⟩⟩
  · exact (Found.stable ctx (l := .types) read s _ hs hle ht h).found
  · have hpointer : s.pool.pointer read.2 = s.pool.share (.pointer read.2) := by
      rw [Pool.pointer, h.written.resolve_eq]
    show (s.pool.pointer read.2).2.shared? (.pointer read.2) = some (s.pool.pointer read.2).1
    rw [hpointer]
    exact hs.catalogued.indexed.shared?_share rfl

/-- A closure over what was read. -/
theorem Found.closure {params : List (TypeTerm × TypeId)} {result : TypeTerm × TypeId}
    (hparams : ∀ param ∈ params, Found param s) (hresult : Found result s) (hs : Tidy s)
    (ht : Tidy { s with pool := (s.pool.closure (params.map (·.2)) result.2 []).2 })
    (hle : Expands ctx (ledger s)
      (ledger { s with pool := (s.pool.closure (params.map (·.2)) result.2 []).2 })) :
    Found (.closure (params.map (·.1)) result.1, (s.pool.closure (params.map (·.2)) result.2 []).1)
      { s with pool := (s.pool.closure (params.map (·.2)) result.2 []).2 } := by
  have hstable (read) (h : Found read s) := Found.stable ctx (l := .types) read s _ hs hle ht h
  refine ⟨.closure hs.catalogued.indexed ?_ hresult.written, Option.bind_eq_some_iff.mpr
    ⟨params.map (·.2), ?_, Option.bind_eq_some_iff.mpr ⟨result.2, (hstable _ hresult).found, ?_⟩⟩⟩
  · exact List.forall_mem_map.mpr fun param hparam => (hparams param hparam).written
  · exact TypeTerm.findAll?_map fun param hparam => (hstable _ (hparams param hparam)).found
  · exact hs.catalogued.indexed.shared?_share (d := .closure (params.map (·.2)) result.2 []) rfl

/-- An expansion for what was read. -/
theorem Found.applied {id : TemplateId} {args : List (TypeTerm × TypeId)} {r : TypeId}
    (hargs : ∀ arg ∈ args, Found arg s) (hs : Tidy s) (hr : s.pool.Written r)
    (h : ∃ index decl e, expansionAt? s.templates id index = some (decl, e) ∧
      e.args = args.map (·.2) ∧ e.type = r) : Found (.applied id (args.map (·.1)), r) s := by
  obtain ⟨index, decl, e, he, heq, rfl⟩ := h
  have hfind := hs.catalogued.find?_args he
  rw [heq] at hfind
  exact ⟨hr, Option.bind_eq_some_iff.mpr ⟨args.map (·.2),
    TypeTerm.findAll?_map fun arg harg => (hargs arg harg).found,
    Option.bind_eq_some_iff.mpr ⟨e, hfind, rfl⟩⟩⟩

/-- What `expand` gives is the expansion for the arguments. -/
theorem expand_found {fuel : Nat} {id : TemplateId} {args : List TypeId} (hs : Tidy s)
    (hid : id < s.templates.length) (hargs : ∀ arg ∈ args, s.pool.Written arg) :
    ((memoizing ctx).discipline .types).KeepsAt s (expand ctx (typeExprWithin ctx fuel) id args)
      fun r t => t.pool.Written r ∧ ∃ index decl e,
        expansionAt? t.templates id index = some (decl, e) ∧ e.args = args ∧ e.type = r := by
  have hkeeps : ((memoizing ctx).discipline .types).KeepsAt s
      (expand ctx (typeExprWithin ctx fuel) id args) fun r t => t.pool.Written r ∧ _ :=
    WalkRules.expand_keeps (WalkRules.typeExprWithin_keeps fuel) hs hid hargs
  cases hrun : expand ctx (typeExprWithin ctx fuel) id args s with
  | error e t => exact .of_error hrun (hkeeps.error hrun)
  | ok r t =>
      obtain ⟨ht, hle, hr, -⟩ := hkeeps.ok hrun
      refine .of_ok hrun ht hle ⟨hr, ?_⟩
      cases expandRun_of_expand hrun with
      | @found e he hsame =>
          obtain ⟨index, hat⟩ := List.mem_iff_getElem?.mp he
          have hat' := expansionAt?_eq_some_iff.2 ⟨rfl, hat⟩
          obtain ⟨arg, harg, hwritten, -⟩ := hs.catalogued.written hat'
          obtain ⟨b, rfl, hb⟩ := Pool.sameTypes_singleton.mp (harg ▸ hsame)
          refine ⟨index, _, e, hat', ?_, rfl⟩
          rw [harg, hs.catalogued.indexed.interned.eq_of_sameType hwritten (hargs b (by simp)) hb
            (Pool.sameType_of_resolve_eq rfl)]
      | @made template arg r name p t hone hnew hdeclared =>
          subst hone
          have hentered := hs.enterExpansion hid (hargs arg (by simp)) hnew
          have hinner : ((memoizing ctx).discipline (.members r)).KeepsAt
              (enterExpansion s id template name arg r p)
              (declareExpanded ctx (typeExprWithin ctx fuel) template.decl r) _ :=
            WalkRules.declareExpanded_keeps (WalkRules.typeExprWithin_keeps fuel) template.decl r
              hentered (fun _ _ _ _ _ => True.intro) False.elim
          obtain ⟨-, hexpands, -⟩ := hinner.ok hdeclared
          exact ⟨_, _, _, hexpands.kept (hnew.recorded hid).2, rfl, rfl⟩

/-- Once a type expression was read, the type of the term is found. -/
theorem readTypeWithin_found (fuel : Nat) (node : NodeId) (hs : Tidy s) :
    ((memoizing ctx).discipline .types).KeepsAt s (readTypeWithin ctx fuel node) Found := by
  induction fuel generalizing node s with
  | zero => exact WalkRules.fails_at False.elim
  | succ fuel ih =>
      have hall (nodes : List NodeId) {t : TypingState σ} (ht : Tidy t) :
          ((memoizing ctx).discipline .types).KeepsAt t (nodes.mapM (readTypeWithin ctx fuel))
            fun reads u => ∀ read ∈ reads, Found read u :=
        Discipline.mapM_keeps_all nodes ht (Found.stable ctx) fun node _ u hu _ => ih node hu
      have hrecord {d : Node} (hnode : ctx.tree.node node = d) (hany : d.takesAnyType = true)
          (read : TypeTerm × TypeId) (t : TypingState σ) (ht : Tidy t) (h : Found read t) :
          ((memoizing ctx).discipline .types).KeepsAt t (do record node read.2; pure read) Found :=
        .bind (WalkRules.Keeps.record node read.2 (hnode ▸ hany) t ht) fun _ u hu hle _ =>
          .pure hu (Found.stable ctx read t u ht hle hu h)
      unfold readTypeWithin
      cases hnode : ctx.tree.node node with
      | namedType name =>
          refine .bind (WalkRules.namedType_denotes name s hs) fun r t ht _ hr => ?_
          exact hrecord hnode rfl (.named r, r) t ht ⟨hr, rfl⟩
      | pointerType target =>
          refine .bind (ih target hs) fun read t ht _ h => ?_
          obtain ⟨hu, hle⟩ := ht.changePool ctx (.pointer t.pool read.2)
          refine .bind (P := fun r => Found (.pointer read.1, r))
            (.of_ok rfl hu hle (h.pointer ht hu hle)) fun r u hu _ h => ?_
          exact hrecord hnode rfl (.pointer read.1, r) u hu h
      | closureType params result =>
          refine .bind (hall params hs) fun reads t ht _ hreads => ?_
          refine .bind (ih result ht) fun read u hu hle h => ?_
          have hreads' : ∀ read ∈ reads, Found read u := fun read hread =>
            Found.stable ctx read t u ht hle hu (hreads read hread)
          obtain ⟨hv, hle'⟩ := hu.changePool ctx (.closure u.pool (reads.map (·.2)) read.2 [])
          refine .bind (P := fun r => Found (.closure (reads.map (·.1)) read.1, r))
            (.of_ok rfl hv hle' (.closure hreads' h hu hv hle')) fun r v hv _ h => ?_
          exact hrecord hnode rfl (.closure (reads.map (·.1)) read.1, r) v hv h
      | typed _ type => exact .bind (ih type hs) fun read t ht _ h => hrecord hnode rfl read t ht h
      | templatedType name args =>
          refine .bind_read hs (b := s) rfl ?_
          cases hid : s.scopes.findTemplate name with
          | none => exact WalkRules.stops_at False.elim
          | some id =>
              refine .bind (hall args hs) fun reads t ht hle hreads => ?_
              have hknown : id < t.templates.length := (memoizing ctx).known_mono (l := .types) hs hle
                ((memoizing ctx).known_template (l := .types) hs hid)
              have hwritten : ∀ arg ∈ reads.map (·.2), t.pool.Written arg :=
                List.forall_mem_map.mpr fun read hread => (hreads read hread).written
              refine .bind (expand_found ht hknown hwritten) fun r u hu hle' h => ?_
              have hreads' : ∀ read ∈ reads, Found read u := fun read hread =>
                Found.stable ctx read t u ht hle' hu (hreads read hread)
              exact hrecord hnode rfl (.applied id (reads.map (·.1)), r) u hu (Found.applied hreads' hu h.1 h.2)
      | _ => exact WalkRules.stops_at False.elim

/-! ## Reading at different times -/

variable (ctx) in
/-- The term that a type expression is read as at this point, if it can be read. -/
def termOf? (fuel : Nat) (node : NodeId) (s : TypingState σ) : Option TypeTerm :=
  okWith (fun read _ => read.1) (readTypeWithin ctx fuel node s)

/-- A type expression denotes a type if it is read as some term. -/
theorem typeExprWithin_eq_ok {fuel : Nat} {node : NodeId} {r : TypeId} :
    typeExprWithin ctx fuel node s = .ok r t ↔
      ∃ term, readTypeWithin ctx fuel node s = .ok (term, r) t := by
  rw [← snd_readTypeWithin, map_eq_pure_bind, bind_eq_ok]
  constructor
  · rintro ⟨⟨term, _⟩, _, hread, ⟨⟩⟩
    exact ⟨term, hread⟩
  · rintro ⟨term, hread⟩
    exact ⟨_, _, hread, rfl⟩

theorem termOf?_of_read {fuel : Nat} {node : NodeId} {read : TypeTerm × TypeId}
    (h : readTypeWithin ctx fuel node s = .ok read t) : termOf? ctx fuel node s = some read.1 := by
  rw [termOf?, h]
  rfl

/-- What is known at any moment of typing a unit from `start` on: the state is tidy, and what is
remembered comes from what was remembered at `start` by changes after each of which expansions are
made once. -/
structure Moment (ctx : TypingContext σ) (start s : TypingState σ) : Prop where
  tidy : Tidy s
  since : Remembers ctx start.memory s.memory

namespace Moment

variable {start : TypingState σ}

theorem refl (h : Tidy start) : Moment ctx start start :=
  ⟨h, .refl⟩

/-- A step that keeps the rules leads from one moment to another. -/
theorem next {α : Type} {l : Licence} {step : Typing σ α} {Q : α → TypingState σ → Prop} {a : α}
    (h : Moment ctx start s) (hkeeps : ((memoizing ctx).discipline l).KeepsAt s step Q)
    (hrun : step s = .ok a t) : Moment ctx start t ∧ Q a t := by
  obtain ⟨ht, hle, hQ⟩ := hkeeps.ok hrun
  exact ⟨⟨ht, h.since.trans hle.remembers⟩, hQ⟩

/-- What a type expression denotes is found from then on. -/
theorem read (h : Moment ctx start s) {fuel : Nat} {node : NodeId} {r : TypeId}
    (hrun : typeExprWithin ctx fuel node s = .ok r t) :
    Moment ctx start t ∧ ∃ term, termOf? ctx fuel node s = some term ∧ Found (term, r) t := by
  obtain ⟨term, hread⟩ := typeExprWithin_eq_ok.mp hrun
  obtain ⟨ht, hfound⟩ := h.next (readTypeWithin_found fuel node h.tidy) hread
  exact ⟨ht, term, termOf?_of_read hread, hfound⟩

/-- Type expressions that are read as the same term denote the same type. -/
theorem eq_of_termOf?_eq {s₁ t₁ s₂ t₂ : TypingState σ} {fuel₁ fuel₂ : Nat} {node₁ node₂ : NodeId}
    {r₁ r₂ : TypeId} (h₁ : Moment ctx start s₁) (h₂ : Moment ctx start s₂)
    (hrun₁ : typeExprWithin ctx fuel₁ node₁ s₁ = .ok r₁ t₁)
    (hrun₂ : typeExprWithin ctx fuel₂ node₂ s₂ = .ok r₂ t₂)
    (hterm : termOf? ctx fuel₁ node₁ s₁ = termOf? ctx fuel₂ node₂ s₂)
    (hlater : Remembers ctx t₁.memory t₂.memory) : r₁ = r₂ := by
  obtain ⟨ht₁, term₁, hterm₁, hfound₁⟩ := h₁.read hrun₁
  obtain ⟨ht₂, term₂, hterm₂, hfound₂⟩ := h₂.read hrun₂
  obtain rfl : term₁ = term₂ := Option.some.inj (hterm₁.symm.trans (hterm.trans hterm₂))
  have hstays := TypeTerm.find?_mono (.of_remembers hlater) ht₁.tidy.catalogued ht₂.tidy.catalogued
    hfound₁.found
  exact Option.some.inj (hstays.symm.trans hfound₂.found)

end Moment

end Typing

end ClassLang
