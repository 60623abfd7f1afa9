import ClassLang.Proofs.Typing.MemoizedModules

/-!
# Walks have numbers of their own

A walk number is handed out for each expansion of a generic type and for each inclusion of a trait,
wherever in the typing of a module that happens: while methods are declared, in the middle of another
expansion, or when the queue of expansions is worked off. `Occasion` names what a number was handed
out for. `Numbered` says that no two occasions have the same number and that everything is filed
under numbers that were handed out; a single record keeps it (`Numbered.records`), as does a new
expansion (`Numbered.expansion`), and therefore all of typing does (`numbering`).

The same rules follow what a stretch of typing leaves alone. It writes under the number of its own
walk, under those of the trait bodies that this walk includes, and under new ones (`LeavesOthers`).
-/

namespace ClassLang

open Relation (ReflTransGen)

/-- What a walk number is handed out for. -/
inductive Occasion where
  /-- Plain code, which has the number 0 from the start. -/
  | plain
  /-- The expansion at a position of a template. -/
  | expansion (id : TemplateId) (index : Nat)
  /-- An inclusion of a trait, seen by the walk in which it stands. -/
  | inclusion (visit : Visit)
deriving DecidableEq, Repr

/-- The walk number of an occasion. -/
def walkOf? (table : TypeTable) (templates : List Template) : Occasion → Option InstanceId
  | .plain => some 0
  | .expansion id index => (expansionAt? templates id index).map fun x => x.2.walk
  | .inclusion visit => table.inclusion? visit

namespace TypeTable

/-- Something is recorded for the visit. -/
def Mentions (table : TypeTable) (visit : Visit) : Prop :=
  table.get? visit ≠ none ∨ table.targets[visit]? ≠ none ∨ table.signatures[visit]? ≠ none ∨
    table.inclusion? visit ≠ none

/-- The number was handed out: numbers are taken from a counter that begins with 1 and that only
`freshInstance` moves on. -/
def HandedOut (table : TypeTable) (walk : InstanceId) : Prop :=
  0 < walk ∧ walk < table.nextInstance

/-- Both tables have the same entries for the visit. -/
structure AgreesAt (table after : TypeTable) (visit : Visit) : Prop where
  type : after.get? visit = table.get? visit
  target : after.targets[visit]? = table.targets[visit]?
  signature : after.signatures[visit]? = table.signatures[visit]?
  inclusion : after.inclusion? visit = table.inclusion? visit

/-- One walk includes the trait body that has another one, directly or through further traits. -/
def Reaches (table : TypeTable) : InstanceId → InstanceId → Prop :=
  ReflTransGen fun walk walk' => ∃ node, table.inclusion? ⟨walk, node⟩ = some walk'

variable {table after : TypeTable} {walk : InstanceId} {visit : Visit}

namespace AgreesAt

theorem refl (table : TypeTable) (visit : Visit) : table.AgreesAt table visit :=
  ⟨rfl, rfl, rfl, rfl⟩

theorem trans {last : TypeTable} (h : table.AgreesAt after visit)
    (h' : after.AgreesAt last visit) : table.AgreesAt last visit :=
  ⟨h'.type.trans h.type, h'.target.trans h.target, h'.signature.trans h.signature,
    h'.inclusion.trans h.inclusion⟩

theorem mentions_iff (h : table.AgreesAt after visit) :
    after.Mentions visit ↔ table.Mentions visit := by
  unfold Mentions
  rw [h.type, h.target, h.signature, h.inclusion]

end AgreesAt

/-! ## A single record -/

theorem AgreesAt.record {other : Visit} (h : visit ≠ other) (table : TypeTable) (r : TypeId) :
    table.AgreesAt (table.record other r) visit :=
  { refl table visit with type := get?_record_of_ne table r h }

namespace Records

/-- What is recorded in one walk leaves the entries of all others alone. -/
theorem agreesAt (h : table.Records walk after) (hne : visit.walk ≠ walk) :
    table.AgreesAt after visit := by
  have hvisit (node : NodeId) : visit ≠ ⟨walk, node⟩ := fun heq => hne (congrArg Visit.walk heq)
  cases h with
  | type node r => exact .record (hvisit node) table r
  | target node target =>
      exact { AgreesAt.refl table visit with
        target := (getElem?_insert_visit _ _ _ _).trans (if_neg (hvisit node)) }
  | signature node sig =>
      exact { AgreesAt.refl table visit with
        signature := (getElem?_insert_visit _ _ _ _).trans (if_neg (hvisit node)) }
  | inclusion node =>
      exact { AgreesAt.refl table visit with
        inclusion := (getElem?_insert_visit _ _ _ _).trans (if_neg (hvisit node)) }
  | unused => exact ⟨rfl, rfl, rfl, rfl⟩

/-- What is mentioned afterwards was mentioned before, or it is filed under the walk. -/
theorem mentions (h : table.Records walk after) (hmentions : after.Mentions visit) :
    table.Mentions visit ∨ visit.walk = walk := by
  by_cases hwalk : visit.walk = walk
  · exact .inr hwalk
  · exact .inl ((h.agreesAt hwalk).mentions_iff.mp hmentions)

/-- An inclusion that is recorded afterwards was recorded before, or it stands in the walk and got
the next number. -/
theorem inclusion? (h : table.Records walk after) : ∃ node, ∀ visit w,
    after.inclusion? visit = some w → table.inclusion? visit = some w ∨
      visit = ⟨walk, node⟩ ∧ w = table.nextInstance ∧ w < after.nextInstance := by
  cases h with
  | inclusion node =>
      refine ⟨node, fun visit w hw => ?_⟩
      have hinsert := (getElem?_insert_visit table.inclusions ⟨walk, node⟩ visit
        table.nextInstance).symm.trans hw
      by_cases hvisit : visit = ⟨walk, node⟩
      · have hnew : w = table.nextInstance := by simpa [hvisit] using hinsert.symm
        exact .inr ⟨hvisit, hnew, Nat.lt_of_le_of_lt (Nat.le_of_eq hnew) (Nat.lt_succ_self _)⟩
      · exact .inl (by simpa [hvisit, TypeTable.inclusion?] using hinsert)
  | _ => exact ⟨0, fun _ _ hw => .inl hw⟩

end Records

end TypeTable

namespace Typing

variable {σ : Type} {ctx : TypingContext σ} {s t : TypingState σ} {table after : TypeTable}
  {templates : List Template}

/-! ## Numbers -/

/-- All walks have numbers of their own, and everything is filed under numbers that are in use. -/
structure Numbered (table : TypeTable) (templates : List Template) : Prop where
  filed : ∀ {visit}, table.Mentions visit → visit.walk < table.nextInstance
  given : ∀ {o w}, walkOf? table templates o = some w → w < table.nextInstance
  apart : ∀ {o o' w}, walkOf? table templates o = some w → walkOf? table templates o' = some w →
    o = o'
  /-- A trait body has a later number than the walk that includes it. -/
  ascending : ∀ {visit w}, table.inclusion? visit = some w → visit.walk < w

namespace Numbered

/-- The table of a module of which nothing was typed. -/
theorem initial : Numbered {} [] where
  filed h := by simp [TypeTable.Mentions, TypeTable.get?, TypeTable.inclusion?] at h
  given {o w} h := by
    cases o with
    | plain => exact Option.some.inj h ▸ Nat.one_pos
    | expansion => simp [walkOf?, expansionAt?] at h
    | inclusion => simp [walkOf?, TypeTable.inclusion?] at h
  apart {o o' w} h h' := by
    cases o <;> cases o' <;> simp_all [walkOf?, expansionAt?, TypeTable.inclusion?]
  ascending h := by simp [TypeTable.inclusion?] at h

/-- One more walk is opened: the next number is handed out for it. -/
theorem open_ {templates' : List Template} (h : Numbered table templates) (new : Occasion)
    (hnext : table.nextInstance ≤ after.nextInstance)
    (hfiled : ∀ visit, after.Mentions visit →
      table.Mentions visit ∨ visit.walk < after.nextInstance)
    (hwalk : ∀ o w, walkOf? after templates' o = some w → walkOf? table templates o = some w ∨
      o = new ∧ w = table.nextInstance ∧ w < after.nextInstance)
    (hnew : ∀ visit, new = .inclusion visit → visit.walk < table.nextInstance) :
    Numbered after templates' where
  filed {visit} hmentions := by
    rcases hfiled visit hmentions with hold | hlt
    · exact Nat.lt_of_lt_of_le (h.filed hold) hnext
    · exact hlt
  given {o w} hw := by
    rcases hwalk o w hw with hold | ⟨-, -, hlt⟩
    · exact Nat.lt_of_lt_of_le (h.given hold) hnext
    · exact hlt
  apart {o o' w} hw hw' := by
    -- the new number is larger than all those that were given before
    rcases hwalk o w hw with hold | ⟨rfl, heq, -⟩ <;>
      rcases hwalk o' w hw' with hold' | ⟨rfl, heq', -⟩
    · exact h.apart hold hold'
    · exact absurd heq' (Nat.ne_of_lt (h.given hold))
    · exact absurd heq (Nat.ne_of_lt (h.given hold'))
    · rfl
  ascending {visit w} hw := by
    rcases hwalk (.inclusion visit) w hw with hold | ⟨heq, rfl, -⟩
    · exact h.ascending hold
    · exact hnew visit heq.symm

/-- A finding is recorded. -/
theorem records {walk : InstanceId} (h : Numbered table templates)
    (hwalk : walk < table.nextInstance) (hrecords : table.Records walk after) :
    Numbered after templates := by
  obtain ⟨node, hinclusion⟩ := hrecords.inclusion?
  have hnext := hrecords.nextInstance_le
  refine h.open_ (.inclusion ⟨walk, node⟩) hnext (fun visit hvisit => ?_) (fun o w hw => ?_) ?_
  · refine (hrecords.mentions hvisit).imp_right fun heq => ?_
    exact heq ▸ Nat.lt_of_lt_of_le hwalk hnext
  · cases o with
    | plain => exact .inl hw
    | expansion id index => exact .inl hw
    | inclusion visit =>
        exact (hinclusion visit w hw).imp_right fun ⟨hvisit, hnew⟩ => ⟨hvisit ▸ rfl, hnew⟩
  · rintro _ ⟨⟩
    exact hwalk

/-- A walk only reaches later ones. -/
theorem le_of_reaches {walk walk' : InstanceId} (h : Numbered table templates)
    (hreaches : table.Reaches walk walk') : walk ≤ walk' := by
  induction hreaches with
  | refl => exact Nat.le_refl _
  | tail _ hstep ih =>
      obtain ⟨node, hnode⟩ := hstep
      have hlt := h.ascending hnode
      exact Nat.le_of_lt (Nat.lt_of_le_of_lt ih hlt)

end Numbered

/-! ## What a stretch of typing leaves alone -/

/-- What a stretch of typing in a walk does to a table: no number is given back, and the entries of
all walks that were there before and that the walk does not include are left as they are. -/
structure LeavesOthers (walk : InstanceId) (table after : TypeTable) : Prop where
  next : table.nextInstance ≤ after.nextInstance
  others : ∀ {visit}, visit.walk < table.nextInstance → ¬ table.Reaches walk visit.walk →
    table.AgreesAt after visit
  /-- No walk that was there before comes to be included. -/
  reaches : ∀ {w w'}, w' < table.nextInstance → after.Reaches w w' → table.Reaches w w'

namespace LeavesOthers

variable {walk walk' : InstanceId}

theorem refl (walk : InstanceId) (table : TypeTable) : LeavesOthers walk table table :=
  ⟨Nat.le_refl _, fun _ _ => .refl table _, fun _ h => h⟩

theorem trans {last : TypeTable} (h : LeavesOthers walk table after)
    (h' : LeavesOthers walk after last) : LeavesOthers walk table last where
  next := Nat.le_trans h.next h'.next
  others hlt hnot :=
    (h.others hlt hnot).trans <| h'.others (Nat.lt_of_lt_of_le hlt h.next) fun hreaches =>
      hnot (h.reaches hlt hreaches)
  reaches hlt hreaches := h.reaches hlt (h'.reaches (Nat.lt_of_lt_of_le hlt h.next) hreaches)

/-- A finding is recorded in the walk. -/
theorem records (h : Numbered table templates) (hwalk : walk < table.nextInstance)
    (hrecords : table.Records walk after) : LeavesOthers walk table after where
  next := hrecords.nextInstance_le
  others _ hnot := hrecords.agreesAt fun heq => hnot (heq ▸ .refl)
  reaches {w w'} hlt hreaches := by
    have hafter := h.records hwalk hrecords
    obtain ⟨node, hinclusion⟩ := hrecords.inclusion?
    induction hreaches with
    | refl => exact .refl
    | tail _ hstep ih =>
        obtain ⟨n, hn⟩ := hstep
        have hbefore := ih (Nat.lt_trans (hafter.ascending hn) hlt)
        -- an inclusion of a walk that was there before was itself there before
        rcases hinclusion _ _ hn with hold | ⟨-, heq, -⟩
        · exact hbefore.tail ⟨n, hold⟩
        · exact absurd heq (Nat.ne_of_lt hlt)

/-- What leaves alone all but an included walk. -/
theorem of_inclusion {node : NodeId} (hinclusion : table.inclusion? ⟨walk, node⟩ = some walk')
    (h : LeavesOthers walk' table after) : LeavesOthers walk table after where
  next := h.next
  others hlt hnot := h.others hlt fun hreaches => hnot (.head ⟨node, hinclusion⟩ hreaches)
  reaches := h.reaches

end LeavesOthers

/-- The state is numbered, and it is in a walk with a number. -/
structure InWalk (s : TypingState σ) : Prop extends Numbered s.table s.templates where
  current : s.walk < s.table.nextInstance

/-- A finding is recorded in the walk of the state. -/
theorem InWalk.recording (hs : InWalk s) (hrecords : s.table.Records s.walk after) :
    InWalk { s with table := after } ∧ s.walk = s.walk ∧ LeavesOthers s.walk s.table after :=
  ⟨{ hs.records hs.current hrecords with
    current := Nat.lt_of_lt_of_le hs.current hrecords.nextInstance_le },
    rfl, .records hs.toNumbered hs.current hrecords⟩

/-! ## New expansions -/

section Expansions

variable {id : TemplateId} {template : Template} {name : String} {arg r : TypeId} {p : Pool}

/-- All expansions that are there after one was registered were there before, but for the new one. -/
theorem Expanding.expansion_cases (h : Expanding s id template name arg r p) {other index : Nat}
    {x : NodeId × Expansion}
    (hx : expansionAt? (openExpansion s id template name arg r p).templates other index = some x) :
    expansionAt? s.templates other index = some x ∨
      other = id ∧ index = template.expansions.length ∧ x.2.walk = s.table.nextInstance := by
  cases hid : s.templates[id]? with
  | none =>
      -- a template that does not exist gets no expansion
      have hset : (openExpansion s id template name arg r p).templates = s.templates :=
        List.set_eq_of_length_le (List.getElem?_eq_none_iff.mp hid)
      rw [hset] at hx
      exact .inl hx
  | some found =>
      obtain rfl : found = template := by simpa [List.getD, hid] using h.found
      rw [expansionAt?_openExpansion hid] at hx
      by_cases hnew : other = id ∧ index = found.expansions.length
      · rw [if_pos hnew] at hx
        cases hx
        exact .inr ⟨hnew.1, hnew.2, rfl⟩
      · rw [if_neg hnew] at hx
        exact .inl hx

/-- When an expansion is registered, its type is recorded in its own walk. -/
theorem agreesAt_enterExpansion {visit : Visit} (hne : visit.walk ≠ s.table.nextInstance) :
    s.table.AgreesAt (enterExpansion s id template name arg r p).table visit :=
  have hvisit : visit ≠ ⟨s.table.nextInstance, template.decl⟩ := fun heq =>
    hne (congrArg Visit.walk heq)
  have hopened : s.table.AgreesAt s.table.freshInstance.2 visit := ⟨rfl, rfl, rfl, rfl⟩
  hopened.trans (.record hvisit s.table.freshInstance.2 r)

/-- A new expansion has the next number, and its members are declared in this walk. -/
theorem InWalk.expansion (hs : InWalk s) (h : Expanding s id template name arg r p) :
    InWalk (enterExpansion s id template name arg r p) := by
  let entered := enterExpansion s id template name arg r p
  have hnumbered : Numbered entered.table entered.templates := by
    refine hs.open_ (.expansion id template.expansions.length) (Nat.le_succ _)
      (fun visit hvisit => ?_) (fun o w hw => ?_) (fun visit hvisit => by cases hvisit)
    · by_cases hwalk : visit.walk = s.table.nextInstance
      · exact .inr (hwalk ▸ Nat.lt_succ_self _)
      · exact .inl ((agreesAt_enterExpansion hwalk).mentions_iff.mp hvisit)
    · cases o with
      | plain => exact .inl hw
      | inclusion visit => exact .inl hw
      | expansion other index =>
          obtain ⟨x, hx, rfl⟩ := Option.map_eq_some_iff.1 hw
          rcases h.expansion_cases hx with hold | ⟨rfl, rfl, hwalk⟩
          · exact .inl (Option.map_eq_some_iff.2 ⟨x, hold, rfl⟩)
          · exact .inr ⟨rfl, hwalk, hwalk ▸ Nat.lt_succ_self _⟩
  exact { hnumbered with current := Nat.lt_succ_self _ }

/-- What is done in the walk of a new expansion leaves everything alone that was there before. -/
theorem LeavesOthers.of_expansion (hs : InWalk s) (h : Expanding s id template name arg r p)
    (hleaves : LeavesOthers s.table.nextInstance
      (enterExpansion s id template name arg r p).table after) :
    LeavesOthers s.walk s.table after := by
  have hentered := hs.expansion h
  have hnext : s.table.nextInstance + 1 ≤ after.nextInstance := hleaves.next
  refine ⟨Nat.le_of_lt hnext, fun {visit} hlt hnot => ?_, fun hlt hreaches => ?_⟩
  · -- the new walk does not reach one that was there before
    have hnew : ¬ (enterExpansion s id template name arg r p).table.Reaches s.table.nextInstance
        visit.walk := fun hreaches =>
      absurd (hentered.le_of_reaches hreaches) (Nat.not_le_of_lt hlt)
    exact (agreesAt_enterExpansion (Nat.ne_of_lt hlt)).trans
      (hleaves.others (Nat.lt_succ_of_lt hlt) hnew)
  · exact hleaves.reaches (Nat.lt_succ_of_lt hlt) hreaches

end Expansions

/-! ## Typing -/

/-- The rules of a walk on which numbers are never given twice. -/
def numbering (ctx : TypingContext σ) : WalkRules ctx where
  inv _ := InWalk
  le _ s t := t.walk = s.walk ∧ LeavesOthers s.walk s.table t.table
  fails _ _ _ := True
  denoted _ _ := True
  known _ _ := True
  filling _ _ _ _ _ := True
  follows := False
  followed := False.elim
  strict := False
  guarantees := False.elim
  follows_of_strict := id
  refl _ s := ⟨rfl, .refl s.walk s.table⟩
  trans := fun ⟨hwalk, h⟩ ⟨hwalk', h'⟩ => ⟨hwalk'.trans hwalk, h.trans (hwalk ▸ h')⟩
  fails_refl _ _ := True.intro
  fails_trans _ _ := True.intro
  denoted_mono _ _ _ := True.intro
  known_mono _ _ _ := True.intro
  types hs := ⟨hs, fun _ ht hle => ⟨ht, hle⟩, fun _ _ => True.intro⟩
  pool hs _ _ := ⟨{ hs with }, rfl, .refl _ _⟩
  case hs _ _ _ _ := ⟨{ hs with }, ⟨rfl, .refl _ _⟩, True.intro⟩
  filling_body _ _ _ := True.intro
  filling_mono _ _ _ := True.intro
  table hs hrecords _ _ := hs.recording hrecords
  target _ _ _ _ hs _ := hs.recording (.target _ _)
  value hs _ := ⟨{ hs with }, rfl, .refl _ _⟩
  ivar hs := ⟨{ hs with }, rfl, .refl _ _⟩
  frame hs _ _ := ⟨{ hs with }, fun t ht hle => ⟨{ ht with }, hle⟩, fun _ _ => True.intro⟩
  walk {l s walk node} hs hinclusion _ := {
    enters := { hs with current := hs.given (o := .inclusion ⟨s.walk, node⟩) hinclusion }
    leaves := fun t ht ⟨_, hle⟩ =>
      ⟨{ ht with current := Nat.lt_of_lt_of_le hs.current hle.next }, rfl,
        hle.of_inclusion hinclusion⟩
    breaks := fun _ _ => True.intro }
  result hs := ⟨{ hs with }, fun t ht hle => ⟨{ ht with }, hle⟩, fun _ _ => True.intro⟩
  expansion_enters hs _ _ hnew := ⟨hs.expansion hnew, fun _ _ _ _ _ => True.intro⟩
  expansion_leaves {l s id template name arg r p t} hs _ _ hnew ht hle _ _ := by
    have hleaves := LeavesOthers.of_expansion hs hnew hle.2
    exact ⟨{ ht with current := Nat.lt_of_lt_of_le hs.current hleaves.next },
      ⟨rfl, hleaves⟩, True.intro⟩
  expansion_breaks _ _ _ _ _ := True.intro
  denoted_name _ _ := True.intro
  denoted_pointer _ _ := True.intro
  denoted_closure _ _ _ := True.intro
  denoted_case _ _ := True.intro
  denoted_expansion _ _ := True.intro
  known_template _ _ := True.intro
  known_case _ _ := True.intro

/-- The rules of `numbering` for a whole module. -/
def numberingModule (ctx : TypingContext σ) : ModuleRules ctx where
  toWalkRules := numbering ctx
  exports _ hs := ⟨{ hs with }, rfl, .refl _ _⟩
  caseName hs _ _ := ⟨{ hs with }, rfl, .refl _ _⟩

/-! ## Names -/

/-- A template is declared. -/
theorem declareTemplate_numbered {decl : NodeId} {name param : String} (hs : InWalk s) :
    ((numbering ctx).discipline .any).KeepsAt s (declareTemplate decl name param) fun _ _ => True := by
  have hwalk : ∀ o, walkOf? s.table (s.templates ++ [({ name, param, decl } : Template)]) o =
      walkOf? s.table s.templates o := by
    intro o
    cases o with
    | expansion id index =>
        exact congrArg (Option.map fun x => x.2.walk) (expansionAt?_append_new name param decl)
    | _ => rfl
  have hafter : Numbered s.table (s.templates ++ [({ name, param, decl } : Template)]) :=
    { hs.toNumbered with
      given := fun h => hs.given (hwalk _ ▸ h)
      apart := fun h h' => hs.apart (hwalk _ ▸ h) (hwalk _ ▸ h') }
  exact .of_ok rfl { hafter with current := hs.current } ⟨rfl, .refl _ _⟩ True.intro

/-- A class or data type is declared under its name. -/
theorem declareTypeName_numbered {decl : NodeId} {name : String} {f : Pool → TypeId × Pool}
    (hs : InWalk s) :
    ((numbering ctx).discipline .any).KeepsAt s (do declareTypeName decl name (← makeType f))
      fun _ _ => True := by
  obtain ⟨hrecorded, hle⟩ := hs.recording (.type decl (f s.pool).1)
  exact .of_ok rfl { hrecorded with } hle True.intro

/-- An import changes neither findings nor templates. -/
theorem importPath_numbered (path : List String) (hs : InWalk s) :
    ((numbering ctx).discipline .any).KeepsAt s (importPath ctx path) fun _ _ => True := by
  unfold importPath
  split
  · exact WalkRules.fails_at False.elim
  · refine .bind (P := fun _ _ => True) ?_ fun _ t ht _ _ =>
      .of_ok rfl { ht with } ⟨rfl, .refl _ _⟩ True.intro
    unfold Discipline.KeepsAt
    cases hresolve : ctx.importer.resolve path (".".intercalate path) (s.pool, s.imports) with
    | error h r =>
        simp only [hresolve]
        exact ⟨True.intro, False.elim⟩
    | ok id r =>
        simp only [hresolve]
        exact ⟨{ hs with }, ⟨rfl, .refl _ _⟩, True.intro⟩

theorem declareType_numbered (statement : NodeId) :
    (numbering ctx).Keeps .any (declareType ctx statement) := by
  intro s hs
  unfold declareType
  split
  · exact .of_ok rfl { hs with } ⟨rfl, .refl _ _⟩ True.intro
  · exact importPath_numbered _ hs
  · exact .of_ok rfl { hs with } ⟨rfl, .refl _ _⟩ True.intro
  · exact .bind_read hs (b := _) rfl (declareTypeName_numbered hs)
  · exact .bind_read hs (b := _) rfl (declareTypeName_numbered hs)
  · exact .bind (declareTemplate_numbered hs) fun _ t ht _ _ => .pure ht True.intro
  · refine .bind (declareTemplate_numbered hs) fun id t ht _ _ => ?_
    refine Discipline.forM_keeps (P := fun _ => True) _ ht True.intro ?_
    rintro ⟨decl, index⟩ - u hu - -
    dsimp only
    split
    · exact .of_ok rfl { hu with } ⟨rfl, .refl _ _⟩ True.intro
    · exact .pure hu True.intro
  · exact .pure hs True.intro

/-! ## The whole module -/

/-- Up to the queue, all of typing is done in the walk of plain code. -/
theorem typeStatements_numbered (ctx : TypingContext σ) :
    (numbering ctx).Keeps .any (typeStatements ctx) :=
  (WalkRules.Keeps.forM fun statement _ => declareType_numbered statement).bind fun _ =>
    (numberingModule ctx).typeDeclared_keeps not_false

/-- Walking the members of an expansion writes in its own walk, in those that it includes and in new
ones. -/
theorem walkBodies_numbered {id : TemplateId} {index : Nat} {decl : NodeId} {e : Expansion}
    (hs : InWalk s) (he : expansionAt? s.templates id index = some (decl, e)) :
    (Discipline.onSuccess Halt (TypingState σ)).KeepsAt s (walkBodies ctx id e) fun _ t =>
      InWalk t ∧ LeavesOthers e.walk s.table t.table := by
  refine .bind_read True.intro (b := s) rfl ?_
  dsimp only
  split
  · next body _ =>
      let frame := (Scope.forType e.type (s.pool.ivars e.type)).bind
        (s.templates.getD id default).param (.type (e.args.headD .void))
      let entered := s.relocate { inner := [frame], walk := e.walk, returnType := none }
      have hwalk : walkOf? s.table s.templates (.expansion id index) = some e.walk := by
        simp [walkOf?, he]
      have hentered : InWalk entered := { hs with current := hs.given hwalk }
      have hkeeps := (numberingModule ctx).walkMembers_keeps not_false body entered hentered
      cases hrun : walkMembers ctx (infer ctx) body entered with
      | error h t => exact .of_error (within_error hrun) True.intro
      | ok a t =>
          obtain ⟨ht, ⟨-, hle⟩, -⟩ := hkeeps.ok hrun
          have hback : InWalk (t.relocate s.site) :=
            { ht with current := Nat.lt_of_lt_of_le hs.current hle.next }
          exact .of_ok (within_ok hrun) True.intro True.intro ⟨hback, hle⟩
  · exact .pure True.intro ⟨hs, .refl _ _⟩

/-- A position without an expansion has nothing to be walked. -/
theorem walkExpansion_numbered (id : TemplateId) (index : Nat) (hs : InWalk s) :
    (Discipline.onSuccess Halt (TypingState σ)).KeepsAt s (walkExpansion ctx id index) fun _ t =>
      InWalk t := by
  cases he : expansionAt? s.templates id index with
  | some x =>
      obtain ⟨decl, e⟩ := x
      have hbodies : (Discipline.onSuccess Halt (TypingState σ)).KeepsAt s (walkBodies ctx id e)
          fun _ t => InWalk t := (walkBodies_numbered hs he).weaken fun _ _ _ _ h => h.1
      exact .of_later (walkBodies ctx id e) (walkExpansion_eq he) True.intro hbodies
  | none =>
      refine .bind_read True.intro (b := s) rfl ?_
      dsimp only
      split
      · next e _ hat =>
          have hsome := expansionAt?_eq_some_iff.2 ⟨rfl, hat⟩
          exact absurd (he.symm.trans hsome) (by simp)
      · exact .pure True.intro hs

theorem drainPending_numbered (fuel : Nat) (hs : InWalk s) :
    (Discipline.onSuccess Halt (TypingState σ)).KeepsAt s (drainPending ctx fuel) fun _ t =>
      InWalk t := by
  induction fuel generalizing s with
  | zero =>
      unfold drainPending
      refine .bind_read True.intro (b := s) rfl ?_
      split
      · exact .of_error rfl True.intro
      · exact .pure True.intro hs
  | succ fuel ih =>
      unfold drainPending
      refine .bind_read True.intro (b := s) rfl ?_
      split
      · exact .pure True.intro hs
      · next id index rest _ =>
          have htaken : InWalk { s with pending := rest } := { hs with }
          refine .bind (P := fun _ t => InWalk t) (.of_ok rfl True.intro True.intro htaken)
            fun _ t _ _ ht => ?_
          exact .bind (walkExpansion_numbered id index ht) fun _ u _ _ hu => ih hu

/-- A module whose walks have numbers of their own. -/
structure WalksApart (module : TypedModule) : Prop where
  /-- No two occasions have the same number, and none has that of plain code. -/
  apart : ∀ {o o' w}, walkOf? module.table module.templates o = some w →
    walkOf? module.table module.templates o' = some w → o = o'
  /-- Expansions and inclusions have numbers that were handed out. -/
  given : ∀ {o w}, walkOf? module.table module.templates o = some w →
    o = .plain ∨ module.table.HandedOut w
  /-- Everything is recorded in plain code or under a number that was handed out. -/
  filed : ∀ {visit}, module.table.Mentions visit → visit.walk = 0 ∨ module.table.HandedOut visit.walk
  /-- What is recorded in one of the walks leaves the entries of all others alone. -/
  kept : ∀ {o o' w w'}, o ≠ o' → walkOf? module.table module.templates o = some w →
    walkOf? module.table module.templates o' = some w' →
    ∀ {table after : TypeTable}, table.Records w after → ∀ node, table.AgreesAt after ⟨w', node⟩

theorem Numbered.walksApart {exports : Exports} (h : Numbered table templates) :
    WalksApart { table, templates, exports } where
  apart := h.apart
  given {o w} hw := by
    by_cases hzero : w = 0
    · exact .inl (h.apart hw (hzero ▸ rfl))
    · exact .inr ⟨Nat.pos_of_ne_zero hzero, h.given hw⟩
  filed {visit} hmentions := by
    by_cases hzero : visit.walk = 0
    · exact .inl hzero
    · exact .inr ⟨Nat.pos_of_ne_zero hzero, h.filed hmentions⟩
  kept hne hw hw' _ _ hrecords node :=
    hrecords.agreesAt fun heq => hne (h.apart hw (heq ▸ hw'))

/-- Walk numbers never collide. When typing a module succeeds, whatever it imports, the numbers of
all expansions and of all inclusions that are recorded are different from each other and from that of
plain code, and nothing is recorded under a number that was not handed out. -/
theorem calculate_walks_apart {p : Pool} {imports : σ} {typed : TypedModule} {t : TypingState σ}
    (h : calculate ctx { pool := p, imports } = .ok typed t) : WalksApart typed := by
  have hstart : InWalk ({ pool := p, imports } : TypingState σ) :=
    { Numbered.initial with current := Nat.one_pos }
  have hkeeps : (Discipline.onSuccess Halt (TypingState σ)).KeepsAt { pool := p, imports }
      (calculate ctx) fun typed t => WalksApart typed := by
    rw [calculate_eq_drain]
    refine .bind (typeStatements_numbered ctx _ hstart).succeeds fun _ s _ _ hs => ?_
    refine .bind (drainPending_numbered _ hs.1) fun _ t _ _ ht => ?_
    exact .bind_read True.intro (b := t) rfl (.pure True.intro ht.walksApart)
  exact (hkeeps.ok h).2.2

/-- A trait that includes another one is included by a class and by a generic class, of which `main`
makes two expansions. -/
def nestedTraitUnit : SyntaxTree :=
  .ofStatements #[.namedType "Integer", .number 1, .methodDef "one" [] (some 0) 1, .seq [2],
    .traitDef "Counts" 3, .inclusion "Counts", .seq [5], .traitDef "Names" 6, .inclusion "Names",
    .seq [8], .classDef "Plain" none 9, .inclusion "Names", .seq [11],
    .classDef "Box" (some "T") 12, .namedType "Integer", .templatedInstance "Box" [14] [],
    .namedType "String", .templatedInstance "Box" [16] [], .seq [15, 17],
    .methodDef "main" [] none 18] [4, 7, 10, 13, 19]

/-- What a walk of `nestedTraitUnit` is opened for, in the order in which it happens. -/
def nestedTraitOccasions : List Occasion :=
  [.plain, .inclusion ⟨0, 8⟩, .inclusion ⟨1, 5⟩, .expansion 0 0, .inclusion ⟨3, 11⟩,
    .inclusion ⟨4, 5⟩, .expansion 0 1, .inclusion ⟨6, 11⟩, .inclusion ⟨7, 5⟩]

/-- All nine walks of `nestedTraitUnit` have different numbers, also the three of `Counts`, which is
walked in the same trait body each time. -/
theorem calculate_walks_apart_nested :
    ∃ (typed : TypedModule) (t : TypingState Unit),
      calculate { tree := nestedTraitUnit, importer := .none }
        { pool := Pool.initial, imports := () } = .ok typed t ∧ WalksApart typed ∧
      nestedTraitOccasions.map (walkOf? typed.table typed.templates) =
        (List.range 9).map some := by
  have hrun : okWith (fun typed _ => nestedTraitOccasions.map (walkOf? typed.table typed.templates))
      (calculate { tree := nestedTraitUnit, importer := .none }
        { pool := Pool.initial, imports := () }) = some ((List.range 9).map some) := by
    decide +kernel
  obtain ⟨typed, t, hok, hwalks⟩ := exists_of_okWith hrun
  exact ⟨typed, t, hok, calculate_walks_apart hok, hwalks⟩

end Typing

end ClassLang
