import ClassLang.Proofs.Typing.CheckedModules
import ClassLang.Proofs.Typing.Memoization
import ClassLang.Proofs.Typing.WalkedModules

/-!
# A module makes each expansion once and walks it once

The steps of typing a module, down to `calculate`. While names are declared there are no expansions
yet, whatever imports do to the pool. From then on all steps keep the rules of `memoizing`, so that
each expansion is queued when it is made. The queue is worked off in the end, and it grows on the
way: `Drains` lists the expansions in the order in which they are walked, and `Queue` says that those
walked and those queued are all expansions there are, each of them once.
-/

namespace ClassLang.Typing

variable {σ : Type} {ctx : TypingContext σ} {p₀ : Pool} {N : TypeId → Prop} {s t : TypingState σ}

/-! ## Names -/

/-- Operations on the pool alone. -/
theorem Catalogued.passes {ok : Pool → Prop} {p q : Pool} {templates : List Template}
    (h : Catalogued (p, templates)) (ctx : TypingContext σ) (hpasses : Pool.Passes ok p q) :
    Catalogued (q, templates) ∧ Remembers ctx (p, templates) (q, templates) := by
  induction hpasses with
  | refl => exact ⟨h, .refl⟩
  | step _ hchange _ ih =>
      have hnext := ih.1.changePool hchange
      exact ⟨hnext, ih.2.tail ⟨.pool hchange, hnext.memoized ctx⟩⟩

/-- What holds while names are declared. -/
structure Unexpanded (s : TypingState σ) : Prop extends Tidy s where
  none : ∀ id index, expansionAt? s.templates id index = none
  pending : s.pending = []

/-- Expansions are made once, and `inv` holds throughout. -/
def remembering (ctx : TypingContext σ) (inv : TypingState σ → Prop) :
    Discipline Halt (TypingState σ) where
  inv := inv
  le s t := Remembers ctx s.memory t.memory
  fails s _ t := Remembers ctx s.memory t.memory
  refl _ := .refl
  trans := .trans
  fails_trans := .trans

namespace Unexpanded

/-- A module begins without templates. -/
theorem initial {p : Pool} (hbuiltins : Pool.initial.Evolves p) (hindexed : p.Indexed)
    (imports : σ) : Unexpanded { pool := p, imports } where
  catalogued := ⟨hbuiltins, hindexed, by simp [TypingState.memory, expansionAt?],
    by simp [TypingState.memory, expansionAt?]⟩
  templates := ⟨⟨by simp, by simp⟩, by simp⟩
  types := ⟨by simp [Scope.TypesIn], by simp⟩
  next := Nat.one_pos
  walks := by simp [expansionAt?]
  apart := by simp [expansionAt?]
  none := by simp [expansionAt?]
  pending := rfl

end Unexpanded

theorem importPath_memoized (hT : p₀.Territory N) (hlawful : ctx.importer.Lawful)
    (path : List String) (hconfined : Confined ctx p₀ N s) (hs : Unexpanded s) :
    (remembering ctx Unexpanded).KeepsAt s (importPath ctx path) fun _ _ => True := by
  unfold importPath
  split
  · exact .of_error rfl .refl
  · have hfits := hconfined.exportsFit
    have himport := hlawful path (".".intercalate path) s.pool s.imports (Pool.Inner N s.pool)
      (hconfined.pool.inner hT) hfits
    refine .bind (P := fun _ _ => True) ?_ fun id t ht _ _ => .of_ok rfl
      { ht with
        templates := ht.templates.bindModule (by simp)
        types := ht.types.bindModule (by simp) } .refl True.intro
    unfold Discipline.KeepsAt
    cases hresolve : ctx.importer.resolve path (".".intercalate path) (s.pool, s.imports) with
    | error h r =>
        simp only [hresolve] at himport ⊢
        obtain ⟨-, hpasses, -⟩ := himport
        exact (hs.catalogued.passes ctx hpasses).2
    | ok id r =>
        simp only [hresolve] at himport ⊢
        obtain ⟨-, hpasses, -⟩ := himport
        have hpassed := hs.catalogued.passes ctx hpasses
        exact ⟨{ hs with
          catalogued := hpassed.1
          types := hs.types.mono fun _ ht => ht.mono hpasses.evolves }, hpassed.2, True.intro⟩

/-- A class or data type is declared under its name. -/
theorem declareTypeName_memoized {decl : NodeId} {name link : String}
    {f : Pool → String → TypeId × Pool} (hs : Unexpanded s) (hchange : s.pool.Change (f s.pool link).2)
    (hname : ((f s.pool link).2.data (f s.pool link).1).nominalName? = some link) :
    (remembering ctx Unexpanded).KeepsAt s (do declareTypeName decl name (← makeType (f · link)))
      fun _ _ => True := by
  have hcatalogued : Catalogued ((f s.pool link).2, s.templates) :=
    hs.catalogued.changePool hchange
  have hnew : Unexpanded { s with
      pool := (f s.pool link).2
      scopes := s.scopes.bindModule name (.type (f s.pool link).1) } :=
    { hs with
      catalogued := hcatalogued
      templates := hs.templates.bindModule (by simp)
      types := (hs.types.mono fun _ ht => ht.mono hchange.evolves).bindModule fun t ht => by
        cases ht
        exact .of_nominalName hname }
  exact .of_ok rfl { hnew with } (.single ⟨.pool hchange, hcatalogued.memoized ctx⟩) True.intro

/-- A template is declared in the innermost frame. -/
theorem declareTemplate_memoized {decl : NodeId} {name param : String} (hs : Unexpanded s) :
    (remembering ctx Unexpanded).KeepsAt s (declareTemplate decl name param) fun id t =>
      id < t.templates.length := by
  have hcatalogued := hs.catalogued.addTemplate name param decl
  have hat : ∀ id index, expansionAt? (s.templates ++ [({ name, param, decl } : Template)]) id index =
      none := fun id index => (expansionAt?_append_new name param decl).trans (hs.none id index)
  have hcount : s.templates.length <
      (s.templates ++ [({ name, param, decl } : Template)]).length := by simp
  refine .of_ok rfl { hs with
    catalogued := hcatalogued
    templates := (hs.templates.mono (Nat.le_of_lt hcount)).registerTemplate hcount
    types := hs.types.registerTemplate
    walks := fun he => ?_
    apart := fun he => ?_
    none := hat } (.single ⟨.template name param decl, hcatalogued.memoized ctx⟩) hcount
  · rw [hat] at he
    cases he
  · rw [hat] at he
    cases he

theorem declareType_memoized (hT : p₀.Territory N) (hlawful : ctx.importer.Lawful)
    (statement : NodeId) (hconfined : Confined ctx p₀ N s) (hs : Unexpanded s) :
    (remembering ctx Unexpanded).KeepsAt s (declareType ctx statement) fun _ _ => True := by
  unfold declareType
  split
  · exact .of_ok rfl { hs with } .refl True.intro
  · exact importPath_memoized hT hlawful _ hconfined hs
  · exact .of_ok rfl { hs with
      templates := hs.templates.registerTrait
      types := hs.types.registerTrait } .refl True.intro
  · refine .bind_read hs (b := _) rfl (declareTypeName_memoized (f := Pool.newReference) hs
      (.newReference _ _) ?_)
    exact congrArg TypeData.nominalName? (Pool.data_push_self _ _)
  · refine .bind_read hs (b := _) rfl (declareTypeName_memoized (f := Pool.newData) hs
      (.newData _ _) ?_)
    exact congrArg TypeData.nominalName? (Pool.data_push_self _ _)
  · exact .bind (declareTemplate_memoized hs) fun _ t ht _ _ => .pure ht True.intro
  · refine .bind (declareTemplate_memoized hs) fun id t ht _ hid => ?_
    refine (Discipline.forM_keeps (P := fun u => id < u.templates.length) _ ht hid ?_).trivial
    rintro ⟨decl, index⟩ - u hu - hid
    dsimp only
    split
    · refine .of_ok rfl { hu with
        templates := hu.templates.bindModule fun _ _ heq => ?_
        types := hu.types.bindModule (by simp) } .refl hid
      cases heq
      exact hid
    · exact .pure hu hid
  · exact .pure hs True.intro

/-- All names are declared. -/
theorem declareTypes_memoized (hT : p₀.Territory N) (hlawful : ctx.importer.Lawful)
    (statements : List NodeId) (hconfined : Confined ctx p₀ N s) (hs : Unexpanded s) :
    (remembering ctx Unexpanded).KeepsAt s (statements.forM (declareType ctx)) fun _ _ => True := by
  refine (Discipline.forM_keeps (P := Confined ctx p₀ N) statements hs hconfined
    fun statement _ t ht _ hconfined => ?_).trivial
  refine ((declareType_memoized hT hlawful statement hconfined ht).and
    (declareType_confined hT hlawful statement hconfined).succeeds).weaken ?_
  exact fun _ _ _ _ h => h.2.1

/-! ## Layouts and signatures -/

/-- The rules of `memoizing` for a whole module. -/
def memoizingModule (ctx : TypingContext σ) : ModuleRules ctx where
  toWalkRules := memoizing ctx
  exports _ hs := ⟨{ hs with }, .refl ctx _⟩
  caseName hs hr _ := ⟨{ hs with
    templates := hs.templates.bindModule (by simp)
    types := hs.types.bindModule fun t ht => by
      cases ht
      exact hr }, .refl ctx _⟩

/-! ## Walking an expansion -/

/-- The state in which the member bodies of an expansion are walked. -/
def enterBodies (s : TypingState σ) (id : TemplateId) (e : Expansion) : TypingState σ :=
  s.relocate {
    inner := [(Scope.forType e.type (s.pool.ivars e.type)).bind (s.templates.getD id default).param
      (.type (e.args.headD .void))]
    walk := e.walk
    returnType := none }

theorem Tidy.enterBodies {id : TemplateId} {index : Nat} {decl : NodeId} {e : Expansion}
    (hs : Tidy s) (he : expansionAt? s.templates id index = some (decl, e)) :
    Tidy (enterBodies s id e) := by
  obtain ⟨arg, harg, hwritten, -⟩ := hs.catalogued.written he
  refine hs.relocate (fun other hother => ?_) fun other hother => ?_ <;>
    rw [List.mem_singleton.mp hother]
  · exact Scope.BindsValues.forType.templatesBelow.bind (by simp)
  · refine Scope.BindsValues.forType.typesIn.bind fun t ht => ?_
    cases ht
    rw [harg]
    exact hwritten

/-- The member bodies of the expansion at a position are walked in isolation, under the walk of the
expansion and with the type parameter standing for its argument. -/
def walkBodies (ctx : TypingContext σ) (id : TemplateId) (e : Expansion) : Typing σ Unit := do
  let s ← get
  let template := s.templates.getD id default
  match ctx.tree.bodyOf? template.decl with
  | some body =>
      withIsolatedFrame e.walk ((Scope.forType e.type (s.pool.ivars e.type)).bind template.param
        (.type (e.args.headD .void))) (walkMembers ctx (infer ctx) body)
  | none => pure ()

/-- Walking an expansion that is there walks its member bodies. -/
theorem walkExpansion_eq {id : TemplateId} {index : Nat} {decl : NodeId} {e : Expansion}
    (he : expansionAt? s.templates id index = some (decl, e)) :
    walkExpansion ctx id index s = walkBodies ctx id e s := by
  obtain ⟨-, hat⟩ := expansionAt?_eq_some_iff.1 he
  unfold walkExpansion walkBodies
  rw [get_bind_apply, get_bind_apply]
  simp only [hat, SyntaxTree.bodyOf?]
  cases ctx.tree.node (s.templates.getD id default).decl with
  | dataDef _ _ _ body => cases body <;> rfl
  | _ => rfl

theorem walkBodies_memoized {id : TemplateId} {index : Nat} {decl : NodeId} {e : Expansion}
    (hs : Tidy s) (he : expansionAt? s.templates id index = some (decl, e)) :
    ((memoizing ctx).discipline .any).KeepsAt s (walkBodies ctx id e) fun _ _ => True := by
  refine .bind_read hs (b := s) rfl ?_
  dsimp only
  split
  · next body _ =>
      have hentered := hs.enterBodies he
      have hwalk : (memoizing ctx).Keeps .any (walkMembers ctx (infer ctx) body) :=
        (memoizingModule ctx).walkMembers_keeps not_false body
      have hkeeps := hwalk _ hentered
      cases hrun : walkMembers ctx (infer ctx) body (enterBodies s id e) with
      | error h t =>
          have hfails : Remembers ctx s.memory t.memory := (hkeeps.error hrun).1
          exact .of_error (within_error hrun) ⟨hfails, False.elim⟩
      | ok a t =>
          obtain ⟨ht, hle, -⟩ := hkeeps.ok hrun
          exact .of_ok (within_ok hrun) (hs.goBack ht hle.evolves hle.count) hle True.intro
  · exact .pure hs True.intro

/-! ## Working off the queue -/

/-- An expansion with its position. -/
structure Walked where
  id : TemplateId
  index : Nat
  expansion : Expansion

/-- The position of an expansion that is walked. -/
def Walked.position (w : Walked) : TemplateId × Nat :=
  (w.id, w.index)

/-- The queue is worked off: the listed expansions are walked one after the other, each when it is
the oldest in the queue, until the queue is empty. -/
inductive Drains (ctx : TypingContext σ) : List Walked → TypingState σ → TypingState σ → Prop
  | done {s : TypingState σ} (h : s.pending = []) : Drains ctx [] s s
  | walk {s t u : TypingState σ} {id : TemplateId} {index : Nat} {rest : List (TemplateId × Nat)}
      {decl : NodeId} {e : Expansion} {walked : List Walked} (hpending : s.pending = (id, index) :: rest)
      (he : expansionAt? s.templates id index = some (decl, e))
      (hwalk : walkBodies ctx id e { s with pending := rest } = .ok () t)
      (h : Drains ctx walked t u) : Drains ctx (⟨id, index, e⟩ :: walked) s u

/-- The expansions that were walked and those that are queued are all expansions there are, each of
them once. -/
structure Queue (walked : List Walked) (s : TypingState σ) : Prop where
  nodup : (walked.map Walked.position ++ s.pending).Nodup
  mem_iff : ∀ id index, (id, index) ∈ walked.map Walked.position ++ s.pending ↔
    ∃ x, expansionAt? s.templates id index = some x
  recorded : ∀ w ∈ walked, ∃ decl, expansionAt? s.templates w.id w.index = some (decl, w.expansion)

namespace Queue

variable {walked : List Walked}

theorem of_unexpanded (h : Unexpanded s) : Queue [] s :=
  ⟨by simp [h.pending], by simp [h.pending, h.none], by simp⟩

/-- New expansions are queued. -/
theorem expands (h : Queue walked s) (hle : Expands ctx (ledger s) (ledger t)) : Queue walked t := by
  obtain ⟨new, hpending, hnodup, hnew⟩ := hle.queued
  have hpending : t.pending = s.pending ++ new := hpending
  refine ⟨?_, fun id index => ?_, fun w hw => ?_⟩
  · rw [hpending, ← List.append_assoc]
    refine List.nodup_append.mpr ⟨h.nodup, hnodup, ?_⟩
    rintro ⟨id, index⟩ hold _ hmem rfl
    obtain ⟨x, hx⟩ := (h.mem_iff id index).mp hold
    exact absurd (((hnew id index).mp hmem).1.symm.trans hx) (by simp)
  · rw [hpending, ← List.append_assoc, List.mem_append, h.mem_iff, hnew]
    constructor
    · rintro (⟨x, hx⟩ | ⟨-, hx⟩)
      · exact ⟨x, hle.kept hx⟩
      · exact hx
    · intro hx
      cases hbefore : expansionAt? s.templates id index with
      | some x => exact .inl ⟨x, rfl⟩
      | none => exact .inr ⟨hbefore, hx⟩
  · obtain ⟨decl, hdecl⟩ := h.recorded w hw
    exact ⟨decl, hle.kept hdecl⟩

/-- The oldest expansion in the queue is the next one that is walked. -/
theorem take {id : TemplateId} {index : Nat} {rest : List (TemplateId × Nat)} (h : Queue walked s)
    (hpending : s.pending = (id, index) :: rest) :
    ∃ decl e, expansionAt? s.templates id index = some (decl, e) ∧
      Queue (walked ++ [⟨id, index, e⟩]) { s with pending := rest } := by
  obtain ⟨⟨decl, e⟩, he⟩ := (h.mem_iff id index).mp (by simp [hpending])
  have hsame : (walked ++ [Walked.mk id index e]).map Walked.position ++ rest =
      walked.map Walked.position ++ s.pending := by
    simp [hpending, Walked.position]
  refine ⟨decl, e, he, hsame ▸ h.nodup, fun other i => hsame ▸ h.mem_iff other i, fun w hw => ?_⟩
  rcases List.mem_append.mp hw with hw | hw
  · exact h.recorded w hw
  · rw [List.mem_singleton.mp hw]
    exact ⟨decl, he⟩

end Queue

/-- What keeps the rules of a walk is remembered, and queues new expansions. -/
theorem remembering_of_keeps {α : Type} {l : Licence} {step : Typing σ α}
    {Q : α → TypingState σ → Prop} (h : ((memoizing ctx).discipline l).KeepsAt s step Q) :
    (remembering ctx Tidy).KeepsAt s step fun a t => Q a t ∧ Expands ctx (ledger s) (ledger t) := by
  cases hrun : step s with
  | error e t =>
      have hfails : Remembers ctx s.memory t.memory := (h.error hrun).1
      exact .of_error hrun hfails
  | ok a t =>
      obtain ⟨ht, hle, hQ⟩ := h.ok hrun
      have hexpands : Expands ctx (ledger s) (ledger t) := hle
      exact .of_ok hrun ht hexpands.remembers ⟨hQ, hexpands⟩

theorem walkExpansion_memoized {id : TemplateId} {index : Nat} {decl : NodeId} {e : Expansion}
    (hs : Tidy s) (he : expansionAt? s.templates id index = some (decl, e)) :
    (remembering ctx Tidy).KeepsAt s (walkExpansion ctx id index) fun _ t =>
      walkBodies ctx id e s = .ok () t ∧ Expands ctx (ledger s) (ledger t) := by
  have hbodies := (remembering_of_keeps (walkBodies_memoized hs he)).and
    (Discipline.onSuccess_run (walkBodies ctx id e) s)
  unfold Discipline.KeepsAt at hbodies ⊢
  rw [walkExpansion_eq he]
  cases hrun : walkBodies ctx id e s with
  | error h t =>
      rw [hrun] at hbodies
      exact hbodies
  | ok a t =>
      simp only [hrun] at hbodies
      exact ⟨hbodies.1, hbodies.2.1, rfl, hbodies.2.2.1.2⟩

/-- In the end every expansion was walked, also those that were made on the way. -/
theorem drainPending_memoized (fuel : Nat) {walked : List Walked} (hs : Tidy s)
    (hq : Queue walked s) :
    (remembering ctx Tidy).KeepsAt s (drainPending ctx fuel) fun _ t =>
      t.pending = [] ∧ ∃ more, Drains ctx more s t ∧ Queue (walked ++ more) t := by
  have hdone : s.pending = [] →
      ∃ more, Drains ctx more s s ∧ Queue (walked ++ more) s :=
    fun hempty => ⟨[], .done hempty, by rwa [List.append_nil]⟩
  induction fuel generalizing s walked with
  | zero =>
      unfold drainPending
      refine .bind_read hs (b := s) rfl ?_
      split
      · exact .of_error rfl .refl
      · next hempty =>
          have hempty : s.pending = [] := by simpa using hempty
          exact .pure hs ⟨hempty, hdone hempty⟩
  | succ fuel ih =>
      unfold drainPending
      refine .bind_read hs (b := s) rfl ?_
      split
      · next hempty => exact .pure hs ⟨hempty, hdone hempty⟩
      · next id index rest hpending =>
          obtain ⟨decl, e, he, htaken⟩ := hq.take hpending
          let taken : TypingState σ := { s with pending := rest }
          refine .bind (P := fun _ u => u = taken) (.of_ok rfl { hs with } .refl rfl) ?_
          rintro - _ htidy - rfl
          refine .bind (walkExpansion_memoized htidy he) ?_
          rintro _ t ht - ⟨hwalk, hexpands⟩
          have hqueue := htaken.expands hexpands
          refine (ih ht hqueue fun hempty => ⟨[], .done hempty, by rwa [List.append_nil]⟩).weaken ?_
          rintro _ u - - ⟨hempty, more, hdrains, hall⟩
          refine ⟨hempty, _, .walk hpending he hwalk hdrains, ?_⟩
          rwa [List.append_assoc] at hall

/-! ## The whole module -/

/-- Typing a module up to the point where expansions are walked. -/
def typeStatements (ctx : TypingContext σ) : Typing σ Unit := do
  let statements := ctx.tree.statements ctx.tree.root
  statements.forM (declareType ctx)
  statements.forM (layOutType ctx)
  statements.forM (declareSignature ctx)
  let _ ← infer ctx ctx.tree.root

theorem calculate_eq_drain (ctx : TypingContext σ) :
    calculate ctx = (do
      typeStatements ctx
      drainPending ctx ctx.tree.expansionBudget
      let s ← get
      pure { table := s.table, templates := s.templates, exports := s.exports }) := by
  unfold calculate typeStatements
  simp only [bind_assoc, pure_bind]

theorem typeStatements_memoized (hT : p₀.Territory N) (hlawful : ctx.importer.Lawful)
    (hconfined : Confined ctx p₀ N s) (hs : Unexpanded s) :
    (remembering ctx Tidy).KeepsAt s (typeStatements ctx) fun _ t => Queue [] t := by
  unfold typeStatements
  have hnames : (remembering ctx Tidy).KeepsAt s
      ((ctx.tree.statements ctx.tree.root).forM (declareType ctx)) fun _ t => Unexpanded t := by
    have hkeeps := declareTypes_memoized hT hlawful (ctx.tree.statements ctx.tree.root) hconfined hs
    cases hrun : (ctx.tree.statements ctx.tree.root).forM (declareType ctx) s with
    | error h t => exact .of_error hrun (hkeeps.error hrun)
    | ok a t =>
        obtain ⟨ht, hle, -⟩ := hkeeps.ok hrun
        exact .of_ok hrun ht.toTidy hle ht
  have hrest : (memoizing ctx).Keeps .any (do
      (ctx.tree.statements ctx.tree.root).forM (layOutType ctx)
      (ctx.tree.statements ctx.tree.root).forM (declareSignature ctx)
      let _ ← infer ctx ctx.tree.root) := (memoizingModule ctx).typeDeclared_keeps not_false
  refine .bind hnames fun _ t ht _ hunexpanded => ?_
  refine (remembering_of_keeps (hrest t ht)).weaken ?_
  rintro _ u - - ⟨-, hexpands⟩
  exact (Queue.of_unexpanded hunexpanded).expands hexpands

/-- Each expansion of the module is walked exactly once, under a walk of its own. -/
structure WalkedOnce (ctx : TypingContext σ) (walked : List Walked) (s t : TypingState σ) : Prop where
  drains : Drains ctx walked s t
  positions : (walked.map Walked.position).Nodup
  mem_iff : ∀ w, w ∈ walked ↔
    ∃ decl, expansionAt? t.templates w.id w.index = some (decl, w.expansion)
  /-- No two are walked under the same walk, and none under that of plain code. -/
  walks : (walked.map (·.expansion.walk)).Nodup ∧ ∀ w ∈ walked, 0 < w.expansion.walk

theorem Queue.walkedOnce {walked : List Walked} (h : Queue walked t) (ht : Tidy t)
    (hempty : t.pending = []) (hdrains : Drains ctx walked s t) : WalkedOnce ctx walked s t := by
  have hpositions : (walked.map Walked.position).Nodup := by
    have hnodup := h.nodup
    rwa [hempty, List.append_nil] at hnodup
  refine ⟨hdrains, hpositions, fun w => ⟨h.recorded w, fun ⟨decl, hw⟩ => ?_⟩, ?_, fun w hw => ?_⟩
  · -- the position was walked, with the expansion that is recorded there
    have hmem := (h.mem_iff w.id w.index).mpr ⟨_, hw⟩
    rw [hempty, List.append_nil] at hmem
    obtain ⟨⟨id, index, e⟩, hwalked, hposition⟩ := List.mem_map.mp hmem
    obtain ⟨decl', he⟩ := h.recorded _ hwalked
    obtain ⟨w_id, w_index, w_e⟩ := w
    cases hposition
    cases he.symm.trans hw
    exact hwalked
  · refine List.Nodup.map_on (fun w hw w' hw' heq => ?_) (List.Nodup.of_map _ hpositions)
    obtain ⟨decl, he⟩ := h.recorded w hw
    obtain ⟨decl', he'⟩ := h.recorded w' hw'
    obtain ⟨hid, hindex⟩ := ht.apart he he' heq
    exact List.inj_on_of_nodup_map hpositions hw hw' (Prod.ext hid hindex)
  · obtain ⟨decl, hdecl⟩ := h.recorded w hw
    exact (ht.walks hdecl).1

/-- Typing a module remembers expansions whether it succeeds or fails. If it succeeds, it has walked
each expansion exactly once. -/
theorem calculate_memoized (hT : p₀.Territory N) (hlawful : ctx.importer.Lawful)
    (hconfined : Confined ctx p₀ N s) (hs : Unexpanded s) :
    (remembering ctx Tidy).KeepsAt s (calculate ctx) fun typed t =>
      typed = t.typed ∧
        ∃ u walked, typeStatements ctx s = .ok () u ∧ WalkedOnce ctx walked u t := by
  rw [calculate_eq_drain]
  refine .bind ((typeStatements_memoized hT hlawful hconfined hs).and
    (Discipline.onSuccess_run (typeStatements ctx) s)) ?_
  rintro _ u hu - ⟨hq, hrun⟩
  refine .bind (drainPending_memoized _ hu hq) ?_
  rintro _ t ht - ⟨hempty, walked, hdrains, hall⟩
  refine .bind_read ht (b := t) rfl (.pure ht ⟨rfl, u, walked, hrun, ?_⟩)
  exact hall.walkedOnce ht hempty hdrains

end ClassLang.Typing
