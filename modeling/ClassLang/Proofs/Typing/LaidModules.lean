import ClassLang.Proofs.Typing.OwnedIvars

/-!
# Modules are laid out once

The steps of typing a module, as far as they concern layouts. While names are declared, each plain
type gets an entry of the pool of its own. Then the classes are laid out one after the other, which
leaves the layouts of all others alone, and declaring signatures changes no layout. So all types are
laid out when code is typed, and what is recorded for instance variables stands in their layouts.
-/

namespace ClassLang.Typing

variable {σ : Type} {ctx : TypingContext σ} {p₀ : Pool} {N : TypeId → Prop}
  {start s t : TypingState σ} {opened : Environs} {done : List NodeId} {statement : NodeId}

/-! ## Names -/

/-- Types are recorded for plain declarations only, for each one another type. -/
structure Listed (ctx : TypingContext σ) (done : List NodeId) (s : TypingState σ) : Prop where
  walk : s.walk = 0
  types : ∀ v r, s.table.get? v = some r → (ctx.tree.node v.node).declaresType = true ∧
    v.walk = 0 ∧ v.node ∈ done
  named : ∀ v r, s.table.get? v = some r → ∃ name, (s.pool.data r).nominalName? = some name
  apart : ∀ v w r, s.table.get? v = some r → s.table.get? w = some r → v = w
  params : ∀ template ∈ s.templates,
    (ctx.tree.node template.decl).typeParam? = some template.param
  base : s.scopes.base.ivars = []

namespace Listed

theorem initial (p : Pool) (imports : σ) : Listed ctx [] { pool := p, imports } where
  walk := rfl
  types := by simp [TypeTable.get?]
  named := by simp [TypeTable.get?]
  apart := by simp [TypeTable.get?]
  params := by simp
  base := rfl

theorem lt_size (h : Listed ctx done s) {v : Visit} {r : TypeId} (hr : s.table.get? v = some r) :
    r < s.pool.size := by
  obtain ⟨name, hname⟩ := h.named v r hr
  exact Pool.lt_size_of_data_ne fun hdata => by simp [hdata, TypeData.nominalName?] at hname

/-- A statement that declares no plain type. -/
theorem skip (h : Listed ctx done s) : Listed ctx (done ++ [statement]) s :=
  { h with types := fun v r hr =>
      have ⟨hdecl, hwalk, hmem⟩ := h.types v r hr
      ⟨hdecl, hwalk, List.mem_append_left _ hmem⟩ }

/-- Another import only adds to the pool. -/
theorem evolve (h : Listed ctx done s) {p : Pool} (imports : σ) (hp : s.pool.Evolves p) :
    Listed ctx done { s with pool := p, imports } :=
  { h with named := fun v r hr => (h.named v r hr).imp fun _ => hp.nominalName? }

/-- A plain type is declared under its name. -/
theorem declareTypeName (h : Listed ctx done s)
    (hdecl : (ctx.tree.node statement).declaresType = true) {name : String}
    {f : Pool → TypeId × Pool} (hf : s.pool.Evolves (f s.pool).2) (hnew : (f s.pool).1 = s.pool.size)
    (hname : ∃ name, ((f s.pool).2.data (f s.pool).1).nominalName? = some name) :
    (Discipline.onSuccess _ _).KeepsAt s (do declareTypeName statement name (← makeType f))
      fun _ => Listed ctx (done ++ [statement]) := by
  have hget (v : Visit) (r : TypeId)
      (hr : (s.table.record ⟨s.walk, statement⟩ (f s.pool).1).get? v = some r) :
      v = ⟨s.walk, statement⟩ ∧ r = (f s.pool).1 ∨ s.table.get? v = some r := by
    rw [TypeTable.get?_record] at hr
    split at hr
    · next heq => exact .inl ⟨heq, (Option.some.inj hr).symm⟩
    · exact .inr hr
  refine .of_ok rfl trivial trivial { h with
    types := fun v r hr => ?_
    named := fun v r hr => ?_
    apart := fun v w r hv hw => ?_ }
  · rcases hget v r hr with ⟨rfl, -⟩ | hold
    · exact ⟨hdecl, h.walk, by simp⟩
    · exact h.skip.types v r hold
  · rcases hget v r hr with ⟨-, rfl⟩ | hold
    · exact hname
    · exact (h.named v r hold).imp fun _ => hf.nominalName?
  · rcases hget v r hv with ⟨rfl, rfl⟩ | hold <;> rcases hget w _ hw with ⟨rfl, hr⟩ | hold'
    · rfl
    · exact absurd (h.lt_size hold') (hnew ▸ Nat.lt_irrefl _)
    · exact absurd (h.lt_size hold) (hr ▸ hnew ▸ Nat.lt_irrefl _)
    · exact h.apart v w r hold hold'

/-- A generic type is declared as a template. -/
theorem declareTemplate (h : Listed ctx done s) {name param : String}
    (hparam : (ctx.tree.node statement).typeParam? = some param) :
    (Discipline.onSuccess _ _).KeepsAt s (Typing.declareTemplate statement name param)
      fun _ => Listed ctx done := by
  refine .of_ok rfl trivial trivial { h with
    params := fun template htemplate => ?_
    base := ?_ }
  · rcases List.mem_append.mp htemplate with hold | hnew
    · exact h.params template hold
    · rw [List.mem_singleton.mp hnew]
      exact hparam
  · show (s.scopes.registerTemplate name s.templates.length).base.ivars = []
    unfold ScopeChain.registerTemplate ScopeChain.modifyInnermost
    split <;> exact h.base

/-- A name of the module is bound. -/
theorem bindModule (h : Listed ctx done s) (name : String) (b : Binding) :
    (Discipline.onSuccess _ _).KeepsAt s (modifyScopes (·.bindModule name b))
      fun _ => Listed ctx done :=
  .of_ok rfl trivial trivial { h with }

end Listed

/-- The names of one more statement are declared. -/
theorem declareType_listed (h : Listed ctx done s)
    (hevolves : ∀ path dotted id p imports,
      ctx.importer.resolve path dotted (s.pool, s.imports) = .ok id (p, imports) →
        s.pool.Evolves p) :
    (Discipline.onSuccess _ _).KeepsAt s (declareType ctx statement)
      fun _ => Listed ctx (done ++ [statement]) := by
  unfold declareType
  split
  · exact .of_ok rfl trivial trivial { h.skip with }
  · next path _ =>
      unfold importPath
      split
      · exact .of_error rfl trivial
      · refine .bind (P := fun _ => Listed ctx (done ++ [statement])) ?_ fun id t _ _ ht =>
          ht.bindModule _ _
        unfold Discipline.KeepsAt
        cases hresolve : ctx.importer.resolve path (".".intercalate path) (s.pool, s.imports) with
        | error e r =>
            simp only [hresolve]
            trivial
        | ok id r =>
            obtain ⟨q, imports⟩ := r
            simp only [hresolve]
            exact ⟨trivial, trivial, h.skip.evolve imports (hevolves _ _ _ _ _ hresolve)⟩
  · refine .of_ok rfl trivial trivial { h.skip with base := ?_ }
    show (s.scopes.registerTrait _ _).base.ivars = []
    unfold ScopeChain.registerTrait ScopeChain.modifyInnermost
    split <;> exact h.base
  · next hnode =>
      refine .bind_read trivial (b := _) rfl (h.declareTypeName (by simp [hnode, Node.declaresType])
        (Pool.Change.newReference _ _).evolves rfl ?_)
      exact ⟨_, congrArg TypeData.nominalName? (Pool.data_push_self _ _)⟩
  · next hnode =>
      refine .bind_read trivial (b := _) rfl (h.declareTypeName (by simp [hnode, Node.declaresType])
        (Pool.Change.newData _ _).evolves rfl ?_)
      exact ⟨_, congrArg TypeData.nominalName? (Pool.data_push_self _ _)⟩
  · next hnode =>
      exact .bind (h.declareTemplate (by simp [hnode, Node.typeParam?])) fun _ t _ _ ht =>
        .pure trivial ht.skip
  · next hnode =>
      refine .bind (h.declareTemplate (by simp [hnode, Node.typeParam?])) fun id t _ _ ht => ?_
      refine Discipline.forM_keeps (P := Listed ctx (done ++ [statement])) _ trivial ht.skip ?_
      rintro ⟨decl, index⟩ - u - - hu
      dsimp only
      split
      · exact hu.bindModule _ _
      · exact .pure trivial hu
  · exact .pure trivial h.skip

/-- The names of all statements are declared. -/
theorem declareTypes_listed (hT : p₀.Territory N) (hlawful : ctx.importer.Lawful)
    (statements : List NodeId) (hs : Confined ctx p₀ N s) (h : Listed ctx done s) :
    (confinement ctx p₀ N).KeepsAt s (statements.forM (declareType ctx)) fun _ =>
      Listed ctx (done ++ statements) := by
  induction statements generalizing s done with
  | nil => exact .pure hs (by simpa using h)
  | cons statement statements ih =>
      show (confinement ctx p₀ N).KeepsAt s
        (declareType ctx statement >>= fun _ => statements.forM (declareType ctx)) _
      have hstep : (Discipline.onSuccess _ _).KeepsAt s (declareType ctx statement)
          fun _ => Listed ctx (done ++ [statement]) :=
        declareType_listed h fun path dotted id p imports hrun => by
          have himport := hlawful path dotted s.pool s.imports _ (hs.pool.inner hT) hs.exportsFit
          rw [hrun] at himport
          exact himport.2.1.evolves
      refine .bind ((declareType_confined hT hlawful _ hs).and hstep) fun _ t ht _ hlisted => ?_
      simpa using ih ht hlisted.2

/-! ## Layouts -/

/-- The state of typing while types are laid out and signatures are declared, those of `done` being
laid out, after names were declared in `start`. -/
structure LayingOut (ctx : TypingContext σ) (start : TypingState σ) (opened : Environs)
    (done : List NodeId) (s : TypingState σ) : Prop extends Laid ctx start opened done s where
  types : ∀ v, (ctx.tree.node v.node).declaresType = true → s.table.get? v = start.table.get? v
  size_le : start.pool.size ≤ s.pool.size
  made : ∀ id index decl e, expansionAt? s.templates id index = some (decl, e) →
    start.pool.size ≤ e.type
  /-- No instance variable was typed yet. -/
  unread : ∀ v name, ctx.tree.node v.node = .ivar name → s.table.get? v = none

/-- Typing is at top level. -/
structure AtTop (s : TypingState σ) : Prop where
  walk : s.walk = 0
  inner : s.scopes.inner = []

theorem AtTop.later {l : Licence} (h : AtTop s) (hle : Restores l s t) : AtTop t :=
  ⟨hle.walk.trans h.walk, hle.inner_eq_nil_iff.mpr h.inner⟩

namespace LayingOut

/-- Watched steps, in which no code is typed. -/
theorem watched {l : Licence} {free : Prop} (h : LayingOut ctx start opened done s)
    (hwatched : Watched ctx s (fun _ => False) l t) (hle : Watches ctx l s t)
    (hsteady : Steady free s t) (hordered : Orderly ctx t)
    (hlayouts : ∀ r < s.pool.size, t.pool.ivarList r = s.pool.ivarList r) :
    LayingOut ctx start opened done t :=
  { h.toLaid.watched hwatched hle hsteady hordered hlayouts with
    types := fun v hv => (hwatched.plain v hv).trans (h.types v hv)
    size_le := Nat.le_trans h.size_le hle.evolves.size_le
    made := fun id index decl e he => by
      rcases hle.made id index decl e he with hold | hmade
      · exact h.made id index decl e hold
      · exact Nat.le_trans h.size_le hmade.le_type
    unread := fun v name hnode => Option.eq_none_iff_forall_ne_some.mpr fun r hr => by
      rcases hwatched.ivars v name r hnode hr with hold | ⟨-, hinside, -⟩
      · simp [h.unread v name hnode] at hold
      · exact hinside }

theorem watchedNowhere (h : LayingOut ctx start opened done s) {names : String → Prop} :
    Watched ctx s (fun _ => False) (.body names) s :=
  .refl h.scopes.templatesBelow h.params

/-- Type expressions are read. -/
theorem keeps {α : Type} {step : Typing σ α} {Q R : α → TypingState σ → Prop}
    (h : LayingOut ctx start opened done s) (htop : AtTop s)
    (hsteady : (steadily ctx False).KeepsAt s step Q)
    (hwatch : ((watching ctx (WatchedCode.nowhere ctx s)).discipline .any).KeepsAt s step R) :
    (Discipline.onSuccess _ _).KeepsAt s step fun _ t =>
      LayingOut ctx start opened done t ∧ AtTop t := by
  cases hrun : step s with
  | error e t => exact .of_error hrun trivial
  | ok a t =>
      obtain ⟨hordered, hst, -⟩ := hsteady.ok hrun
      obtain ⟨hwatched, hle, -⟩ := hwatch.ok hrun
      refine .of_ok hrun trivial trivial ⟨h.watched hwatched hle hst hordered fun r hr => ?_,
        htop.later hle.toRestores⟩
      exact hle.layouts r hr (by simp [Licence.any])

/-- A case gets its short name in the module's frame. -/
theorem bindModule (h : LayingOut ctx start opened done s) (name : String) (r : TypeId)
    (exports : Exports) :
    LayingOut ctx start opened done
      { s with scopes := s.scopes.bindModule name (.type r), exports } :=
  have hlater : s.environs.Precedes
      { s with scopes := s.scopes.bindModule name (.type r), exports }.environs :=
    ⟨.refl _, ⟨[(name, .type r)], rfl⟩, rfl, fun _ _ _ h => h⟩
  { h with
    scopes := h.scopes.bindModule (by simp)
    expansions := fun id index decl e he => (h.expansions id index decl e he).mono hlater
    since := h.since.trans hlater }

/-- The turn of a statement is over, and that of the next one begins. -/
theorem close (h : LayingOut ctx start opened done s)
    (hturn : LayoutTurn ctx start opened s.environs) :
    LayingOut ctx start s.environs done s :=
  { h with
    expansions := fun id index decl e he => (h.expansions id index decl e he).close hturn _ _
    since := .refl _ }

/-- A statement that declares no plain class. -/
theorem skip (h : LayingOut ctx start opened done s)
    (hnode : ∀ name body, ctx.tree.node statement ≠ .classDef name none body) :
    LayingOut ctx start opened (done ++ [statement]) s :=
  { h with
    classes := fun decl hdecl name body r heq hr => by
      rcases List.mem_append.mp hdecl with hold | hnew
      · exact h.classes decl hold name body r heq hr
      · exact absurd heq (List.mem_singleton.mp hnew ▸ hnode name body) }

/-- A class is laid out. All others keep their layouts, as they are other types. -/
theorem setIvars (h : LayingOut ctx start opened done s) {listed : List NodeId}
    (hstart : Listed ctx listed start) (hnew : statement ∉ done) {name : String} {body : NodeId}
    {r : TypeId}
    (hnode : ctx.tree.node statement = .classDef name none body)
    (hr : s.table.get? ⟨0, statement⟩ = some r) {ivars : List (String × TypeId)} {q : Pool}
    (hq : s.pool.setIvars r ivars = .ok q)
    (hlaid : ClassLaidOut ctx start statement body ivars) :
    LayingOut ctx start opened (done ++ [statement]) { s with pool := q } := by
  obtain ⟨hself, hothers⟩ := Pool.ivarList_setIvars hq
  have hevolves : s.pool.Evolves q := (Pool.Change.setIvars hq).evolves
  have hlater : s.environs.Precedes { s with pool := q }.environs :=
    ⟨hevolves, ⟨[], rfl⟩, rfl, fun _ _ _ h => h⟩
  have hstatement : (ctx.tree.node statement).declaresType = true := by
    simp [hnode, Node.declaresType]
  have hr' : start.table.get? ⟨0, statement⟩ = some r :=
    (h.types ⟨0, statement⟩ hstatement).symm.trans hr
  exact { h with
    named := fun decl walk r' hmakes =>
      (h.named decl walk r' hmakes).imp fun _ => hevolves.nominalName?
    classes := fun decl hdecl name' body' r' hnode' hget => by
      have hplain : (ctx.tree.node decl).declaresType = true := by simp [hnode', Node.declaresType]
      rcases List.mem_append.mp hdecl with hold | hlast
      · show ClassLaidOut ctx start decl body' (q.ivarList r')
        have hne : r' ≠ r := by
          rintro rfl
          have heq : (⟨0, decl⟩ : Visit) = ⟨0, statement⟩ :=
            hstart.apart _ _ r' ((h.types ⟨0, decl⟩ hplain).symm.trans hget) hr'
          cases heq
          exact hnew hold
        rw [hothers r' hne]
        exact h.classes decl hold name' body' r' hnode' hget
      · obtain rfl := List.mem_singleton.mp hlast
        rw [hnode] at hnode'
        cases hnode'
        obtain rfl : r = r' := Option.some.inj (hr.symm.trans hget)
        exact hself.symm ▸ hlaid
    expansions := fun id index decl e he => by
      have hne : e.type ≠ r := by
        rintro rfl
        exact absurd (hstart.lt_size hr') (Nat.not_lt_of_le (h.made id index decl e he))
      exact ((h.expansions id index decl e he).mono hlater).of_ivarList_eq (hothers e.type hne)
    since := h.since.trans hlater
    size_le := Nat.le_trans h.size_le hevolves.size_le }

end LayingOut

/-- The context of top-level statements is that of the module. -/
theorem LayingOut.laidOut (h : LayingOut ctx start opened done s) (htop : AtTop s)
    (hcomes : LoopComesTo (ctx.tree.statements ctx.tree.root) (layOutType ctx) start statement s)
    {body : NodeId} {ivars : List (String × TypeId)}
    (hrun : collectIvars ctx (typeExpr ctx) body s = .ok ivars t) :
    ClassLaidOut ctx start statement body ivars := by
  have hlaid := collectIvars_laidOut hrun
  rw [htop.walk, htop.inner] at hlaid
  rw [show s.scopes.findTrait = fun name => ctx.tree.traits.lookup name from
    funext h.scopes.findTrait_eq] at hlaid
  exact ⟨s, t, hcomes, hrun, hlaid⟩

/-- One more statement is laid out. -/
theorem layOutType_laid {listed : List NodeId} (hstart : Listed ctx listed start)
    (h : LayingOut ctx start opened done s) (htop : AtTop s) (hnew : statement ∉ done)
    (hcomes : LoopComesTo (ctx.tree.statements ctx.tree.root) (layOutType ctx) start statement s) :
    (Discipline.onSuccess _ _).KeepsAt s (layOutType ctx statement) fun _ t =>
      LayingOut ctx start opened (done ++ [statement]) t ∧ AtTop t := by
  unfold layOutType
  split
  · next body hnode =>
      refine .bind (recorded_keeps trivial (fun _ => trivial) statement) ?_
      rintro r t - - ⟨rfl, hr⟩
      rw [htop.walk] at hr
      have hcollect : (Discipline.onSuccess _ _).KeepsAt t (collectIvars ctx (typeExpr ctx) body)
          fun _ u => LayingOut ctx start opened done u ∧ AtTop u :=
        h.keeps htop
          (collectIvarsInto_steady typeExpr_steady _ body true [] t h.toOrderly rfl)
          (WalkRules.collectIvarsInto_keeps WalkRules.typeExpr_keeps _ body true [] t
            h.watchedNowhere)
      refine .bind (hcollect.and (Discipline.onSuccess_run _ _)) ?_
      rintro ivars u - - ⟨⟨hu, htop'⟩, hrun⟩
      have hlaid := h.laidOut htop hcomes hrun
      have hr' : u.table.get? ⟨0, statement⟩ = some r := by
        have hdecl : (ctx.tree.node statement).declaresType = true := by
          simp [hnode, Node.declaresType]
        rw [hu.types ⟨0, statement⟩ hdecl, ← h.types ⟨0, statement⟩ hdecl, hr]
      cases hset : updatePool (·.setIvars r ivars) u with
      | error e v => exact .of_error hset trivial
      | ok a v =>
          obtain ⟨q, hq, rfl⟩ := updatePool_eq_ok hset
          exact .of_ok hset trivial trivial
            ⟨hu.setIvars hstart hnew hnode hr' hq hlaid, htop'.walk, htop'.inner⟩
  · next cases _ hnode =>
      have hskip {u : TypingState σ} (hu : LayingOut ctx start opened done u) :
          LayingOut ctx start opened (done ++ [statement]) u := hu.skip (by simp [hnode])
      refine .bind (recorded_keeps trivial (fun _ => trivial) statement) ?_
      rintro r t - - ⟨rfl, -⟩
      let rules := watching ctx (WatchedCode.nowhere ctx t)
      have hwatch : (rules.discipline .any).KeepsAt t (addCases ctx (typeExpr ctx) r cases)
          fun _ _ => True :=
        (WalkRules.addCases_keeps WalkRules.typeExpr_keeps r cases False.elim h.watchedNowhere trivial
          False.elim).trivial
      have hadd := h.keeps htop (addCases_steady typeExpr_steady r cases t h.toOrderly rfl) hwatch
      refine .bind hadd ?_
      rintro added u - - ⟨hu, htop'⟩
      refine Discipline.forM_keeps (P := fun v => LayingOut ctx start opened (done ++ [statement]) v ∧
        AtTop v) _ trivial ⟨hskip hu, htop'⟩ ?_
      rintro variant - v - - ⟨hv, hvtop⟩
      cases hname : v.pool.caseShortName? variant with
      | none =>
          refine .of_ok (a := ⟨⟩) (t := v) ?_ trivial trivial ⟨hv, hvtop⟩
          show EStateM.Result.ok () _ = _
          simp only [hname]
      | some name =>
          refine .of_ok (a := ⟨⟩) (t := { v with
            scopes := v.scopes.bindModule name (.type variant)
            exports := v.exports.setType name variant }) ?_ trivial trivial
            ⟨hv.bindModule name variant _, hvtop.walk, hvtop.inner⟩
          show EStateM.Result.ok () _ = _
          simp only [hname]
  · next hclass _ => exact .pure trivial ⟨h.skip hclass, htop⟩

/-- All statements are laid out. -/
theorem layOutTypes_laid {listed : List NodeId} (hstart : Listed ctx listed start)
    (statements : List NodeId) (hall : ctx.tree.statements ctx.tree.root = done ++ statements)
    (hnodup : (done ++ statements).Nodup) (hdone : done.forM (layOutType ctx) start = .ok ⟨⟩ s)
    (h : LayingOut ctx start s.environs done s) (htop : AtTop s) :
    (Discipline.onSuccess _ _).KeepsAt s (statements.forM (layOutType ctx)) fun _ t =>
      (done ++ statements).forM (layOutType ctx) start = .ok ⟨⟩ t ∧
        LayingOut ctx start t.environs (done ++ statements) t ∧ AtTop t := by
  induction statements generalizing s done with
  | nil => exact .pure trivial ⟨by simpa using hdone, by simpa using h, htop⟩
  | cons statement statements ih =>
      show (Discipline.onSuccess _ _).KeepsAt s
        (layOutType ctx statement >>= fun _ => statements.forM (layOutType ctx)) _
      have hnew : statement ∉ done := fun hmem =>
        List.disjoint_of_nodup_append hnodup hmem (by simp)
      have hcomes : LoopComesTo (ctx.tree.statements ctx.tree.root) (layOutType ctx) start
          statement s := ⟨done, statements, hall, hdone⟩
      refine .bind ((layOutType_laid hstart h htop hnew hcomes).and (Discipline.onSuccess_run _ _))
        fun _ t _ _ ⟨⟨ht, htop'⟩, hrun⟩ => ?_
      have hturn : LayoutTurn ctx start s.environs t.environs :=
        ⟨statement, s, t, hcomes, hrun, rfl, rfl⟩
      simpa using ih (by simpa using hall) (by simpa using hnodup) (forM_concat_ok hdone hrun)
        (ht.close hturn)
        htop'

/-! ## Signatures -/

/-- The signatures of methods are declared in the frame of their type. -/
theorem declareIn_laid {body : NodeId} (h : LayingOut ctx start opened done s) (htop : AtTop s)
    (hdecl : (ctx.tree.node statement).declaresType = true) :
    (Discipline.onSuccess _ _).KeepsAt s (declareSignature.declareIn ctx statement body) fun _ t =>
      LayingOut ctx start opened done t ∧ AtTop t := by
  refine .bind (recorded_keeps trivial (fun _ => trivial) statement) ?_
  rintro r t - - ⟨rfl, hr⟩
  have hmakes : Makes ctx.tree t.table t.templates statement 0 r :=
    .plain hdecl (htop.walk ▸ hr)
  let entered : TypingState σ := { t with
    scopes := t.scopes.push (.forType r (t.pool.ivars r)) }
  have hentered : LayingOut ctx start opened done entered :=
    { h with scopes := h.scopes.push .forType }
  have hwatched : Watched ctx entered (fun _ => False) (.members r) entered := {
    ivars := fun _ _ _ _ hold => .inl hold
    plain := fun _ _ => rfl
    scopes := hentered.scopes.templatesBelow
    params := hentered.params
    body := by simp
    owner := fun r' hr' => by cases hr'; exact h.lt_size hmakes }
  have hwatch : ((watching ctx (WatchedCode.nowhere ctx entered)).discipline (.members r)).KeepsAt
      entered (declareMethods ctx (typeExpr ctx) body r) fun _ _ => True :=
    WalkRules.declareMethodsWithin_keeps WalkRules.typeExpr_keeps _ body r hwatched
      (.inr ⟨r, rfl⟩) False.elim
  -- read as a type expression, the declarations restore the frames
  have hrestore : ((restoring ctx).discipline .types).KeepsAt entered
      (declareMethods ctx (typeExpr ctx) body r) fun _ _ => True :=
    WalkRules.declareMethodsWithin_keeps WalkRules.typeExpr_keeps _ body r trivial (.inl trivial)
      False.elim
  have hsteady := declareMethodsWithin_steady typeExpr_steady r (ctx.tree.size + 1) body
    entered.returnType entered hentered.toOrderly rfl
  refine .bind_read trivial (b := t) rfl ?_
  cases hrun : declareMethods ctx (typeExpr ctx) body r entered with
  | error e u => exact .of_error (within_error hrun) trivial
  | ok a u =>
      obtain ⟨hwatched', hle, -⟩ := hwatch.ok hrun
      obtain ⟨-, hrestores, -⟩ := hrestore.ok hrun
      obtain ⟨hordered, hst, -⟩ := hsteady.ok hrun
      have hu : LayingOut ctx start opened done u := hentered.watched hwatched' hle hst hordered
        fun _ => declareMethods_ivarList hrun
      have hsame : SameContext entered u := Restores.sameContext hrestores
      refine .of_ok (within_ok hrun) trivial trivial
        ⟨{ hu with scopes := hu.scopes.pop }, hsame.walk.trans htop.walk, ?_⟩
      show u.scopes.inner.tail = []
      rw [hsame.inner]
      exact htop.inner

/-- The signature of a function is declared. -/
theorem declareFunction_laid (name : String) (h : LayingOut ctx start opened done s)
    (htop : AtTop s) :
    (Discipline.onSuccess _ _).KeepsAt s (declareFunction ctx statement name) fun _ t =>
      LayingOut ctx start opened done t ∧ AtTop t := by
  let rules := watching ctx (WatchedCode.nowhere ctx s)
  have hwatch : (rules.discipline .any).KeepsAt s (signatureOf ctx (typeExpr ctx) statement none)
      fun _ _ => True :=
    WalkRules.signatureOf_keeps WalkRules.typeExpr_keeps False.elim none s h.watchedNowhere
  have hsig := h.keeps htop (signatureOf_steady typeExpr_steady statement none s h.toOrderly rfl)
    hwatch
  refine .bind hsig fun sig t _ _ ⟨ht, htop'⟩ => .bind_read trivial (b := t) rfl ?_
  dsimp only
  split
  · exact .bind (.of_error (Q := fun _ _ => False) rfl trivial) fun _ _ _ _ h => h.elim
  · refine .bind_read trivial (b := ⟨t.walk, statement⟩) rfl ?_
    refine .of_ok rfl trivial trivial ⟨{ ht with named := fun decl walk r hmakes => ?_ },
      htop'.walk, htop'.inner⟩
    exact ht.named decl walk r (hmakes.mono (fun _ _ h => h) fun _ _ _ h => h)

theorem declareSignature_laid (h : LayingOut ctx start opened done s) (htop : AtTop s) :
    (Discipline.onSuccess _ _).KeepsAt s (declareSignature ctx statement) fun _ t =>
      LayingOut ctx start opened done t ∧ AtTop t := by
  unfold declareSignature
  split
  · exact declareFunction_laid _ h htop
  · exact declareFunction_laid _ h htop
  · next hnode => exact declareIn_laid h htop (by simp [hnode, Node.declaresType])
  · next hnode => exact declareIn_laid h htop (by simp [hnode, Node.declaresType])
  · exact .pure trivial ⟨h, htop⟩

/-! ## The whole module -/

/-- Before types are laid out. -/
theorem LayingOut.initial {known : σ → String → Prop}
    (h : Named ctx known (ctx.tree.statements ctx.tree.root) s)
    (hlisted : Listed ctx (ctx.tree.statements ctx.tree.root) s) :
    LayingOut ctx s s.environs [] s :=
  { h.orderly with
    decls := fun decl hdecl => List.mem_of_mem_filter (h.decls ▸ hdecl)
    params := hlisted.params
    base := hlisted.base
    plain := fun v r _ hr => (hlisted.types v r hr).2
    named := fun decl walk r hmakes => by
      cases hmakes with
      | plain _ hr => exact hlisted.named _ r hr
      | expansion he => simp [h.expansionAt?_eq_none] at he
    classes := by simp
    expansions := fun id index decl e he => by simp [h.expansionAt?_eq_none] at he
    since := .refl _
    types := fun _ _ => rfl
    size_le := Nat.le_refl _
    made := fun id index decl e he => by simp [h.expansionAt?_eq_none] at he
    unread := fun v name hnode => Option.eq_none_iff_forall_ne_some.mpr fun r hr => by
      have hdecl := (hlisted.types v r hr).1
      simp [hnode, Node.declaresType] at hdecl }

/-- When all types are laid out, nothing is recorded for instance variables. -/
theorem LayingOut.owned (h : LayingOut ctx start opened (ctx.tree.statements ctx.tree.root) s) :
    Owned ctx start opened s :=
  { h with owned := fun v name r hnode hr => by simp [h.unread v name hnode] at hr }

/-- What is known of the layouts when a module was typed whose names were declared in `named`. All
types were laid out in a state since which nothing but type expressions, signatures and code was
read. -/
def OwnedSince (ctx : TypingContext σ) (named t : TypingState σ) : Prop :=
  ∃ laid, (ctx.tree.statements ctx.tree.root).forM (layOutType ctx) named = .ok ⟨⟩ laid ∧
    Owned ctx named laid.environs t

/-- Once its names are declared, the types of a module are laid out, and what is recorded for
instance variables stands in the layouts. -/
theorem typeNamed_owned (hshape : ctx.tree.TreeShaped) {known : σ → String → Prop}
    (h : Named ctx known (ctx.tree.statements ctx.tree.root) s)
    (hlisted : Listed ctx (ctx.tree.statements ctx.tree.root) s) :
    (Discipline.onSuccess _ _).KeepsAt s (typeNamed ctx) fun typed t =>
      typed = t.typed ∧ OwnedSince ctx s t := by
  unfold typeNamed
  have htop : AtTop s := ⟨h.walk, h.inner⟩
  refine .bind (layOutTypes_laid hlisted _ rfl (hshape.nodup_statements ctx.tree.root) rfl
    (.initial h hlisted) htop) fun _ laid _ _ ⟨hlaid, ht, htop'⟩ => ?_
  refine .bind (Discipline.forM_keeps (P := fun u => LayingOut ctx s laid.environs
    (ctx.tree.statements ctx.tree.root) u ∧ AtTop u) _ trivial ⟨ht, htop'⟩
    fun statement _ u _ _ ⟨hu, hutop⟩ => declareSignature_laid hu hutop)
    fun _ u _ _ ⟨hu, hutop⟩ => ?_
  refine .bind (infer_owning hshape hu.owned hutop.walk hutop.inner).succeeds
    fun _ v _ _ ⟨hv, _, _⟩ => ?_
  refine .bind (drainPending_owned hshape _ hv) fun _ w _ _ hw => ?_
  exact .bind_read trivial (b := w) rfl (.pure trivial ⟨rfl, laid, hlaid, hw⟩)

/-- In a tree-shaped unit that is typed, all types are laid out, and what is recorded for instance
variables stands in the layouts. -/
theorem calculate_owned (ctx : TypingContext σ) (hT : p₀.Territory N)
    (hlawful : ctx.importer.Lawful) (hshape : ctx.tree.TreeShaped) {imports : σ}
    (hfits : ctx.importer.ExportsFit p₀ N imports) :
    (Discipline.onSuccess _ _).KeepsAt { pool := p₀, imports } (calculate ctx) fun typed t =>
      typed = t.typed ∧ ∃ named,
        (ctx.tree.statements ctx.tree.root).forM (declareType ctx) { pool := p₀, imports } =
          .ok ⟨⟩ named ∧ OwnedSince ctx named t := by
  -- nothing is asked of the functions that are imported
  have hlinked (p : Pool) (imports : σ) : ctx.importer.Linked (fun _ _ => True) p imports :=
    ⟨fun _ _ _ => trivial, fun _ _ _ _ _ => trivial⟩
  have hconfined : Confined ctx p₀ N { pool := p₀, imports } := .initial hT hfits
  have hnamed := declareTypes_named hT hlawful (fun _ _ _ _ _ _ _ _ _ _ _ _ => hlinked _ _)
    (ctx.tree.statements ctx.tree.root) hconfined (.initial (hlinked p₀ imports))
  have hlisted := declareTypes_listed hT hlawful (ctx.tree.statements ctx.tree.root) hconfined
    (.initial p₀ imports)
  rw [calculate_eq]
  refine .bind ((hnamed.succeeds.and hlisted.succeeds).and (Discipline.onSuccess_run _ _)) ?_
  rintro _ s - - ⟨⟨⟨-, -, hs⟩, -, -, hs'⟩, hrun⟩
  exact (typeNamed_owned hshape hs hs').weaken fun _ _ _ _ ⟨htyped, howned⟩ =>
    ⟨htyped, s, hrun, howned⟩

end ClassLang.Typing
