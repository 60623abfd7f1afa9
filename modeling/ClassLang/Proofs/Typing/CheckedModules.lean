import ClassLang.Proofs.Typing.AccountedModules
import ClassLang.Proofs.Typing.CheckedReturns

/-!
# Modules are checked throughout

The steps of typing a module after its names are declared. They touch no imports and report no cycle
of imports, and in the end every method that the module declares was checked: the returns in its
body fit the result of its recorded signature.
-/

namespace ClassLang.Typing

variable {σ : Type} {ctx : TypingContext σ} {free : Prop} {result : Option TypeId}
  {s t : TypingState σ}

/-! ## Layouts and signatures -/

theorem layOutType_steady (statement : NodeId) :
    IsSteady ctx free result (layOutType ctx statement) fun _ => True := by
  unfold layOutType
  split
  · refine (IsSteady.recorded _).seq fun r => ?_
    refine (collectIvarsInto_steady typeExpr_steady _ _ _ _).seq fun ivars => ?_
    exact .updatePool fun p => p.setIvars_free r ivars
  · refine (IsSteady.recorded _).seq fun r => ?_
    refine (addCases_steady typeExpr_steady _ _).seq fun added => ?_
    refine (IsSteady.forM (P := fun _ => True) fun variant _ u hu _ => ?_).trivial
    cases hname : u.pool.caseShortName? variant with
    | none =>
        refine .of_ok (a := ⟨⟩) (t := u) ?_ hu (.refl u) True.intro
        show EStateM.Result.ok () _ = _
        simp only [hname]
    | some name =>
        refine .of_ok (a := ⟨⟩) (t := { u with
          scopes := u.scopes.bindModule name (.type variant)
          exports := u.exports.setType name variant }) ?_ ?_
          (.of_same ⟨rfl, rfl, rfl, rfl⟩ rfl rfl) True.intro
        · show EStateM.Result.ok () _ = _
          simp only [hname]
        · exact { hu with scopes := hu.scopes.bindModule (by simp) }
  · exact .pure True.intro

theorem declareFunction_steady (statement : NodeId) (name : String) :
    IsSteady ctx True result (declareFunction ctx statement name) fun _ => True := by
  refine (signatureOf_steady typeExpr_steady _ _).seq fun sig => .get fun u _ _ => ?_
  dsimp only
  split
  · exact .stop (.mismatch _)
  · intro v hv _
    refine .of_ok (t := { v with
      exports := v.exports.addFunction sig
      table := v.table.setSignature { walk := v.walk, node := statement } sig }) rfl { hv with }
      { (Steady.refl v : Steady True v v) with records := fun w _ hne => ⟨?_, rfl⟩ } True.intro
    rw [TypeTable.getElem?_setSignature, if_neg]
    rintro rfl
    exact hne True.intro rfl

theorem declareSignature_steady (statement : NodeId) :
    IsSteady ctx True result (declareSignature ctx statement) fun _ => True := by
  have hmembers (body : NodeId) :
      IsSteady ctx True result (declareSignature.declareIn ctx statement body) fun _ => True := by
    refine (IsSteady.recorded _).seq fun r u hu hresult => ?_
    refine withTypeFrame_steady (R := fun _ _ => True) r hu fun v hv _ _ hsame => ?_
    exact declareMethodsWithin_steady typeExpr_steady r _ body result v hv (hsame.trans hresult)
  unfold declareSignature
  split
  · exact declareFunction_steady _ _
  · exact declareFunction_steady _ _
  · exact hmembers _
  · exact hmembers _
  · exact .pure True.intro

/-! ## Expansions -/

/-- The members of an expansion are checked. -/
def ExpansionChecked (ctx : TypingContext σ) (decl : NodeId) (walk : InstanceId)
    (table : TypeTable) : Prop :=
  ∀ member, InBody ctx.tree decl member → MemberChecked ctx walk member table

/-- Every expansion is checked or waits to be walked. -/
def AllQueued (ctx : TypingContext σ) (s : TypingState σ) : Prop :=
  ∀ id index decl e, expansionAt? s.templates id index = some (decl, e) →
    (id, index) ∈ s.pending ∨ ExpansionChecked ctx decl e.walk s.table

/-- New expansions are queued. -/
theorem AllQueued.mono (h : AllQueued ctx s) (hs : Orderly ctx s) (hle : Steady False s t) :
    AllQueued ctx t := by
  intro id index decl e he
  rcases hle.queued id index _ he with hold | hnew
  · refine (h id index decl e hold).imp (fun hmem => hle.pending hmem) fun hchecked => ?_
    exact fun member hmember => (hchecked member hmember).mono hs hle
  · exact .inl hnew

theorem walkExpansion_returns (id : TemplateId) (index : Nat) (hs : Orderly ctx s) :
    (steadily ctx False).KeepsAt s (walkExpansion ctx id index) fun _ u =>
      ∀ decl e, expansionAt? s.templates id index = some (decl, e) →
        ExpansionChecked ctx decl e.walk u.table := by
  unfold walkExpansion
  refine .bind_read hs (b := s) rfl ?_
  dsimp only
  split
  · next body expansion hfound hexpansion =>
      have hbody : ctx.tree.bodyOf? (s.templates.getD id default).decl = some body := hfound
      have he := expansionAt?_eq_some_iff.2 ⟨rfl, hexpansion⟩
      refine (withIsolatedFrame_steady (R := fun _ table => ∀ member ∈ ctx.tree.statements body,
        MemberChecked ctx expansion.walk member table) hs (hs.expansions_lt id index _ _ he)
        (Scope.Plain.forType.bind (by simp)) fun t ht _ hwalk => ?_).weaken
        fun _ u _ _ h decl' e' he' member hmember => ?_
      · rw [← hwalk]
        exact walkMembersWithin_returns (inferWithin_returns _) _ body ht
      · obtain ⟨hdecl, hat⟩ := expansionAt?_eq_some_iff.1 he'
        obtain rfl : expansion = e' := Option.some.inj (hexpansion.symm.trans hat)
        obtain ⟨body', hbody', hmember⟩ := hmember
        rw [← hdecl, hbody] at hbody'
        cases hbody'
        exact h member hmember
  · next hnone =>
      refine .pure hs fun decl e he member hmember => ?_
      obtain ⟨hdecl, hat⟩ := expansionAt?_eq_some_iff.1 he
      obtain ⟨body, hbody, -⟩ := hmember
      rw [← hdecl] at hbody
      exact absurd hat (hnone body e hbody)

/-- Imports are not touched, and no import cycle is reported. -/
def sparingImports (σ : Type) : Discipline Halt (TypingState σ) where
  inv _ := True
  le s t := t.imports = s.imports
  fails s h t := h.NoCycle ∧ t.imports = s.imports
  refl _ := rfl
  trans h h' := h'.trans h
  fails_trans h h' := ⟨h'.1, h'.2.trans h⟩

/-- A steady step is quiet. -/
theorem sparing_of_steadily {α : Type} {step : Typing σ α} {Q : α → TypingState σ → Prop}
    (h : (steadily ctx free).KeepsAt s step Q) :
    (sparingImports σ).KeepsAt s step fun a t => Orderly ctx t ∧ Steady free s t ∧ Q a t := by
  unfold Discipline.KeepsAt at h ⊢
  cases hstep : step s with
  | error e t =>
      rw [hstep] at h
      exact h
  | ok a t =>
      simp only [hstep] at h ⊢
      exact ⟨True.intro, h.2.1.imports, h⟩

/-- A step that is steady but for the expansions it takes off the queue. -/
theorem Steady.of_taken {rest : List (TemplateId × Nat)}
    (h : Steady False { s with pending := rest } t) {statements : List NodeId}
    (hchecked : ∀ statement ∈ statements, StatementChecked ctx 0 statement s.table)
    (hs : Orderly ctx s) :
    ∀ statement ∈ statements, StatementChecked ctx 0 statement t.table :=
  fun statement hstatement => StatementChecked.mono (s := { s with pending := rest })
    (hchecked statement hstatement) { hs with } h

/-- In the end no expansion waits to be walked. -/
theorem drainPending_returns (fuel : Nat) {statements : List NodeId} (hs : Orderly ctx s)
    (hq : AllQueued ctx s)
    (hchecked : ∀ statement ∈ statements, StatementChecked ctx 0 statement s.table) :
    (sparingImports σ).KeepsAt s (drainPending ctx fuel) fun _ t => AllQueued ctx t ∧ t.pending = [] ∧
      t.templates.map (·.decl) = s.templates.map (·.decl) ∧
      ∀ statement ∈ statements, StatementChecked ctx 0 statement t.table := by
  induction fuel generalizing s with
  | zero =>
      unfold drainPending
      refine .bind_read True.intro (b := s) rfl ?_
      split
      · exact .of_error rfl ⟨fun _ h => (by cases h), rfl⟩
      · next hempty => exact .pure True.intro ⟨hq, by simpa using hempty, rfl, hchecked⟩
  | succ fuel ih =>
      unfold drainPending
      refine .bind_read True.intro (b := s) rfl ?_
      split
      · next hempty => exact .pure True.intro ⟨hq, hempty, rfl, hchecked⟩
      · next id index rest hpending =>
          let taken : TypingState σ := { s with pending := rest }
          have htaken : Orderly ctx taken := { hs with }
          refine .bind (P := fun _ u => u = taken) (.of_ok rfl True.intro rfl rfl) ?_
          rintro - _ - - rfl
          refine .bind (sparing_of_steadily (walkExpansion_returns id index htaken)) ?_
          rintro _ u - - ⟨hu, hle, hwalked⟩
          have hqueued : AllQueued ctx u := by
            intro id' index' decl e he
            rcases hle.queued id' index' _ he with hold | hnew
            · rcases hq id' index' decl e hold with hmem | hdone
              · rw [hpending] at hmem
                rcases List.mem_cons.mp hmem with heq | hmem
                · cases heq
                  exact .inr (hwalked decl e hold)
                · exact .inl (hle.pending hmem)
              · exact .inr fun member hmember =>
                  MemberChecked.mono (s := taken) (hdone member hmember) htaken hle
            · exact .inl hnew
          refine (ih hu hqueued (hle.of_taken hchecked hs)).weaken ?_
          rintro _ v - - ⟨hq', hempty, hdecls, hchecked'⟩
          exact ⟨hq', hempty, hdecls.trans hle.decls, hchecked'⟩

/-! ## The whole module -/

/-- What is left of typing a module once its names are declared. -/
def typeNamed (ctx : TypingContext σ) : Typing σ TypedModule := do
  let statements := ctx.tree.statements ctx.tree.root
  statements.forM (layOutType ctx)
  statements.forM (declareSignature ctx)
  let _ ← infer ctx ctx.tree.root
  drainPending ctx ctx.tree.expansionBudget
  let s ← get
  pure { table := s.table, templates := s.templates, exports := s.exports }

theorem calculate_eq (ctx : TypingContext σ) :
    calculate ctx = (do
      (ctx.tree.statements ctx.tree.root).forM (declareType ctx)
      typeNamed ctx) :=
  rfl

/-- Every method that the module declares is checked. -/
def ModuleChecked (tree : SyntaxTree) (typed : TypedModule) : Prop :=
  ∀ statement ∈ tree.statements tree.root, ∀ visit, typed.Declares tree statement visit →
    MethodChecked tree typed.table visit

/-- The invariant holds once names are declared. -/
theorem Named.orderly {known : σ → String → Prop}
    (h : Named ctx known (ctx.tree.statements ctx.tree.root) s) : Orderly ctx s where
  walk_lt := by simp [h.walk, h.next]
  inclusions_lt v walk hwalk := by simp [h.inclusions v] at hwalk
  expansions_lt id index decl e he := by
    simp only [expansionAt?, Option.bind_eq_some_iff, Option.map_eq_some_iff] at he
    obtain ⟨template, htemplate, e', he', -⟩ := he
    simp [h.expansions template (List.mem_of_getElem? htemplate)] at he'
  scopes := ⟨h.templates, h.cases, h.traits, by simp [h.inner]⟩

/-- What was checked are the methods that the module declares. -/
theorem moduleChecked_of_parts {typed : TypedModule}
    (hdecls : typed.templates.map (·.decl) = (ctx.tree.statements ctx.tree.root).filter
      fun statement => isGeneric (ctx.tree.node statement))
    (hstatements : ∀ statement ∈ ctx.tree.statements ctx.tree.root,
      StatementChecked ctx 0 statement typed.table)
    (hexpansions : ∀ id index decl e, expansionAt? typed.templates id index = some (decl, e) →
      ExpansionChecked ctx decl e.walk typed.table) : ModuleChecked ctx.tree typed := by
  rintro statement hstatement visit ⟨hmethod, rfl | hmember⟩
  · exact (hstatements statement hstatement).1
  · obtain ⟨body, walk, member, hbody, hwalk, hmember, hreach⟩ := hmember
    refine (TypeTable.Throughout.reached ?_ hreach).method hmethod
    unfold TypedModule.IsInstance TypedModule.templateFor? at hwalk
    split at hwalk
    · next template hfind =>
        obtain ⟨e, he, rfl⟩ := hwalk
        have hdecl : template.decl = statement := by simpa using List.find?_some hfind
        obtain ⟨id, hid⟩ := List.mem_iff_getElem?.mp (List.mem_of_find?_eq_some hfind)
        obtain ⟨index, hindex⟩ := List.mem_iff_getElem?.mp he
        exact hexpansions id index statement e (by simp [expansionAt?, hid, hindex, hdecl]) member
          ⟨body, hbody, hmember⟩
    · next hfind =>
        -- a declaration that is no template is not generic
        subst hwalk
        refine (hstatements statement hstatement).2 ?_ body hbody member hmember
        have hnot : statement ∉ typed.templates.map (·.decl) := by
          simpa [List.find?_eq_none] using hfind
        rw [hdecls, List.mem_filter] at hnot
        have hplain : isGeneric (ctx.tree.node statement) = false := by
          simpa using fun h => hnot ⟨hstatement, h⟩
        unfold SyntaxTree.bodyOf? at hbody
        split at hbody
        · next name param body' hnode =>
            cases param <;> simp_all [Node.declaresType, isGeneric]
        · next name param cases body' hnode =>
            cases param <;> simp_all [Node.declaresType, isGeneric]
        · cases hbody

/-- Once its names are declared, a module is typed without touching imports, and every method is
checked. -/
theorem typeNamed_checks {known : σ → String → Prop}
    (h : Named ctx known (ctx.tree.statements ctx.tree.root) s) :
    (sparingImports σ).KeepsAt s (typeNamed ctx) fun typed t =>
      typed = t.typed ∧ ModuleChecked ctx.tree typed := by
  unfold typeNamed
  have hlayouts : IsSteady ctx True s.returnType
      ((ctx.tree.statements ctx.tree.root).forM (layOutType ctx)) fun _ => True :=
    (IsSteady.forM fun statement _ => layOutType_steady statement).trivial
  refine .bind (sparing_of_steadily (hlayouts s h.orderly rfl)) ?_
  rintro _ t - - ⟨ht, hst, -⟩
  have hsignatures : IsSteady ctx True t.returnType
      ((ctx.tree.statements ctx.tree.root).forM (declareSignature ctx)) fun _ => True :=
    (IsSteady.forM fun statement _ => declareSignature_steady statement).trivial
  refine .bind (sparing_of_steadily (hsignatures t ht rfl)) ?_
  rintro _ u - - ⟨hu, htu, -⟩
  have hdecls := hst.trans htu
  -- all expansions so far are new, so they are queued
  have hq : AllQueued ctx u := by
    intro id index decl e he
    rcases hdecls.queued id index _ he with hold | hnew
    · simp only [expansionAt?, Option.bind_eq_some_iff, Option.map_eq_some_iff] at hold
      obtain ⟨template, htemplate, e', he', -⟩ := hold
      simp [h.expansions template (List.mem_of_getElem? htemplate)] at he'
    · exact .inl hnew
  refine .bind (sparing_of_steadily (infer_checks hu)) ?_
  rintro _ v - - ⟨hv, huv, hchecked⟩
  rw [hdecls.walk, h.walk] at hchecked
  refine .bind (drainPending_returns _ hv (hq.mono hu huv) hchecked) ?_
  rintro _ w - - ⟨hq', hempty, hdecls', hchecked'⟩
  refine .bind_read True.intro (b := w) rfl (.pure True.intro ⟨rfl, ?_⟩)
  refine moduleChecked_of_parts ?_ hchecked' fun id index decl e he => ?_
  · exact hdecls'.trans (huv.decls.trans (hdecls.decls.trans h.decls))
  · exact (hq' id index decl e he).resolve_left (by simp [hempty])

end ClassLang.Typing
