import ClassLang.Proofs.Typing.AccountedDeclarations
import ClassLang.Proofs.Typing.Steadiness

/-!
# Declarations and type expressions are steady

Declaring the methods of a body records signatures in the current walk, which is free for them, and
in the fresh walks of inclusions. An expansion is declared in a fresh walk, so type expressions
leave the records of all walks that exist alone.
-/

namespace ClassLang.Typing

variable {σ : Type} {ctx : TypingContext σ} {free : Prop} {result : Option TypeId}
  {s t : TypingState σ}

/-- Type expressions are steady, whatever the declared result. -/
def TypeExprSteady (ctx : TypingContext σ) (free : Prop) (typeExpr : NodeId → Typing σ TypeId) :
    Prop :=
  ∀ result node, IsSteady ctx free result (typeExpr node) fun _ => True

variable {typeExpr : NodeId → Typing σ TypeId}

/-! ## Members -/

/-- The trait that is found is the one of the tree. -/
theorem findTrait_steady (name : String) :
    IsSteady ctx free result (findTrait name) fun body =>
      ctx.tree.traits.lookup name = some body := by
  refine .get fun s hs _ => ?_
  split
  · next body hbody => exact .pure ((hs.scopes.findTrait_eq name).symm.trans hbody)
  · exact .fail (by simp)

theorem collectIvarsInto_steady (htype : TypeExprSteady ctx free typeExpr) (fuel : Nat)
    (body : NodeId) (recording : Bool) (ivars : List (String × TypeId)) :
    IsSteady ctx free result (collectIvarsInto ctx typeExpr fuel body recording ivars)
      fun _ => True := by
  induction fuel generalizing body recording ivars with
  | zero => exact .outOfFuel
  | succ fuel ih =>
      unfold collectIvarsInto
      refine (IsSteady.foldlM (P := fun _ => True) fun ivars statement _ => ?_).trivial
      dsimp only
      split
      · refine (htype result _).seq fun declared => ?_
        split
        · exact .stop (.mismatch _)
        · split
          · exact (IsSteady.record _ _).seq fun _ => .pure True.intro
          · exact .pure True.intro
      · exact (findTrait_steady _).bind fun traitBody _ => ih traitBody _ _
      · exact .pure True.intro

theorem caseFields_steady (htype : TypeExprSteady ctx free typeExpr) (caseName : String)
    (fields : List NodeId) :
    IsSteady ctx free result (caseFields ctx typeExpr caseName fields) fun _ => True := by
  refine (IsSteady.mapM (P := fun _ => True) fun field _ => ?_).trivial
  split
  · exact (htype result _).seq fun _ => (IsSteady.record _ _).seq fun _ => .pure True.intro
  · exact .mismatch _

theorem addCases_steady (htype : TypeExprSteady ctx free typeExpr) (owner : TypeId)
    (cases : List NodeId) :
    IsSteady ctx free result (addCases ctx typeExpr owner cases) fun _ => True := by
  refine (IsSteady.spell owner).seq fun ownerName => ?_
  refine (IsSteady.mapM (P := fun _ => True) fun decl _ => ?_).trivial
  split
  · refine (caseFields_steady htype _ _).seq fun fields => ?_
    intro s hs hresult
    refine .bind_read hs rfl ?_
    cases hadded : s.pool.addCase owner _ _ fields with
    | error e =>
        refine .bind (.of_error (Q := fun _ _ => False) rfl
          ⟨(Pool.addCase_free _ _ _ _ _).noCycle hadded, rfl⟩) fun _ _ _ _ h => h.elim
    | ok r =>
        refine .bind_read hs rfl (.bind (P := fun _ u => u.returnType = result) ?_ ?_)
        · exact .of_ok rfl (hs.setPool r.2) (.of_same ⟨rfl, rfl, rfl, rfl⟩ rfl rfl) hresult
        · exact fun _ u hu _ hu' =>
            ((IsSteady.record _ _).seq fun _ => .pure True.intro) u hu hu'
  · exact .fail (by simp)

/-! ## Signatures -/

theorem declaredParams_steady (htype : TypeExprSteady ctx free typeExpr) (method : String)
    (params : List NodeId) :
    IsSteady ctx free result (declaredParams ctx typeExpr method params) fun _ => True := by
  refine (IsSteady.foldlM (P := fun _ => True) ?_).trivial
  rintro ⟨declared, varargs⟩ ⟨param, i⟩ -
  dsimp only
  split
  · exact (htype result _).seq fun _ => (IsSteady.record _ _).seq fun _ => .pure True.intro
  · split
    · exact .pure True.intro
    · exact .mismatch _
  · exact .mismatch _

theorem linkName_steady (owner : Option TypeId) (attr : Option Attribute) (name : String) :
    IsSteady ctx free result (linkName owner attr name) fun _ => True := by
  unfold linkName
  split
  · exact .pure True.intro
  · exact (IsSteady.spell _).seq fun _ => .pure True.intro
  · split
    · exact .pure True.intro
    · exact .qualified _

theorem signatureOf_steady (htype : TypeExprSteady ctx free typeExpr) (node : NodeId)
    (owner : Option TypeId) :
    IsSteady ctx free result (signatureOf ctx typeExpr node owner) fun _ => True := by
  have hbuild (name params written attr) : IsSteady ctx free result
      (signatureOf.build ctx typeExpr owner name params written attr) fun _ => True := by
    refine (declaredParams_steady htype _ _).seq fun declared => ?_
    have hlink (r : TypeId) : IsSteady ctx free result (do
        let linkName ← linkName owner attr name
        pure (Signature.mk name linkName declared.1 r declared.2)) fun _ => True :=
      (linkName_steady _ _ _).seq fun _ => .pure True.intro
    dsimp only
    cases written with
    | none => exact hlink .void
    | some written => exact (htype result written).seq hlink
  unfold signatureOf
  split
  · exact hbuild _ _ _ _
  · exact hbuild _ _ _ _
  · exact .fail (by simp)

/-! ## Methods -/

/-- The methods of a body are declared in the current walk. -/
def DeclaresSteadily (ctx : TypingContext σ) (step : NodeId → Typing σ Unit) : Prop :=
  ∀ body result, IsSteady ctx True result (step body) fun _ => True

theorem TypeExprSteady.weaken (h : TypeExprSteady ctx False typeExpr) :
    TypeExprSteady ctx free typeExpr :=
  fun result node s hs hresult => weaken_steadily (h result node s hs hresult)

/-- Recording a signature in the current walk. -/
theorem setSignature_steady (statement : NodeId) (sig : Signature) :
    IsSteady ctx True result (do
      let v ← visit statement
      modifyTable (·.setSignature v sig)) fun _ => True := by
  intro s hs _
  refine .of_ok (t := { s with
    table := s.table.setSignature { walk := s.walk, node := statement } sig }) rfl { hs with }
    { (Steady.refl s : Steady True s s) with records := fun v _ hne => ⟨?_, rfl⟩ } True.intro
  rw [TypeTable.getElem?_setSignature, if_neg]
  rintro rfl
  exact hne True.intro rfl

/-- The walk of an inclusion can be entered. -/
theorem Orderly.openInclusion (hs : Orderly ctx s) (statement : NodeId) :
    Orderly ctx { openInclusion s statement with walk := s.table.nextInstance } where
  walk_lt := Nat.lt_succ_self _
  inclusions_lt v walk hwalk := by
    have hwalk : (Typing.openInclusion s statement).table.inclusion? v = some walk := hwalk
    rw [inclusion?_openInclusion] at hwalk
    split at hwalk
    · next heq =>
        cases hwalk
        exact ⟨heq ▸ Nat.lt_succ_of_lt hs.walk_lt, Nat.lt_succ_self _⟩
    · have hold := hs.inclusions_lt v walk hwalk
      exact ⟨Nat.lt_succ_of_lt hold.1, Nat.lt_succ_of_lt hold.2⟩
  expansions_lt id index decl e he := Nat.lt_succ_of_lt (hs.expansions_lt id index decl e he)
  scopes := hs.scopes

/-- Opening an inclusion records it in the current walk. -/
theorem steady_openInclusion (s : TypingState σ) (statement : NodeId) :
    Steady True s (openInclusion s statement) := by
  refine { (Steady.refl s : Steady True s s) with
    next_le := Nat.le_succ _
    records := fun v _ hne => ⟨rfl, ?_⟩ }
  rw [inclusion?_openInclusion, if_neg]
  rintro rfl
  exact hne True.intro rfl

/-- An inclusion is given a fresh walk, in which the methods of the trait are declared. -/
theorem inclusion_steady {step : NodeId → Typing σ Unit} (hstep : DeclaresSteadily ctx step)
    (statement traitBody : NodeId) : IsSteady ctx True result (do
      let included ← modifyGet fun s =>
        let (walk, table) := s.table.freshInstance
        (walk, { s with table })
      let v ← visit statement
      modifyTable (·.setInclusion v included)
      withWalk included (step traitBody)) fun _ => True := by
  intro s hs _
  let inside : TypingState σ :=
    { openInclusion s statement with walk := s.table.nextInstance }
  have hinner := hstep traitBody s.returnType inside (hs.openInclusion statement) rfl
  show (steadily ctx True).KeepsAt s (fun _ =>
    withWalk s.table.nextInstance (step traitBody) (openInclusion s statement)) _
  unfold Discipline.KeepsAt withWalk within
  unfold Discipline.KeepsAt at hinner
  cases hrun : step traitBody inside with
  | error e t =>
      simp only [inside] at hrun
      simp only [hrun, inside] at hinner ⊢
      exact hinner
  | ok a t =>
      simp only [inside] at hrun
      simp only [hrun, inside] at hinner ⊢
      obtain ⟨ht, hle, -⟩ := hinner
      have hsteady : Steady True s { t with walk := s.walk } := by
        refine (steady_openInclusion s statement).trans_within (u := t)
          (⟨rfl, rfl, rfl, rfl⟩ : SameRecords (openInclusion s statement) inside) hle
          ⟨rfl, rfl, rfl, rfl⟩ rfl hle.returnType fun _ hlt => ?_
        exact absurd hlt (Nat.lt_irrefl _)
      exact ⟨ht.setWalk _ (Nat.lt_of_lt_of_le hs.walk_lt hsteady.next_le), hsteady, True.intro⟩

theorem declareMethodsWithin_steady (htype : TypeExprSteady ctx False typeExpr) (owner : TypeId)
    (fuel : Nat) :
    DeclaresSteadily ctx fun body => declareMethodsWithin ctx typeExpr fuel body owner := by
  induction fuel with
  | zero => exact fun _ _ => .outOfFuel
  | succ fuel ih =>
      intro body result
      unfold declareMethodsWithin
      refine (IsSteady.forM (P := fun _ => True) fun statement _ => ?_).trivial
      have hmethod : IsSteady ctx True result (do
          let sig ← signatureOf ctx typeExpr statement (some owner)
          updatePool (·.addMethod owner sig)
          let v ← visit statement
          modifyTable (·.setSignature v sig)) fun _ => True :=
        (signatureOf_steady htype.weaken _ _).seq fun sig =>
          (IsSteady.updatePool fun p => p.addMethod_free owner sig).seq fun _ =>
            setSignature_steady statement sig
      dsimp only
      split
      · exact hmethod
      · exact hmethod
      · exact (findTrait_steady _).bind fun traitBody _ => inclusion_steady ih statement traitBody
      · exact .pure True.intro

/-! ## Expansions -/

/-- The members of an expanded type are declared in its walk. -/
theorem declareExpanded_steady (htype : TypeExprSteady ctx False typeExpr) (decl : NodeId)
    (r : TypeId) :
    IsSteady ctx True result (declareExpanded ctx typeExpr decl r) fun _ => True := by
  unfold declareExpanded
  split
  · refine (collectIvarsInto_steady htype.weaken _ _ _ _).seq fun ivars => ?_
    refine (IsSteady.modifyScopes fun c count hc => hc.foldl_addIvar).seq fun _ => ?_
    refine (IsSteady.updatePool fun p => p.setIvars_free r ivars).seq fun _ => ?_
    exact declareMethodsWithin_steady htype r _ _ _
  · refine (addCases_steady htype.weaken r _).seq fun added => ?_
    split
    · exact declareMethodsWithin_steady htype r _ _ _
    · exact .pure True.intro
  · exact .pure True.intro

section OpenExpansion

variable {id : TemplateId} {template : Template} {name : String} {arg r : TypeId} {p : Pool}

/-- Registering an expansion keeps the invariant. -/
theorem Orderly.openExpansion (hs : Orderly ctx s) (hid : s.templates[id]? = some template) :
    Orderly ctx (openExpansion s id template name arg r p) where
  walk_lt := Nat.lt_succ_of_lt hs.walk_lt
  inclusions_lt v walk hwalk := by
    have hold := hs.inclusions_lt v walk hwalk
    exact ⟨Nat.lt_succ_of_lt hold.1, Nat.lt_succ_of_lt hold.2⟩
  expansions_lt other index decl e he := by
    rw [expansionAt?_openExpansion hid] at he
    split at he
    · cases he
      exact Nat.lt_succ_self _
    · exact Nat.lt_succ_of_lt (hs.expansions_lt other index decl e he)
  scopes := by
    have hcount : (Typing.openExpansion s id template name arg r p).templates.length =
        s.templates.length := by
      simpa using congrArg List.length (decls_openExpansion hid)
    rw [hcount]
    exact hs.scopes.bindModule (by simp)

/-- Once it is queued, a new expansion is no more than a steady step. -/
theorem steady_openExpansion (name : String) (arg r : TypeId) (p : Pool)
    (hid : s.templates[id]? = some template) :
    Steady False s { openExpansion s id template name arg r p with
      pending := s.pending ++ [(id, template.expansions.length)] } := by
  have hdecls : (openExpansion s id template name arg r p).templates.map (·.decl) =
      s.templates.map (·.decl) := decls_openExpansion hid
  refine { (Steady.refl s : Steady False s s) with
    next_le := Nat.le_succ _
    records := fun v _ _ => ⟨rfl, rfl⟩
    decls := hdecls
    expansions := fun other index x hx => ?_
    pending := List.subset_append_left _ _
    queued := fun other index x hx => ?_ }
  · rw [expansionAt?_openExpansion hid, if_neg]
    · exact hx
    · rintro ⟨rfl, rfl⟩
      simp [expansionAt?, hid] at hx
  · rw [expansionAt?_openExpansion hid] at hx
    split at hx
    · next heq => exact .inr (by simp [heq])
    · exact .inl hx

/-- An expansion is registered, declared in a fresh walk and queued. -/
theorem makeExpansion_steady (htype : TypeExprSteady ctx False typeExpr) (name : String)
    (arg : TypeId) (f : Pool → TypeId × Pool) (hs : Orderly ctx s)
    (hid : s.templates[id]? = some template) :
    (steadily ctx False).KeepsAt s
      (makeExpansion ctx typeExpr id template name arg f) fun _ _ => True := by
  have hfound : s.templates.getD id default = template := by simp [List.getD, hid]
  let opened := openExpansion s id template name arg (f s.pool).1 (f s.pool).2
  let isolated := enterExpansion s id template name arg (f s.pool).1 (f s.pool).2
  have hopened : Orderly ctx opened := hs.openExpansion hid
  have hisolated : Orderly ctx isolated :=
    (hopened.setScopes (hopened.scopes.isolate.push (Scope.Plain.forType.bind (by simp)))).setWalk
      none (Nat.lt_succ_self _)
  have hdeclares : IsSteady ctx True none
      (declareExpanded ctx typeExpr template.decl (f s.pool).1) fun _ => True :=
    declareExpanded_steady htype template.decl (f s.pool).1
  have hinner := hdeclares isolated hisolated rfl
  cases hrun : declareExpanded ctx typeExpr template.decl (f s.pool).1 isolated with
  | error e t =>
      have hfails := hinner.error hrun
      exact .of_error (makeExpansion_error hfound hrun) hfails
  | ok a t =>
      obtain ⟨ht, hle, -⟩ := hinner.ok hrun
      -- what was declared inside is seen as a step after the expansion was queued
      let queued : TypingState σ := { isolated with
        pending := s.pending ++ [(id, template.expansions.length)] }
      have hinside : SameRecords { opened with
          pending := s.pending ++ [(id, template.expansions.length)] } queued :=
        ⟨rfl, rfl, rfl, rfl⟩
      have hqueued : Steady True queued { t with
          pending := t.pending ++ [(id, template.expansions.length)] } := by
        refine { hle with
          pending := ?_
          queued := fun other index x hx => (hle.queued other index x hx).imp_right ?_ }
        · exact List.append_subset.mpr ⟨fun x hx => List.mem_append_left _ (hle.pending hx),
            List.subset_append_right _ _⟩
        · exact fun hmem => List.mem_append_left _ hmem
      have hsteady : Steady False s (leaveExpansion s id template t) :=
        (steady_openExpansion name arg (f s.pool).1 (f s.pool).2 hid).trans_within
          hinside hqueued ⟨rfl, rfl, rfl, rfl⟩ rfl rfl fun _ hlt => absurd hlt (Nat.lt_irrefl _)
      refine .of_ok (makeExpansion_ok hfound hrun) ?_ hsteady True.intro
      have hleft := (ht.setScopes (c := t.scopes.restore s.scopes.inner)
        (ht.scopes.restore (hsteady.count.symm ▸ hs.scopes))).setWalk s.returnType
          (Nat.lt_of_lt_of_le hs.walk_lt hsteady.next_le)
      exact { hleft with }

end OpenExpansion

theorem expand_steady (htype : TypeExprSteady ctx False typeExpr) {id : TemplateId}
    {args : List TypeId} (hs : Orderly ctx s) (hid : id < s.templates.length) :
    (steadily ctx free).KeepsAt s (expand ctx typeExpr id args) fun _ _ => True := by
  refine weaken_steadily ?_
  obtain ⟨template, htemplate⟩ : ∃ template, s.templates[id]? = some template :=
    ⟨_, List.getElem?_eq_getElem hid⟩
  refine .bind_read hs (b := s) rfl ?_
  have hget : s.templates.getD id default = template := by simp [List.getD, htemplate]
  rw [hget]
  dsimp only
  split
  · exact .pure hs True.intro
  · split
    · next arg _ =>
        refine .bind_read hs (b := _) rfl (.bind_read hs (b := _) rfl ?_)
        split
        · exact makeExpansion_steady htype _ arg (·.newReference _) hs htemplate
        · exact makeExpansion_steady htype _ arg (·.newData _) hs htemplate
        · exact .of_error rfl ⟨fun path h => (by cases h), rfl⟩
    · exact mismatch_steadily _

theorem namedType_steady (name : String) :
    IsSteady ctx free result (namedType name) fun _ => True := by
  refine .get fun s _ _ => ?_
  dsimp only
  split
  · exact .pure True.intro
  · exact .mismatch _
  · split
    · exact .mismatch _
    · exact .fail (by simp)

/-- Type expressions are steady. -/
theorem typeExprWithin_steady (fuel : Nat) : TypeExprSteady ctx free (typeExprWithin ctx fuel) := by
  suffices TypeExprSteady ctx False (typeExprWithin ctx fuel) from this.weaken
  induction fuel with
  | zero => exact fun _ _ => .outOfFuel
  | succ fuel ih =>
      intro result node
      have hrecord (r : TypeId) :
          IsSteady ctx False result (do record node r; pure r) fun _ => True :=
        (IsSteady.record node r).seq fun _ => .pure True.intro
      have hargs (args : List NodeId) :
          IsSteady ctx False result (args.mapM (typeExprWithin ctx fuel)) fun _ => True :=
        (IsSteady.mapM fun arg _ => ih result arg).trivial
      unfold typeExprWithin
      dsimp only
      split
      · exact (namedType_steady _).seq hrecord
      · refine (ih result _).seq fun target => ?_
        exact IsSteady.makeType.seq hrecord
      · next name args _ =>
          intro s hs hresult
          refine .bind_read hs (b := s) rfl ?_
          split
          · exact .bind (mismatch_steadily (Q := fun _ _ => False) _) fun _ _ _ _ h => h.elim
          · next id hid =>
              refine .bind (IsSteady.mapM (fun arg _ => ih s.returnType arg) s hs rfl) ?_
              intro types u hu hle _
              have hlt : id < u.templates.length :=
                hle.count.symm ▸ hs.scopes.findTemplate_lt hid
              refine .bind (expand_steady ih hu hlt) fun r v hv hle' _ => ?_
              exact hrecord r v hv ((hle.trans hle').returnType.trans hresult)
      · refine (hargs _).seq fun types => (ih result _).seq fun r => ?_
        exact IsSteady.makeType.seq hrecord
      · exact (ih result _).seq hrecord
      · exact .stop (.fail (by simp))

theorem typeExpr_steady : TypeExprSteady ctx free (Typing.typeExpr ctx) :=
  typeExprWithin_steady _

end ClassLang.Typing
