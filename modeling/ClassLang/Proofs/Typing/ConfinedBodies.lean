import ClassLang.Proofs.Typing.ConfinedCalls
import ClassLang.Typing.Expression

/-!
# Expressions and statements stay in the territory

Every expression has a type of the territory. Typing a body makes pointers, closures, variables and
derived types, and binds names to types that are in the territory already.
-/

namespace ClassLang.Typing

variable {σ : Type} {ctx : TypingContext σ} {p₀ : Pool} {N : TypeId → Prop} {s : TypingState σ}
  {infer : NodeId → Typing σ TypeId}

/-- The built-in types are usable everywhere. -/
theorem Confined.builtin_usable (hT : p₀.Territory N) (hs : Confined ctx p₀ N s) {t : TypeId}
    (ht : t < Pool.initial.size) : s.pool.Usable N t :=
  (hs.pool.builtin hT ht).usable

theorem inferIdent_confined (hT : p₀.Territory N) {node : NodeId} {name : String}
    (hs : Confined ctx p₀ N s) :
    (confinement ctx p₀ N).KeepsAt s (inferIdent node name) fun t u => u.pool.Usable N t := by
  unfold inferIdent
  refine .bind_read hs (b := s) rfl ?_
  split
  · next t ht =>
      refine .bind (setTarget_confined (Q := fun _ u => u.pool = s.pool) hs
        (by simp [Target.callees]) fun _ h => h) fun _ u hu _ hpool => .pure hu ?_
      rw [hpool]
      exact hs.scopes.lookup hT hs.pool ht
  · next t ht =>
      have hdeclarable : s.pool.Declarable N t := hs.scopes.lookup hT hs.pool ht
      split
      · next owner hview =>
          refine .bind (setTarget_confined (Q := fun _ u => u.pool = s.pool) hs
            (by simp [Target.callees]) fun _ h => h) fun _ u hu _ hpool => .pure hu ?_
          rw [hpool]
          refine (hs.pool.view_members_declarable hT hdeclarable.2 ?_).usable
          rw [hview]
          exact List.mem_cons_self
      · exact mismatch_confined hs
      · exact mismatch_confined hs
  · exact mismatch_confined hs
  · exact mismatch_confined hs
  · exact fail_confined hs (not_misused_of_kind (by simp))

theorem ivarInScope_confined {name : String} (hs : Confined ctx p₀ N s) :
    (confinement ctx p₀ N).KeepsAt s (ivarInScope name) fun t u => u.pool.Usable N t := by
  unfold ivarInScope
  refine .bind_read hs (b := s) rfl ?_
  split
  · next t ht => exact .pure hs (hs.scopes.lookupIvar ht).usable
  · exact fail_confined hs (not_misused_of_kind (by simp))

theorem inferVar_confined (hT : p₀.Territory N) (hinfer : InferConfined ctx p₀ N infer)
    {name : String} {declared : Option NodeId} {value : NodeId} (hs : Confined ctx p₀ N s) :
    (confinement ctx p₀ N).KeepsAt s (inferVar ctx infer name declared value)
      fun t u => u.pool.Usable N t := by
  have hbind : ∀ t u, Confined ctx p₀ N u → u.pool.Usable N t →
      (confinement ctx p₀ N).KeepsAt u (do
        modifyScopes (·.bind name (.value t))
        pure t) fun t u => u.pool.Usable N t := by
    intro t u hu ht
    refine .bind (modifyScopes_confined (Q := fun _ v => v.pool = u.pool) hu (hu.scopes.bind ht)
      rfl) fun _ v hv _ hpool => .pure hv ?_
    rwa [hpool]
  unfold inferVar
  refine .bind (hinfer value s hs) fun given t ht _ hgiven => ?_
  refine .bind_read ht (b := t) rfl ?_
  dsimp only
  split
  · exact .bind (mismatch_confined (Q := fun _ _ => False) ht) fun _ _ _ _ h => h.elim
  · cases declared with
    | none => exact hbind given t ht hgiven
    | some declared =>
        refine .bind (typeExpr_confined hT declared t ht) fun wanted u hu _ hwanted => ?_
        refine .bind_read hu (b := u) rfl ?_
        split
        · exact .bind (mismatch_confined (Q := fun _ _ => False) hu) fun _ _ _ _ h => h.elim
        · exact hbind wanted u hu hwanted.usable

theorem inferAssign_confined (hT : p₀.Territory N) (hinfer : InferConfined ctx p₀ N infer)
    {target value : NodeId} (hs : Confined ctx p₀ N s) :
    (confinement ctx p₀ N).KeepsAt s (inferAssign ctx infer target value)
      fun t u => u.pool.Usable N t := by
  unfold inferAssign
  refine .bind (hinfer value s hs) fun given t ht _ hgiven => ?_
  have hrecord : (ctx.tree.node target).declaresType = false → ∀ r u, Confined ctx p₀ N u →
      Advances ctx p₀ N t u → u.pool.Usable N r → (confinement ctx p₀ N).KeepsAt u (do
        record target r
        pure given) fun t u => u.pool.Usable N t := by
    intro hnode r u hu hle hr
    refine .bind (record_confined (Q := fun _ v => v.pool = u.pool) hu hr (by simp [hnode])
      fun _ h => h) fun _ v hv _ hpool => .pure hv ?_
    rw [hpool]
    exact hgiven.mono hle.evolves
  dsimp only
  split
  · next name hnode =>
      refine .bind (ivarInScope_confined ht) fun r u hu hle hr => ?_
      refine .bind_read hu (b := u) rfl ?_
      split
      · exact .bind (mismatch_confined (Q := fun _ _ => False) hu) fun _ _ _ _ h => h.elim
      · exact hrecord (by simp [hnode, Node.declaresType]) r u hu hle hr
  · next name hnode =>
      refine .bind_read ht (b := t) rfl ?_
      split
      · exact .bind (fail_confined (Q := fun _ _ => False) ht (not_misused_of_kind (by simp)))
          fun _ _ _ _ h => h.elim
      · next r hr =>
          refine .bind_read ht (b := t) rfl ?_
          split
          · exact .bind (mismatch_confined (Q := fun _ _ => False) ht) fun _ _ _ _ h => h.elim
          · refine .bind (setTarget_confined (Q := fun _ u => u.pool = t.pool) ht
              (by simp [Target.callees]) fun _ h => h) fun _ u hu hle hpool => ?_
            refine hrecord (by simp [hnode, Node.declaresType]) r u hu hle ?_
            rw [hpool]
            exact ht.scopes.lookupValue hT ht.pool hr
  · exact .bind (mismatch_confined (Q := fun _ _ => False) ht) fun _ _ _ _ h => h.elim

/-- The type of an operator on open operands. -/
theorem derive_confined (hT : p₀.Territory N) {root rhs : TypeId} {op : BinaryOp}
    (hs : Confined ctx p₀ N s) (hroot : s.pool.Usable N root) (hrhs : s.pool.Usable N rhs) :
    (confinement ctx p₀ N).KeepsAt s (makeType (·.derive root op rhs))
      fun t u => u.pool.Usable N t := by
  refine makeType_confined hs (.derive _ _ _ _) (hs.pool.derive hroot hrhs) fun u hu => ?_
  rw [hu]
  exact ⟨by simp [Pool.derive], hs.pool.mem_later hT (Nat.le_refl _)⟩

theorem inferBinary_confined (hT : p₀.Territory N) (hinfer : InferConfined ctx p₀ N infer)
    {op : BinaryOp} {lhs rhs : NodeId} (hs : Confined ctx p₀ N s) :
    (confinement ctx p₀ N).KeepsAt s (inferBinary infer op lhs rhs)
      fun t u => u.pool.Usable N t := by
  unfold inferBinary
  refine .bind (hinfer lhs s hs) fun l t ht _ hl => ?_
  refine .bind (hinfer rhs t ht) fun r u hu hle hr => ?_
  replace hl := hl.mono hle.evolves
  refine .bind_read hu (b := u) rfl ?_
  dsimp only
  split
  · exact derive_confined hT hu hl hr
  · split
    · exact derive_confined hT hu hr hl
    · exact ofExcept_confined hu (fun result h => hu.pool.operatorResult_usable hT hl h)
        fun e he => not_misused_of_kind (Pool.operatorResult_error he)

theorem inferUnary_confined (hT : p₀.Territory N) (hinfer : InferConfined ctx p₀ N infer)
    {op : UnaryOp} {operand : NodeId} (hs : Confined ctx p₀ N s) :
    (confinement ctx p₀ N).KeepsAt s (inferUnary infer op operand)
      fun t u => u.pool.Usable N t := by
  unfold inferUnary
  refine .bind (hinfer operand s hs) fun r t ht _ hr => ?_
  refine .bind_read ht (b := t) rfl ?_
  cases op with
  | stack =>
      refine .bind_read ht (b := ⟨t.walk, operand⟩) rfl ?_
      split
      · exact .pure ht hr
      · exact .pure ht hr
      · exact mismatch_confined ht
  | not =>
      dsimp only
      split
      · exact .pure ht (ht.builtin_usable hT (by decide))
      · exact fail_confined ht (not_misused_of_kind (by simp))

theorem inferCondition_confined (hinfer : InferConfined ctx p₀ N infer) {cond : NodeId}
    (hs : Confined ctx p₀ N s) :
    (confinement ctx p₀ N).KeepsAt s (inferCondition infer cond) fun _ _ => True := by
  unfold inferCondition
  refine .bind (hinfer cond s hs) fun r t ht _ hr => ?_
  refine .bind_read ht (b := t) rfl ?_
  dsimp only
  split
  · exact mismatch_confined ht
  · exact .pure ht True.intro

/-! ## Cases -/

theorem patternCase_confined (hT : p₀.Territory N) {type : NodeId} {owner : TypeId}
    (hs : Confined ctx p₀ N s) (howner : N owner) :
    (confinement ctx p₀ N).KeepsAt s (patternCase ctx type owner)
      fun t u => u.pool.Declarable N t := by
  unfold patternCase
  split
  · next name hnode =>
      refine .bind_read hs (b := s) rfl ?_
      dsimp only
      split
      · exact mismatch_confined hs
      · next t ht =>
          have hdeclarable : s.pool.Declarable N t := by
            have hmem := List.mem_of_find?_eq_some ht
            unfold Pool.cases at hmem
            split at hmem
            · next hview =>
                refine hs.pool.view_members_declarable hT howner ?_
                rw [hview]
                exact List.mem_append_left _ hmem
            · simp at hmem
          refine .bind (record_confined (Q := fun _ u => u.pool = s.pool) hs hdeclarable.usable
            (by simp [hnode, Node.declaresType]) fun _ h => h) fun _ u hu _ hpool => .pure hu ?_
          rwa [hpool]
  · exact mismatch_confined hs

theorem caseFrame_confined (hT : p₀.Territory N) {t : TypeId} {binders : List String}
    (hs : Confined ctx p₀ N s) (ht : N t) :
    (confinement ctx p₀ N).KeepsAt s (caseFrame t binders) fun frame u => frame.Fits u.pool N := by
  unfold caseFrame
  refine .bind_read hs (b := s) rfl ?_
  dsimp only
  split
  · exact .pure hs .empty
  · split
    · exact mismatch_confined hs
    · refine .pure hs ?_
      have hfields : ∀ entry ∈ s.pool.caseFields t, s.pool.Declarable N entry.2 := by
        intro entry hentry
        unfold Pool.caseFields at hentry
        split at hentry
        · next hview =>
            refine hs.pool.view_members_declarable hT ht ?_
            rw [hview]
            exact List.mem_cons_of_mem _ (List.mem_map.2 ⟨entry, hentry, rfl⟩)
        · simp at hentry
      refine Scope.Fits.empty.bindValues fun value hvalue => ?_
      obtain ⟨entry, hentry, hval⟩ := List.mem_map.1 (List.of_mem_zip hvalue).2
      exact hval ▸ (hfields entry hentry).usable

theorem inferPattern_confined (hT : p₀.Territory N) {scrutinee : TypeId} {onDynamic : Bool}
    {type : NodeId} {binder : Option String} {fields : List String} (hs : Confined ctx p₀ N s)
    (hscrutinee : s.pool.Usable N scrutinee) :
    (confinement ctx p₀ N).KeepsAt s (inferPattern ctx scrutinee onDynamic type binder fields)
      fun r u => r.1.Fits u.pool N ∧ u.pool.Usable N r.2 := by
  have hbinder : ∀ (t : TypeId) (u : TypingState σ), u.pool.Usable N t →
      ∀ value ∈ binder.toList.map ((·, t)), u.pool.Usable N value.2 := by
    simp +contextual
  unfold inferPattern
  dsimp only
  split
  · refine .bind (typeExpr_confined hT type s hs) fun t u hu _ ht => ?_
    split
    · exact .bind (mismatch_confined (Q := fun _ _ => False) hu) fun _ _ _ _ h => h.elim
    · exact .pure hu ⟨.bindValues .empty (hbinder t u ht.usable), ht.usable⟩
  · refine .bind (patternCase_confined hT hs hscrutinee.2) fun t u hu hle ht => ?_
    refine .bind (caseFrame_confined hT hu ht.2) fun frame v hv hle' hframe => ?_
    have hkept := (hscrutinee.mono hle.evolves).mono hle'.evolves
    exact .pure hv ⟨hframe.bindValues (hbinder scrutinee v hkept), ht.usable.mono hle'.evolves⟩

theorem inferArm_confined (hT : p₀.Territory N) (hinfer : InferConfined ctx p₀ N infer)
    {scrutinee : TypeId} {onDynamic : Bool} {arm : NodeId} (hs : Confined ctx p₀ N s)
    (hscrutinee : s.pool.Usable N scrutinee) :
    (confinement ctx p₀ N).KeepsAt s (inferArm ctx infer scrutinee onDynamic arm)
      fun _ _ => True := by
  unfold inferArm
  split
  · next pattern body harm =>
      split
      · next type binder fields hpattern =>
          refine .bind (inferPattern_confined hT hs hscrutinee) ?_
          rintro ⟨frame, r⟩ w hw - ⟨hframe, hr⟩
          refine .bind (record_confined (Q := fun _ x => x.pool = w.pool) hw hr
            (by simp [hpattern, Node.declaresType]) fun _ h => h) fun _ x hx _ hpool => ?_
          refine .bind (withFrame_confined (Q := fun _ _ => True) hx (hpool ▸ hframe)
            fun y hy _ => (hinfer body y hy).trivial) fun _ y hy _ _ => ?_
          exact record_confined hy (hy.builtin_usable hT (by decide))
            (by simp [harm, Node.declaresType]) fun _ _ => True.intro
      · exact fail_confined hs (not_misused_of_text (by decide))
  · exact fail_confined hs (not_misused_of_text (by decide))

theorem inferSelect_confined (hT : p₀.Territory N) (hinfer : InferConfined ctx p₀ N infer)
    {cond : NodeId} {arms : List NodeId} (hs : Confined ctx p₀ N s) :
    (confinement ctx p₀ N).KeepsAt s (inferSelect ctx infer cond arms)
      fun t u => u.pool.Usable N t := by
  unfold inferSelect
  refine .bind (hinfer cond s hs) fun given t ht _ hgiven => ?_
  refine .bind_read ht (b := t) rfl ?_
  have hscrutinee : t.pool.Usable N (t.pool.resolve given) := ht.pool.resolve_usable hT hgiven
  have harms : ∀ onDynamic, (confinement ctx p₀ N).KeepsAt t (do
      arms.forM (inferArm ctx infer (t.pool.resolve given) onDynamic)
      pure .void) fun t u => u.pool.Usable N t := by
    intro onDynamic
    refine .bind (Discipline.forM_keeps (P := fun _ => True) _ ht True.intro
      fun arm _ u hu hle _ => ?_) fun _ u hu _ _ => .pure hu (hu.builtin_usable hT (by decide))
    exact inferArm_confined hT hinfer hu (hscrutinee.mono hle.evolves)
  dsimp only
  split
  · exact harms false
  · exact harms true
  · exact .bind (mismatch_confined (Q := fun _ _ => False) ht) fun _ _ _ _ h => h.elim

/-! ## Returns and lambdas -/

theorem inferReturn_confined (hT : p₀.Territory N) (hinfer : InferConfined ctx p₀ N infer)
    {value : Option NodeId} (hs : Confined ctx p₀ N s) :
    (confinement ctx p₀ N).KeepsAt s (inferReturn infer value)
      fun t u => u.pool.Usable N t := by
  unfold inferReturn
  refine .bind_read hs (b := s) rfl ?_
  dsimp only
  split
  · exact .bind (mismatch_confined (Q := fun _ _ => False) hs) fun _ _ _ _ h => h.elim
  · split
    · refine .bind_read hs (b := s) rfl ?_
      exact .bind (mismatch_confined (Q := fun _ _ => False) hs) fun _ _ _ _ h => h.elim
    · exact .pure hs (hs.builtin_usable hT (by decide))
  · next expected value _ =>
      refine .bind (hinfer value s hs) fun r t ht _ _ => ?_
      split
      · exact .bind (mismatch_confined (Q := fun _ _ => False) ht) fun _ _ _ _ h => h.elim
      · refine .bind_read ht (b := t) rfl ?_
        split
        · exact .bind (mismatch_confined (Q := fun _ _ => False) ht) fun _ _ _ _ h => h.elim
        · exact .pure ht (ht.builtin_usable hT (by decide))

/-- A new variable is usable, and may stand as the parameter of a closure. -/
theorem freshVar_confined (hT : p₀.Territory N) (hs : Confined ctx p₀ N s) :
    (confinement ctx p₀ N).KeepsAt s (makeType (·.freshVar)) fun t u =>
      u.pool.Usable N t ∧ u.pool.Passable N t := by
  refine makeType_confined hs (.freshVar _) (hs.pool.push_blank rfl (by simp)) fun u hu => ?_
  rw [hu]
  have hmem : N s.pool.size := hs.pool.mem_later hT (Nat.le_refl _)
  exact ⟨⟨by simp [Pool.freshVar], hmem⟩, .inr ⟨none, Pool.data_push_self _ _⟩, hmem⟩

theorem lambdaParams_confined (hT : p₀.Territory N) {params : List NodeId}
    (hs : Confined ctx p₀ N s) :
    (confinement ctx p₀ N).KeepsAt s (lambdaParams ctx params) fun named u =>
      ∀ entry ∈ named, u.pool.Usable N entry.2 ∧ u.pool.Passable N entry.2 := by
  unfold lambdaParams
  refine Discipline.mapM_keeps_all (P := fun (entry : String × TypeId) (u : TypingState σ) =>
    u.pool.Usable N entry.2 ∧ u.pool.Passable N entry.2) _ hs
    (fun _ _ _ _ hle _ h => ⟨h.1.mono hle.evolves, h.2.mono hle.evolves⟩) fun param _ t ht _ => ?_
  have hrecord : (ctx.tree.node param).declaresType = false → ∀ (name : String) (r : TypeId) u,
      Confined ctx p₀ N u → u.pool.Usable N r ∧ u.pool.Passable N r →
      (confinement ctx p₀ N).KeepsAt u (do
        record param r
        pure (name, r)) fun entry u => u.pool.Usable N entry.2 ∧ u.pool.Passable N entry.2 := by
    intro hnode name r u hu hr
    refine .bind (record_confined (Q := fun _ v => v.pool = u.pool) hu hr.1 (by simp [hnode])
      fun _ h => h) fun _ v hv _ hpool => .pure hv ?_
    rwa [hpool]
  dsimp only
  split
  · next name type hnode =>
      refine .bind (typeExpr_confined hT type t ht) fun r u hu _ hr => ?_
      exact hrecord (by simp [hnode, Node.declaresType]) name r u hu ⟨hr.usable, hr.passable⟩
  · next name hnode =>
      refine .bind (freshVar_confined hT ht) fun r u hu _ hr => ?_
      exact hrecord (by simp [hnode, Node.declaresType]) name r u hu hr
  · exact .bind (fail_confined (Q := fun _ _ => False) ht (not_misused_of_text (by decide)))
      fun _ _ _ _ h => h.elim

theorem lambdaCaptures_confined (hT : p₀.Territory N) {captures : List String}
    (hs : Confined ctx p₀ N s) :
    (confinement ctx p₀ N).KeepsAt s (lambdaCaptures captures) fun named u =>
      ∀ entry ∈ named, u.pool.Usable N entry.2 := by
  unfold lambdaCaptures
  refine Discipline.mapM_keeps_all (P := fun (entry : String × TypeId) (u : TypingState σ) =>
    u.pool.Usable N entry.2) _ hs (fun entry => stable_usable entry.2) fun name _ t ht _ => ?_
  refine .bind_read ht (b := t) rfl ?_
  split
  · next r hr => exact .pure ht (ht.scopes.lookupValue hT ht.pool hr)
  · exact fail_confined ht (not_misused_of_kind (by simp))

theorem inferLambda_confined (hT : p₀.Territory N) (hinfer : InferConfined ctx p₀ N infer)
    {params : List NodeId} {captures : List String} {body : NodeId} (hs : Confined ctx p₀ N s) :
    (confinement ctx p₀ N).KeepsAt s (inferLambda ctx infer params captures body)
      fun t u => u.pool.Usable N t := by
  unfold inferLambda
  refine .bind (lambdaParams_confined hT hs) fun named t ht _ hnamed => ?_
  refine .bind (lambdaCaptures_confined hT ht) fun captured u hu hle hcaptured => ?_
  have hparams : ∀ entry ∈ named, u.pool.Usable N entry.2 ∧ u.pool.Passable N entry.2 :=
    fun entry h => ⟨(hnamed entry h).1.mono hle.evolves, (hnamed entry h).2.mono hle.evolves⟩
  refine .bind (withFrame_confined (Q := fun r p => p.Usable N r) hu (.bindValues .empty ?_)
    fun v hv _ => withReturnType_confined (Q := fun r p => p.Usable N r) hv
      (by simp) fun w hw _ => hinfer body w hw)
    fun result v hv hle' hresult => ?_
  · intro entry hentry
    rw [List.mem_append] at hentry
    exact hentry.elim (fun h => (hparams entry h).1) (hcaptured entry)
  · have hparts : ∀ r ∈ named.map (·.2) ++ result :: captured.map (·.2), v.pool.Usable N r := by
      intro r hr
      simp only [List.mem_append, List.mem_cons, List.mem_map] at hr
      rcases hr with ⟨entry, hentry, rfl⟩ | rfl | ⟨entry, hentry, rfl⟩
      · exact (hparams entry hentry).1.mono hle'.evolves
      · exact hresult
      · exact (hcaptured entry hentry).mono hle'.evolves
    obtain ⟨hkept, hlt, hmem, -⟩ := hv.pool.closure hT hparts fun r hr => by
      obtain ⟨entry, hentry, rfl⟩ := List.mem_map.1 hr
      exact ((hparams entry hentry).2.mono hle'.evolves).1
    refine makeType_confined hv (.closure _ _ _ _) hkept fun w hw => ?_
    rw [hw]
    exact ⟨hlt, hmem⟩

end ClassLang.Typing
