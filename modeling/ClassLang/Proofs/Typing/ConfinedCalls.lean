import ClassLang.Proofs.Typing.Arguments
import ClassLang.Proofs.Typing.ConfinedDeclarations
import ClassLang.Proofs.Typing.ConfinedViews

/-!
# Calls stay in the territory

Checking the arguments of a call may forward the variables of a lambda among them. The signature is
that of a declaration, all of whose types are closed, or it is read off a closure, each of whose
parameters is closed or a variable.
-/

namespace ClassLang.Typing

variable {σ : Type} {ctx : TypingContext σ} {p₀ : Pool} {N : TypeId → Prop} {s : TypingState σ}

/-- Expressions have types of the territory. -/
def InferConfined (ctx : TypingContext σ) (p₀ : Pool) (N : TypeId → Prop)
    (infer : NodeId → Typing σ TypeId) : Prop :=
  ∀ node s, Confined ctx p₀ N s →
    (confinement ctx p₀ N).KeepsAt s (infer node) fun t u => u.pool.Usable N t

variable {infer : NodeId → Typing σ TypeId}

theorem unifyClosureParams_confined (hT : p₀.Territory N) {given wanted : TypeId}
    (hs : Confined ctx p₀ N s) (hgiven : s.pool.Usable N given)
    (hwanted : s.pool.Passable N wanted) :
    (confinement ctx p₀ N).KeepsAt s (unifyClosureParams given wanted) fun _ _ => True := by
  unfold unifyClosureParams
  refine .bind_read hs (b := s) rfl ?_
  dsimp only
  split
  · next params targets hparams htargets =>
      have hvars : ∀ var ∈ params, N var := by
        intro var hvar
        unfold closureParams? at hparams
        split at hparams
        · next hview =>
            cases hparams
            refine (hs.pool.view_parts_usable hT hgiven (u := var) ?_).2
            rw [hview]
            exact List.mem_append_left _ hvar
        · cases hparams
      have hclosed := hs.pool.closureParams_declarable hT hwanted htargets
      split
      · refine Discipline.forM_keeps (P := fun _ => True) _ hs True.intro ?_
        rintro ⟨var, target⟩ hpair t ht hle -
        obtain ⟨hvar, htarget⟩ := List.of_mem_zip hpair
        have hdeclarable := (hclosed target htarget).mono hle.evolves
        refine .bind_read ht (b := t) rfl ?_
        dsimp only
        split
        · next hopen =>
            refine updatePool_confined ht (fun p hp => ⟨.unify hp,
              ht.pool.unify hT (hvars var hvar) hdeclarable hp, True.intro⟩) fun e he => ?_
            -- the entry was found to be an open variable, so forwarding it succeeds
            unfold Pool.unify at he
            simp only [hopen] at he
            cases he
        · exact .pure ht True.intro
      · exact .pure hs True.intro
  · exact .pure hs True.intro

theorem checkArguments_confined (hT : p₀.Territory N) (hinfer : InferConfined ctx p₀ N infer)
    {sig : Signature} {args : List NodeId} (hs : Confined ctx p₀ N s)
    (hsig : ∀ param ∈ sig.params, s.pool.Passable N param.type) :
    (confinement ctx p₀ N).KeepsAt s (checkArguments ctx infer sig args) fun _ _ => True := by
  unfold checkArguments
  refine .bind (Discipline.mapM_keeps_all
    (P := fun (arg : Option String × TypeId) (u : TypingState σ) => u.pool.Usable N arg.2) args hs
    (fun arg => stable_usable arg.2) fun arg _ t ht _ => ?_) fun typed t ht hle htyped => ?_
  · exact .bind (hinfer arg t ht) fun given u hu _ hgiven => .pure hu hgiven
  · refine .bind (ofExcept_confined (Q := fun ordered u => orderArguments sig typed = .ok ordered ∧
      u = t) ht (fun _ h => ⟨h, rfl⟩) fun e he => not_misused_of_kind ?_) ?_
    · rcases orderArguments_error he with ⟨_, _, rfl⟩ | ⟨_, rfl⟩ <;> simp
    · rintro ordered u - - ⟨hordered, rfl⟩
      obtain ⟨hfixed, hextra⟩ := orderArguments_all (P := u.pool.Usable N) htyped hordered
      refine .bind (Discipline.forM_keeps (P := fun _ => True) _ ht True.intro ?_) ?_
      · rintro ⟨⟨given, param⟩, i⟩ hitem v hv hle' -
        obtain ⟨hgiven, hparam⟩ := List.of_mem_zip (List.mem_of_getElem?
          (List.mem_zipIdx_iff_getElem?.1 hitem))
        refine .bind (unifyClosureParams_confined hT hv ((hfixed given hgiven).mono hle'.evolves)
          (((hsig param hparam).mono hle.evolves).mono hle'.evolves)) fun _ w hw _ _ => ?_
        refine .bind_read hw (b := w) rfl ?_
        dsimp only
        split
        · exact mismatch_confined hw
        · exact .pure hw True.intro
      · intro _ v hv hle' _
        refine Discipline.forM_keeps (P := fun _ => True) _ hv True.intro fun extra _ w hw _ _ => ?_
        refine .bind_read hw (b := w) rfl (.bind (ofExcept_confined (Q := fun _ _ => True) hw
          (fun _ _ => True.intro) fun e he => not_misused_of_kind (Pool.resolveStrict_error he)) ?_)
        intro r x hx _ _
        split
        · exact mismatch_confined hx
        · exact .pure hx True.intro

theorem inferConstruction_confined (hT : p₀.Territory N) (hinfer : InferConfined ctx p₀ N infer)
    {node : NodeId} {t : TypeId} {args : List NodeId} (hs : Confined ctx p₀ N s)
    (ht : s.pool.Declarable N t) :
    (confinement ctx p₀ N).KeepsAt s (inferConstruction ctx infer node t args)
      fun t u => u.pool.Usable N t := by
  unfold inferConstruction
  refine .bind_read hs (b := s) rfl ?_
  dsimp only
  split
  · next name ivars methods hd =>
      have hfinish : ∀ init u, Confined ctx p₀ N u → Advances ctx p₀ N s u →
          (∀ sig ∈ (Target.construct t init).callees, sig ∈ methods) →
          (confinement ctx p₀ N).KeepsAt u (do
            setTarget node (.construct t init)
            pure t) fun t u => u.pool.Usable N t := by
        intro init u hu hle hinit
        refine .bind (setTarget_confined (Q := fun _ v => v.pool = u.pool) hu (fun sig hsig => ?_)
          fun _ h => h) fun _ v hv _ hpool => .pure hv ?_
        · refine Callable.mono (.inl ⟨t, ht.2, ?_⟩) hle
          rw [hd]
          exact hinit sig hsig
        · rw [hpool]
          exact ht.usable.mono hle.evolves
      cases hinit : methods.find? (·.name == "initialize") with
      | some init =>
          have hmem := List.mem_of_find?_eq_some hinit
          have hsig : init.Declarable s.pool N := fun u hu =>
            hs.pool.members_declarable ht.2 (by
              rw [hd]
              exact List.mem_append_right _ (List.mem_flatMap.2 ⟨init, hmem, hu⟩))
          refine .bind (checkArguments_confined hT hinfer hs hsig.passable) fun _ u hu hle _ => ?_
          exact hfinish _ u hu hle (by simpa [Target.callees] using hmem)
      | none =>
          dsimp only
          split
          · refine .bind (Discipline.forM_keeps (P := fun _ => True) _ hs True.intro
              fun arg _ u hu _ _ => ?_) fun _ u hu hle _ => ?_
            · exact .bind (hinfer arg u hu) fun _ v hv _ _ => .pure hv True.intro
            · exact .bind (fail_confined (Q := fun _ _ => False) hu (not_misused_of_kind (by simp)))
                fun _ _ _ _ h => h.elim
          · exact hfinish _ s hs ((confinement ctx p₀ N).refl s) (by simp [Target.callees])
  · next name shortName tag owner fields hd =>
      have howner : s.pool.Declarable N owner :=
        hs.pool.members_declarable ht.2 (by simp [hd, TypeData.members])
      refine .bind (checkArguments_confined hT hinfer hs ?_) fun _ u hu hle _ => ?_
      · intro param hparam
        obtain ⟨field, hfield, rfl⟩ := List.mem_map.1 hparam
        refine (hs.pool.members_declarable ht.2 ?_).passable
        rw [hd]
        exact List.mem_cons_of_mem _ (List.mem_map.2 ⟨field, hfield, rfl⟩)
      · refine .bind (setTarget_confined (Q := fun _ v => v.pool = u.pool) hu
          (by simp [Target.callees]) fun _ h => h) fun _ v hv _ hpool => .pure hv ?_
        rw [hpool]
        exact howner.usable.mono hle.evolves
  · exact mismatch_confined hs

/-- A call of a declared function: its arguments are checked, its target is recorded, and it has
the declared result. -/
theorem declaredCall_confined (hT : p₀.Territory N) (hinfer : InferConfined ctx p₀ N infer)
    {node : NodeId} {sig : Signature} {target : Target} {args : List NodeId}
    (hs : Confined ctx p₀ N s) (hsig : sig.Declarable s.pool N)
    (htarget : ∀ callee ∈ target.callees, Callable ctx N s callee) :
    (confinement ctx p₀ N).KeepsAt s (do
      checkArguments ctx infer sig args
      setTarget node target
      pure sig.result) fun t u => u.pool.Usable N t := by
  refine .bind (checkArguments_confined hT hinfer hs hsig.passable) fun _ u hu hle _ => ?_
  refine .bind (setTarget_confined (Q := fun _ v => v.pool = u.pool) hu
    (fun callee hcallee => (htarget callee hcallee).mono hle) fun _ h => h)
    fun _ v hv _ hpool => .pure hv ?_
  rw [hpool]
  exact (hsig sig.result (by simp [Signature.types])).usable.mono hle.evolves

theorem importedModule_confined {receiver : NodeId} (hs : Confined ctx p₀ N s) :
    (confinement ctx p₀ N).KeepsAt s (inferReceiverCall.importedModule ctx receiver)
      fun found _ => found.isSome → (ctx.tree.node receiver).declaresType = false := by
  unfold inferReceiverCall.importedModule
  split
  · next name hnode =>
      refine .bind_read hs (b := s) rfl ?_
      split
      · exact .pure hs fun _ => by simp [hnode, Node.declaresType]
      · exact .pure hs (by simp)
  · exact .pure hs (by simp)

/-- The target of a call on a receiver is a field, or a method that can be called. -/
theorem receiverTarget_confined {node : NodeId} {t : TypeId} {method : String} {sig : Signature}
    (hT : p₀.Territory N) {s' : TypingState σ} (hs' : Confined ctx p₀ N s')
    (hle : Advances ctx p₀ N s s') (hs : Confined ctx p₀ N s) (ht : s.pool.Usable N t)
    (hvar : (s.pool.data t).isVar = false) (hsig : s.pool.findSignature? t method = some sig) :
    (confinement ctx p₀ N).KeepsAt s' (do
      match ← ofExcept ((← get).pool.findOperation t method) with
      | .element index _ => setTarget node (.element index)
      | _ => setTarget node (.method sig)
      pure sig.result) fun t u => u.pool.Usable N t := by
  have hresolve : s.pool.resolve t = t := Pool.resolve_of_not_var hvar
  have hdeclarable := (hs.pool.findSignature_declarable hT ht.2 hsig).1
  have hfinish : ∀ target, (∀ callee ∈ target.callees, Callable ctx N s' callee) →
      (confinement ctx p₀ N).KeepsAt s' (do setTarget node target; pure sig.result)
        fun t u => u.pool.Usable N t := by
    intro target htarget
    refine .bind (setTarget_confined (Q := fun _ v => v.pool = s'.pool) hs' htarget fun _ h => h)
      fun _ v hv _ hpool => .pure hv ?_
    rw [hpool]
    exact (hdeclarable sig.result (by simp [Signature.types])).usable.mono hle.evolves
  refine .bind_read hs' (b := s') rfl (.bind (ofExcept_confined
    (Q := fun op u => s'.pool.findOperation t method = .ok op ∧ u = s') hs' (fun _ h => ⟨h, rfl⟩)
    fun e he => not_misused_of_kind ?_) ?_)
  · unfold Pool.findOperation at he
    dsimp only at he
    split at he <;> cases he
    simp
  · rintro op u - - ⟨hop, rfl⟩
    have hcallee : (∀ index result, op ≠ .element index result) → Callable ctx N u sig := by
      intro hne
      rcases (hs.pool.findSignature_declarable hT ht.2 hsig).2 with hmem | ⟨index, result, helem⟩
      · refine Callable.mono (.inl ⟨t, ht.2, ?_⟩) hle
        rwa [Pool.view, hresolve] at hmem
      · rw [Pool.view, hresolve] at helem
        have hlater := Pool.findOperation_element (hle.evolves.becomes t ht.1) helem
        rw [hop] at hlater
        cases hlater
        exact absurd rfl (hne index result)
    cases op with
    | element index result => exact hfinish _ (by simp [Target.callees])
    | arith op => exact hfinish _ (by simpa [Target.callees] using hcallee (by simp))
    | compare op => exact hfinish _ (by simpa [Target.callees] using hcallee (by simp))
    | method found => exact hfinish _ (by simpa [Target.callees] using hcallee (by simp))

theorem inferReceiverCall_confined (hT : p₀.Territory N) (hinfer : InferConfined ctx p₀ N infer)
    {node receiver : NodeId} {method : String} {args : List NodeId} (hs : Confined ctx p₀ N s) :
    (confinement ctx p₀ N).KeepsAt s (inferReceiverCall ctx infer node receiver method args)
      fun t u => u.pool.Usable N t := by
  unfold inferReceiverCall
  refine .bind (importedModule_confined hs) fun found t ht _ hfound => ?_
  split
  · next moduleName id =>
      refine .bind (record_confined (Q := fun _ _ => True) ht
        (ht.pool.builtin hT (by decide)).usable (by simp [hfound rfl]) fun _ _ => True.intro)
        fun _ u hu _ _ => ?_
      refine .bind_read hu (b := u) rfl ?_
      split
      · exact fail_confined hu (not_misused_of_text (by decide))
      · next exports hexports =>
          have hfits := hu.imports id exports hexports
          split
          · next sig hsig =>
              have hmem := List.mem_of_find?_eq_some hsig
              refine declaredCall_confined hT hinfer hu (hfits.functions sig hmem) ?_
              simpa [Target.callees] using .inr (.inr ⟨id, exports, hexports, hmem⟩)
          · next r hr =>
              exact inferConstruction_confined hT hinfer hu
                (hfits.types _ (mem_of_lookup_eq_some hr))
          · exact mismatch_confined hu
  · refine .bind (hinfer receiver t ht) fun given u hu _ hgiven => ?_
    refine .bind_read hu (b := u) rfl (.bind (ofExcept_confined
      (Q := fun r v => u.pool.resolveStrict given = .ok r ∧ v = u) hu (fun _ h => ⟨h, rfl⟩)
      fun e he => not_misused_of_kind (Pool.resolveStrict_error he)) ?_)
    rintro r v - - ⟨hr, rfl⟩
    have husable := hu.pool.resolveStrict_usable hT hgiven hr
    refine .bind_read hu (b := v) rfl ?_
    dsimp only
    split
    · exact mismatch_confined hu
    · next sig hsig =>
        have hdeclarable := (hu.pool.findSignature_declarable hT husable.2 hsig).1
        refine .bind (checkArguments_confined hT hinfer hu hdeclarable.passable)
          fun _ w hw hle _ => ?_
        exact receiverTarget_confined hT hw hle hu husable
          (hu.pool.sound.isVar_of_resolveStrict hr) hsig

theorem inferBuiltin_confined (hT : p₀.Territory N) (hinfer : InferConfined ctx p₀ N infer)
    {node : NodeId} {builtin : Builtin} {args : List NodeId} (hs : Confined ctx p₀ N s) :
    (confinement ctx p₀ N).KeepsAt s (inferBuiltin infer node builtin args)
      fun t u => u.pool.Usable N t := by
  have hfinish : ∀ u, Confined ctx p₀ N u → (confinement ctx p₀ N).KeepsAt u (do
      setTarget node (.builtin builtin)
      pure .void) fun t u => u.pool.Usable N t := by
    intro u hu
    refine .bind (setTarget_confined (Q := fun _ _ => True) hu (by simp [Target.callees])
      fun _ _ => True.intro) fun _ v hv _ _ => ?_
    exact .pure hv (hv.pool.builtin hT (by decide)).usable
  unfold inferBuiltin
  split
  · next object =>
      refine .bind (hinfer object s hs) fun t u hu _ _ => ?_
      refine .bind_read hu (b := u) rfl ?_
      dsimp only
      split
      · exact .bind (mismatch_confined (Q := fun _ _ => False) hu) fun _ _ _ _ h => h.elim
      · exact hfinish u hu
  · exact .bind (fail_confined (Q := fun _ _ => False) hs (not_misused_of_kind (by simp)))
      fun _ _ _ _ h => h.elim

theorem inferBareCall_confined (hT : p₀.Territory N) (hinfer : InferConfined ctx p₀ N infer)
    {node : NodeId} {method : String} {args : List NodeId} (hs : Confined ctx p₀ N s) :
    (confinement ctx p₀ N).KeepsAt s (inferBareCall ctx infer node method args)
      fun t u => u.pool.Usable N t := by
  unfold inferBareCall
  refine .bind_read hs (b := s) rfl ?_
  dsimp only
  split
  · next t ht =>
      have hvalue : s.pool.Usable N t := hs.scopes.lookup hT hs.pool ht
      split
      · next params result captures hview =>
          refine .bind (checkArguments_confined hT hinfer hs ?_) fun _ u hu hle _ => ?_
          · intro param hparam
            obtain ⟨type, htype, rfl⟩ := List.mem_map.1 hparam
            refine ⟨hs.pool.sound.params hview type htype, ?_⟩
            refine (hs.pool.view_parts_usable hT hvalue (u := type) ?_).2
            rw [hview]
            exact List.mem_append_left _ htype
          · refine .bind (setTarget_confined (Q := fun _ v => v.pool = u.pool) hu
              (by simp [Target.callees]) fun _ h => h) fun _ v hv _ hpool => .pure hv ?_
            rw [hpool]
            refine (hs.pool.view_parts_usable hT hvalue (u := result) ?_).mono hle.evolves
            rw [hview]
            simp [TypeData.parts]
      · exact mismatch_confined hs
  · split
    · next sig hsig =>
        obtain ⟨owner, howner, hsig⟩ := Option.bind_eq_some_iff.1 hsig
        have hcurrent := hs.scopes.currentType howner
        obtain ⟨hdeclarable, hmem | ⟨index, result, helem⟩⟩ :=
          hs.pool.findSignature_declarable hT hcurrent.1.2 hsig
        · refine declaredCall_confined hT hinfer hs hdeclarable ?_
          simpa [Target.callees] using
            .inl ⟨s.pool.resolve owner, hs.pool.resolve_mem hT hcurrent.1.2, hmem⟩
        · rw [Pool.view, hcurrent.1.1.resolve_eq] at helem
          exact absurd helem (TypeData.namedOperation_ne_element hcurrent.2)
    · next sig _ hsig =>
        have hmem := List.mem_of_find?_eq_some hsig
        refine declaredCall_confined hT hinfer hs (hs.exports.functions sig hmem) ?_
        simpa [Target.callees] using .inr (.inl hmem)
    · split
      · next t ht =>
          exact inferConstruction_confined hT hinfer hs (hs.scopes.lookup hT hs.pool ht)
      · exact mismatch_confined hs
      · exact mismatch_confined hs
      · exact mismatch_confined hs
      · split
        · exact inferBuiltin_confined hT hinfer hs
        · exact mismatch_confined hs

theorem inferTemplatedInstance_confined (hT : p₀.Territory N)
    (hinfer : InferConfined ctx p₀ N infer) {node : NodeId} {name : String}
    {typeArgs args : List NodeId} (hs : Confined ctx p₀ N s) :
    (confinement ctx p₀ N).KeepsAt s (inferTemplatedInstance ctx infer node name typeArgs args)
      fun t u => u.pool.Usable N t := by
  unfold inferTemplatedInstance
  refine .bind (Discipline.mapM_keeps_all
    (P := fun (t : TypeId) (u : TypingState σ) => u.pool.Declarable N t) typeArgs hs
    stable_declarable fun arg _ t ht _ => typeExpr_confined hT arg t ht) fun types t ht _ htypes => ?_
  refine .bind_read ht (b := t) rfl ?_
  dsimp only
  split
  · refine .bind (expand_confined hT (typeExpr_confined hT) ht htypes) fun r u hu _ hr => ?_
    exact inferConstruction_confined hT hinfer hu hr
  · split
    · refine .bind (expand_confined hT (typeExpr_confined hT) ht htypes) fun r u hu _ hr => ?_
      refine .bind_read hu (b := u) rfl ?_
      split
      · next variant hvariant =>
          refine inferConstruction_confined hT hinfer hu ?_
          have hmem := List.mem_of_getElem? hvariant
          unfold Pool.cases at hmem
          split at hmem
          · next hview =>
              refine hu.pool.view_members_declarable hT hr.2 ?_
              rw [hview]
              exact List.mem_append_left _ hmem
          · simp at hmem
      · exact fail_confined hu (not_misused_of_text (by decide))
    · exact mismatch_confined ht

end ClassLang.Typing
