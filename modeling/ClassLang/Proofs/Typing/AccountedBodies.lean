import ClassLang.Proofs.Typing.AccountedDeclarations
import ClassLang.Typing.Calculate

/-!
# Bodies account for their records

Typing an expression covers it: its type is recorded, and so are the meanings that the generator
asks for. The type of a node is recorded last, when its parts are covered. Members of a type are
walked where their signatures were recorded, those of included traits in the walks of the
inclusions.
-/

namespace ClassLang.Typing

variable {σ : Type} {ctx : TypingContext σ} {known : σ → String → Prop} {G F : NodeId → Prop}
  {s t : TypingState σ}

/-- The node was typed in the current walk. -/
def Done (ctx : TypingContext σ) (node : NodeId) (s : TypingState σ) : Prop :=
  s.table.Covers ctx.tree { walk := s.walk, node }

/-- What is needed before a type is recorded for a node. That of a declared type is recorded when
the type is declared. -/
structure Recordable (ctx : TypingContext σ) (node : NodeId) (r : TypeId) (s : TypingState σ) :
    Prop where
  parts : s.table.PartsCovered ctx.tree { walk := s.walk, node }
  target : ∀ name, ctx.tree.node node = .ident name → s.table.HasTarget { walk := s.walk, node }
  declared : (ctx.tree.node node).declaresType = true → s.walk = 0 →
    s.table.get? { walk := 0, node } = some r

theorem Done.mono {node : NodeId} (h : Done ctx node s) (hle : Accounts ctx G F s t) :
    Done ctx node t := by
  unfold Done
  rw [hle.walk]
  exact TypeTable.Covers.mono h hle.grows

theorem stable_done (node : NodeId) : (accounting ctx known G F).Stable (Done ctx node) :=
  fun _ _ _ hle _ h => h.mono hle

/-- Typing an expression covers it. -/
def Infers (ctx : TypingContext σ) (known : σ → String → Prop) (G F : NodeId → Prop)
    (infer : NodeId → Typing σ TypeId) : Prop :=
  ∀ node s, Accounted ctx known s → Writable ctx.tree G s node →
    (accounting ctx known G F).KeepsAt s (infer node) fun _ => Done ctx node

variable {infer : NodeId → Typing σ TypeId}

/-! ## Calls -/

theorem unifyClosureParams_accounted {given wanted : TypeId} (hs : Accounted ctx known s) :
    (accounting ctx known G F).KeepsAt s (unifyClosureParams given wanted) fun _ _ => True := by
  unfold unifyClosureParams
  refine .bind_read hs (b := s) rfl ?_
  dsimp only
  split
  · split
    · refine Discipline.forM_keeps (P := fun _ => True) _ hs trivial ?_
      rintro ⟨var, target⟩ - t ht - -
      refine .bind_read ht (b := t) rfl ?_
      dsimp only
      split
      · exact updatePool_accounted ht fun p hp => ⟨.unify hp, trivial⟩
      · exact .pure ht trivial
    · exact .pure hs trivial
  · exact .pure hs trivial

/-- All arguments of a call are typed. -/
theorem checkArguments_accounted (hinfer : Infers ctx known G F infer) {sig : Signature}
    {args : List NodeId} (hs : Accounted ctx known s)
    (hw : ∀ arg ∈ args, Writable ctx.tree G s arg) :
    (accounting ctx known G F).KeepsAt s (checkArguments ctx infer sig args) fun _ u =>
      ∀ arg ∈ args, Done ctx arg u := by
  unfold checkArguments
  refine .bind (Discipline.mapM_keeps_each (P := Done ctx) args hs
    (fun arg _ => stable_done arg) fun arg harg t ht hle => ?_) fun typed t ht hle htyped => ?_
  · exact .bind (hinfer arg t ht ((hw arg harg).mono hle)) fun _ u hu _ h => .pure hu h
  · refine .bind (ofExcept_accounted (Q := fun _ u => u = t) ht fun _ _ => rfl) ?_
    rintro ordered _ - - rfl
    refine .bind (Discipline.forM_keeps (P := fun _ => True) _ ht trivial ?_) ?_
    · rintro ⟨⟨given, param⟩, i⟩ - v hv - -
      refine .bind (unifyClosureParams_accounted hv) fun _ w hw _ _ => ?_
      refine .bind_read hw (b := w) rfl ?_
      dsimp only
      split
      · exact fail_accounted
      · exact .pure hw trivial
    · intro _ v hv hle' _
      refine (Discipline.forM_keeps (P := fun _ => True) _ hv trivial
        fun extra _ w hw _ _ => ?_).weaken fun _ w _ hle'' _ arg harg => ?_
      · refine .bind_read hw (b := w) rfl (.bind (ofExcept_accounted (Q := fun _ _ => True) hw
          fun _ _ => trivial) fun r x hx _ _ => ?_)
        split
        · exact fail_accounted
        · exact .pure hx trivial
      · exact ((htyped arg harg).mono hle').mono hle''

/-- The meaning of a call is recorded and its arguments are typed. -/
def CallDone (ctx : TypingContext σ) (node : NodeId) (args : List NodeId) (s : TypingState σ) :
    Prop :=
  s.table.HasTarget { walk := s.walk, node } ∧ ∀ arg ∈ args, Done ctx arg s

/-- Recording the meaning of a call whose arguments are typed. -/
theorem callTarget_accounted {node : NodeId} {args : List NodeId} {target : Target} {r : TypeId}
    (hs : Accounted ctx known s) (hw : Writable ctx.tree G s node)
    (hargs : ∀ arg ∈ args, Done ctx arg s)
    (htarget : TypeTable.NeedsReceiver target →
      s.table.ReceiverCovered ctx.tree { walk := s.walk, node }) :
    (accounting ctx known G F).KeepsAt s (do
      setTarget node target
      pure r) fun _ => CallDone ctx node args := by
  refine .bind (setTarget_accounted (Q := fun _ u => u.table.HasTarget { walk := u.walk, node })
    hs hw.self htarget TypeTable.hasTarget_setTarget) fun _ u hu hle h => ?_
  exact .pure hu ⟨h, fun arg harg => (hargs arg harg).mono hle⟩

/-- A call whose arguments are checked before its meaning is recorded. -/
theorem checkedCall_accounted (hinfer : Infers ctx known G F infer) {node : NodeId}
    {sig : Signature} {args : List NodeId} {target : Target} {r : TypeId}
    (hs : Accounted ctx known s) (hw : Writable ctx.tree G s node)
    (hargs : ∀ arg ∈ args, arg ∈ (ctx.tree.node node).children)
    (htarget : ¬ TypeTable.NeedsReceiver target) :
    (accounting ctx known G F).KeepsAt s (do
      checkArguments ctx infer sig args
      setTarget node target
      pure r) fun _ => CallDone ctx node args :=
  .bind (checkArguments_accounted hinfer hs fun arg harg => hw.child (hargs arg harg))
    fun _ _ ht hle h => callTarget_accounted ht (hw.mono hle) h fun hneeds =>
      absurd hneeds htarget

theorem inferConstruction_accounted (hinfer : Infers ctx known G F infer) {node : NodeId}
    {r : TypeId} {args : List NodeId} (hs : Accounted ctx known s)
    (hw : Writable ctx.tree G s node)
    (hargs : ∀ arg ∈ args, arg ∈ (ctx.tree.node node).children) :
    (accounting ctx known G F).KeepsAt s (inferConstruction ctx infer node r args) fun _ =>
      CallDone ctx node args := by
  unfold inferConstruction
  refine .bind_read hs (b := s) rfl ?_
  dsimp only
  split
  · next methods _ =>
      cases methods.find? (·.name == "initialize") with
      | some init =>
          exact checkedCall_accounted hinfer hs hw hargs (by simp [TypeTable.NeedsReceiver])
      | none =>
          dsimp only
          split
          · refine .bind (Discipline.forM_keeps (P := fun _ => True) _ hs trivial
              fun arg harg u hu hle _ => ?_) fun _ u hu _ _ => ?_
            · exact .bind (hinfer arg u hu ((hw.child (hargs arg harg)).mono hle))
                fun _ v hv _ _ => .pure hv trivial
            · exact .bind (fail_accounted (Q := fun _ _ => False)) fun _ _ _ _ h => h.elim
          · next hempty =>
              refine callTarget_accounted hs hw ?_ (by simp [TypeTable.NeedsReceiver])
              obtain rfl : args = [] := by simpa using hempty
              simp
  · exact checkedCall_accounted hinfer hs hw hargs (by simp [TypeTable.NeedsReceiver])
  · exact fail_accounted

theorem importedModule_accounted {receiver : NodeId} (hs : Accounted ctx known s) :
    (accounting ctx known G F).KeepsAt s (inferReceiverCall.importedModule ctx receiver)
      fun found _ => found.isSome → ∃ name, ctx.tree.node receiver = .ident name := by
  unfold inferReceiverCall.importedModule
  split
  · next name hnode =>
      refine .bind_read hs (b := s) rfl ?_
      split
      · exact .pure hs fun _ => ⟨name, hnode⟩
      · exact .pure hs (by simp)
  · exact .pure hs (by simp)

/-- A call on a receiver: a method or field, after the receiver was typed, or a function or type of
an imported module. -/
theorem inferReceiverCall_accounted (hinfer : Infers ctx known G F infer)
    {node receiver : NodeId} {method : String} {args : List NodeId}
    (hnode : ctx.tree.node node = .call (some receiver) method args) (hs : Accounted ctx known s)
    (hw : Writable ctx.tree G s node) :
    (accounting ctx known G F).KeepsAt s (inferReceiverCall ctx infer node receiver method args)
      fun _ => CallDone ctx node args := by
  have hargs : ∀ arg ∈ args, arg ∈ (ctx.tree.node node).children := fun arg harg => by
    simp [hnode, Node.children, harg]
  have hreceiver : Writable ctx.tree G s receiver := hw.child (by simp [hnode, Node.children])
  unfold inferReceiverCall
  refine .bind (importedModule_accounted hs) fun found t ht hle hfound => ?_
  split
  · obtain ⟨name, hident⟩ := hfound rfl
    refine .bind (record_accounted (Q := fun _ _ => True) ht (hreceiver.mono hle).self
      (by simp [TypeTable.PartsCovered, hident]) (by simp [hident, Node.declaresType]) trivial)
      fun _ u hu hle' _ => ?_
    have hw' := (hw.mono hle).mono hle'
    refine .bind_read hu (b := u) rfl ?_
    split
    · exact fail_accounted
    · split
      · exact checkedCall_accounted hinfer hu hw' hargs (by simp [TypeTable.NeedsReceiver])
      · exact inferConstruction_accounted hinfer hu hw' hargs
      · exact fail_accounted
  · refine .bind (hinfer receiver t ht (hreceiver.mono hle)) fun given u hu hle' hdone => ?_
    refine .bind_read hu (b := u) rfl (.bind (ofExcept_accounted (Q := fun _ v => v = u) hu
      fun _ _ => rfl) ?_)
    rintro r u - - rfl
    refine .bind_read hu (b := u) rfl ?_
    dsimp only
    split
    · exact fail_accounted
    · next sig _ =>
        have hw' := (hw.mono hle).mono hle'
        refine .bind (checkArguments_accounted hinfer hu fun arg harg => hw'.child
          (hargs arg harg)) fun _ v hv hle'' hchecked => ?_
        have htarget : ∀ target (r : TypeId), (accounting ctx known G F).KeepsAt v (do
            setTarget node target
            pure r) fun _ => CallDone ctx node args := by
          intro target r
          refine callTarget_accounted hv (hw'.mono hle'') hchecked fun _ => ?_
          intro receiver' method' args' hnode'
          rw [hnode] at hnode'
          cases hnode'
          exact hdone.mono hle''
        refine .bind_read hv (b := v) rfl (.bind (ofExcept_accounted (Q := fun _ w => w = v) hv
          fun _ _ => rfl) ?_)
        rintro op _ - - rfl
        split
        · exact htarget _ _
        · exact htarget _ _

theorem inferBuiltin_accounted (hinfer : Infers ctx known G F infer) {node : NodeId}
    {builtin : Builtin} {args : List NodeId} (hs : Accounted ctx known s)
    (hw : Writable ctx.tree G s node)
    (hargs : ∀ arg ∈ args, arg ∈ (ctx.tree.node node).children) :
    (accounting ctx known G F).KeepsAt s (inferBuiltin infer node builtin args) fun _ =>
      CallDone ctx node args := by
  unfold inferBuiltin
  split
  · next object =>
      refine .bind (hinfer object s hs (hw.child (hargs object (by simp))))
        fun r u hu hle hdone => ?_
      refine .bind_read hu (b := u) rfl ?_
      dsimp only
      split
      · exact .bind (fail_accounted (Q := fun _ _ => False)) fun _ _ _ _ h => h.elim
      · exact callTarget_accounted hu (hw.mono hle) (by simpa using hdone)
          (by simp [TypeTable.NeedsReceiver])
  · exact .bind (fail_accounted (Q := fun _ _ => False)) fun _ _ _ _ h => h.elim

theorem inferBareCall_accounted (hinfer : Infers ctx known G F infer) {node : NodeId}
    {method : String} {args : List NodeId} (hs : Accounted ctx known s)
    (hw : Writable ctx.tree G s node)
    (hargs : ∀ arg ∈ args, arg ∈ (ctx.tree.node node).children) :
    (accounting ctx known G F).KeepsAt s (inferBareCall ctx infer node method args) fun _ =>
      CallDone ctx node args := by
  unfold inferBareCall
  refine .bind_read hs (b := s) rfl ?_
  dsimp only
  split
  · split
    · exact checkedCall_accounted hinfer hs hw hargs (by simp [TypeTable.NeedsReceiver])
    · exact fail_accounted
  · split
    · exact checkedCall_accounted hinfer hs hw hargs (by simp [TypeTable.NeedsReceiver])
    · exact checkedCall_accounted hinfer hs hw hargs (by simp [TypeTable.NeedsReceiver])
    · split
      · exact inferConstruction_accounted hinfer hs hw hargs
      · exact fail_accounted
      · exact fail_accounted
      · exact fail_accounted
      · split
        · exact inferBuiltin_accounted hinfer hs hw hargs
        · exact fail_accounted

theorem inferTemplatedInstance_accounted (hnodup : ∀ node, (ctx.tree.statements node).Nodup)
    (hinfer : Infers ctx known G F infer) {node : NodeId} {name : String}
    {typeArgs args : List NodeId} (hs : Accounted ctx known s) (hw : Writable ctx.tree G s node)
    (hparts : ∀ arg ∈ typeArgs ++ args, arg ∈ (ctx.tree.node node).children) :
    (accounting ctx known G F).KeepsAt s
      (inferTemplatedInstance ctx infer node name typeArgs args) fun _ => CallDone ctx node args := by
  have hargs : ∀ arg ∈ args, arg ∈ (ctx.tree.node node).children := fun arg harg =>
    hparts arg (List.mem_append_right _ harg)
  unfold inferTemplatedInstance
  refine .bind (Discipline.mapM_keeps_all (P := fun _ _ => True) typeArgs hs
    (fun _ _ _ _ _ _ h => h) fun arg harg t ht hle => typeExpr_accounted hnodup arg t ht
      ((hw.child (hparts arg (List.mem_append_left _ harg))).mono hle)) fun types t ht hle _ => ?_
  refine .bind_read ht (b := t) rfl ?_
  dsimp only
  have hw' := hw.mono hle
  split
  · next id hid =>
      refine .bind (expand_accounted (typeExpr_accounted hnodup) hnodup ht
        (ht.scopes.findTemplate_lt hid)) fun r u hu hle' _ => ?_
      exact inferConstruction_accounted hinfer hu (hw'.mono hle') hargs
  · split
    · next id index hid =>
        refine .bind (expand_accounted (typeExpr_accounted hnodup) hnodup ht
          (ht.scopes.lookup_lt hid)) fun r u hu hle' _ => ?_
        refine .bind_read hu (b := u) rfl ?_
        split
        · exact inferConstruction_accounted hinfer hu (hw'.mono hle') hargs
        · exact fail_accounted
    · exact fail_accounted

/-! ## Expressions and statements -/

theorem inferIdent_accounted {node : NodeId} {name : String} (hs : Accounted ctx known s)
    (hw : Writable ctx.tree G s node) :
    (accounting ctx known G F).KeepsAt s (inferIdent node name) fun _ u =>
      u.table.HasTarget { walk := u.walk, node } := by
  have htarget : ∀ target (r : TypeId), ¬ TypeTable.NeedsReceiver target →
      (accounting ctx known G F).KeepsAt s (do
        setTarget node target
        pure r) fun _ u => u.table.HasTarget { walk := u.walk, node } := by
    intro target r hneeds
    exact .bind (setTarget_accounted (Q := fun _ u => u.table.HasTarget { walk := u.walk, node })
      hs hw.self (fun h => absurd h hneeds) TypeTable.hasTarget_setTarget)
      fun _ u hu _ h => .pure hu h
  unfold inferIdent
  refine .bind_read hs (b := s) rfl ?_
  split
  · exact htarget _ _ (by simp [TypeTable.NeedsReceiver])
  · split
    · exact htarget _ _ (by simp [TypeTable.NeedsReceiver])
    · exact fail_accounted
    · exact fail_accounted
  · exact fail_accounted
  · exact fail_accounted
  · exact fail_accounted

theorem ivarInScope_accounted {name : String} (hs : Accounted ctx known s) :
    (accounting ctx known G F).KeepsAt s (ivarInScope name) fun _ _ => True := by
  unfold ivarInScope
  refine .bind_read hs (b := s) rfl ?_
  split
  · exact .pure hs trivial
  · exact fail_accounted

theorem inferVar_accounted (hnodup : ∀ node, (ctx.tree.statements node).Nodup)
    (hinfer : Infers ctx known G F infer) {name : String} {declared : Option NodeId}
    {value : NodeId} (hs : Accounted ctx known s) (hvalue : Writable ctx.tree G s value)
    (hdeclared : ∀ type ∈ declared, Writable ctx.tree G s type) :
    (accounting ctx known G F).KeepsAt s (inferVar ctx infer name declared value) fun _ =>
      Done ctx value := by
  have hbind : ∀ t u, Accounted ctx known u → Done ctx value u →
      (accounting ctx known G F).KeepsAt u (do
        modifyScopes (·.bind name (.value t))
        pure t) fun _ => Done ctx value := by
    intro t u hu hdone
    exact .bind (modifyScopes_accounted (Q := fun _ _ => True) hu (hu.scopes.bind (by simp))
      trivial) fun _ v hv hle _ => .pure hv (hdone.mono hle)
  unfold inferVar
  refine .bind (hinfer value s hs hvalue) fun given t ht hle hdone => ?_
  refine .bind_read ht (b := t) rfl ?_
  dsimp only
  split
  · exact .bind (fail_accounted (Q := fun _ _ => False)) fun _ _ _ _ h => h.elim
  · cases declared with
    | none => exact hbind given t ht hdone
    | some declared =>
        refine .bind (typeExpr_accounted hnodup declared t ht ((hdeclared declared rfl).mono hle))
          fun wanted u hu hle' _ => ?_
        refine .bind_read hu (b := u) rfl ?_
        split
        · exact .bind (fail_accounted (Q := fun _ _ => False)) fun _ _ _ _ h => h.elim
        · exact hbind wanted u hu (hdone.mono hle')

/-- The target of an assignment is given its type after the value is typed. -/
theorem inferAssign_accounted (hinfer : Infers ctx known G F infer) {target value : NodeId}
    (hs : Accounted ctx known s) (htarget : Writable ctx.tree G s target)
    (hvalue : Writable ctx.tree G s value) :
    (accounting ctx known G F).KeepsAt s (inferAssign ctx infer target value) fun _ u =>
      u.table.HasType { walk := u.walk, node := target } ∧ Done ctx value u := by
  unfold inferAssign
  refine .bind (hinfer value s hs hvalue) fun given t ht hle hdone => ?_
  have hrecord : (ctx.tree.node target).declaresType = false → (∀ u : TypingState σ,
        u.table.PartsCovered ctx.tree { walk := u.walk, node := target }) →
      ∀ r u, Accounted ctx known u → Accounts ctx G F t u →
        (accounting ctx known G F).KeepsAt u (do
          record target r
          pure given) fun _ u =>
            u.table.HasType { walk := u.walk, node := target } ∧ Done ctx value u := by
    intro hdecl hparts r u hu hle'
    refine .bind (record_accounted (Q := fun _ v =>
      v.table.HasType { walk := v.walk, node := target }) hu ((htarget.mono hle).mono hle').self
      (hparts u) (by simp [hdecl]) TypeTable.hasType_record) fun _ v hv hle'' h => ?_
    exact .pure hv ⟨h, (hdone.mono hle').mono hle''⟩
  dsimp only
  split
  · next name hnode =>
      refine .bind (ivarInScope_accounted ht) fun r u hu hle' _ => ?_
      refine .bind_read hu (b := u) rfl ?_
      split
      · exact .bind (fail_accounted (Q := fun _ _ => False)) fun _ _ _ _ h => h.elim
      · exact hrecord (by simp [hnode, Node.declaresType])
          (fun _ => by simp [TypeTable.PartsCovered, hnode]) r u hu hle'
  · next name hnode =>
      refine .bind_read ht (b := t) rfl ?_
      split
      · exact .bind (fail_accounted (Q := fun _ _ => False)) fun _ _ _ _ h => h.elim
      · next r _ =>
          refine .bind_read ht (b := t) rfl ?_
          split
          · exact .bind (fail_accounted (Q := fun _ _ => False)) fun _ _ _ _ h => h.elim
          · refine .bind (setTarget_accounted (Q := fun _ _ => True) ht (htarget.mono hle).self
              (by simp [TypeTable.NeedsReceiver]) trivial) fun _ u hu hle' _ => ?_
            exact hrecord (by simp [hnode, Node.declaresType])
              (fun _ => by simp [TypeTable.PartsCovered, hnode]) r u hu hle'
  · exact .bind (fail_accounted (Q := fun _ _ => False)) fun _ _ _ _ h => h.elim

theorem inferBinary_accounted (hinfer : Infers ctx known G F infer) {op : BinaryOp}
    {lhs rhs : NodeId} (hs : Accounted ctx known s) (hlhs : Writable ctx.tree G s lhs)
    (hrhs : Writable ctx.tree G s rhs) :
    (accounting ctx known G F).KeepsAt s (inferBinary infer op lhs rhs) fun _ u =>
      Done ctx lhs u ∧ Done ctx rhs u := by
  unfold inferBinary
  refine .bind (hinfer lhs s hs hlhs) fun l t ht hle hl => ?_
  refine .bind (hinfer rhs t ht (hrhs.mono hle)) fun r u hu hle' hr => ?_
  have hboth : Done ctx lhs u ∧ Done ctx rhs u := ⟨hl.mono hle', hr⟩
  refine .bind_read hu (b := u) rfl ?_
  dsimp only
  split
  · exact makeType_accounted hu (.push rfl) hboth
  · split
    · exact makeType_accounted hu (.push rfl) hboth
    · exact ofExcept_accounted hu fun _ _ => hboth

theorem inferUnary_accounted (hinfer : Infers ctx known G F infer) {op : UnaryOp}
    {operand : NodeId} (hs : Accounted ctx known s) (hw : Writable ctx.tree G s operand) :
    (accounting ctx known G F).KeepsAt s (inferUnary infer op operand) fun _ =>
      Done ctx operand := by
  unfold inferUnary
  refine .bind (hinfer operand s hs hw) fun r t ht _ hdone => ?_
  refine .bind_read ht (b := t) rfl ?_
  cases op with
  | stack =>
      refine .bind_read ht (b := ⟨t.walk, operand⟩) rfl ?_
      split
      · exact .pure ht hdone
      · exact .pure ht hdone
      · exact fail_accounted
  | not =>
      dsimp only
      split
      · exact .pure ht hdone
      · exact fail_accounted

theorem inferCondition_accounted (hinfer : Infers ctx known G F infer) {cond : NodeId}
    (hs : Accounted ctx known s) (hw : Writable ctx.tree G s cond) :
    (accounting ctx known G F).KeepsAt s (inferCondition infer cond) fun _ => Done ctx cond := by
  unfold inferCondition
  refine .bind (hinfer cond s hs hw) fun r t ht _ hdone => ?_
  refine .bind_read ht (b := t) rfl ?_
  dsimp only
  split
  · exact fail_accounted
  · exact .pure ht hdone

/-! ## Cases, returns and lambdas -/

theorem patternCase_accounted {type : NodeId} {owner : TypeId} (hs : Accounted ctx known s)
    (hw : Writable ctx.tree G s type) :
    (accounting ctx known G F).KeepsAt s (patternCase ctx type owner) fun _ _ => True := by
  unfold patternCase
  split
  · next name hnode =>
      refine .bind_read hs (b := s) rfl ?_
      dsimp only
      split
      · exact fail_accounted
      · exact .bind (record_accounted (Q := fun _ _ => True) hs hw.self
          (by simp [TypeTable.PartsCovered, hnode]) (by simp [hnode, Node.declaresType]) trivial)
          fun _ u hu _ _ => .pure hu trivial
  · exact fail_accounted

theorem caseFrame_accounted {r : TypeId} {binders : List String} (hs : Accounted ctx known s) :
    (accounting ctx known G F).KeepsAt s (caseFrame r binders) fun frame _ => frame.Plain := by
  unfold caseFrame
  refine .bind_read hs (b := s) rfl ?_
  dsimp only
  split
  · exact .pure hs .empty
  · split
    · exact fail_accounted
    · exact .pure hs Scope.Plain.empty.bindValues

theorem inferPattern_accounted (hnodup : ∀ node, (ctx.tree.statements node).Nodup)
    {scrutinee : TypeId} {onDynamic : Bool} {type : NodeId} {binder : Option String}
    {fields : List String} (hs : Accounted ctx known s) (hw : Writable ctx.tree G s type) :
    (accounting ctx known G F).KeepsAt s
      (inferPattern ctx scrutinee onDynamic type binder fields) fun r _ => r.1.Plain := by
  unfold inferPattern
  dsimp only
  split
  · refine .bind (typeExpr_accounted hnodup type s hs hw) fun t u hu _ _ => ?_
    split
    · exact .bind (fail_accounted (Q := fun _ _ => False)) fun _ _ _ _ h => h.elim
    · exact .pure hu Scope.Plain.empty.bindValues
  · refine .bind (patternCase_accounted hs hw) fun t u hu _ _ => ?_
    refine .bind (caseFrame_accounted hu) fun frame v hv _ hframe => ?_
    exact .pure hv hframe.bindValues

/-- The parts of an arm that the generator asks for. -/
def ArmDone (ctx : TypingContext σ) (arm : NodeId) (s : TypingState σ) : Prop :=
  ∀ matched body, ctx.tree.node arm = .arm matched body →
    s.table.HasType { walk := s.walk, node := matched } ∧ Done ctx body s

theorem stable_armDone (arm : NodeId) : (accounting ctx known G F).Stable (ArmDone ctx arm) := by
  intro s t _ hle _ h matched body harm
  refine ⟨?_, (h matched body harm).2.mono hle⟩
  rw [hle.walk]
  exact hle.grows.types _ (h matched body harm).1

theorem inferArm_accounted (hnodup : ∀ node, (ctx.tree.statements node).Nodup)
    (hinfer : Infers ctx known G F infer) {scrutinee : TypeId} {onDynamic : Bool} {arm : NodeId}
    (hs : Accounted ctx known s) (hw : Writable ctx.tree G s arm) :
    (accounting ctx known G F).KeepsAt s (inferArm ctx infer scrutinee onDynamic arm) fun _ u =>
      ArmDone ctx arm u := by
  unfold inferArm
  split
  · next matched body harm =>
      have hmatched : Writable ctx.tree G s matched := hw.child (by simp [harm, Node.children])
      have hbody : Writable ctx.tree G s body := hw.child (by simp [harm, Node.children])
      split
      · next type binder fields hpattern =>
          refine .bind (inferPattern_accounted hnodup hs
            (hmatched.child (by simp [hpattern, Node.children]))) ?_
          rintro ⟨frame, r⟩ v hv hle hframe
          refine .bind (record_accounted (Q := fun _ w =>
            w.table.HasType { walk := w.walk, node := matched }) hv (hmatched.mono hle).self
            (by simp [TypeTable.PartsCovered, hpattern]) (by simp [hpattern, Node.declaresType])
            TypeTable.hasType_record)
            fun _ w hw' hle₁ htype => ?_
          refine .bind (withFrame_accounted (R := fun _ table _ walk =>
            table.Covers ctx.tree { walk, node := body }) hw' hframe fun x hx _ hwalk => ?_)
            fun _ x hx hle₂ hcovers => ?_
          · refine hinfer body x hx fun hzero => ?_
            exact (hbody.mono hle).mono hle₁ (hwalk.symm.trans hzero)
          · refine (record_accounted (Q := fun _ _ => True) hx
              (((hw.mono hle).mono hle₁).mono hle₂).self
              (by simp [TypeTable.PartsCovered, harm]) (by simp [harm, Node.declaresType])
              trivial).weaken fun _ y _ hle₃ _ => ?_
            intro matched' body' harm'
            rw [harm] at harm'
            cases harm'
            refine ⟨?_, Done.mono hcovers hle₃⟩
            rw [hle₃.walk, hle₂.walk]
            exact hle₃.grows.types _ (hle₂.grows.types _ htype)
      · exact fail_accounted
  · exact fail_accounted

theorem inferSelect_accounted (hnodup : ∀ node, (ctx.tree.statements node).Nodup)
    (hinfer : Infers ctx known G F infer) {cond : NodeId} {arms : List NodeId}
    (hs : Accounted ctx known s) (hcond : Writable ctx.tree G s cond)
    (harms : ∀ arm ∈ arms, Writable ctx.tree G s arm) :
    (accounting ctx known G F).KeepsAt s (inferSelect ctx infer cond arms) fun _ u =>
      Done ctx cond u ∧ ∀ arm ∈ arms, ArmDone ctx arm u := by
  unfold inferSelect
  refine .bind (hinfer cond s hs hcond) fun given t ht hle hdone => ?_
  refine .bind_read ht (b := t) rfl ?_
  have hloop : ∀ onDynamic, (accounting ctx known G F).KeepsAt t (do
      arms.forM (inferArm ctx infer (t.pool.resolve given) onDynamic)
      pure TypeId.void) fun _ u => Done ctx cond u ∧ ∀ arm ∈ arms, ArmDone ctx arm u := by
    intro onDynamic
    refine .bind (Discipline.forM_keeps_each (P := ArmDone ctx) arms ht
      (fun arm _ => stable_armDone arm) fun arm harm u hu hle' => ?_)
      fun _ u hu hle' h => .pure hu ⟨hdone.mono hle', h⟩
    exact inferArm_accounted hnodup hinfer hu (((harms arm harm).mono hle).mono hle')
  dsimp only
  split
  · exact hloop false
  · exact hloop true
  · exact .bind (fail_accounted (Q := fun _ _ => False)) fun _ _ _ _ h => h.elim

theorem inferReturn_accounted (hinfer : Infers ctx known G F infer) {value : Option NodeId}
    (hs : Accounted ctx known s) (hw : ∀ value' ∈ value, Writable ctx.tree G s value') :
    (accounting ctx known G F).KeepsAt s (inferReturn infer value) fun _ u =>
      ∀ value' ∈ value, Done ctx value' u := by
  unfold inferReturn
  refine .bind_read hs (b := s) rfl ?_
  dsimp only
  split
  · exact .bind (fail_accounted (Q := fun _ _ => False)) fun _ _ _ _ h => h.elim
  · split
    · refine .bind_read hs (b := s) rfl ?_
      exact .bind (fail_accounted (Q := fun _ _ => False)) fun _ _ _ _ h => h.elim
    · exact .pure hs (by simp)
  · next expected value _ =>
      refine .bind (hinfer value s hs (hw value rfl)) fun r t ht _ hdone => ?_
      split
      · exact .bind (fail_accounted (Q := fun _ _ => False)) fun _ _ _ _ h => h.elim
      · refine .bind_read ht (b := t) rfl ?_
        split
        · exact .bind (fail_accounted (Q := fun _ _ => False)) fun _ _ _ _ h => h.elim
        · exact .pure ht (by simpa using hdone)

theorem lambdaParams_accounted (hnodup : ∀ node, (ctx.tree.statements node).Nodup)
    {params : List NodeId} (hs : Accounted ctx known s)
    (hw : ∀ param ∈ params, Writable ctx.tree G s param) :
    (accounting ctx known G F).KeepsAt s (lambdaParams ctx params) fun _ _ => True := by
  unfold lambdaParams
  refine (Discipline.mapM_keeps_all (P := fun _ _ => True) _ hs (fun _ _ _ _ _ _ h => h)
    fun param hparam t ht hle => ?_).trivial
  have hparam := (hw param hparam).mono hle
  have hrecord : (ctx.tree.node param).declaresType = false → (∀ u : TypingState σ,
        u.table.PartsCovered ctx.tree { walk := u.walk, node := param }) →
      ∀ (name : String) (r : TypeId) u, Accounted ctx known u → Accounts ctx G F t u →
        (accounting ctx known G F).KeepsAt u (do
          record param r
          pure (name, r)) fun _ _ => True := by
    intro hdecl hparts name r u hu hle'
    exact .bind (record_accounted (Q := fun _ _ => True) hu (hparam.mono hle').self (hparts u)
      (by simp [hdecl]) trivial) fun _ v hv _ _ => .pure hv trivial
  dsimp only
  split
  · next name type hnode =>
      refine .bind (typeExpr_accounted hnodup type t ht
        (hparam.child (by simp [hnode, Node.children]))) fun r u hu hle' _ => ?_
      exact hrecord (by simp [hnode, Node.declaresType])
        (fun _ => by simp [TypeTable.PartsCovered, hnode]) name r u hu hle'
  · next name hnode =>
      refine .bind (makeType_accounted (Q := fun _ _ => True) ht (.push rfl) trivial)
        fun r u hu hle' _ => ?_
      exact hrecord (by simp [hnode, Node.declaresType])
        (fun _ => by simp [TypeTable.PartsCovered, hnode]) name r u hu hle'
  · exact .bind (fail_accounted (Q := fun _ _ => False)) fun _ _ _ _ h => h.elim

theorem lambdaCaptures_accounted {captures : List String} (hs : Accounted ctx known s) :
    (accounting ctx known G F).KeepsAt s (lambdaCaptures captures) fun _ _ => True := by
  unfold lambdaCaptures
  refine (Discipline.mapM_keeps_all (P := fun _ _ => True) _ hs (fun _ _ _ _ _ _ h => h)
    fun name _ t ht _ => ?_).trivial
  refine .bind_read ht (b := t) rfl ?_
  split
  · exact .pure ht trivial
  · exact fail_accounted

theorem inferLambda_accounted (hnodup : ∀ node, (ctx.tree.statements node).Nodup)
    (hinfer : Infers ctx known G F infer) {params : List NodeId} {captures : List String}
    {body : NodeId} (hs : Accounted ctx known s)
    (hparams : ∀ param ∈ params, Writable ctx.tree G s param)
    (hbody : Writable ctx.tree G s body) :
    (accounting ctx known G F).KeepsAt s (inferLambda ctx infer params captures body) fun _ =>
      Done ctx body := by
  unfold inferLambda
  refine .bind (lambdaParams_accounted hnodup hs hparams) fun named t ht hle _ => ?_
  refine .bind (lambdaCaptures_accounted ht) fun captured u hu hle' _ => ?_
  refine .bind (withFrame_accounted (R := fun _ table _ walk =>
    table.Covers ctx.tree { walk, node := body }) hu Scope.Plain.empty.bindValues
    fun v hv _ hwalk => withReturnType_accounted (R := fun _ table _ walk =>
      table.Covers ctx.tree { walk, node := body }) hv fun w hw _ hwalk' => ?_)
    fun result v hv _ hcovers => ?_
  · refine hinfer body w hw fun hzero => ?_
    exact (hbody.mono hle).mono hle' (hwalk.symm.trans (hwalk'.symm.trans hzero))
  · exact makeType_accounted hv (.closure _ _ _) hcovers

/-! ## Members -/

/-- The body of a method was typed in the walk of the visit. -/
def BodyCovered (tree : SyntaxTree) (table : TypeTable) (v : Visit) : Prop :=
  ∀ name params result body, tree.node v.node = .methodDef name params result body →
    table.Covers tree { v with node := body }

/-- All methods that a statement of a type body comes to were typed. -/
def MemberDone (ctx : TypingContext σ) (walk : InstanceId) (statement : NodeId)
    (s : TypingState σ) : Prop :=
  s.table.Throughout ctx.tree (BodyCovered ctx.tree s.table) { walk, node := statement }

theorem MemberDone.mono {walk : InstanceId} {statement : NodeId}
    (h : MemberDone ctx walk statement s) (hle : Preserves G F s t) :
    MemberDone ctx walk statement t :=
  TypeTable.Throughout.mono h (fun _ hv name params result body hnode =>
    (hv name params result body hnode).mono hle.grows) hle.inclusions

theorem methodFrame_plain {params : List NodeId} {sig : Signature} :
    (methodFrame ctx params sig).Plain :=
  Scope.Plain.empty.bindValues

theorem walkMethod_accounted (hinfer : Infers ctx known G F infer) {node : NodeId}
    (hs : Accounted ctx known s) (hw : Writable ctx.tree G s node) :
    (accounting ctx known G F).KeepsAt s (walkMethod ctx infer node) fun _ u =>
      BodyCovered ctx.tree u.table { walk := u.walk, node } := by
  unfold walkMethod
  split
  · next name params result body hnode =>
      refine .bind_read hs (b := ⟨s.walk, node⟩) rfl (.bind_read hs (b := s) rfl ?_)
      refine .bind (ofExcept_accounted (Q := fun _ u => u = s) hs fun _ _ => rfl) ?_
      rintro sig u - - rfl
      refine .bind (withFrame_accounted (R := fun _ table _ walk =>
        table.Covers ctx.tree { walk, node := body }) hs methodFrame_plain
        fun v hv _ hwalk => withReturnType_accounted (R := fun _ table _ walk =>
          table.Covers ctx.tree { walk, node := body }) hv fun w hw' _ hwalk' => ?_)
        fun r v hv _ hcovers => ?_
      · refine hinfer body w hw' fun hzero => ?_
        exact hw.child (by simp [hnode, Node.children])
          (hwalk.symm.trans (hwalk'.symm.trans hzero))
      · have hbody : BodyCovered ctx.tree v.table { walk := v.walk, node } := by
          intro name' params' result' body' hnode'
          rw [hnode] at hnode'
          cases hnode'
          exact hcovers
        refine .bind_read hv (b := v) rfl ?_
        dsimp only
        split
        · exact fail_accounted
        · exact .pure hv hbody
  · exact fail_accounted

/-- The members of a body are typed, those of included traits in the walks of the inclusions. -/
def WalksBody (ctx : TypingContext σ) (known : σ → String → Prop) (G : NodeId → Prop)
    (step : NodeId → Typing σ Unit) : Prop :=
  ∀ body s, Accounted ctx known s → Writable ctx.tree G s body →
    (accounting ctx known G fun _ => False).KeepsAt s (step body) fun _ u =>
      ∀ statement ∈ ctx.tree.statements body, MemberDone ctx u.walk statement u

theorem walkMember_accounted (hinfer : Infers ctx known G (fun _ => False) infer)
    {inner : NodeId → Typing σ Unit} (hinner : WalksBody ctx known G inner) {statement : NodeId}
    (hs : Accounted ctx known s) (hw : Writable ctx.tree G s statement) :
    (accounting ctx known G fun _ => False).KeepsAt s (walkMember ctx infer inner statement)
      fun _ u => MemberDone ctx u.walk statement u := by
  -- a statement that is no inclusion leads to itself only
  have hsingle : ∀ u : TypingState σ, (∀ name, ctx.tree.node statement ≠ .inclusion name) →
      BodyCovered ctx.tree u.table { walk := u.walk, node := statement } →
      MemberDone ctx u.walk statement u := fun u hnot hu => .single hnot fun _ => hu
  have hkeep : (ctx.tree.node statement).declaresType = false → (∀ u : TypingState σ,
        u.table.PartsCovered ctx.tree { walk := u.walk, node := statement }) →
      (∀ u : TypingState σ, MemberDone ctx u.walk statement u) →
      (accounting ctx known G fun _ => False).KeepsAt s (do
        let v ← visit statement
        if ((← get).table.get? v).isNone then record statement .void) fun _ u =>
          MemberDone ctx u.walk statement u := by
    intro hdecl hparts hdone
    refine .bind_read hs (b := ⟨s.walk, statement⟩) rfl (.bind_read hs (b := s) rfl ?_)
    split
    · exact (record_accounted (Q := fun _ _ => True) hs hw.self (hparts s)
        (by simp [hdecl]) trivial).weaken fun _ u _ _ _ => hdone u
    · exact .pure hs (hdone s)
  unfold walkMember
  dsimp only
  split
  · next name params result methodBody hnode =>
      refine .bind (walkMethod_accounted hinfer hs hw) fun _ u hu hle hbody => ?_
      refine (record_accounted (Q := fun _ _ => True) hu (hw.mono hle).self ?_
        (by simp [hnode, Node.declaresType]) trivial).weaken
          fun _ v _ hle' _ => hsingle v (by simp [hnode]) ?_
      · simpa [TypeTable.PartsCovered, hnode] using hbody _ _ _ _ hnode
      · intro name' params' result' body' hnode'
        rw [hle'.walk]
        exact (hbody _ _ _ _ hnode').mono hle'.grows
  · next name hnode =>
      refine .bind (findTrait_accounted hs) fun traitBody u hu hle htrait => ?_
      refine .bind_read hu (b := ⟨u.walk, statement⟩) rfl (.bind_read hu (b := u) rfl ?_)
      split
      · exact fail_accounted
      · next included hincluded =>
          have hlt := hu.inclusions_lt _ _ hincluded
          refine .bind (withWalk_accounted (R := fun _ table =>
            ∀ inner ∈ ctx.tree.statements traitBody, table.Throughout ctx.tree
              (BodyCovered ctx.tree table) { walk := included, node := inner }) hu hlt.2
            fun v hv _ hwalk => ?_) fun _ v hv hle' hinner => ?_
          · refine (hinner traitBody v hv (.of_pos (hwalk ▸ Nat.zero_lt_of_lt hlt.1))).weaken
              fun _ w _ hle' h inner hin => ?_
            have hmember := h inner hin
            rw [hle'.walk, hwalk] at hmember
            exact hmember
          · have hmember : MemberDone ctx v.walk statement v := by
              refine .inclusion hnode ?_ htrait hinner
              rw [hle'.walk]
              exact hle'.inclusions _ _ hincluded
            refine (record_accounted (Q := fun _ _ => True) hv ((hw.mono hle).mono hle').self
              (by simp [TypeTable.PartsCovered, hnode])
              (by simp [hnode, Node.declaresType]) trivial).weaken fun _ w _ hle'' _ => ?_
            rw [hle''.walk]
            exact hmember.mono hle''.toPreserves
  · next hnode =>
      exact hkeep (by simp [hnode, Node.declaresType])
        (fun _ => by simp [TypeTable.PartsCovered, hnode])
        fun u => hsingle u (by simp [hnode]) (by simp [BodyCovered, hnode])
  · next hnode =>
      exact hkeep (by simp [hnode, Node.declaresType])
        (fun _ => by simp [TypeTable.PartsCovered, hnode])
        fun u => hsingle u (by simp [hnode]) (by simp [BodyCovered, hnode])
  · next hdef hincl _ _ =>
      refine .bind (hinfer statement s hs hw) fun _ u hu _ _ => ?_
      refine .pure hu (hsingle u hincl ?_)
      exact fun name params result body hnode => absurd hnode (hdef _ _ _ _)

theorem walkMembersWithin_accounted (hinfer : Infers ctx known G (fun _ => False) infer)
    (fuel : Nat) : WalksBody ctx known G (walkMembersWithin ctx infer fuel) := by
  induction fuel with
  | zero => exact fun _ _ _ _ => throw_accounted
  | succ fuel ih =>
      intro body s hs hw
      rw [walkMembersWithin_succ]
      refine Discipline.forM_keeps_each (D := accounting ctx known G fun _ => False)
        (P := fun statement u => MemberDone ctx u.walk statement u) _ hs
        (fun statement _ t u _ hle _ h => ?_) fun statement hstatement t ht hle => ?_
      · show MemberDone ctx u.walk statement u
        rw [hle.walk]
        exact MemberDone.mono h hle.toPreserves
      · exact walkMember_accounted hinfer ih ht
          ((hw.below (SyntaxTree.below_of_mem_statements hstatement)).mono hle)

/-- The members of a declared type were typed. -/
def TypeWalked (ctx : TypingContext σ) (decl : NodeId) (s : TypingState σ) : Prop :=
  (ctx.tree.node decl).declaresType = true → ∀ body, ctx.tree.bodyOf? decl = some body →
    ∀ statement ∈ ctx.tree.statements body, MemberDone ctx s.walk statement s

theorem TypeWalked.mono {decl : NodeId} (h : TypeWalked ctx decl s)
    (hle : Accounts ctx G F s t) : TypeWalked ctx decl t := by
  intro hdecl body hbody statement hstatement
  rw [hle.walk]
  exact (h hdecl body hbody statement hstatement).mono hle.toPreserves

theorem recorded_accounted {node : NodeId} (hs : Accounted ctx known s) :
    (accounting ctx known G F).KeepsAt s (recorded node) fun r u =>
      u = s ∧ s.table.get? { walk := s.walk, node } = some r :=
  .bind_read hs (b := ⟨s.walk, node⟩) rfl (.bind_read hs (b := s) rfl
    (ofExcept_accounted hs fun _ hr => ⟨rfl, by
      unfold TypeTable.typeOf at hr
      split at hr <;> simp_all⟩))

theorem walkDeclaredType_accounted (hinfer : Infers ctx known G (fun _ => False) infer)
    {decl : NodeId} {typeParam : Option String} {body : Option NodeId}
    (hs : Accounted ctx known s) (hw : ∀ body' ∈ body, Writable ctx.tree G s body') :
    (accounting ctx known G fun _ => False).KeepsAt s
      (walkDeclaredType ctx infer decl typeParam body) fun r u => typeParam = none →
        (∀ body' ∈ body, ∀ statement ∈ ctx.tree.statements body',
          MemberDone ctx u.walk statement u) ∧
        ((ctx.tree.node decl).declaresType = true → u.walk = 0 →
          u.table.get? { walk := 0, node := decl } = some r) := by
  unfold walkDeclaredType
  split
  · next hparam => exact .pure hs fun h => by simp [h] at hparam
  · refine .bind (recorded_accounted hs) ?_
    rintro r t ht hle ⟨rfl, hrecorded⟩
    have hkept : ∀ u, Accounts ctx G (fun _ => False) t u →
        (ctx.tree.node decl).declaresType = true → u.walk = 0 →
        u.table.get? { walk := 0, node := decl } = some r := fun u hle' hdecl hzero =>
      hle'.owners decl hdecl r ((hle'.walk.symm.trans hzero) ▸ hrecorded)
    cases body with
    | none => exact .pure ht fun _ => ⟨by simp, hkept t (.refl t)⟩
    | some body =>
        refine .bind (withTypeFrame_accounted _ _ (R := fun _ table _ walk =>
          ∀ statement ∈ ctx.tree.statements body, table.Throughout ctx.tree
            (BodyCovered ctx.tree table) { walk, node := statement }) ht fun u hu _ hwalk => ?_)
          fun _ u hu hle' h => .pure hu fun _ => ⟨fun body' hbody' => ?_, hkept u hle'⟩
        · refine walkMembersWithin_accounted hinfer _ body u hu fun hzero => ?_
          exact (hw body rfl).mono hle (hwalk.symm.trans hzero)
        · cases hbody'
          exact h

/-- The statements of a sequence are typed one after the other. -/
theorem inferAll_accounted {P : NodeId → TypingState σ → Prop} {statements : List NodeId}
    (hinfer : ∀ node s, Accounted ctx known s → Writable ctx.tree G s node →
      (accounting ctx known G F).KeepsAt s (infer node) fun _ => P node)
    (hs : Accounted ctx known s) (hstable : ∀ node, (accounting ctx known G F).Stable (P node))
    (hw : ∀ statement ∈ statements, Writable ctx.tree G s statement) :
    (accounting ctx known G F).KeepsAt s
      (statements.foldlM (fun _ statement => infer statement) TypeId.void) fun _ u =>
        ∀ statement ∈ statements, P statement u := by
  suffices ∀ r : TypeId, (accounting ctx known G F).KeepsAt s
      (statements.foldlM (fun _ statement => infer statement) r) fun _ u =>
        ∀ statement ∈ statements, P statement u from this _
  induction statements generalizing s with
  | nil => exact fun r => .pure hs (by simp)
  | cons statement statements ih =>
      intro r
      rw [List.foldlM_cons]
      refine .bind (hinfer statement s hs (hw statement (by simp))) fun r' t ht hle hdone => ?_
      refine (ih ht (fun other hother => (hw other (List.mem_cons_of_mem _ hother)).mono hle)
        r').weaken fun _ u hu hle' h other hother => ?_
      rcases List.mem_cons.mp hother with rfl | hother
      · exact hstable _ t u ht hle' hu hdone
      · exact h other hother

/-- The type of a node may be recorded once its parts are typed, and the members of a declared type
are typed on the way. -/
theorem inferNode_accounted (hnodup : ∀ node, (ctx.tree.statements node).Nodup)
    (hinfer : Infers ctx known G (fun _ => False) infer) {node : NodeId}
    (hs : Accounted ctx known s) (hw : Writable ctx.tree G s node) :
    (accounting ctx known G fun _ => False).KeepsAt s (inferNode ctx infer node) fun r u =>
      Recordable ctx node r u ∧ TypeWalked ctx node u := by
  -- for all but names and declared types, covered parts are enough
  have hparts {d : Node} {step : Typing σ TypeId} {Q : TypingState σ → Prop}
      (hnode : ctx.tree.node node = d) (hplain : (∀ name, d ≠ .ident name) ∧ d.declaresType = false)
      (hQ : ∀ u, Q u → u.table.PartsCovered ctx.tree { walk := u.walk, node })
      (hstep : (accounting ctx known G fun _ => False).KeepsAt s step fun _ => Q) :
      (accounting ctx known G fun _ => False).KeepsAt s step fun r u =>
        Recordable ctx node r u ∧ TypeWalked ctx node u := by
    refine hstep.weaken fun r u _ _ h =>
      ⟨⟨hQ u h, fun name hname => ?_, fun htrue => ?_⟩, fun htrue => ?_⟩
    · exact absurd (hnode.symm.trans hname) (hplain.1 name)
    all_goals
      rw [hnode, hplain.2] at htrue
      cases htrue
  have hleaf {d : Node} {step : Typing σ TypeId} (hnode : ctx.tree.node node = d)
      (hplain : (∀ name, d ≠ .ident name) ∧ d.declaresType = false)
      (hcovered : ∀ u : TypingState σ, u.table.PartsCovered ctx.tree { walk := u.walk, node })
      (hstep : (accounting ctx known G fun _ => False).KeepsAt s step fun _ _ => True) :
      (accounting ctx known G fun _ => False).KeepsAt s step fun r u =>
        Recordable ctx node r u ∧ TypeWalked ctx node u :=
    hparts hnode hplain (fun u _ => hcovered u) hstep
  have hdeclared {typeParam : Option String} {body : Option NodeId}
      (hbody : ∀ body' ∈ body, body' ∈ (ctx.tree.node node).children)
      (hnode : ∀ u : TypingState σ, u.table.PartsCovered ctx.tree { walk := u.walk, node } ∧
        (∀ name, ctx.tree.node node ≠ .ident name) ∧ ctx.tree.bodyOf? node = body ∧
        ((ctx.tree.node node).declaresType = true → typeParam = none)) :
      (accounting ctx known G fun _ => False).KeepsAt s
        (walkDeclaredType ctx infer node typeParam body) fun r u =>
          Recordable ctx node r u ∧ TypeWalked ctx node u := by
    refine (walkDeclaredType_accounted hinfer hs fun body' h => hw.child (hbody body' h)).weaken
      fun r u _ _ h => ?_
    obtain ⟨hcovered, hident, hbodyOf, hparam⟩ := hnode u
    refine ⟨⟨hcovered, fun name hname => absurd hname (hident name), fun hdecl => ?_⟩,
      fun hdecl body' hbody' => ?_⟩
    · exact (h (hparam hdecl)).2 hdecl
    · exact (h (hparam hdecl)).1 body' (hbodyOf ▸ hbody')
  have hchild : ∀ part, part ∈ (ctx.tree.node node).children → Writable ctx.tree G s part :=
    fun part => hw.child
  have htype : (accounting ctx known G fun _ => False).KeepsAt s (typeExpr ctx node)
      fun _ _ => True := typeExpr_accounted hnodup node s hs hw
  unfold inferNode
  cases hnode : ctx.tree.node node with
  | classDef name typeParam body =>
      refine hdeclared (by simp [hnode, Node.children]) fun u =>
        ⟨by simp [TypeTable.PartsCovered, hnode], by simp [hnode],
          by simp [SyntaxTree.bodyOf?, hnode], ?_⟩
      cases typeParam <;> simp [hnode, Node.declaresType]
  | dataDef name typeParam cases body =>
      refine hdeclared (fun _ hbody => by simp_all [Node.children]) fun u =>
        ⟨by simp [TypeTable.PartsCovered, hnode], by simp [hnode],
          by simp [SyntaxTree.bodyOf?, hnode], ?_⟩
      cases typeParam <;> simp [hnode, Node.declaresType]
  | ident name =>
      refine (inferIdent_accounted hs hw).weaken fun _ u _ _ h =>
        ⟨⟨?_, fun _ _ => h, by simp [hnode, Node.declaresType]⟩, ?_⟩
      · simp [TypeTable.PartsCovered, hnode]
      · simp [TypeWalked, hnode, Node.declaresType]
  | number | bool | text | varargs | methodDec | traitDef | importModule | package =>
      exact hleaf hnode ⟨by simp, rfl⟩ (by simp [TypeTable.PartsCovered, hnode]) (.pure hs trivial)
  | ivar name =>
      exact hleaf hnode ⟨by simp, rfl⟩ (by simp [TypeTable.PartsCovered, hnode])
        (ivarInScope_accounted hs)
  | typed | namedType | pointerType | templatedType | closureType =>
      exact hleaf hnode ⟨by simp, rfl⟩ (by simp [TypeTable.PartsCovered, hnode]) htype
  | caseDef =>
      exact hleaf hnode ⟨by simp, rfl⟩ (by simp [TypeTable.PartsCovered, hnode])
        (recorded_accounted hs).trivial
  | ivarDecl name type =>
      exact hleaf hnode ⟨by simp, rfl⟩ (by simp [TypeTable.PartsCovered, hnode])
        (typeExpr_accounted hnodup type s hs (hchild type (by simp [hnode, Node.children])))
  | selfRef =>
      refine hleaf hnode ⟨by simp, rfl⟩ (by simp [TypeTable.PartsCovered, hnode])
        (.bind_read hs (b := s) rfl ?_)
      split
      · exact .pure hs trivial
      · exact fail_accounted
  | inclusion | arm | pattern => exact fail_accounted
  | seq statements =>
      exact hparts hnode ⟨by simp, rfl⟩
        (fun u h => by simpa only [TypeTable.PartsCovered, hnode, Done] using h)
        (inferAll_accounted hinfer hs stable_done
          fun statement hmem => hchild statement (by simpa [hnode, Node.children] using hmem))
  | methodDef name params result body =>
      exact hparts (Q := fun u => BodyCovered ctx.tree u.table { walk := u.walk, node }) hnode
        ⟨by simp, rfl⟩
        (fun u h => by simpa only [TypeTable.PartsCovered, hnode] using h _ _ _ _ hnode)
        (.bind (walkMethod_accounted hinfer hs hw) fun _ t ht _ h => .pure ht h)
  | var name type value =>
      exact hparts hnode ⟨by simp, rfl⟩
        (fun u h => by simpa only [TypeTable.PartsCovered, hnode, Done] using h)
        (inferVar_accounted hnodup hinfer hs (hchild value (by simp [hnode, Node.children]))
          fun type' htype' => hchild type' (by simp_all [Node.children]))
  | assign target value =>
      exact hparts hnode ⟨by simp, rfl⟩
        (fun u h => by simpa only [TypeTable.PartsCovered, hnode, Done] using h)
        (inferAssign_accounted hinfer hs (hchild target (by simp [hnode, Node.children]))
          (hchild value (by simp [hnode, Node.children])))
  | call receiver method args =>
      cases receiver with
      | some receiver =>
          exact hparts hnode ⟨by simp, rfl⟩
            (fun u h => by simpa only [TypeTable.PartsCovered, hnode, Done, CallDone] using h)
            (inferReceiverCall_accounted hinfer hnode hs hw)
      | none =>
          exact hparts hnode ⟨by simp, rfl⟩
            (fun u h => by simpa only [TypeTable.PartsCovered, hnode, Done, CallDone] using h)
            (inferBareCall_accounted hinfer hs hw (by simp [hnode, Node.children]))
  | namedArg name value =>
      exact hparts hnode ⟨by simp, rfl⟩
        (fun u h => by simpa only [TypeTable.PartsCovered, hnode, Done] using h)
        (hinfer value s hs (hchild value (by simp [hnode, Node.children])))
  | templatedInstance name typeArgs args =>
      exact hparts hnode ⟨by simp, rfl⟩
        (fun u h => by simpa only [TypeTable.PartsCovered, hnode, Done, CallDone] using h)
        (inferTemplatedInstance_accounted hnodup hinfer hs hw (by simp [hnode, Node.children]))
  | binary op lhs rhs =>
      exact hparts hnode ⟨by simp, rfl⟩
        (fun u h => by simpa only [TypeTable.PartsCovered, hnode, Done] using h)
        (inferBinary_accounted hinfer hs (hchild lhs (by simp [hnode, Node.children]))
          (hchild rhs (by simp [hnode, Node.children])))
  | unary op operand =>
      exact hparts hnode ⟨by simp, rfl⟩
        (fun u h => by simpa only [TypeTable.PartsCovered, hnode, Done] using h)
        (inferUnary_accounted hinfer hs (hchild operand (by simp [hnode, Node.children])))
  | branch cond yes no =>
      refine hparts (Q := fun u => Done ctx cond u ∧ Done ctx yes u ∧ ∀ no' ∈ no, Done ctx no' u)
        hnode ⟨by simp, rfl⟩
        (fun u h => by simpa only [TypeTable.PartsCovered, hnode, Done] using h) ?_
      refine .bind (inferCondition_accounted hinfer hs
        (hchild cond (by simp [hnode, Node.children]))) fun _ t ht hle hcond => ?_
      refine .bind (hinfer yes t ht ((hchild yes (by simp [hnode, Node.children])).mono hle))
        fun _ u hu hle' hyes => ?_
      cases no with
      | none => exact .pure hu ⟨hcond.mono hle', hyes, by simp⟩
      | some no =>
          have hno := ((hchild no (by simp [hnode, Node.children])).mono hle).mono hle'
          refine .bind (P := fun _ => Done ctx no)
            (.bind (hinfer no u hu hno) fun _ v hv _ h => .pure hv h) fun _ v hv hle'' h => ?_
          exact .pure hv ⟨(hcond.mono hle').mono hle'', hyes.mono hle'', by simpa using h⟩
  | loop cond body =>
      refine hparts (Q := fun u => Done ctx cond u ∧ Done ctx body u) hnode ⟨by simp, rfl⟩
        (fun u h => by simpa only [TypeTable.PartsCovered, hnode, Done] using h) ?_
      refine .bind (inferCondition_accounted hinfer hs
        (hchild cond (by simp [hnode, Node.children]))) fun _ t ht hle hcond => ?_
      refine .bind (hinfer body t ht ((hchild body (by simp [hnode, Node.children])).mono hle))
        fun _ u hu hle' hbody => ?_
      exact .pure hu ⟨hcond.mono hle', hbody⟩
  | select cond arms =>
      exact hparts hnode ⟨by simp, rfl⟩
        (fun u h => by simpa only [TypeTable.PartsCovered, hnode, Done, ArmDone] using h)
        (inferSelect_accounted hnodup hinfer hs (hchild cond (by simp [hnode, Node.children]))
          fun arm harm => hchild arm (by simp [hnode, Node.children, harm]))
  | ret value =>
      exact hparts hnode ⟨by simp, rfl⟩
        (fun u h => by simpa only [TypeTable.PartsCovered, hnode, Done] using h)
        (inferReturn_accounted hinfer hs
          fun value' hvalue => hchild value' (by simp_all [Node.children]))
  | lambda params captures body =>
      exact hparts hnode ⟨by simp, rfl⟩
        (fun u h => by simpa only [TypeTable.PartsCovered, hnode, Done] using h)
        (inferLambda_accounted hnodup hinfer hs
          (fun param hparam => hchild param (by simp [hnode, Node.children, hparam]))
          (hchild body (by simp [hnode, Node.children])))

/-- Typing a node covers it, and walks the members of a declared type. -/
theorem inferWithin_accounted (hnodup : ∀ node, (ctx.tree.statements node).Nodup) (fuel : Nat)
    (node : NodeId) (s : TypingState σ) (hs : Accounted ctx known s)
    (hw : Writable ctx.tree G s node) :
    (accounting ctx known G fun _ => False).KeepsAt s (inferWithin ctx fuel node) fun _ u =>
      Done ctx node u ∧ TypeWalked ctx node u := by
  induction fuel generalizing node s with
  | zero => exact throw_accounted
  | succ fuel ih =>
      unfold inferWithin
      have hinfer : Infers ctx known G (fun _ => False) (inferWithin ctx fuel) :=
        fun node s hs hw => (ih node s hs hw).weaken fun _ _ _ _ h => h.1
      refine .bind (inferNode_accounted hnodup hinfer hs hw) fun r t ht hle h => ?_
      refine .bind (record_accounted (Q := fun _ u => u.table.HasType { walk := u.walk, node }) ht
        (hw.mono hle).self h.1.parts h.1.declared TypeTable.hasType_record)
        fun _ u hu hle' htype => ?_
      refine .pure hu ⟨⟨htype, fun name hname => ?_⟩, h.2.mono hle'⟩
      rw [hle'.walk]
      exact hle'.grows.targets _ (h.1.target name hname)

theorem infers_inferWithin (hnodup : ∀ node, (ctx.tree.statements node).Nodup) (fuel : Nat) :
    Infers ctx known G (fun _ => False) (inferWithin ctx fuel) :=
  fun node s hs hw => (inferWithin_accounted hnodup fuel node s hs hw).weaken fun _ _ _ _ h => h.1

theorem infer_accounted (hnodup : ∀ node, (ctx.tree.statements node).Nodup) :
    Infers ctx known G (fun _ => False) (Typing.infer ctx) :=
  infers_inferWithin hnodup _

/-- Typing a whole body covers all its statements. -/
theorem inferStatements_accounted (hnodup : ∀ node, (ctx.tree.statements node).Nodup)
    {body : NodeId} (hs : Accounted ctx known s) (hw : Writable ctx.tree G s body) :
    (accounting ctx known G fun _ => False).KeepsAt s (Typing.infer ctx body) fun _ u =>
      ∀ statement ∈ ctx.tree.statements body,
        Done ctx statement u ∧ TypeWalked ctx statement u := by
  obtain ⟨fuel, hfuel⟩ : ∃ fuel, ctx.tree.walkBudget = fuel + 1 :=
    Nat.exists_eq_succ_of_ne_zero (Nat.pos_iff_ne_zero.mp (Nat.pow_pos (by omega)))
  unfold Typing.infer SyntaxTree.statements
  rw [hfuel]
  split
  · next statements hnode =>
      unfold inferWithin inferNode
      simp only [hnode]
      have hstable : ∀ node, (accounting ctx known G fun _ => False).Stable fun u =>
          Done ctx node u ∧ TypeWalked ctx node u :=
        fun _ _ _ _ hle _ h => ⟨h.1.mono hle, h.2.mono hle⟩
      refine .bind (inferAll_accounted (inferWithin_accounted hnodup fuel) hs hstable
        fun statement hmem => hw.child (by simpa [hnode, Node.children] using hmem))
        fun r t ht hle h => ?_
      refine .bind (record_accounted (Q := fun _ _ => True) ht (hw.mono hle).self ?_
        (by simp [hnode, Node.declaresType]) trivial)
        fun _ u hu hle' _ => .pure hu fun statement hmem => ?_
      · simp only [TypeTable.PartsCovered, hnode]
        exact fun statement hmem => (h statement hmem).1
      · exact ⟨(h statement hmem).1.mono hle', (h statement hmem).2.mono hle'⟩
  · refine (inferWithin_accounted hnodup (fuel + 1) body s hs hw).weaken fun _ u _ _ h => ?_
    simpa using h

end ClassLang.Typing
