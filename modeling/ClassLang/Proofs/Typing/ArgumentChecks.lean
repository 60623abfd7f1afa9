import ClassLang.Proofs.Pool.Stability
import ClassLang.Proofs.Syntax.ArgumentNodes
import ClassLang.Proofs.Typing.AccountedDeclarations
import ClassLang.Proofs.Typing.Steadiness
import ClassLang.Typing.Calculate

/-!
# Calls whose arguments were checked

The arguments of a call are typed one after the other and compared with the parameters. What this
found is recorded: the type of each argument, and the signature as part of what the call means.
`CallChecked` says of a call that the recorded types are those that were compared with the recorded
signature.

Typing what stands below a call writes over the records of its arguments, so while it does the call
is `open`, and only what is not open has to be checked: `CallsChecked` is the invariant of typing.
`Spares` says which records of arguments a step may write; those of an argument are left alone while
the other arguments of its call are typed.
-/

namespace ClassLang

/-- The signature that the arguments of a call with this meaning are checked against. -/
def Target.checked? : Target → Option Signature
  | .closure sig => some sig
  | .method sig => some sig
  | .selfMethod sig => some sig
  | .function sig => some sig
  | .construct _ init => init
  | .constructCase _ sig => some sig
  | .localVar | .singleton _ | .element _ | .builtin _ => none

/-- The types of nodes that are recorded in a walk. -/
def TypeTable.RecordsTypes (table : TypeTable) (walk : InstanceId) (nodes : List NodeId)
    (types : List TypeId) : Prop :=
  List.Forall₂ (fun node t => table.get? ⟨walk, node⟩ = some t) nodes types

theorem TypeTable.RecordsTypes.congr {table table' : TypeTable} {walk : InstanceId}
    {nodes : List NodeId} {types : List TypeId} (h : table.RecordsTypes walk nodes types)
    (hsame : ∀ node ∈ nodes, table'.get? ⟨walk, node⟩ = table.get? ⟨walk, node⟩) :
    table'.RecordsTypes walk nodes types := by
  induction h with
  | nil => exact .nil
  | cons hnode _ ih =>
      refine .cons ((hsame _ (by simp)).trans hnode) (ih fun node hmem => hsame node ?_)
      exact List.mem_cons_of_mem _ hmem

namespace Typing

variable {σ : Type} (ctx : TypingContext σ)

/-- The first step of checking the arguments of a call: they are typed as written. -/
def inferArguments (infer : NodeId → Typing σ TypeId) (args : List NodeId) :
    Typing σ (List (Option String × TypeId)) :=
  args.mapM fun arg => return (argumentLabel ctx arg, ← infer arg)

/-- The check of the arguments of a call ended in the state `s`. It found these types for them, and
those that belong to declared parameters convert to the parameters' types. -/
structure CheckEnds (walk : InstanceId) (sig : Signature) (args : List NodeId)
    (types : List TypeId) (s : TypingState σ) : Prop where
  run : ∃ fuel before after, before.walk = walk ∧
    inferArguments ctx (inferWithin ctx fuel) args before =
      .ok ((args.map (argumentLabel ctx)).zip types) after ∧
    checkArguments ctx (inferWithin ctx fuel) sig args before = .ok () s
  founded : s.pool.Founded
  recorded : s.table.RecordsTypes walk args types
  converts : ∃ ordered, orderArguments sig ((args.map (argumentLabel ctx)).zip types) = .ok ordered ∧
    ∀ pair ∈ ordered.fixed.zip sig.params, s.pool.canConvert pair.1 pair.2.type = true

/-- The recorded types of the arguments are those that were compared with the signature that was
recorded for the call. -/
def CallChecked (table : TypeTable) (p : Pool) (v : Visit) : Prop :=
  ∀ args target sig, ctx.tree.callArgs? v.node = some args → table.targets[v]? = some target →
    target.checked? = some sig → ∃ types, table.RecordsTypes v.walk args types ∧
      ∃ s, CheckEnds ctx v.walk sig args types s ∧ s.pool.Evolves p

/-- What a call needs to stay checked. -/
theorem CallChecked.mono {ctx : TypingContext σ} {table table' : TypeTable} {p q : Pool} {v : Visit}
    (h : CallChecked ctx table p v) (htarget : table'.targets[v]? = table.targets[v]?)
    (htypes : ∀ args, ctx.tree.callArgs? v.node = some args → ∀ arg ∈ args,
      table'.get? ⟨v.walk, arg⟩ = table.get? ⟨v.walk, arg⟩)
    (he : p.Evolves q) : CallChecked ctx table' q v := by
  intro args target sig hargs hmeans hsig
  obtain ⟨types, hrecorded, s, hends, hle⟩ := h args target sig hargs (htarget ▸ hmeans) hsig
  exact ⟨types, hrecorded.congr (htypes args hargs), s, hends, hle.trans he⟩

variable (O W : Visit → Prop)

/-- The invariant: calls of the unit that are not in `O` are checked. Templates are declared at top
level, and the walk of an inclusion is later than the walk that it stands in. -/
structure CallsChecked (s : TypingState σ) : Prop extends Orderly ctx s where
  later : ∀ v walk, s.table.inclusion? v = some walk → v.walk < walk
  templates : ∀ decl ∈ s.templates.map (·.decl), decl ∈ ctx.tree.statements ctx.tree.root
  calls : ∀ v : Visit, ctx.tree.Below ctx.tree.root v.node → ¬ O v →
    CallChecked ctx s.table s.pool v

/-- Of arguments, only those in `W` get another type. -/
structure Spares (s t : TypingState σ) : Prop where
  walk : t.walk = s.walk
  next_le : s.table.nextInstance ≤ t.table.nextInstance
  decls : t.templates.map (·.decl) = s.templates.map (·.decl)
  pool : s.pool.Evolves t.pool
  types : ∀ v : Visit, ctx.tree.IsArg v.node → ¬ W v → t.table.get? v = s.table.get? v

variable {ctx O W} {s t u : TypingState σ}

namespace Spares

theorem refl (s : TypingState σ) : Spares ctx W s s :=
  ⟨rfl, Nat.le_refl _, rfl, .refl _, fun _ _ _ => rfl⟩

theorem trans (h : Spares ctx W s t) (h' : Spares ctx W t u) : Spares ctx W s u where
  walk := h'.walk.trans h.walk
  next_le := Nat.le_trans h.next_le h'.next_le
  decls := h'.decls.trans h.decls
  pool := h.pool.trans h'.pool
  types v hv hnot := (h'.types v hv hnot).trans (h.types v hv hnot)

theorem weaken {W' : Visit → Prop} (h : Spares ctx W s t) (hW : ∀ v, W v → W' v) :
    Spares ctx W' s t :=
  { h with types := fun v hv hnot => h.types v hv fun hw => hnot (hW v hw) }

theorem count (h : Spares ctx W s t) : t.templates.length = s.templates.length := by
  simpa using congrArg List.length h.decls

end Spares

variable (ctx O W) in
/-- Typing while the calls in `O` are open and the records of arguments in `W` are written. -/
def checking : Discipline Halt (TypingState σ) where
  inv := CallsChecked ctx O
  le := Spares ctx W
  fails _ _ _ := True
  refl := .refl
  trans := .trans
  fails_trans _ _ := trivial

variable {α : Type} {Q R : α → TypingState σ → Prop} {P : α → Prop} {step : Typing σ α}

/-- More records may be written. -/
theorem widen_checking {W' : Visit → Prop} (h : (checking ctx O W).KeepsAt s step Q)
    (hW : ∀ v, W v → W' v) :
    (checking ctx O W').KeepsAt s step fun a t => Q a t ∧ Spares ctx W s t := by
  unfold Discipline.KeepsAt at h ⊢
  cases hstep : step s with
  | error e t => trivial
  | ok a t =>
      simp only [hstep] at h ⊢
      exact ⟨h.1, h.2.1.weaken hW, h.2.2, h.2.1⟩

/-- A call is opened. -/
theorem CallsChecked.openCall (hs : CallsChecked ctx O s) (v : Visit) :
    CallsChecked ctx (fun w => O w ∨ w = v) s :=
  { hs with calls := fun w hw hnot => hs.calls w hw fun ho => hnot (.inl ho) }

/-- A call that was checked is closed. -/
theorem close_checking {v : Visit} (hs : CallsChecked ctx O s)
    (h : CallsChecked ctx (fun w => O w ∨ w = v) s →
      (checking ctx (fun w => O w ∨ w = v) W).KeepsAt s step fun a t =>
        Q a t ∧ CallChecked ctx t.table t.pool v) :
    (checking ctx O W).KeepsAt s step Q := by
  have h := h (hs.openCall v)
  unfold Discipline.KeepsAt at h ⊢
  cases hstep : step s with
  | error e t => trivial
  | ok a t =>
      simp only [hstep] at h ⊢
      obtain ⟨ht, hle, hQ, hchecked⟩ := h
      refine ⟨{ ht with calls := fun w hw hnot => ?_ }, hle, hQ⟩
      by_cases heq : w = v
      · exact heq ▸ hchecked
      · exact ht.calls w hw fun ho => ho.elim hnot heq

/-! ## Steps that fail or look -/

theorem stop_checks (h : Halt) : (checking ctx O W).KeepsAt s (throw h) Q :=
  .of_error rfl trivial

theorem fail_checks (e : CompileError) : (checking ctx O W).KeepsAt s (fail e) Q :=
  .of_error rfl trivial

theorem mismatch_checks (text : String) : (checking ctx O W).KeepsAt s (mismatch text) Q :=
  .of_error rfl trivial

theorem ofExcept_checks {r : Except CompileError α} (hs : CallsChecked ctx O s)
    (hok : ∀ a, r = .ok a → Q a s) : (checking ctx O W).KeepsAt s (ofExcept r) Q := by
  cases r with
  | ok a => exact .pure hs (hok a rfl)
  | error e => exact fail_checks e

/-- What follows a failure is never reached. -/
theorem mismatch_then_checks {β : Type} (text : String) (next : β → Typing σ α) :
    (checking ctx O W).KeepsAt s (mismatch text >>= next) Q :=
  .of_error rfl trivial

/-- A step that always fails. -/
theorem never_checks (h : ∀ a t, step s ≠ .ok a t) : (checking ctx O W).KeepsAt s step Q := by
  cases hstep : step s with
  | error e t => exact .of_error hstep trivial
  | ok a t => exact absurd hstep (h a t)

/-! ## Elementary steps -/

namespace CallsChecked

/-- Another pool. -/
theorem setPool (hs : CallsChecked ctx O s) {p : Pool} (he : s.pool.Evolves p) :
    CallsChecked ctx O { s with pool := p } :=
  { hs with calls := fun v hv hnot => (hs.calls v hv hnot).mono rfl (fun _ _ _ _ => rfl) he }

/-- Other scopes that declare no templates and traits. -/
theorem setScopes (hs : CallsChecked ctx O s) {c : ScopeChain}
    (hc : c.Registered ctx.tree s.templates.length) : CallsChecked ctx O { s with scopes := c } :=
  { hs with scopes := hc }

/-- Another walk and declared result. -/
theorem setWalk (hs : CallsChecked ctx O s) {walk : InstanceId} (result : Option TypeId)
    (hwalk : walk < s.table.nextInstance) :
    CallsChecked ctx O { s with walk, returnType := result } :=
  { hs with walk_lt := hwalk }

/-- A type is recorded for a node that is an argument of open calls only. -/
theorem record (hs : CallsChecked ctx O s) {v : Visit} {r : TypeId}
    (hopen : ∀ call, ctx.tree.ArgOf call v.node → O ⟨v.walk, call⟩) :
    CallsChecked ctx O { s with table := s.table.record v r } := by
  refine { hs with calls := fun w hw hnot => (hs.calls w hw hnot).mono rfl ?_ (.refl _) }
  intro args hargs arg harg
  refine TypeTable.get?_record_of_ne _ _ fun heq => ?_
  subst heq
  exact hnot (hopen w.node ⟨hw, args, hargs, harg⟩)

/-- The meaning of an open call is recorded, or one without arguments to check. -/
theorem setTarget (hs : CallsChecked ctx O s) {v : Visit} {target : Target}
    (h : O v ∨ target.checked? = none) :
    CallsChecked ctx O { s with table := s.table.setTarget v target } := by
  refine { hs with calls := fun w hw hnot => ?_ }
  by_cases heq : w = v
  · subst heq
    intro args target' sig _ htarget hsig
    simp only [TypeTable.setTarget, Std.TreeMap.getElem?_insert_self, Option.some.injEq] at htarget
    subst htarget
    simp [h.resolve_left hnot] at hsig
  · refine (hs.calls w hw hnot).mono ?_ (fun _ _ _ _ => rfl) (.refl _)
    exact (getElem?_insert_visit s.table.targets v w target).trans (if_neg heq)

end CallsChecked

/-- A step that leaves the findings alone. -/
theorem Spares.of_same (hwalk : t.walk = s.walk) (htable : t.table = s.table)
    (htemplates : t.templates = s.templates) (he : s.pool.Evolves t.pool) : Spares ctx W s t :=
  ⟨hwalk, htable ▸ Nat.le_refl _, htemplates ▸ rfl, he, fun _ _ _ => htable ▸ rfl⟩

/-- A type is recorded for a node; if it is an argument, then its record may be written. -/
theorem spares_record {v : Visit} {r : TypeId} (hW : ctx.tree.IsArg v.node → W v) :
    Spares ctx W s { s with table := s.table.record v r } := by
  refine { (Spares.refl s : Spares ctx W s s) with types := fun w hw hnot => ?_ }
  refine TypeTable.get?_record_of_ne _ _ fun heq => ?_
  subst heq
  exact hnot (hW hw)

variable (ctx O W) in
/-- A type can be recorded for the node in a walk. -/
structure Annotatable (walk : InstanceId) (node : NodeId) : Prop where
  opened : ∀ call, ctx.tree.ArgOf call node → O ⟨walk, call⟩
  written : ctx.tree.IsArg node → W ⟨walk, node⟩

/-- What is no argument can be recorded everywhere. -/
theorem Annotatable.of_not_isArg {walk : InstanceId} {node : NodeId} (h : ¬ ctx.tree.IsArg node) :
    Annotatable ctx O W walk node :=
  ⟨fun call harg => absurd ⟨call, harg⟩ h, fun harg => absurd harg h⟩

theorem record_at {node : NodeId} {r : TypeId} {Q : Unit → TypingState σ → Prop}
    (hs : CallsChecked ctx O s) (hnode : Annotatable ctx O W s.walk node)
    (hQ : Q () { s with table := s.table.record ⟨s.walk, node⟩ r }) :
    (checking ctx O W).KeepsAt s (record node r) Q :=
  .of_ok rfl (hs.record (v := ⟨s.walk, node⟩) hnode.opened) (spares_record hnode.written) hQ

theorem setTarget_at {node : NodeId} {target : Target} {Q : Unit → TypingState σ → Prop}
    (hs : CallsChecked ctx O s) (h : O ⟨s.walk, node⟩ ∨ target.checked? = none)
    (hQ : Q () { s with table := s.table.setTarget ⟨s.walk, node⟩ target }) :
    (checking ctx O W).KeepsAt s (setTarget node target) Q :=
  .of_ok rfl (hs.setTarget h) { (Spares.refl s : Spares ctx W s s) with } hQ

theorem makeType_checks {f : Pool → TypeId × Pool} (hf : ∀ p : Pool, p.Evolves (f p).2) :
    (checking ctx O W).Keeps (makeType f : Typing σ TypeId) fun _ => True :=
  fun s hs => .of_ok rfl (hs.setPool (hf s.pool)) (.of_same rfl rfl rfl (hf s.pool)) trivial

theorem updatePool_checks {f : Pool → Except CompileError Pool}
    (hf : ∀ p q, f p = .ok q → p.Evolves q) :
    (checking ctx O W).Keeps (updatePool f : Typing σ Unit) fun _ => True := by
  intro s hs
  refine .bind_read hs (b := s) rfl ?_
  refine .bind (ofExcept_checks (Q := fun q t => f s.pool = .ok q ∧ t = s) hs
    fun q hq => ⟨hq, rfl⟩) ?_
  rintro q t - - ⟨hq, rfl⟩
  have he := hf t.pool q hq
  exact .of_ok rfl (hs.setPool he) (.of_same rfl rfl rfl he) trivial

theorem modifyScopes_checks {f : ScopeChain → ScopeChain}
    (hf : ∀ c count, c.Registered ctx.tree count → (f c).Registered ctx.tree count) :
    (checking ctx O W).Keeps (modifyScopes f : Typing σ Unit) fun _ => True :=
  fun _ hs => .of_ok rfl (hs.setScopes (hf _ _ hs.scopes)) (.of_same rfl rfl rfl (.refl _)) trivial

/-- Recording the type of a node that is no argument. -/
theorem record_checks {node : NodeId} {r : TypeId} (h : ¬ ctx.tree.IsArg node) :
    (checking ctx O W).Keeps (record node r : Typing σ Unit) fun _ => True :=
  fun _ hs => record_at hs (.of_not_isArg h) trivial

/-- Recording what a name means. -/
theorem setTarget_checks {node : NodeId} {target : Target} (h : target.checked? = none) :
    (checking ctx O W).Keeps (setTarget node target : Typing σ Unit) fun _ => True :=
  fun _ hs => setTarget_at hs (.inr h) trivial

theorem recorded_checks (node : NodeId) :
    (checking ctx O W).Keeps (recorded node : Typing σ TypeId) fun _ => True :=
  fun s hs => .bind_read hs (b := ⟨s.walk, node⟩) rfl (.bind_read hs (b := s) rfl
    (ofExcept_checks hs fun _ _ => trivial))

theorem spell_checks (r : TypeId) :
    (checking ctx O W).Keeps (spell r : Typing σ String) fun _ => True :=
  .get fun _ _ => .pure trivial

theorem qualified_checks (name : String) :
    (checking ctx O W).Keeps (qualified name : Typing σ String) fun _ => True :=
  .get fun _ _ => .pure trivial

/-! ## Steps in another context -/

/-- A step in a changed state, after which parts of the state are put back. -/
theorem within_checks {enter : TypingState σ → TypingState σ}
    {leave : TypingState σ → TypingState σ → TypingState σ}
    (hstep : (checking ctx O W).KeepsAt (enter s) step R)
    (hleave : ∀ a t, CallsChecked ctx O t → Spares ctx W (enter s) t → R a t →
      CallsChecked ctx O (leave s t) ∧ Spares ctx W s (leave s t) ∧ Q a (leave s t)) :
    (checking ctx O W).KeepsAt s (within enter leave step) Q := by
  unfold Discipline.KeepsAt at hstep ⊢
  unfold within
  cases hresult : step (enter s) with
  | ok a t =>
      simp only [hresult] at hstep ⊢
      exact hleave a t hstep.1 hstep.2.1 hstep.2.2
  | error e t => trivial

section Contexts

variable {R : α → TypeTable → Pool → Prop}

theorem withFrame_checks {frame : Scope} (hs : CallsChecked ctx O s) (hframe : frame.Plain)
    (hstep : CallsChecked ctx O { s with scopes := s.scopes.push frame } →
      (checking ctx O W).KeepsAt { s with scopes := s.scopes.push frame } step
        fun a t => R a t.table t.pool) :
    (checking ctx O W).KeepsAt s (withFrame frame step) fun a t => R a t.table t.pool :=
  within_checks (hstep (hs.setScopes (hs.scopes.push hframe))) fun _ _ ht hle hR =>
    ⟨ht.setScopes ht.scopes.pop, { hle with }, hR⟩

theorem withReturnType_checks {result : Option TypeId} (hs : CallsChecked ctx O s)
    (hstep : CallsChecked ctx O { s with returnType := result } →
      (checking ctx O W).KeepsAt { s with returnType := result } step
        fun a t => R a t.table t.pool) :
    (checking ctx O W).KeepsAt s (withReturnType result step) fun a t => R a t.table t.pool :=
  within_checks (hstep (hs.setWalk result hs.walk_lt)) fun _ _ ht hle hR =>
    ⟨ht.setWalk _ ht.walk_lt, { hle with }, hR⟩

/-- A step in another walk that exists. -/
theorem withWalk_checks {walk : InstanceId} (hs : CallsChecked ctx O s)
    (hwalk : walk < s.table.nextInstance)
    (hstep : CallsChecked ctx O { s with walk } →
      (checking ctx O W).KeepsAt { s with walk } step fun a t => R a t.table t.pool) :
    (checking ctx O W).KeepsAt s (withWalk walk step) fun a t => R a t.table t.pool :=
  within_checks (hstep (hs.setWalk s.returnType hwalk)) fun _ t ht hle hR =>
    ⟨ht.setWalk t.returnType (Nat.lt_of_lt_of_le hs.walk_lt hle.next_le),
      { hle with walk := rfl }, hR⟩

theorem withIsolatedFrame_checks {walk : InstanceId} {frame : Scope} (hs : CallsChecked ctx O s)
    (hwalk : walk < s.table.nextInstance) (hframe : frame.Plain)
    (hstep : ∀ t, CallsChecked ctx O t →
      t = { s with scopes := s.scopes.isolate.push frame, walk, returnType := none } →
      (checking ctx O W).KeepsAt t step fun a u => R a u.table u.pool) :
    (checking ctx O W).KeepsAt s (withIsolatedFrame walk frame step) fun a t =>
      R a t.table t.pool := by
  refine within_checks (hstep _ ?_ rfl) fun _ t ht hle hR => ?_
  · exact (hs.setScopes (hs.scopes.isolate.push hframe)).setWalk none hwalk
  · refine ⟨(ht.setScopes (c := t.scopes.restore s.scopes.inner) ?_).setWalk _
      (Nat.lt_of_lt_of_le hs.walk_lt hle.next_le), { hle with walk := rfl }, hR⟩
    exact ht.scopes.restore (hle.count.symm ▸ hs.scopes)

end Contexts

end Typing

end ClassLang
