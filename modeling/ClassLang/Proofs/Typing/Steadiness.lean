import ClassLang.Proofs.ImportErrors
import ClassLang.Proofs.Typing.Accounting

/-!
# Typing is steady

While bodies are typed, new signatures and inclusions are recorded in new walks only, so what was
checked against the records of a walk stays checked. `Steady` is this relation between states; where
declarations are made, the current walk is `free` to get records. It needs no shape of the tree.

A steady step does not touch the imports and never reports an import cycle. `IsSteady` takes steady
steps through sequences and loops, under the declared result of the enclosing method.
-/

namespace ClassLang.Typing

variable {σ : Type} (ctx : TypingContext σ) (free : Prop)

/-- Walks are numbered in order, and in scope are the traits and templates of the module. -/
structure Orderly (s : TypingState σ) : Prop where
  walk_lt : s.walk < s.table.nextInstance
  inclusions_lt : ∀ v walk, s.table.inclusion? v = some walk →
    v.walk < s.table.nextInstance ∧ walk < s.table.nextInstance
  expansions_lt : ∀ id index decl e, expansionAt? s.templates id index = some (decl, e) →
    e.walk < s.table.nextInstance
  scopes : s.scopes.Registered ctx.tree s.templates.length

/-- Records of walks that exist are kept, those of the current walk if it is not `free`; new
expansions are queued. -/
structure Steady (s t : TypingState σ) : Prop where
  walk : t.walk = s.walk
  returnType : t.returnType = s.returnType
  imports : t.imports = s.imports
  next_le : s.table.nextInstance ≤ t.table.nextInstance
  records : ∀ v : Visit, v.walk < s.table.nextInstance → (free → v.walk ≠ s.walk) →
    t.table.signatures[v]? = s.table.signatures[v]? ∧ t.table.inclusion? v = s.table.inclusion? v
  decls : t.templates.map (·.decl) = s.templates.map (·.decl)
  expansions : ∀ id index x, expansionAt? s.templates id index = some x →
    expansionAt? t.templates id index = some x
  pending : s.pending ⊆ t.pending
  queued : ∀ id index x, expansionAt? t.templates id index = some x →
    expansionAt? s.templates id index = some x ∨ (id, index) ∈ t.pending

variable {ctx free} {s t u : TypingState σ}

namespace Steady

theorem refl (s : TypingState σ) : Steady free s s where
  walk := rfl
  returnType := rfl
  imports := rfl
  next_le := Nat.le_refl _
  records _ _ _ := ⟨rfl, rfl⟩
  decls := rfl
  expansions _ _ _ h := h
  pending := List.Subset.refl _
  queued _ _ _ h := .inl h

/-- Two steps, of which the second may be made in another walk and with another result, if that walk
did not exist before the first. -/
theorem trans_within {free' : Prop} {t' u' : TypingState σ} (h : Steady free s t)
    (ht : SameRecords t t') (h' : Steady free' t' u) (hu : SameRecords u u')
    (hwalk : u'.walk = s.walk) (hresult : u'.returnType = s.returnType)
    (hfree : free' → t'.walk < s.table.nextInstance → free ∧ t'.walk = s.walk) :
    Steady free s u' where
  walk := hwalk
  returnType := hresult
  imports := by rw [hu.imports, h'.imports, ht.imports, h.imports]
  next_le := by
    rw [hu.table]
    exact Nat.le_trans h.next_le (ht.table ▸ h'.next_le)
  records v hv hnot := by
    have hbefore := h.records v hv hnot
    have hlt : v.walk < t'.table.nextInstance := ht.table ▸ Nat.lt_of_lt_of_le hv h.next_le
    have hafter := h'.records v hlt fun hf heq => by
      obtain ⟨hfree, hsame⟩ := hfree hf (heq ▸ hv)
      exact hnot hfree (heq.trans hsame)
    rw [ht.table] at hafter
    rw [hu.table]
    exact ⟨hafter.1.trans hbefore.1, hafter.2.trans hbefore.2⟩
  decls := by rw [hu.templates, h'.decls, ht.templates, h.decls]
  expansions id index x hx := by
    rw [hu.templates]
    exact h'.expansions id index x (ht.templates ▸ h.expansions id index x hx)
  pending := by
    rw [hu.pending]
    exact List.Subset.trans (ht.pending ▸ h.pending) h'.pending
  queued id index x hx := by
    rw [hu.templates] at hx
    rw [hu.pending]
    rcases h'.queued id index x hx with hx | hnew
    · rw [ht.templates] at hx
      exact (h.queued id index x hx).imp_right fun hmem => h'.pending (ht.pending.symm ▸ hmem)
    · exact .inr hnew

theorem trans (h : Steady free s t) (h' : Steady free t u) : Steady free s u :=
  h.trans_within ⟨rfl, rfl, rfl, rfl⟩ h' ⟨rfl, rfl, rfl, rfl⟩ (h'.walk.trans h.walk)
    (h'.returnType.trans h.returnType) fun hfree _ => ⟨hfree, h.walk⟩

/-- A step that leaves the records alone. -/
theorem of_same (h : SameRecords s t) (hwalk : t.walk = s.walk)
    (hresult : t.returnType = s.returnType) : Steady free s t :=
  (refl s).trans_within ⟨rfl, rfl, rfl, rfl⟩ (refl s) h hwalk hresult fun hfree _ => ⟨hfree, rfl⟩

/-- A step in another walk and with another declared result, which are put back. -/
theorem of_within {free' : Prop} {s' t' : TypingState σ} (h : Steady free' s t)
    (hs : SameRecords s' s) (ht : SameRecords t t') (hwalk : t'.walk = s'.walk)
    (hresult : t'.returnType = s'.returnType) (hfree : free' → free ∧ s.walk = s'.walk) :
    Steady free s' t' :=
  (refl s').trans_within hs h ht hwalk hresult fun hf _ => hfree hf

theorem weaken (h : Steady False s t) : Steady free s t :=
  h.of_within ⟨rfl, rfl, rfl, rfl⟩ ⟨rfl, rfl, rfl, rfl⟩ h.walk h.returnType False.elim

theorem count (h : Steady free s t) : t.templates.length = s.templates.length := by
  simpa using congrArg List.length h.decls

end Steady

namespace Orderly

/-- Another pool and other findings about types and meanings. -/
theorem setTypes (h : Orderly ctx s) (p : Pool) (types : Std.TreeMap Visit TypeId Visit.order)
    (targets : Std.TreeMap Visit Target Visit.order) :
    Orderly ctx { s with pool := p, table := { s.table with types, targets } } :=
  { h with }

theorem setPool (h : Orderly ctx s) (p : Pool) : Orderly ctx { s with pool := p } :=
  { h with }

/-- Other scopes that declare no templates and traits. -/
theorem setScopes (h : Orderly ctx s) {c : ScopeChain}
    (hc : c.Registered ctx.tree s.templates.length) : Orderly ctx { s with scopes := c } :=
  { h with scopes := hc }

/-- Another walk and declared result. -/
theorem setWalk (h : Orderly ctx s) {walk : InstanceId} (result : Option TypeId)
    (hwalk : walk < s.table.nextInstance) :
    Orderly ctx { s with walk, returnType := result } :=
  { h with walk_lt := hwalk }

end Orderly

variable (ctx free) in
/-- Typing is steady; if it fails, then not because of an import cycle. -/
def steadily : Discipline Halt (TypingState σ) where
  inv := Orderly ctx
  le := Steady free
  fails s h t := h.NoCycle ∧ t.imports = s.imports
  refl := .refl
  trans := .trans
  fails_trans hle h := ⟨h.1, h.2.trans hle.imports⟩

variable {α β : Type} {Q : α → TypingState σ → Prop}

/-- More walks may get records. -/
theorem weaken_steadily {step : Typing σ α} (h : (steadily ctx False).KeepsAt s step Q) :
    (steadily ctx free).KeepsAt s step Q := by
  unfold Discipline.KeepsAt at h ⊢
  split at h
  · exact ⟨h.1, h.2.1.weaken, h.2.2⟩
  · exact h

theorem throw_steadily {h : Halt} (hcycle : h.NoCycle) :
    (steadily ctx free).KeepsAt s (throw h) Q :=
  .of_error rfl ⟨hcycle, rfl⟩

theorem fail_steadily {e : CompileError} (he : ∀ path, e ≠ .importCycle path) :
    (steadily ctx free).KeepsAt s (fail e) Q :=
  throw_steadily fun path h => he path (Halt.error.inj h)

theorem mismatch_steadily (text : String) : (steadily ctx free).KeepsAt s (mismatch text) Q :=
  fail_steadily (by simp)

theorem outOfFuel_steadily : (steadily ctx free).KeepsAt s (throw .outOfFuel) Q :=
  throw_steadily fun _ h => by cases h

/-! ## Steps under a declared result -/

variable (ctx free) in
/-- Under the declared result the step is steady, and what it returns satisfies `P`. -/
def IsSteady (result : Option TypeId) (step : Typing σ α) (P : α → Prop) : Prop :=
  ∀ s, Orderly ctx s → s.returnType = result → (steadily ctx free).KeepsAt s step fun a _ => P a

namespace IsSteady

variable {result : Option TypeId} {step : Typing σ α} {P R : α → Prop}

theorem pure {a : α} (ha : P a) : IsSteady ctx free result (Pure.pure a) P :=
  fun _ hs _ => .pure hs ha

theorem bind {P : β → Prop} {first : Typing σ β} {next : β → Typing σ α}
    (h : IsSteady ctx free result first P)
    (hnext : ∀ b, P b → IsSteady ctx free result (next b) R) :
    IsSteady ctx free result (first >>= next) R :=
  fun s hs hresult => .bind (h s hs hresult) fun b t ht hle hb =>
    hnext b hb t ht (hle.returnType.trans hresult)

theorem mono (h : IsSteady ctx free result step P) (hP : ∀ a, P a → R a) :
    IsSteady ctx free result step R :=
  fun s hs hresult => (h s hs hresult).weaken fun a _ _ _ ha => hP a ha

theorem trivial (h : IsSteady ctx free result step P) :
    IsSteady ctx free result step fun _ => True :=
  h.mono fun _ _ => True.intro

/-- A step that is followed by one of which nothing more is asked. -/
theorem seq {first : Typing σ β} {next : β → Typing σ α}
    (h : IsSteady ctx free result first fun _ => True)
    (hnext : ∀ b, IsSteady ctx free result (next b) R) :
    IsSteady ctx free result (first >>= next) R :=
  h.bind fun b _ => hnext b

/-- Looking at the state. -/
theorem get {next : TypingState σ → Typing σ α}
    (h : ∀ s, Orderly ctx s → s.returnType = result → IsSteady ctx free result (next s) R) :
    IsSteady ctx free result (MonadState.get >>= next) R :=
  fun s hs hresult => .bind_read hs rfl (h s hs hresult s hs hresult)

theorem outOfFuel : IsSteady ctx free result (throw .outOfFuel : Typing σ α) R :=
  fun _ _ _ => outOfFuel_steadily

theorem fail {e : CompileError} (he : ∀ path, e ≠ .importCycle path) :
    IsSteady ctx free result (Typing.fail e : Typing σ α) R :=
  fun _ _ _ => fail_steadily he

theorem mismatch (text : String) :
    IsSteady ctx free result (Typing.mismatch text : Typing σ α) R :=
  fun _ _ _ => mismatch_steadily text

/-- What follows a failure is never reached. -/
theorem stop {first : Typing σ β} {next : β → Typing σ α}
    (h : IsSteady ctx free result first fun _ => False) :
    IsSteady ctx free result (first >>= next) R :=
  h.bind fun _ h => h.elim

theorem ofExcept {r : Except CompileError α} (hfree : FreeOfCycles r)
    (hok : ∀ a, r = .ok a → R a) : IsSteady ctx free result (Typing.ofExcept r) R := by
  cases r with
  | ok a => exact pure (hok a rfl)
  | error e => exact fun _ _ _ => throw_steadily (hfree.noCycle rfl)

theorem forM {items : List β} {body : β → Typing σ PUnit} {P : β → Prop}
    (h : ∀ item ∈ items, IsSteady ctx free result (body item) fun _ => P item) :
    IsSteady ctx free result (items.forM body) fun _ => ∀ item ∈ items, P item :=
  fun _ hs hresult => Discipline.forM_keeps_each items hs (fun _ _ _ _ _ _ _ h => h)
    fun item hitem t ht hle => h item hitem t ht (hle.returnType.trans hresult)

theorem mapM {items : List β} {body : β → Typing σ α} {P : β → Prop}
    (h : ∀ item ∈ items, IsSteady ctx free result (body item) fun _ => P item) :
    IsSteady ctx free result (items.mapM body) fun _ => ∀ item ∈ items, P item :=
  fun _ hs hresult => Discipline.mapM_keeps_each items hs (fun _ _ _ _ _ _ _ h => h)
    fun item hitem t ht hle => h item hitem t ht (hle.returnType.trans hresult)

theorem foldlM {items : List β} {body : α → β → Typing σ α} {P : β → Prop} {a : α}
    (h : ∀ a, ∀ item ∈ items, IsSteady ctx free result (body a item) fun _ => P item) :
    IsSteady ctx free result (items.foldlM body a) fun _ => ∀ item ∈ items, P item := by
  induction items generalizing a with
  | nil => exact pure (by simp)
  | cons item items ih =>
      rw [List.foldlM_cons]
      refine (h a item (by simp)).bind fun b hitem => ?_
      refine (ih fun a other hother => h a other (List.mem_cons_of_mem _ hother)).mono ?_
      exact fun _ hall => List.forall_mem_cons.mpr ⟨hitem, hall⟩

/-! ## Elementary steps -/

theorem makeType {f : Pool → TypeId × Pool} :
    IsSteady ctx free result (Typing.makeType f : Typing σ TypeId) fun _ => True :=
  fun _ hs _ => .of_ok rfl (hs.setPool _) (.of_same ⟨rfl, rfl, rfl, rfl⟩ rfl rfl) True.intro

theorem updatePool {f : Pool → Except CompileError Pool} (hf : ∀ p, FreeOfCycles (f p)) :
    IsSteady ctx free result (Typing.updatePool f : Typing σ Unit) fun _ => True :=
  get fun s _ _ => (ofExcept (R := fun _ => True) (hf s.pool) fun _ _ => True.intro).seq
    fun p _ ht _ => .of_ok rfl (ht.setPool p) (.of_same ⟨rfl, rfl, rfl, rfl⟩ rfl rfl) True.intro

theorem modifyScopes {f : ScopeChain → ScopeChain}
    (hf : ∀ c count, c.Registered ctx.tree count → (f c).Registered ctx.tree count) :
    IsSteady ctx free result (Typing.modifyScopes f : Typing σ Unit) fun _ => True :=
  fun _ hs _ => .of_ok rfl (hs.setScopes (hf _ _ hs.scopes))
    (.of_same ⟨rfl, rfl, rfl, rfl⟩ rfl rfl) True.intro

theorem record (node : NodeId) (r : TypeId) :
    IsSteady ctx free result (Typing.record node r : Typing σ Unit) fun _ => True :=
  fun s hs _ => .of_ok rfl (hs.setTypes s.pool _ _) { Steady.refl s with } True.intro

theorem setTarget (node : NodeId) (target : Target) :
    IsSteady ctx free result (Typing.setTarget node target : Typing σ Unit) fun _ => True :=
  fun s hs _ => .of_ok rfl (hs.setTypes s.pool _ _) { Steady.refl s with } True.intro

theorem recorded (node : NodeId) :
    IsSteady ctx free result (Typing.recorded node : Typing σ TypeId) fun _ => True :=
  fun _ hs hresult => .bind_read hs rfl (.bind_read hs rfl
    (ofExcept (TypeTable.typeOf_free _ _) (fun _ _ => True.intro) _ hs hresult))

theorem spell (r : TypeId) :
    IsSteady ctx free result (Typing.spell r : Typing σ String) fun _ => True :=
  get fun _ _ _ => pure True.intro

theorem qualified (name : String) :
    IsSteady ctx free result (Typing.qualified name : Typing σ String) fun _ => True :=
  get fun _ _ _ => pure True.intro

end IsSteady

/-! ## Steps in another context -/

/-- A step in a changed state, after which parts of the state are put back. -/
theorem within_steady {free' : Prop} {enter : TypingState σ → TypingState σ}
    {leave : TypingState σ → TypingState σ → TypingState σ} {step : Typing σ α}
    {R : α → TypingState σ → Prop} (hstep : (steadily ctx free').KeepsAt (enter s) step R)
    (henter : (enter s).imports = s.imports) (himports : ∀ t, (leave s t).imports = t.imports)
    (hleave : ∀ a t, Orderly ctx t → Steady free' (enter s) t → R a t →
      Orderly ctx (leave s t) ∧ Steady free s (leave s t) ∧ Q a (leave s t)) :
    (steadily ctx free).KeepsAt s (within enter leave step) Q := by
  unfold Discipline.KeepsAt at hstep ⊢
  unfold within
  cases hresult : step (enter s) with
  | ok a t =>
      simp only [hresult] at hstep ⊢
      exact hleave a t hstep.1 hstep.2.1 hstep.2.2
  | error e t =>
      simp only [hresult] at hstep ⊢
      exact ⟨hstep.1, (himports t).trans (hstep.2.trans henter)⟩

section Contexts

variable {step : Typing σ α} {R : α → TypeTable → Prop}

theorem withFrame_steady {frame : Scope} (hs : Orderly ctx s) (hframe : frame.Plain)
    (hstep : ∀ t, Orderly ctx t → t.table = s.table → t.walk = s.walk →
      t.returnType = s.returnType → (steadily ctx free).KeepsAt t step fun a u => R a u.table) :
    (steadily ctx free).KeepsAt s (withFrame frame step) fun a u => R a u.table :=
  within_steady (hstep _ (hs.setScopes (hs.scopes.push hframe)) rfl rfl rfl) rfl (fun _ => rfl)
    fun _ _ ht hle hR => ⟨ht.setScopes ht.scopes.pop,
      hle.of_within ⟨rfl, rfl, rfl, rfl⟩ ⟨rfl, rfl, rfl, rfl⟩ hle.walk hle.returnType
        fun h => ⟨h, rfl⟩, hR⟩

theorem withReturnType_steady {result : Option TypeId} (hs : Orderly ctx s)
    (hstep : ∀ t, Orderly ctx t → t.table = s.table → t.walk = s.walk → t.returnType = result →
      (steadily ctx free).KeepsAt t step fun a u => R a u.table) :
    (steadily ctx free).KeepsAt s (withReturnType result step) fun a u => R a u.table :=
  within_steady (hstep _ (hs.setWalk result hs.walk_lt) rfl rfl rfl) rfl (fun _ => rfl)
    fun _ _ ht hle hR => ⟨ht.setWalk _ ht.walk_lt,
      hle.of_within ⟨rfl, rfl, rfl, rfl⟩ ⟨rfl, rfl, rfl, rfl⟩ hle.walk rfl fun h => ⟨h, rfl⟩, hR⟩

theorem withTypeFrame_steady (owner : TypeId) (hs : Orderly ctx s)
    (hstep : ∀ t, Orderly ctx t → t.table = s.table → t.walk = s.walk →
      t.returnType = s.returnType → (steadily ctx free).KeepsAt t step fun a u => R a u.table) :
    (steadily ctx free).KeepsAt s (withTypeFrame owner step) fun a u => R a u.table :=
  .bind_read hs (b := s) rfl (withFrame_steady hs .forType hstep)

/-- A step in another walk that exists. -/
theorem withWalk_steady {walk : InstanceId} (hs : Orderly ctx s)
    (hwalk : walk < s.table.nextInstance)
    (hstep : ∀ t, Orderly ctx t → t.table = s.table → t.walk = walk →
      (steadily ctx False).KeepsAt t step fun a u => R a u.table) :
    (steadily ctx free).KeepsAt s (withWalk walk step) fun a u => R a u.table :=
  within_steady (hstep _ (hs.setWalk _ hwalk) rfl rfl) rfl (fun _ => rfl) fun _ _ ht hle hR =>
    ⟨ht.setWalk _ (Nat.lt_of_lt_of_le hs.walk_lt hle.next_le),
      hle.of_within ⟨rfl, rfl, rfl, rfl⟩ ⟨rfl, rfl, rfl, rfl⟩ rfl hle.returnType False.elim, hR⟩

theorem withIsolatedFrame_steady {walk : InstanceId} {frame : Scope} (hs : Orderly ctx s)
    (hwalk : walk < s.table.nextInstance) (hframe : frame.Plain)
    (hstep : ∀ t, Orderly ctx t → t.table = s.table → t.walk = walk →
      (steadily ctx False).KeepsAt t step fun a u => R a u.table) :
    (steadily ctx free).KeepsAt s (withIsolatedFrame walk frame step) fun a u => R a u.table := by
  refine within_steady (hstep _ ?_ rfl rfl) rfl (fun _ => rfl) fun _ t ht hle hR => ?_
  · exact (hs.setScopes (hs.scopes.isolate.push hframe)).setWalk none hwalk
  · refine ⟨(ht.setScopes (c := t.scopes.restore s.scopes.inner) ?_).setWalk _
      (Nat.lt_of_lt_of_le hs.walk_lt hle.next_le),
      hle.of_within ⟨rfl, rfl, rfl, rfl⟩ ⟨rfl, rfl, rfl, rfl⟩ rfl rfl False.elim, hR⟩
    exact ht.scopes.restore (hle.count.symm ▸ hs.scopes)

end Contexts

namespace IsSteady

variable {result : Option TypeId} {step : Typing σ α} {P : α → Prop}

theorem withFrame {frame : Scope} (hframe : frame.Plain) (h : IsSteady ctx free result step P) :
    IsSteady ctx free result (Typing.withFrame frame step) P :=
  fun _ hs hresult => withFrame_steady (R := fun a _ => P a) hs hframe
    fun t ht _ _ hsame => h t ht (hsame.trans hresult)

theorem withReturnType {inner : Option TypeId} (h : IsSteady ctx free inner step P) :
    IsSteady ctx free result (Typing.withReturnType inner step) P :=
  fun _ hs _ => withReturnType_steady (R := fun a _ => P a) hs fun t ht _ _ hsame => h t ht hsame

end IsSteady

end ClassLang.Typing
