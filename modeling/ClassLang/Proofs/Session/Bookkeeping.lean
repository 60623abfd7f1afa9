import ClassLang.Proofs.Session.Imports

/-!
# The books of a session survive failures

A session keeps books on its imports: which are in progress, and which are registered with what
they offer. Calls change the books and nest: compiling a unit resolves what it imports, and
resolving an import compiles its unit. A call may fail at any depth.

`Call.Makes` says which calls a call makes, and in which states. Whatever a call does, it only adds
to the books, and only imports whose compilation succeeded within it. A failure fails every call
around it in the same way, so nothing is added on the way out.
-/

namespace ClassLang.Session

open Relation (ReflTransGen)

variable {γ : Type} {backend : Backend γ} {store : ModuleStore}

/-! ## Calls -/

/-- A call of a session, made in a state: to compile a unit, or to resolve an import. Imports nested
in it may be `fuel` deep. -/
inductive Call (γ : Type)
  | compile (fuel : Nat) (tree : SyntaxTree) (s : Pool × Session γ)
  | resolve (fuel : Nat) (path : List String) (s : Pool × Session γ)

namespace Call

/-- The state in which a call is made. -/
def before : Call γ → Pool × Session γ
  | .compile _ _ s => s
  | .resolve _ _ s => s

/-- How deep imports may nest in a call. -/
def fuel : Call γ → Nat
  | .compile fuel _ _ => fuel
  | .resolve fuel _ _ => fuel

/-- How a call goes. Compiling a unit returns what was found out about it. -/
def run (backend : Backend γ) (store : ModuleStore) :
    Call γ → EStateM.Result Halt (Pool × Session γ) (Option TypedModule)
  | .compile fuel tree s =>
      (some <$> compileWith backend (importerWithin backend store fuel) tree) s
  | .resolve fuel path s =>
      ((fun _ => none) <$>
        (importerWithin backend store fuel).resolve path (".".intercalate path)) s

/-- The state in which a call returns. -/
def after (backend : Backend γ) (store : ModuleStore) (c : Call γ) : Pool × Session γ :=
  finalState (c.run backend store)

@[simp]
theorem after_compile (fuel : Nat) (tree : SyntaxTree) (s : Pool × Session γ) :
    (compile fuel tree s).after backend store =
      finalState (compileWith backend (importerWithin backend store fuel) tree s) := by
  unfold after run
  simp only [Functor.map, EStateM.map]
  cases compileWith backend (importerWithin backend store fuel) tree s <;> rfl

@[simp]
theorem after_resolve (fuel : Nat) (path : List String) (s : Pool × Session γ) :
    (resolve fuel path s).after backend store =
      finalState ((importerWithin backend store fuel).resolve path (".".intercalate path) s) := by
  unfold after run
  simp only [Functor.map, EStateM.map]
  cases (importerWithin backend store fuel).resolve path (".".intercalate path) s <;> rfl

/-- A unit that compiles. -/
theorem run_compile {fuel : Nat} {tree : SyntaxTree} {s after : Pool × Session γ}
    {typed : TypedModule}
    (h : compileWith backend (importerWithin backend store fuel) tree s = .ok typed after) :
    (compile fuel tree s).run backend store = .ok (some typed) after := by
  simp only [run, Functor.map, EStateM.map, h]

theorem run_compile_error {fuel : Nat} {tree : SyntaxTree} {s after : Pool × Session γ} {e : Halt} :
    (compile fuel tree s).run backend store = .error e after ↔
      compileWith backend (importerWithin backend store fuel) tree s = .error e after := by
  simp only [run, Functor.map, EStateM.map]
  cases compileWith backend (importerWithin backend store fuel) tree s <;> simp

theorem run_resolve_error {fuel : Nat} {path : List String} {s after : Pool × Session γ}
    {e : Halt} : (resolve fuel path s).run backend store = .error e after ↔
      (importerWithin backend store fuel).resolve path (".".intercalate path) s =
        .error e after := by
  simp only [run, Functor.map, EStateM.map]
  cases (importerWithin backend store fuel).resolve path (".".intercalate path) s <;> simp

/-- A call makes another one: compiling a unit, each import that is reached is resolved; resolving
one that is neither registered nor in progress, its unit is compiled. -/
inductive Makes (backend : Backend γ) (store : ModuleStore) : Call γ → Call γ → Prop
  | resolve {fuel : Nat} {tree : SyntaxTree} {p : Pool} {session : Session γ} {path : List String}
      {t : TypingState (Session γ)}
      (h : Typing.Reaches { tree, importer := importerWithin backend store fuel }
        (tree.statements tree.root) { pool := p, imports := session } path t) :
      Makes backend store (.compile fuel tree (p, session)) (.resolve fuel path (t.pool, t.imports))
  | compile {fuel : Nat} {path : List String} {p : Pool} {session : Session γ} {tree : SyntaxTree}
      (hnew : session.byPath.lookup (".".intercalate path) = none)
      (hidle : ".".intercalate path ∉ session.inProgress) (hload : store.load path = .ok tree) :
      Makes backend store (.resolve (fuel + 1) path (p, session))
        (.compile fuel tree
          (p, { session with inProgress := ".".intercalate path :: session.inProgress }))

/-- The calls that a user makes of a session, in any state that it can reach. -/
inductive Outermost (backend : Backend γ) (store : ModuleStore) : Call γ → Prop
  | compile {s : Pool × Session γ} (h : Reachable backend store s) (tree : SyntaxTree) :
      Outermost backend store (.compile (store.size + 1) tree s)
  | resolve {s : Pool × Session γ} (h : Reachable backend store s) (path : List String) :
      Outermost backend store (.resolve (store.size + 1) path s)

/-- Within the call `c`, the import at the dotted path is compiled by the call `inner`. -/
def Compiles (backend : Backend γ) (store : ModuleStore) (c : Call γ) (dotted : String)
    (inner : Call γ) : Prop :=
  ∃ fuel path s, ".".intercalate path = dotted ∧
    ReflTransGen (Makes backend store) c (.resolve fuel path s) ∧
      Makes backend store (.resolve fuel path s) inner

/-- Within the call `c`, the import at the dotted path was compiled and offers `exports`. -/
def Compiled (backend : Backend γ) (store : ModuleStore) (c : Call γ) (dotted : String)
    (exports : Exports) : Prop :=
  ∃ inner typed s, Compiles backend store c dotted inner ∧
    inner.run backend store = .ok (some typed) s ∧ typed.exports = exports

section Nesting

variable {c inner innermost : Call γ} {dotted : String} {exports : Exports}

theorem Compiles.makes (h : Compiles backend store c dotted inner) :
    ReflTransGen (Makes backend store) c inner := by
  obtain ⟨fuel, path, s, -, hreach, hmakes⟩ := h
  exact hreach.tail hmakes

/-- What is compiled can be loaded. -/
theorem Compiles.loads (h : Compiles backend store c dotted inner) :
    ∃ tree, ∀ path, ".".intercalate path = dotted → store.load path = .ok tree := by
  obtain ⟨fuel, path, s, rfl, -, hmakes⟩ := h
  cases hmakes with
  | @compile _ _ _ _ tree _ _ hload =>
      have hstored := ModuleStore.lookup_of_load hload
      exact ⟨tree, fun path hpath => by simp only [ModuleStore.load, hpath, hstored]⟩

/-- What an inner call compiles is compiled within the outer one. -/
theorem Compiles.within (h : Compiles backend store inner dotted innermost)
    (hmakes : ReflTransGen (Makes backend store) c inner) :
    Compiles backend store c dotted innermost := by
  obtain ⟨fuel, path, s, hdotted, hreach, hlast⟩ := h
  exact ⟨fuel, path, s, hdotted, hmakes.trans hreach, hlast⟩

theorem Compiled.within (h : Compiled backend store inner dotted exports)
    (hmakes : ReflTransGen (Makes backend store) c inner) :
    Compiled backend store c dotted exports := by
  obtain ⟨innermost, typed, s, hcompiles, hrun⟩ := h
  exact ⟨innermost, typed, s, hcompiles.within hmakes, hrun⟩

end Nesting

end Call

/-! ## The books -/

/-- No path is in progress twice, or both in progress and registered. -/
structure Tidy (s : Session γ) : Prop where
  nodup : s.inProgress.Nodup
  unfinished : ∀ dotted ∈ s.inProgress, s.byPath.lookup dotted = none

theorem Tidy.begin_ {s : Session γ} {dotted : String} (h : Tidy s)
    (hnew : s.byPath.lookup dotted = none) (hidle : dotted ∉ s.inProgress) :
    Tidy { s with inProgress := dotted :: s.inProgress } where
  nodup := List.nodup_cons.mpr ⟨hidle, h.nodup⟩
  unfinished := by
    rintro other (_ | ⟨_, hmem⟩)
    · exact hnew
    · exact h.unfinished other hmem

/-- Entries of the registry stay, and the new ones are as `New` says, with the module of each. -/
structure Adds (New : String → Exports → Prop) (s t : Session γ) : Prop where
  modules : s.modules <+: t.modules
  kept : ∀ dotted id, s.byPath.lookup dotted = some id → t.byPath.lookup dotted = some id
  paths : ∀ dotted id, t.byPath.lookup dotted = some id →
    s.byPath.lookup dotted = some id ∨ ∃ e, t.modules[id]? = some e ∧ New dotted e
  offers : ∀ id e, t.modules[id]? = some e →
    s.modules[id]? = some e ∨ ∃ dotted, t.byPath.lookup dotted = some id ∧ New dotted e

namespace Adds

variable {New New' : String → Exports → Prop} {s t u : Session γ}

theorem refl (s : Session γ) : Adds New s s :=
  ⟨List.prefix_refl _, fun _ _ h => h, fun _ _ h => .inl h, fun _ _ h => .inl h⟩

theorem trans (h : Adds New s t) (h' : Adds New t u) : Adds New s u where
  modules := h.modules.trans h'.modules
  kept dotted id hid := h'.kept dotted id (h.kept dotted id hid)
  paths dotted id hid := by
    rcases h'.paths dotted id hid with hold | hnew
    · refine (h.paths dotted id hold).imp_right ?_
      rintro ⟨e, he, hnew⟩
      obtain ⟨rest, hrest⟩ := h'.modules
      rw [← hrest, List.getElem?_append_left (List.getElem?_eq_some_iff.mp he).1]
      exact ⟨e, he, hnew⟩
    · exact .inr hnew
  offers id e he := by
    rcases h'.offers id e he with hold | hnew
    · refine (h.offers id e hold).imp_right ?_
      rintro ⟨dotted, hid, hnew⟩
      exact ⟨dotted, h'.kept dotted id hid, hnew⟩
    · exact .inr hnew

theorem mono (h : Adds New s t) (hnew : ∀ dotted e, New dotted e → New' dotted e) :
    Adds New' s t where
  modules := h.modules
  kept := h.kept
  paths dotted id hid :=
    (h.paths dotted id hid).imp_right fun ⟨e, he, he'⟩ => ⟨e, he, hnew dotted e he'⟩
  offers id e he :=
    (h.offers id e he).imp_right fun ⟨dotted, hid, he'⟩ => ⟨dotted, hid, hnew dotted e he'⟩

/-- Neither the output nor the imports in progress matter. -/
theorem congr {s' t' : Session γ} (h : Adds New s t) (hm : s'.modules = s.modules)
    (hb : s'.byPath = s.byPath) (hm' : t'.modules = t.modules) (hb' : t'.byPath = t.byPath) :
    Adds New s' t' where
  modules := by simpa [hm, hm'] using h.modules
  kept := by simpa [hb, hb'] using h.kept
  paths := by simpa [hb, hm', hb'] using h.paths
  offers := by simpa [hm, hm', hb'] using h.offers

/-- One more module is registered under a new path. -/
theorem register {dotted : String} {exports : Exports} (h : Adds New s t)
    (hfree : t.byPath.lookup dotted = none) (hnew : New dotted exports) :
    Adds New s (t.register dotted exports).2 := by
  have hmodules : t.modules <+: (t.register dotted exports).2.modules := List.prefix_append _ _
  refine h.trans ⟨hmodules, fun other id hid => ?_, fun other id hid => ?_, fun id e he => ?_⟩
  · rw [DepthFirst.lookup_register _ exports]
    · exact hid
    · rintro rfl
      simp [hfree] at hid
  · by_cases hother : other = dotted
    · subst hother
      have hlast : id = t.modules.length := by
        simpa [Session.register, List.lookup_cons] using hid.symm
      exact .inr ⟨exports, by simp [Session.register, hlast], hnew⟩
    · rw [DepthFirst.lookup_register hother exports] at hid
      exact .inl hid
  · simp only [Session.register, List.getElem?_append] at he
    split at he
    · exact .inl he
    · next hlt =>
        rw [List.getElem?_singleton] at he
        split at he
        · next hzero =>
            cases he
            have hlast : id = t.modules.length :=
              Nat.le_antisymm (Nat.le_of_sub_eq_zero hzero) (Nat.le_of_not_lt hlt)
            exact .inr ⟨dotted, by simp [Session.register, hlast], hnew⟩
        · cases he

end Adds

/-- Steps of a session while the given imports are in progress: none of them is registered, and what
is added is as `New` says, also when a step fails. -/
def recording (inProgress : List String) (New : String → Exports → Prop) :
    Discipline Halt (Session γ) where
  inv s := s.inProgress = inProgress ∧ ∀ dotted ∈ inProgress, s.byPath.lookup dotted = none
  le := Adds New
  fails s _ t := (t.inProgress = inProgress ∧ ∀ dotted ∈ inProgress, t.byPath.lookup dotted = none) ∧
    Adds New s t
  refl := Adds.refl
  trans := Adds.trans
  fails_trans h h' := ⟨h'.1, h.trans h'.2⟩

/-! ## What calls add -/

section Recording

variable {New New' : String → Exports → Prop} {α : Type} {step : Step γ α}
  {s : Pool × Session γ} {inProgress : List String} {fuel : Nat}

/-- A step that adds what is as `New` says. -/
abbrev Records (inProgress : List String) (New : String → Exports → Prop) (s : Pool × Session γ)
    (step : Step γ α) : Prop :=
  ((recording inProgress New).comap Prod.snd).KeepsAt s step fun _ _ => True

theorem Records.mono (h : Records inProgress New s step)
    (hnew : ∀ dotted e, New dotted e → New' dotted e) : Records inProgress New' s step := by
  unfold Records Discipline.KeepsAt at h ⊢
  cases hrun : step s with
  | ok a t =>
      simp only [hrun] at h ⊢
      exact ⟨h.1, h.2.1.mono hnew, True.intro⟩
  | error e t =>
      simp only [hrun] at h ⊢
      exact ⟨h.1, h.2.mono hnew⟩

/-- What resolving an import is to keep. -/
def Resolving (backend : Backend γ) (store : ModuleStore) (fuel : Nat) : Prop :=
  ∀ path s, Tidy s.2 → Records s.2.inProgress (Call.Compiled backend store (.resolve fuel path s)) s
    ((importerWithin backend store fuel).resolve path (".".intercalate path))

/-- An import that a unit resolves adds what is compiled within the unit. -/
theorem Resolving.reached (hresolving : Resolving backend store fuel) {tree : SyntaxTree}
    {p : Pool} {session : Session γ} {path : List String} {t : TypingState (Session γ)}
    (htidy : Tidy session)
    (hreach : Typing.Reaches { tree, importer := importerWithin backend store fuel }
      (tree.statements tree.root) { pool := p, imports := session } path t)
    (hinv : (recording session.inProgress
      (Call.Compiled backend store (.compile fuel tree (p, session)))).inv t.imports) :
    Records session.inProgress (Call.Compiled backend store (.compile fuel tree (p, session)))
      (t.pool, t.imports)
      ((importerWithin backend store fuel).resolve path (".".intercalate path)) := by
  obtain ⟨hmarks, hunfinished⟩ := hinv
  have hinner := hresolving path (t.pool, t.imports)
    ⟨by rw [hmarks]; exact htidy.nodup, by rw [hmarks]; exact hunfinished⟩
  rw [hmarks] at hinner
  exact hinner.mono fun _ _ hnew => hnew.within (.single (.resolve hreach))

/-- A unit adds what is compiled within it. -/
theorem compileWith_records (hresolving : Resolving backend store fuel) (tree : SyntaxTree)
    (htidy : Tidy s.2) :
    Records s.2.inProgress (Call.Compiled backend store (.compile fuel tree s)) s
      (compileWith backend (importerWithin backend store fuel) tree) := by
  obtain ⟨p, session⟩ := s
  have hcalc := Typing.calculate_follows (Q := fun _ _ => True)
    (D := recording session.inProgress
      (Call.Compiled backend store (.compile fuel tree (p, session))))
    { tree, importer := importerWithin backend store fuel } p session
    (fun _ _ hinv _ => ⟨hinv, .refl _⟩) (fun _ _ _ _ _ _ h => h) ⟨rfl, htidy.unfinished⟩
    fun path t hreach hinv _ => hresolving.reached htidy hreach hinv
  refine compileWith_keeps hcalc (fun typed t output _ hinv _ => ?_)
    fun typed t h output _ hinv _ => ?_
  · exact ⟨hinv, (Adds.refl t.imports).congr rfl rfl rfl rfl, True.intro⟩
  · exact ⟨hinv, (Adds.refl t.imports).congr rfl rfl rfl rfl⟩

/-- Resolving adds the import, after what is compiled within it. -/
theorem resolving (backend : Backend γ) (store : ModuleStore) (fuel : Nat) :
    Resolving backend store fuel := by
  induction fuel with
  | zero => exact fun path s htidy => ⟨⟨rfl, htidy.unfinished⟩, .refl _⟩
  | succ fuel ih =>
      rintro path ⟨p, session⟩ htidy
      have hcases := resolve_resolved backend store fuel path (".".intercalate path) p session
      unfold Records Discipline.KeepsAt
      generalize (importerWithin backend store (fuel + 1)).resolve path (".".intercalate path)
        (p, session) = result at hcases
      cases hcases with
      | known => exact ⟨⟨rfl, htidy.unfinished⟩, .refl _, True.intro⟩
      | refused => exact ⟨⟨rfl, htidy.unfinished⟩, .refl _⟩
      | @failed tree h after hload hrun hnew hidle =>
          obtain ⟨⟨-, hunfinished⟩, hadds⟩ :=
            (compileWith_records ih tree (htidy.begin_ hnew hidle)).error hrun
          exact ⟨⟨rfl, fun other hmem => hunfinished other (.tail _ hmem)⟩,
            .congr (hadds.mono fun _ _ hcompiled =>
              hcompiled.within (.single (.compile hnew hidle hload))) rfl rfl rfl rfl⟩
      | @compiled tree typed after hload hrun hnew hidle =>
          obtain ⟨⟨-, hunfinished⟩, hadds, -⟩ :=
            (compileWith_records ih tree (htidy.begin_ hnew hidle)).ok hrun
          have hcompiled : Call.Compiled backend store (.resolve (fuel + 1) path (p, session))
              (".".intercalate path) typed.exports :=
            ⟨_, typed, after, ⟨_, path, _, rfl, .refl, .compile hnew hidle hload⟩,
              Call.run_compile hrun, rfl⟩
          refine ⟨⟨rfl, fun other hmem => ?_⟩, .register ?_ (hunfinished _ (.head _)) hcompiled,
            True.intro⟩
          · have hother : other ≠ ".".intercalate path := fun heq => hidle (heq ▸ hmem)
            exact (DepthFirst.lookup_register hother typed.exports).trans
              (hunfinished other (.tail _ hmem))
          · exact .congr (hadds.mono fun _ _ hcompiled =>
              hcompiled.within (.single (.compile hnew hidle hload))) rfl rfl rfl rfl

/-- What a step that records leaves behind, whether it succeeds or fails. -/
theorem Records.result (h : Records s.2.inProgress New s step) (htidy : Tidy s.2) :
    (finalState (step s)).2.inProgress = s.2.inProgress ∧ Tidy (finalState (step s)).2 ∧
      Adds New s.2 (finalState (step s)).2 := by
  have hresult : (recording s.2.inProgress New).inv (finalState (step s)).2 ∧
      Adds New s.2 (finalState (step s)).2 := by
    cases hrun : step s with
    | ok a t => exact ⟨(h.ok hrun).1, (h.ok hrun).2.1⟩
    | error e t => exact h.error hrun
  obtain ⟨⟨hmarks, hunfinished⟩, hadds⟩ := hresult
  exact ⟨hmarks, ⟨by rw [hmarks]; exact htidy.nodup, by rw [hmarks]; exact hunfinished⟩, hadds⟩

/-- No call disturbs the books: it adds what is compiled within it, whether it succeeds or fails. -/
theorem Call.records (backend : Backend γ) (store : ModuleStore) (c : Call γ)
    (htidy : Tidy c.before.2) :
    (c.after backend store).2.inProgress = c.before.2.inProgress ∧
      Tidy (c.after backend store).2 ∧
        Adds (c.Compiled backend store) c.before.2 (c.after backend store).2 := by
  cases c with
  | compile fuel tree s =>
      rw [after_compile]
      exact (compileWith_records (resolving backend store fuel) tree htidy).result htidy
  | resolve fuel path s =>
      rw [after_resolve]
      exact (resolving backend store fuel path s htidy).result htidy

end Recording

/-! ## Nested calls -/

namespace Call

/-- What holds when a call is made: the books are tidy, and imports can nest no deeper than they
may. -/
structure InOrder (store : ModuleStore) (c : Call γ) : Prop where
  tidy : Tidy c.before.2
  bounded : Bounded store c.fuel c.before.2.inProgress

variable {c inner : Call γ} {dotted : String}

/-- What one call has added before it makes another, and what it marks. -/
theorem Makes.enters (h : Makes backend store c inner) (hc : InOrder store c) :
    InOrder store inner ∧ Adds (c.Compiled backend store) c.before.2 inner.before.2 ∧
      ∀ dotted ∈ inner.before.2.inProgress,
        dotted ∈ c.before.2.inProgress ∨ Compiles backend store c dotted inner := by
  obtain ⟨htidy, hbounded⟩ := hc
  cases h with
  | @resolve fuel tree p session path t hreach =>
      obtain ⟨⟨hmarks, hunfinished⟩, hadds⟩ := hreach.follows
        (D := recording session.inProgress
          (Call.Compiled backend store (.compile fuel tree (p, session))))
        (fun _ _ hinv _ => ⟨hinv, .refl _⟩) ⟨rfl, htidy.unfinished⟩
        fun path u hreach hinv _ => (resolving backend store fuel).reached htidy hreach hinv
      refine ⟨⟨⟨?_, ?_⟩, ?_⟩, hadds, fun dotted hmem => .inl ?_⟩
      · exact hmarks.symm ▸ htidy.nodup
      · exact hmarks.symm ▸ hunfinished
      · exact hmarks.symm ▸ hbounded
      · exact hmarks ▸ hmem
  | @compile fuel path p session tree hnew hidle hload =>
      refine ⟨⟨htidy.begin_ hnew hidle, hbounded.push hidle hload⟩,
        (Adds.refl session).congr rfl rfl rfl rfl, ?_⟩
      rintro dotted (_ | ⟨_, hmem⟩)
      · exact .inr ⟨_, path, _, rfl, .refl, .compile hnew hidle hload⟩
      · exact .inl hmem

/-- What a call has added before one nested in it is made, and what is in progress then. -/
theorem enters (h : ReflTransGen (Makes backend store) c inner) (hc : InOrder store c) :
    InOrder store inner ∧ Adds (c.Compiled backend store) c.before.2 inner.before.2 ∧
      ∀ dotted ∈ inner.before.2.inProgress, dotted ∈ c.before.2.inProgress ∨
        ∃ outer, Compiles backend store c dotted outer ∧
          ReflTransGen (Makes backend store) outer inner := by
  induction h with
  | refl => exact ⟨hc, .refl _, fun _ hmem => .inl hmem⟩
  | @tail middle inner hreach hmakes ih =>
      obtain ⟨hmiddle, hadds, hmarks⟩ := ih
      obtain ⟨hinner, hadds', hmarks'⟩ := hmakes.enters hmiddle
      refine ⟨hinner, hadds.trans (hadds'.mono fun _ _ hcompiled => hcompiled.within hreach),
        fun dotted hmem => ?_⟩
      rcases hmarks' dotted hmem with hold | hnew
      · rcases hmarks dotted hold with hold | ⟨outer, houter, hbetween⟩
        · exact .inl hold
        · exact .inr ⟨outer, houter, hbetween.tail hmakes⟩
      · exact .inr ⟨inner, hnew.within hreach, .refl⟩

/-- A call fails as one does that it makes, and adds nothing after it. -/
theorem Makes.fails (h : Makes backend store c inner) {e : Halt} {s : Pool × Session γ}
    (hrun : inner.run backend store = .error e s) :
    ∃ t, c.run backend store = .error e t ∧ t.2.byPath = s.2.byPath ∧
      t.2.modules = s.2.modules := by
  cases h with
  | @resolve fuel tree p session path t hreach =>
      have hcalc := hreach.error (run_resolve_error.mp hrun)
      refine ⟨s, run_compile_error.mpr ?_, rfl, rfl⟩
      simp only [compileWith, hcalc]
  | @compile fuel path p session tree hnew hidle hload =>
      refine ⟨(s.1, { s.2 with inProgress := session.inProgress }), run_resolve_error.mpr ?_,
        rfl, rfl⟩
      rw [resolve_eq, hnew]
      simp only [if_neg hidle, hload, run_compile_error.mp hrun]

/-- A failure fails all calls around it. -/
theorem fails (h : ReflTransGen (Makes backend store) c inner) {e : Halt} {s : Pool × Session γ}
    (hrun : inner.run backend store = .error e s) :
    ∃ t, c.run backend store = .error e t ∧ t.2.byPath = s.2.byPath ∧
      t.2.modules = s.2.modules := by
  induction h generalizing s with
  | refl => exact ⟨s, hrun, rfl, rfl⟩
  | tail _ hmakes ih =>
      obtain ⟨t, ht, hpaths, hmodules⟩ := hmakes.fails hrun
      obtain ⟨u, hu, hpaths', hmodules'⟩ := ih ht
      exact ⟨u, hu, hpaths'.trans hpaths, hmodules'.trans hmodules⟩

/-- An import that fails is not registered when any call around it returns. -/
theorem Compiles.not_registered (h : Compiles backend store c dotted inner)
    (hc : InOrder store c) {e : Halt} {s : Pool × Session γ}
    (hrun : inner.run backend store = .error e s) :
    (c.after backend store).2.byPath.lookup dotted = none := by
  obtain ⟨hinner, -, -⟩ := enters h.makes hc
  obtain ⟨hmarks, htidy, -⟩ := inner.records backend store hinner.tidy
  obtain ⟨t, ht, hpaths, -⟩ := fails h.makes hrun
  have hmem : dotted ∈ inner.before.2.inProgress := by
    obtain ⟨fuel, path, s, rfl, -, hmakes⟩ := h
    cases hmakes
    exact .head _
  have hfree := htidy.unfinished dotted (hmarks ▸ hmem)
  have hafter : c.after backend store = t := by rw [after, ht]; rfl
  have hinnerAfter : inner.after backend store = s := by rw [after, hrun]; rfl
  rw [hafter, hpaths, ← hinnerAfter]
  exact hfree

/-- Asked for an import that was neither registered nor in progress at first, a call compiles it
now, or is compiling it, or has compiled it. -/
theorem asked {fuel : Nat} {path : List String} {t : Pool × Session γ} {tree : SyntaxTree}
    (h : ReflTransGen (Makes backend store) c (.resolve fuel path t)) (hc : InOrder store c)
    (hfree : c.before.2.byPath.lookup (".".intercalate path) = none)
    (hidle : ".".intercalate path ∉ c.before.2.inProgress) (hload : store.load path = .ok tree) :
    ∃ inner, Compiles backend store c (".".intercalate path) inner ∧
      (Makes backend store (.resolve fuel path t) inner ∨
        ReflTransGen (Makes backend store) inner (.resolve fuel path t) ∨
        ∃ typed s id, inner.run backend store = .ok (some typed) s ∧
          t.2.byPath.lookup (".".intercalate path) = some id ∧
            t.2.modules[id]? = some typed.exports) := by
  obtain ⟨⟨-, hbounded⟩, hadds, hmarks⟩ := enters h hc
  cases hknown : t.2.byPath.lookup (".".intercalate path) with
  | some id =>
      rcases hadds.paths _ id hknown with hold | ⟨e, he, inner, typed, s, hinner, hrun, rfl⟩
      · rw [hfree] at hold
        cases hold
      · exact ⟨inner, hinner, .inr (.inr ⟨typed, s, id, hrun, rfl, he⟩)⟩
  | none =>
      by_cases hmem : ".".intercalate path ∈ t.2.inProgress
      · obtain ⟨inner, hinner, hbetween⟩ := (hmarks _ hmem).resolve_left hidle
        exact ⟨inner, hinner, .inr (.inl hbetween)⟩
      · obtain ⟨fuel, rfl⟩ := Nat.exists_eq_succ_of_ne_zero (Nat.ne_of_gt hbounded.pos)
        have hmakes : Makes backend store (.resolve (fuel + 1) path t) _ :=
          .compile hknown hmem hload
        exact ⟨_, ⟨_, path, t, rfl, h, hmakes⟩, .inl hmakes⟩

end Call

/-! ## Sessions -/

/-- Between calls no import is in progress. -/
theorem Reachable.idle {s : Pool × Session γ} (h : Reachable backend store s) :
    s.2.inProgress = [] := by
  induction h with
  | start => rfl
  | next _ _ ih => exact (compileWith_keepsMarks backend store _ _ _).trans ih

namespace Call

/-- The call is made of a session, by its user or within a call of its user. -/
def Made (backend : Backend γ) (store : ModuleStore) (c : Call γ) : Prop :=
  ∃ outermost, Outermost backend store outermost ∧
    ReflTransGen (Makes backend store) outermost c

variable {c : Call γ}

theorem Outermost.idle (h : Outermost backend store c) : c.before.2.inProgress = [] := by
  cases h with
  | compile h => exact h.idle
  | resolve h => exact h.idle

theorem Outermost.inOrder (h : Outermost backend store c) : InOrder store c := by
  have hidle := h.idle
  have hfuel : c.fuel = store.size + 1 := by cases h <;> rfl
  refine ⟨⟨?_, ?_⟩, ?_, ?_, ?_⟩ <;> simp [hidle, hfuel]

theorem Made.inOrder (h : Made backend store c) : InOrder store c := by
  obtain ⟨outermost, houtermost, hreach⟩ := h
  exact (enters hreach houtermost.inOrder).1

/-- The books of a session survive failures. Whatever units a session has compiled, and whether a
call succeeds or fails, at whatever depth of imports it is made:

* the imports in progress are those that were in progress before, and none between calls of the user;
* no path is in progress twice, or both in progress and registered, before the call and after it;
* what is registered stays, with what it offers, and what is added are imports that were compiled
  within the call, with what their compilation found out;
* an import that fails within the call is not registered after it. Whenever the next call asks for
  that import, it compiles the import itself: now, or it is doing so, or it has done so. -/
theorem books_survive_failures (h : Made backend store c) :
    (c.after backend store).2.inProgress = c.before.2.inProgress ∧
    (Outermost backend store c → (c.after backend store).2.inProgress = []) ∧
    Tidy c.before.2 ∧ Tidy (c.after backend store).2 ∧
    Adds (Compiled backend store c) c.before.2 (c.after backend store).2 ∧
    ∀ dotted inner e s, Compiles backend store c dotted inner →
      inner.run backend store = .error e s →
        (c.after backend store).2.byPath.lookup dotted = none ∧
        ∀ next, Outermost backend store next → next.before = c.after backend store →
          ∀ fuel path t, ".".intercalate path = dotted →
            ReflTransGen (Makes backend store) next (.resolve fuel path t) →
              ∃ again, Compiles backend store next dotted again ∧
                (Makes backend store (.resolve fuel path t) again ∨
                  ReflTransGen (Makes backend store) again (.resolve fuel path t) ∨
                  ∃ typed s id, again.run backend store = .ok (some typed) s ∧
                    t.2.byPath.lookup dotted = some id ∧
                      t.2.modules[id]? = some typed.exports) := by
  have hc := h.inOrder
  obtain ⟨hmarks, htidy, hadds⟩ := c.records backend store hc.tidy
  refine ⟨hmarks, fun houtermost => hmarks.trans houtermost.idle, hc.tidy, htidy, hadds,
    fun dotted inner e s hcompiles hrun => ?_⟩
  have hfree := hcompiles.not_registered hc hrun
  refine ⟨hfree, ?_⟩
  rintro next hnext hbefore fuel path t rfl hreach
  obtain ⟨tree, hload⟩ := hcompiles.loads
  exact asked hreach hnext.inOrder (hbefore ▸ hfree) (by simp [hnext.idle])
    (hload path rfl)

/-- A module without imports, and one that imports it and then one that does not exist. -/
def brokenStore : ModuleStore :=
  { modules := [("leaf", .ofStatements #[] []),
    ("broken", .ofStatements #[.importModule ["leaf"], .importModule ["missing"]] [0, 1])] }

/-- A new session is given a unit that imports the broken module. -/
def breaking : Call Unit :=
  .compile 3 (.ofStatements #[.importModule ["broken"]] [0]) (Pool.initial, { output := () })

/-- The call within it that compiles the broken module. -/
def broken : Call Unit :=
  .compile 2 (.ofStatements #[.importModule ["leaf"], .importModule ["missing"]] [0, 1])
    (Pool.initial, { output := (), inProgress := [".".intercalate ["broken"]] })

/-- The module that was imported before the failure is registered, and the broken one is not. -/
theorem books_survive_missing_import :
    (breaking.after Backend.typesOnly brokenStore).2.byPath = [("leaf", 0)] ∧
      (breaking.after Backend.typesOnly brokenStore).2.inProgress = [] ∧
      (∃ e s, broken.run Backend.typesOnly brokenStore = .error e s) ∧
      (breaking.after Backend.typesOnly brokenStore).2.byPath.lookup
        (".".intercalate ["broken"]) = none := by
  have houtermost : Outermost Backend.typesOnly brokenStore breaking := .compile (.start ()) _
  have hname : ".".intercalate ["broken"] = "broken" := by decide +kernel
  have hcompiles : Compiles Backend.typesOnly brokenStore breaking (".".intercalate ["broken"])
      broken := by
    refine ⟨3, ["broken"], (Pool.initial, { output := () }), rfl, .single ?_, ?_⟩
    · exact .resolve (t := { pool := Pool.initial, imports := { output := () } })
        ⟨by simp, [], 0, [], rfl, rfl, rfl⟩
    · refine .compile rfl (by simp) ?_
      simp only [ModuleStore.load, hname]
      rfl
  have hfails : ∃ e s, broken.run Backend.typesOnly brokenStore = .error e s := by
    have hnot : okWith (fun _ _ => ()) (broken.run Backend.typesOnly brokenStore) = none := by
      decide +kernel
    cases hrun : broken.run Backend.typesOnly brokenStore with
    | error e s => exact ⟨e, s, rfl⟩
    | ok typed s => rw [hrun] at hnot; cases hnot
  obtain ⟨-, hidle, -, -, -, hfailed⟩ := books_survive_failures ⟨breaking, houtermost, .refl⟩
  obtain ⟨e, s, hrun⟩ := hfails
  exact ⟨by decide +kernel, hidle houtermost, ⟨e, s, hrun⟩, (hfailed _ _ _ _ hcompiles hrun).1⟩

end Call

end ClassLang.Session
