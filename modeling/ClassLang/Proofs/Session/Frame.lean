import ClassLang.Proofs.Session.Resolution

/-!
# Compiling a unit leaves existing types alone

All units of a session share one pool. Whatever state a session has reached, a further unit, and
every module it imports on the way, only adds types to the pool: the entries that were there keep
their kind, layout, cases, methods and variables, whether the unit compiles or not.

The invariant of a session is that its pool is sound and that all its modules offer closed types.
The importer of a session is `Lawful`, by induction on the nesting of imports.

The states of a session are a `Course` of units: what its output begins with and which units it goes
on with are parameters, and the invariants of sessions are by induction on it. `BeginsFrom`
adds the states in which the imports of such a session begin to compile.
-/

namespace ClassLang.Session

variable {γ : Type} {backend : Backend γ} {store : ModuleStore}

/-! ## Courses of a session -/

/-- The states of a session that begins with one of the outputs in `starts`, and those that compiling
a unit leads to, whether the unit compiles or not, if that is one of the runs in `permits`. -/
inductive Course (backend : Backend γ) (store : ModuleStore) (starts : γ → Prop)
    (permits : SyntaxTree → EStateM.Result Halt (Pool × Session γ) TypedModule → Prop) :
    Pool × Session γ → Prop
  | start {output : γ} (h : starts output) :
      Course backend store starts permits (Pool.initial, { output })
  | next {s : Pool × Session γ} {tree : SyntaxTree} (h : Course backend store starts permits s)
      (hpermits : permits tree (compileUnit backend store tree s)) :
      Course backend store starts permits (finalState (compileUnit backend store tree s))

theorem Course.mono {starts starts' : γ → Prop}
    {permits permits' : SyntaxTree → EStateM.Result Halt (Pool × Session γ) TypedModule → Prop}
    {s : Pool × Session γ} (h : Course backend store starts permits s)
    (hstarts : ∀ output, starts output → starts' output)
    (hpermits : ∀ tree run, permits tree run → permits' tree run) :
    Course backend store starts' permits' s := by
  induction h with
  | start h => exact .start (hstarts _ h)
  | next _ h ih => exact .next ih (hpermits _ _ h)

/-- The states of a session: that of a new one, and those that compiling a unit leads to, whether
the unit compiles or not. -/
abbrev Reachable (backend : Backend γ) (store : ModuleStore) : Pool × Session γ → Prop :=
  Course backend store (fun _ => True) fun _ _ => True

theorem Reachable.start (output : γ) : Reachable backend store (Pool.initial, { output }) :=
  Course.start True.intro

theorem Reachable.next {s : Pool × Session γ} (h : Reachable backend store s) (tree : SyntaxTree) :
    Reachable backend store (finalState (compileUnit backend store tree s)) :=
  Course.next h True.intro

theorem Course.reachable {starts : γ → Prop}
    {permits : SyntaxTree → EStateM.Result Halt (Pool × Session γ) TypedModule → Prop}
    {s : Pool × Session γ} (h : Course backend store starts permits s) :
    Reachable backend store s :=
  h.mono (fun _ _ => True.intro) fun _ _ _ => True.intro

/-- What a step from a pool in a session may do: it stays in the territory, and the modules of the
session stay and offer what they offered. -/
structure Respectful (N : TypeId → Prop) (p : Pool) (session : Session γ)
    (after : Pool × Session γ) : Prop where
  kept : p.Kept N after.1
  passes : Pool.Passes (p.Kept N) p after.1
  modules : ∀ id e, after.2.exports? id = some e → e.Fits after.1 N
  extends_ : ∀ id e, session.exports? id = some e → after.2.exports? id = some e

section Steps

variable {p q : Pool} {N : TypeId → Prop} {session session' : Session γ}

/-- A step that changes neither the pool nor the modules. -/
theorem Respectful.refl (hT : p.Territory N)
    (hfits : ∀ id e, session.exports? id = some e → e.Fits p N)
    (hmodules : session'.modules = session.modules) :
    Respectful N p session (p, session') := by
  refine ⟨⟨hT.sound, ⟨Nat.le_refl _, fun _ _ => rfl⟩, hT.respects⟩, .refl _, fun id e he => ?_,
    fun id e he => ?_⟩
  · exact hfits id e (by simpa [exports?, hmodules] using he)
  · simpa [exports?, hmodules] using he

/-- Changes of the session that leave its modules alone do not matter. -/
theorem Respectful.of_modules {after : Session γ} (h : Respectful N p session (q, session'))
    (hmodules : after.modules = session'.modules) : Respectful N p session (q, after) where
  kept := h.kept
  passes := h.passes
  modules id e he := h.modules id e (by simpa [exports?, hmodules] using he)
  extends_ id e he := by simpa [exports?, hmodules] using h.extends_ id e he

/-- Compiling one unit, with a lawful importer of the session. -/
theorem compileWith_respectful (backend : Backend γ) {importer : Importer (Session γ)}
    (hlawful : importer.Lawful) (hexports : importer.exports? = exports?) (hT : p.Territory N)
    (hfits : ∀ id e, session.exports? id = some e → e.Fits p N) (tree : SyntaxTree) :
    Respectful N p session (finalState (compileWith backend importer tree (p, session))) ∧
      ∀ typed after, compileWith backend importer tree (p, session) = .ok typed after →
        typed.exports.Fits after.1 N := by
  have hfits' : importer.ExportsFit p N session := by
    intro id e he
    rw [hexports] at he
    exact hfits id e he
  have hinitial : Typing.Confined { tree, importer } p N { pool := p, imports := session } :=
    .initial hT hfits'
  have hcalc := Typing.calculate_confined hT hlawful hinitial
  have hresult : ∀ s, Typing.Confined { tree, importer } p N s →
      Typing.Advances { tree, importer } p N { pool := p, imports := session } s →
      Respectful N p session (s.pool, s.imports) := by
    intro s hs hle
    refine ⟨hs.pool, hle.passes, fun id e he => hs.imports id e ?_, fun id e he => ?_⟩
    · simpa [hexports] using he
    · simpa [hexports] using hle.imports id e (by simpa [hexports] using he)
  unfold compileWith
  cases hrun : Typing.calculate { tree, importer } { pool := p, imports := session } with
  | error h s =>
      obtain ⟨hs, hle, -⟩ := hcalc.error hrun
      simp only [hrun]
      exact ⟨hresult s hs hle, fun _ _ heq => by cases heq⟩
  | ok typed s =>
      obtain ⟨hs, hle, htyped⟩ := hcalc.ok hrun
      simp only [hrun]
      cases backend.generate tree s.pool typed s.imports.output with
      | error h output =>
          exact ⟨(hresult s hs hle).of_modules rfl, fun _ _ heq => by cases heq⟩
      | ok _ output =>
          refine ⟨(hresult s hs hle).of_modules rfl, fun _ _ heq => ?_⟩
          cases heq
          rw [htyped]
          exact hs.exports

/-- Registering a module that offers closed types. -/
theorem Respectful.register {exports : Exports} (h : Respectful N p session (q, session'))
    (dotted : String) (hexports : exports.Fits q N) :
    Respectful N p session (q, (session'.register dotted exports).2) where
  kept := h.kept
  passes := h.passes
  modules id e he := by
    simp only [exports?, Session.register, List.getElem?_append] at he
    split at he
    · exact h.modules id e he
    · rw [List.getElem?_singleton] at he
      split at he <;> cases he
      exact hexports
  extends_ id e he := by
    have hold := h.extends_ id e he
    simp only [exports?, Session.register] at hold ⊢
    rw [List.getElem?_append_left (List.getElem?_eq_some_iff.1 hold).1]
    exact hold

end Steps

/-! ## The importer of a session -/

/-- One import, given that the imports nested in it are lawful. -/
theorem resolve_respectful {fuel : Nat} (ih : (importerWithin backend store fuel).Lawful)
    {p : Pool} {N : TypeId → Prop} {session : Session γ} (hT : p.Territory N)
    (hfits : ∀ id e, session.exports? id = some e → e.Fits p N) (path : List String)
    (dotted : String) :
    Respectful N p session
      (finalState ((importerWithin backend store (fuel + 1)).resolve path dotted (p, session))) := by
  have hrefl : Respectful N p session (p, session) := .refl hT hfits rfl
  -- the nested unit is compiled with the import marked, which no invariant looks at
  have hmarked : ∀ id e, Session.exports? { session with inProgress := dotted :: session.inProgress } id =
      some e → e.Fits p N := hfits
  have hnested := compileWith_respectful backend ih (importerWithin_exports fuel) hT hmarked
  have hcases := resolve_resolved backend store fuel path dotted p session
  generalize (importerWithin backend store (fuel + 1)).resolve path dotted (p, session) = result
    at hcases
  cases hcases with
  | known => exact hrefl
  | refused => exact hrefl
  | @failed tree h after hload hrun =>
      have hafter := (hnested tree).1
      rw [hrun] at hafter
      exact ⟨hafter.kept, hafter.passes, hafter.modules, hafter.extends_⟩
  | @compiled tree typed after hload hrun =>
      obtain ⟨hafter, hoffered⟩ := hnested tree
      rw [hrun] at hafter
      have hnew := hafter.register dotted (hoffered typed after hrun)
      exact ⟨hnew.kept, hnew.passes, hnew.modules, hnew.extends_⟩

/-- The importer of a session is lawful, however deep imports may nest. -/
theorem importerWithin_lawful (backend : Backend γ) (store : ModuleStore) (fuel : Nat) :
    (importerWithin backend store fuel).Lawful := by
  induction fuel with
  | zero =>
      intro path dotted p session N hT hfits
      have h : Respectful N p session (p, session) := .refl hT hfits rfl
      exact ⟨h.kept, h.passes, h.modules, h.extends_⟩
  | succ fuel ih =>
      intro path dotted p session N hT hfits
      have h := resolve_respectful ih hT hfits path dotted
      exact ⟨h.kept, h.passes, h.modules, h.extends_⟩

/-! ## Reachable states -/

/-- What holds of every state of a session: the pool is sound, and modules offer closed types. -/
structure Sound (s : Pool × Session γ) : Prop where
  pool : s.1.Sound
  modules : ∀ id e, s.2.exports? id = some e → e.Fits s.1 fun _ => True

/-- In a sound state, what modules offer lies in the territory of the next unit. -/
theorem Sound.fits {p : Pool} {session : Session γ} (h : Sound (p, session)) :
    ∀ id e, session.exports? id = some e → e.Fits p (Pool.Inner (fun _ => True) p) :=
  fun id e he => (h.modules id e he).weaken fun _ hclosed _ => .inr ⟨True.intro, hclosed⟩

theorem Sound.exportsFit {s : Pool × Session γ} (h : Sound s) {fuel : Nat} :
    (importerWithin backend store fuel).ExportsFit s.1 (Pool.Inner (fun _ => True) s.1) s.2 := by
  intro id e he
  rw [importerWithin_exports] at he
  exact h.fits id e he

/-- A unit compiled in a sound state. -/
theorem Sound.compileWith {p : Pool} {session : Session γ} (h : Sound (p, session))
    (backend : Backend γ) (store : ModuleStore) (fuel : Nat) (tree : SyntaxTree) :
    Respectful (Pool.Inner (fun _ => True) p) p session
      (finalState (compileWith backend (importerWithin backend store fuel) tree (p, session))) :=
  (compileWith_respectful backend (importerWithin_lawful backend store _) (importerWithin_exports _)
    h.pool.territory h.fits tree).1

/-- A unit leaves a sound state behind. -/
theorem Sound.compileUnit {s : Pool × Session γ} (h : Sound s) (backend : Backend γ)
    (store : ModuleStore) (tree : SyntaxTree) :
    Sound (finalState (compileUnit backend store tree s)) := by
  have hafter := h.compileWith backend store (store.size + 1) tree
  exact ⟨hafter.kept.sound, fun id e he =>
    (hafter.modules id e he).weaken fun _ _ _ => True.intro⟩

/-- All states of a session are sound. -/
theorem Course.sound {starts : γ → Prop}
    {permits : SyntaxTree → EStateM.Result Halt (Pool × Session γ) TypedModule → Prop}
    {s : Pool × Session γ} (h : Course backend store starts permits s) : Sound s := by
  induction h with
  | start => exact ⟨Pool.sound_initial, fun id e he => by simp [exports?] at he⟩
  | next _ _ ih => exact ih.compileUnit backend store _

/-- The typing of a unit begins confined, if the state is sound. -/
theorem Sound.confined {p : Pool} {session : Session γ} (h : Sound (p, session))
    (backend : Backend γ) (store : ModuleStore) (fuel : Nat) (tree : SyntaxTree) :
    Typing.Confined { tree, importer := importerWithin backend store fuel } p
      (Pool.Inner (fun _ => True) p) { pool := p, imports := session } :=
  .initial h.pool.territory h.exportsFit

/-- Typing a unit in a sound state, whether it succeeds or fails. -/
theorem Sound.calculate {p : Pool} {session : Session γ} (h : Sound (p, session))
    (backend : Backend γ) (store : ModuleStore) (fuel : Nat) (tree : SyntaxTree) :
    p.Agrees (finalState (Typing.calculate
      { tree, importer := importerWithin backend store fuel }
      { pool := p, imports := session })).pool := by
  have hcalc := Typing.calculate_confined h.pool.territory
    (importerWithin_lawful backend store fuel) (h.confined backend store fuel tree)
  cases hrun : Typing.calculate { tree, importer := importerWithin backend store fuel }
      { pool := p, imports := session } with
  | ok typed s => exact (hcalc.ok hrun).1.pool.agrees
  | error e s => exact (hcalc.error hrun).1.pool.agrees

/-! ## Compilations that begin -/

/-- The compilation of a unit begins in a state: of one that the session is `given` in that state, or
of one that is imported, after the statements before the import were processed. Imports nested in it
may be `fuel` deep. -/
inductive BeginsFrom (backend : Backend γ) (store : ModuleStore)
    (given : SyntaxTree → Pool × Session γ → Prop) : Nat → SyntaxTree → Pool × Session γ → Prop
  | unit {tree : SyntaxTree} {s : Pool × Session γ} (h : given tree s) :
      BeginsFrom backend store given (store.size + 1) tree s
  | imported {fuel : Nat} {tree loaded : SyntaxTree} {p : Pool} {session : Session γ}
      {before after : List NodeId} {statement : NodeId} {path : List String}
      {s : TypingState (Session γ)}
      (h : BeginsFrom backend store given (fuel + 1) tree (p, session))
      (hsplit : tree.statements tree.root = before ++ statement :: after)
      (hbefore : before.forM (Typing.declareType
          { tree, importer := importerWithin backend store (fuel + 1) })
        { pool := p, imports := session } = .ok () s)
      (hstatement : tree.node statement = .importModule path)
      (hload : store.load path = .ok loaded) :
      BeginsFrom backend store given fuel loaded
        (s.pool, { s.imports with inProgress := ".".intercalate path :: s.imports.inProgress })

theorem BeginsFrom.mono {given given' : SyntaxTree → Pool × Session γ → Prop} {fuel : Nat}
    {tree : SyntaxTree} {s : Pool × Session γ} (h : BeginsFrom backend store given fuel tree s)
    (hgiven : ∀ tree s, given tree s → given' tree s) :
    BeginsFrom backend store given' fuel tree s := by
  induction h with
  | unit h => exact .unit (hgiven _ _ h)
  | imported _ hsplit hbefore hstatement hload ih =>
      exact .imported ih hsplit hbefore hstatement hload

/-- The compilation of a unit begins in a state of a session: of one given to the session, in any
state that it can reach, or of one that is imported. -/
abbrev Begins (backend : Backend γ) (store : ModuleStore) :
    Nat → SyntaxTree → Pool × Session γ → Prop :=
  BeginsFrom backend store fun _ => Reachable backend store

theorem Begins.unit {s : Pool × Session γ} (h : Reachable backend store s) (tree : SyntaxTree) :
    Begins backend store (store.size + 1) tree s :=
  BeginsFrom.unit h

/-- Every compilation, nested ones included, begins in a sound state. -/
theorem Begins.sound {fuel : Nat} {tree : SyntaxTree} {s : Pool × Session γ}
    (h : Begins backend store fuel tree s) : Sound s := by
  induction h with
  | unit h => exact h.sound
  | @imported fuel tree loaded p session before after statement path s _ hsplit hbefore _ _ ih =>
      have hT := ih.pool.territory
      have hlawful := importerWithin_lawful backend store (fuel + 1)
      have hkeeps := Discipline.forM_keeps (P := fun _ => True) before
        (ih.confined backend store (fuel + 1) tree) True.intro
        fun statement _ _ ht _ _ => Typing.declareType_confined hT hlawful statement ht
      obtain ⟨hs, -, -⟩ := hkeeps.ok hbefore
      refine ⟨hs.pool.sound, fun id e he => (hs.imports id e ?_).weaken fun _ _ _ => True.intro⟩
      rw [importerWithin_exports]
      exact he

/-- Compiling a unit never changes types that already existed: wherever a compilation begins in a
session, be it of a unit or of something it imports, each entry of the pool is the same after the
unit was compiled or typed, whatever the outcome. -/
theorem compileWith_keeps_existing_types {fuel : Nat} {tree : SyntaxTree} {s : Pool × Session γ}
    (h : Begins backend store fuel tree s) {t : TypeId} (ht : t < s.1.size) :
    (finalState (compileWith backend (importerWithin backend store fuel) tree s)).1.entries[t]? =
        s.1.entries[t]? ∧
      (finalState (Typing.calculate { tree, importer := importerWithin backend store fuel }
        { pool := s.1, imports := s.2 })).pool.entries[t]? = s.1.entries[t]? :=
  ⟨(h.sound.compileWith backend store fuel tree).kept.agrees.getElem?_eq ht,
    (h.sound.calculate backend store fuel tree).getElem?_eq ht⟩

/-- A unit that declares a class with one instance variable. -/
def cellUnit : SyntaxTree :=
  .ofStatements #[.namedType "Integer", .ivarDecl "value" 0, .seq [1], .classDef "Cell" none 2] [3]

/-- A session after `cellUnit`. -/
def cellSession : Pool × Session Unit :=
  finalState (compileUnit Backend.typesOnly {} cellUnit (Pool.initial, { output := () }))

/-- A class that a unit declared is not touched when the same unit is compiled again. -/
theorem compileUnit_keeps_cell :
    8 < cellSession.1.size ∧
      (finalState (compileUnit Backend.typesOnly {} cellUnit cellSession)).1.entries[8]? =
        cellSession.1.entries[8]? := by
  have hsize : 8 < cellSession.1.size := by decide +kernel
  have hreach : Reachable Backend.typesOnly {} cellSession := .next (.start ()) cellUnit
  have hkeep := compileWith_keeps_existing_types (.unit hreach cellUnit) hsize
  unfold compileUnit importer
  exact ⟨hsize, hkeep.1⟩

end ClassLang.Session
