import ClassLang.Proofs.Session.Bookkeeping
import ClassLang.Proofs.Typing.ProvidedModules

/-!
# Where internal errors come from

In a session, a unit whose declarations all stand in their places is typed without internal errors,
if the modules that it can import are such units, too: an internal error of typing was raised while
code was generated for an import. So typing is to blame only for declarations out of their places,
and a function in the body of another one is enough.

Imports are resolved to modules that exist as every path is registered with the number of one.
-/

namespace ClassLang

/-- In all modules of the store, declarations stand in their places. -/
def ModuleStore.Regular (store : ModuleStore) : Prop :=
  ∀ entry ∈ store.modules, entry.2.TreeShaped ∧ entry.2.Regular

instance (store : ModuleStore) : Decidable store.Regular :=
  inferInstanceAs (Decidable (∀ entry ∈ store.modules, _))

theorem ModuleStore.Regular.of_load {store : ModuleStore} (h : store.Regular) {path : List String}
    {tree : SyntaxTree} (hload : store.load path = .ok tree) : tree.TreeShaped ∧ tree.Regular :=
  h _ (mem_of_lookup_eq_some (ModuleStore.lookup_of_load hload))

namespace Session

variable {γ : Type} {backend : Backend γ} {store : ModuleStore} {s t : Session γ}

/-! ## Numbers of modules -/

/-- Every path is registered with the number of a module. -/
def Numbered (s : Session γ) : Prop :=
  ∀ dotted id, s.byPath.lookup dotted = some id → id < s.modules.length

theorem Numbered.exports (h : Numbered s) {dotted : String} {id : ModuleId}
    (hid : s.byPath.lookup dotted = some id) : (s.exports? id).isSome := by
  simp [exports?, h dotted id hid]

theorem Numbered.register (h : Numbered s) (dotted : String) (exports : Exports) :
    Numbered (s.register dotted exports).2 := by
  intro other id hid
  have hlength : (s.register dotted exports).2.modules.length = s.modules.length + 1 := by
    simp [Session.register]
  rw [hlength]
  by_cases hother : other = dotted
  · subst hother
    have hlast : s.modules.length = id := by simpa [Session.register] using hid
    exact hlast ▸ Nat.lt_succ_self _
  · rw [DepthFirst.lookup_register hother exports] at hid
    exact Nat.lt_succ_of_lt (h other id hid)

/-- What is added is registered with its number. -/
theorem Adds.numbered {New : String → Exports → Prop} (h : Adds New s t) (hs : Numbered s) :
    Numbered t := by
  intro dotted id hid
  rcases h.paths dotted id hid with hold | ⟨e, he, -⟩
  · exact Nat.lt_of_lt_of_le (hs dotted id hold) h.modules.length_le
  · exact (List.getElem?_eq_some_iff.mp he).1

theorem Reachable.numbered {s : Pool × Session γ} (h : Reachable backend store s) :
    Numbered s.2 := by
  induction h with
  | start => intro dotted id hid; cases hid
  | @next s tree h _ ih =>
      have htidy : Tidy s.2 := by constructor <;> simp [Reachable.idle h]
      have hadds := (Call.records backend store (.compile (store.size + 1) tree s) htidy).2.2
      rw [Call.after_compile] at hadds
      exact hadds.numbered ih

/-! ## Internal errors of a unit -/

/-- The backend stops in this way when it generates code for a unit whose compilation begins, in the
state that typing this unit then leads to. -/
def Raises (backend : Backend γ) (store : ModuleStore)
    (given : SyntaxTree → Pool × Session γ → Prop) (h : Halt) : Prop :=
  ∃ fuel tree s typed t after, BeginsFrom backend store given fuel tree s ∧
    Typing.calculate { tree, importer := importerWithin backend store fuel }
      { pool := s.1, imports := s.2 } = .ok typed t ∧
    backend.generate tree t.pool typed t.imports.output = .error h after

/-- Where no code is generated, nothing goes wrong with it. -/
theorem typesOnly_not_raises {store : ModuleStore}
    {given : SyntaxTree → Pool × Session Unit → Prop} (h : Halt) :
    ¬ Raises Backend.typesOnly store given h := by
  rintro ⟨fuel, tree, s, typed, t, after, -, -, hgen⟩
  cases hgen

/-- The compilation of what is imported begins, if it can be loaded. -/
def BeginsImport (backend : Backend γ) (store : ModuleStore)
    (given : SyntaxTree → Pool × Session γ → Prop) (fuel : Nat) (path : List String)
    (s : Pool × Session γ) : Prop :=
  ∀ below loaded, fuel = below + 1 → store.load path = .ok loaded →
    BeginsFrom backend store given below loaded
      (s.1, { s.2 with inProgress := ".".intercalate path :: s.2.inProgress })

variable {given : SyntaxTree → Pool × Session γ → Prop} {fuel : Nat}

/-- The compilation of an import begins when typing comes to it. -/
theorem BeginsFrom.beginsImport {tree : SyntaxTree} {p : Pool} {session : Session γ}
    (h : BeginsFrom backend store given fuel tree (p, session)) {path : List String}
    {s : Pool × Session γ} (hcomes : Typing.ComesToImport
      { tree, importer := importerWithin backend store fuel } { pool := p, imports := session }
      path s) : BeginsImport backend store given fuel path s := by
  obtain ⟨before, statement, after, t, hsplit, hbefore, hstatement, rfl⟩ := hcomes
  rintro below loaded rfl hload
  exact .imported h hsplit hbefore hstatement hload

section Unit

variable {tree : SyntaxTree} {p : Pool} {N : TypeId → Prop} {session : Session γ}
  (h : BeginsFrom backend store given fuel tree (p, session))
  (hprovides : (importerWithin backend store fuel).Provides Numbered
    (BeginsImport backend store given fuel) (Raises backend store given))
  (hT : p.Territory N) (hfits : (importerWithin backend store fuel).ExportsFit p N session)
  (hnumbered : Numbered session) (hshape : tree.TreeShaped) (hregular : tree.Regular)

include h hprovides hT hfits hnumbered hshape hregular

/-- Typing a regular unit stops with an internal error only if the backend raises it, if this is so
for the imports nested in it. -/
theorem BeginsFrom.typing_blames :
    (Discipline.blaming _ (Raises backend store given)).KeepsAt { pool := p, imports := session }
      (Typing.calculate { tree, importer := importerWithin backend store fuel })
      fun _ t => Numbered t.imports :=
  Typing.calculate_blames { tree, importer := importerWithin backend store fuel } hT
    (importerWithin_lawful backend store fuel) (hprovides.mono fun _ _ => h.beginsImport) hshape
    hregular hfits hnumbered

/-- The same of compiling the unit. -/
theorem BeginsFrom.compiling_blames :
    (Discipline.blaming (Pool × Session γ) (Raises backend store given)).KeepsAt (p, session)
      (compileWith backend (importerWithin backend store fuel) tree)
      fun _ after => Numbered after.2 := by
  have htyping := h.typing_blames hprovides hT hfits hnumbered hshape hregular
  refine compileWith_keeps (D := Discipline.blaming _ (Raises backend store given)) htyping ?_ ?_
  · exact fun typed t output hrun _ _ => ⟨trivial, trivial, (htyping.ok hrun).2.2⟩
  · exact fun typed t halt output hrun _ hgen _ =>
      ⟨fuel, tree, (p, session), typed, t, output, h, hrun, hgen⟩

end Unit

/-- Imports of a session lead to modules that exist, and only the backend raises internal errors. -/
theorem importerWithin_provides (hstore : store.Regular) (fuel : Nat) :
    (importerWithin backend store fuel).Provides Numbered (BeginsImport backend store given fuel)
      (Raises backend store given) := by
  induction fuel with
  | zero =>
      refine ⟨?_, ?_⟩
      · intro path p session N id after _ _ _ _ hrun
        cases hrun
      · intro path p session N h after _ _ _ _ hrun hinternal
        cases hrun
        exact absurd hinternal Halt.not_isInternal_outOfFuel
  | succ fuel ih =>
      -- the unit is compiled while its import is in progress
      have hnested {p : Pool} {N : TypeId → Prop} {session : Session γ} {path : List String}
          {tree : SyntaxTree}
          (hbegins : BeginsImport backend store given (fuel + 1) path (p, session))
          (hT : p.Territory N)
          (hfits : (importerWithin backend store (fuel + 1)).ExportsFit p N session)
          (hnumbered : Numbered session) (hload : store.load path = .ok tree) :
          (Discipline.blaming (Pool × Session γ) (Raises backend store given)).KeepsAt
            (p, { session with inProgress := ".".intercalate path :: session.inProgress })
            (compileWith backend (importerWithin backend store fuel) tree)
            fun _ after => Numbered after.2 := by
        obtain ⟨hshape, hregular⟩ := hstore.of_load hload
        refine (hbegins fuel tree rfl hload).compiling_blames ih hT (fun id e he => hfits id e ?_)
          hnumbered hshape hregular
        rw [importerWithin_exports] at he ⊢
        exact he
      refine ⟨?_, ?_⟩
      · intro path p session N id after hbegins hT hfits hnumbered hrun
        have hcases := resolve_resolved backend store fuel path (".".intercalate path) p session
        rw [hrun] at hcases
        rw [importerWithin_exports]
        cases hcases with
        | known hid => exact ⟨hnumbered, hnumbered.exports hid⟩
        | @compiled tree typed after hload hcompile =>
            have hafter := ((hnested hbegins hT hfits hnumbered hload).ok hcompile).2.2
            exact ⟨Numbered.register (s := { after.2 with inProgress := session.inProgress }) hafter
              _ typed.exports, by simp [exports?, Session.register]⟩
      · intro path p session N h after hbegins hT hfits hnumbered hrun hinternal
        have hcases := resolve_resolved backend store fuel path (".".intercalate path) p session
        rw [hrun] at hcases
        cases hcases with
        | refused huser => exact absurd hinternal (Halt.not_isInternal_of_kind huser)
        | @failed tree h after hload hcompile =>
            exact (hnested hbegins hT hfits hnumbered hload).error hcompile hinternal

/-- Typing does not blame itself for regular units. Whatever units a session has compiled, let all
modules that it can import and a further unit have the parts that their nodes ask for, and all
declarations in their places. If typing the unit fails, then not with an internal error, unless the
backend raised it while it generated code for what this unit imports. -/
theorem regular_units_end_without_internal_errors (hstore : store.Regular) {s : Pool × Session γ}
    (h : Reachable backend store s) {tree : SyntaxTree} (hshape : tree.TreeShaped)
    (hregular : tree.Regular) {halt : Halt} {t : TypingState (Session γ)}
    (hrun : Typing.calculate { tree, importer := importer backend store }
      { pool := s.1, imports := s.2 } = .error halt t) :
    ¬ halt.IsInternal ∨
      Raises backend store (fun other start => other = tree ∧ start = s) halt := by
  have hbegins : BeginsFrom backend store (fun other start => other = tree ∧ start = s)
      (store.size + 1) tree (s.1, s.2) := .unit ⟨rfl, rfl⟩
  have htyping := hbegins.typing_blames (importerWithin_provides hstore _) h.sound.pool.territory
    h.sound.exportsFit h.numbered hshape hregular
  by_cases hinternal : halt.IsInternal
  · exact .inr (htyping.error hrun hinternal)
  · exact .inl hinternal

/-- A module with a class. -/
def scaleStore : ModuleStore :=
  { modules := [("scale", .ofStatements #[.namedType "Integer", .ivarDecl "unit" 0,
    .namedType "Integer", .ivar "unit", .methodDef "size" [] (some 2) 3, .seq [1, 4],
    .classDef "Scale" none 5] [6])] }

/-- A unit that imports the module of `scaleStore`; its function `main` returns a text where it
should return an integer. -/
def scaleUnit : SyntaxTree :=
  .ofStatements #[.importModule ["scale"], .namedType "Integer", .text "heavy",
    .methodDef "main" [] (some 1) 2] [0, 3]

/-- The error in `scaleUnit` is one of the program. -/
theorem regular_units_end_without_internal_errors_scale :
    ∃ halt t, Typing.calculate { tree := scaleUnit, importer := importer Backend.typesOnly scaleStore }
      { pool := Pool.initial, imports := { output := () } } = .error halt t ∧
        ¬ halt.IsInternal := by
  have hfails : (haltOf? (Typing.calculate
      { tree := scaleUnit, importer := importer Backend.typesOnly scaleStore }
      { pool := Pool.initial, imports := { output := () } })).isSome := by decide +kernel
  obtain ⟨halt, hhalt⟩ := Option.isSome_iff_exists.mp hfails
  obtain ⟨t, hrun⟩ := exists_of_haltOf? hhalt
  have hends := regular_units_end_without_internal_errors (by decide) (.start ()) (by decide)
    (by decide) hrun
  exact ⟨halt, t, hrun, hends.resolve_right (typesOnly_not_raises halt)⟩

/-- A function `inner` is declared in the body of `main`. -/
def nestedFunctionUnit : SyntaxTree :=
  .ofStatements #[.namedType "Integer", .number 1, .methodDef "inner" [] (some 0) 1, .seq [2],
    .methodDef "main" [] none 3] [4]

/-- Where declarations stand matters: all nodes of `nestedFunctionUnit` have parts of the right
kinds, but typing it in a new session stops with an internal error, as no signature was declared for
the inner function. -/
theorem nested_function_is_internal :
    nestedFunctionUnit.TreeShaped ∧ nestedFunctionUnit.WellKinded ∧
      ∃ halt t, halt.IsInternal ∧
        Typing.calculate { tree := nestedFunctionUnit, importer := importer Backend.typesOnly {} }
          { pool := Pool.initial, imports := { output := () } } = .error halt t := by
  have hrun : haltOf? (Typing.calculate
      { tree := nestedFunctionUnit, importer := importer Backend.typesOnly {} }
      { pool := Pool.initial, imports := { output := () } }) =
        some (.error (.internal "no signature recorded for node 2")) := by decide +kernel
  obtain ⟨t, ht⟩ := exists_of_haltOf? hrun
  exact ⟨by decide, by decide, _, t, ⟨_, rfl⟩, ht⟩

end Session

end ClassLang
