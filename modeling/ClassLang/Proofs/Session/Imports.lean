import Mathlib.Data.List.Perm.Subperm
import Mathlib.Data.List.Nodup
import ClassLang.Proofs.Session.ControlFlow
import ClassLang.Proofs.Typing.Resolving

/-!
# Imports are compiled depth first

A session compiles a module when it is first imported, after all that the module imports itself.
Three facts carry this through any sequence of units, failed ones included:

* the imports in progress are different stored modules, so nesting is bounded by their number;
* a module in progress is not registered, and each one leads to the innermost through imports;
* a registered module has its imports registered before it.

So an import cycle is reported only where there is one, and what leads into a cycle never compiles.
-/

namespace ClassLang

open Relation (ReflTransGen TransGen)

/-- The stored module at one dotted path imports that at another. -/
def ModuleStore.Imports (store : ModuleStore) (outer inner : String) : Prop :=
  ∃ tree, store.modules.lookup outer = some tree ∧
    ∃ path ∈ tree.importPaths, ".".intercalate path = inner

/-- A module that can be loaded is the one stored at the dotted path. -/
theorem ModuleStore.lookup_of_load {store : ModuleStore} {path : List String} {tree : SyntaxTree}
    (h : store.load path = .ok tree) : store.modules.lookup (".".intercalate path) = some tree := by
  unfold load at h
  dsimp only at h
  split at h <;> cases h
  assumption

namespace Session

variable {γ : Type} {backend : Backend γ} {store : ModuleStore}

/-! ## The nesting of imports -/

/-- The imports in progress are different stored modules, and `fuel` further ones are more than
there can be. -/
structure Bounded (store : ModuleStore) (fuel : Nat) (inProgress : List String) : Prop where
  nodup : inProgress.Nodup
  stored : ∀ dotted ∈ inProgress, ∃ tree, store.modules.lookup dotted = some tree
  bound : store.size < fuel + inProgress.length

namespace Bounded

variable {fuel : Nat} {inProgress : List String}

/-- The bound on nesting is not reached. -/
theorem pos (h : Bounded store fuel inProgress) : 0 < fuel := by
  have hsub : inProgress ⊆ store.modules.map (·.1) := by
    intro dotted hmem
    obtain ⟨tree, htree⟩ := h.stored dotted hmem
    exact List.mem_map_of_mem (mem_of_lookup_eq_some htree)
  have hle : inProgress.length ≤ store.size := by
    simpa [ModuleStore.size] using (h.nodup.subperm hsub).length_le
  have hbound := h.bound
  omega

/-- One more stored module may be imported. -/
theorem push (h : Bounded store (fuel + 1) inProgress) {path : List String} {tree : SyntaxTree}
    (hnew : ".".intercalate path ∉ inProgress) (hload : store.load path = .ok tree) :
    Bounded store fuel (".".intercalate path :: inProgress) where
  nodup := List.nodup_cons.mpr ⟨hnew, h.nodup⟩
  stored := by
    rintro dotted (_ | ⟨_, hmem⟩)
    · exact ⟨tree, ModuleStore.lookup_of_load hload⟩
    · exact h.stored dotted hmem
  bound := by
    have hbound := h.bound
    simp only [List.length_cons]
    omega

end Bounded

/-- The registry of a session is what compiling depth first leaves behind. -/
structure DepthFirst (store : ModuleStore) (s : Session γ) : Prop where
  paths : (s.byPath.map (·.1)).Nodup
  ids : s.byPath.map (·.2) = (List.range s.modules.length).reverse
  /-- What a registered module imports was registered before it. -/
  imports : ∀ dotted id, s.byPath.lookup dotted = some id →
    ∃ tree, store.modules.lookup dotted = some tree ∧
      ∀ path ∈ tree.importPaths, ∃ id' < id, s.byPath.lookup (".".intercalate path) = some id'
  unfinished : ∀ dotted ∈ s.inProgress, s.byPath.lookup dotted = none
  /-- Each import in progress leads to the innermost one. -/
  leads : ∀ inner ∈ s.inProgress.head?, ∀ outer ∈ s.inProgress,
    ReflTransGen store.Imports outer inner

namespace DepthFirst

variable {s : Session γ} {dotted other : String} {id : ModuleId}

theorem id_lt (h : DepthFirst store s) (hid : s.byPath.lookup dotted = some id) :
    id < s.modules.length := by
  have hmem : id ∈ s.byPath.map (·.2) := List.mem_map_of_mem (mem_of_lookup_eq_some hid)
  simpa [h.ids] using hmem

/-- An import of the innermost module in progress that is in progress itself lies on a cycle. -/
theorem cyclic_of_mem (h : DepthFirst store s) (hmem : dotted ∈ s.inProgress)
    (himport : ∀ inner ∈ s.inProgress.head?, store.Imports inner dotted) :
    TransGen store.Imports dotted dotted := by
  cases hprogress : s.inProgress with
  | nil => simp [hprogress] at hmem
  | cons inner rest =>
      have hinner : inner ∈ s.inProgress.head? := by simp [hprogress]
      exact .tail' (h.leads inner hinner dotted hmem) (himport inner hinner)

/-- A module that the innermost one imports is begun. -/
theorem begin_ (h : DepthFirst store s) (hnew : s.byPath.lookup dotted = none)
    (himport : ∀ inner ∈ s.inProgress.head?, store.Imports inner dotted) :
    DepthFirst store { s with inProgress := dotted :: s.inProgress } where
  paths := h.paths
  ids := h.ids
  imports := h.imports
  unfinished := by
    rintro other (_ | ⟨_, hmem⟩)
    · exact hnew
    · exact h.unfinished other hmem
  leads := by
    rintro inner ⟨⟩ outer (_ | ⟨_, hmem⟩)
    · exact .refl
    · cases hprogress : s.inProgress with
      | nil =>
          rw [hprogress] at hmem
          cases hmem
      | cons inner rest =>
          have hinner : inner ∈ s.inProgress.head? := by simp [hprogress]
          exact (h.leads inner hinner outer hmem).tail (himport inner hinner)

/-- The innermost module in progress is given up. -/
theorem leave {t : Session γ} (h : DepthFirst store s) (ht : DepthFirst store t)
    (hprogress : t.inProgress = dotted :: s.inProgress) :
    DepthFirst store { t with inProgress := s.inProgress } where
  paths := ht.paths
  ids := ht.ids
  imports := ht.imports
  unfinished other hmem := ht.unfinished other (by rw [hprogress]; exact .tail _ hmem)
  leads := h.leads

/-- A path that is not registered is looked up as before once another one is. -/
theorem lookup_register (hne : other ≠ dotted) (exports : Exports) :
    (s.register dotted exports).2.byPath.lookup other = s.byPath.lookup other := by
  have hbeq : (other == dotted) = false := by simpa using hne
  simp [Session.register, List.lookup_cons, hbeq]

/-- The innermost module in progress is registered, once all it imports is. -/
theorem register {t : Session γ} {tree : SyntaxTree} (h : DepthFirst store s)
    (ht : DepthFirst store t) (hprogress : t.inProgress = dotted :: s.inProgress)
    (hnew : dotted ∉ s.inProgress) (htree : store.modules.lookup dotted = some tree)
    (himports : ∀ path ∈ tree.importPaths, ∃ id, t.byPath.lookup (".".intercalate path) = some id)
    (exports : Exports) :
    DepthFirst store (({ t with inProgress := s.inProgress }).register dotted exports).2 := by
  have hleft := h.leave ht hprogress
  have hfree : t.byPath.lookup dotted = none := ht.unfinished dotted (by simp [hprogress])
  have hkeeps : ∀ {other id}, t.byPath.lookup other = some id →
      (({ t with inProgress := s.inProgress }).register dotted exports).2.byPath.lookup other =
        some id := by
    intro other id hid
    rw [lookup_register _ exports]
    · exact hid
    · rintro rfl
      simp [hfree] at hid
  refine ⟨?_, ?_, fun other id hid => ?_, fun other hmem => ?_, h.leads⟩
  · refine List.nodup_cons.mpr ⟨fun hmem => ?_, ht.paths⟩
    obtain ⟨entry, hentry, heq⟩ := List.mem_map.mp hmem
    simpa [heq] using List.lookup_eq_none_iff.mp hfree entry hentry
  · simp [Session.register, ht.ids, List.range_succ]
  · by_cases hother : other = dotted
    · subst hother
      have hlast : id = t.modules.length := by
        simpa [Session.register, List.lookup_cons] using hid.symm
      refine ⟨tree, htree, fun path hpath => ?_⟩
      obtain ⟨id', hid'⟩ := himports path hpath
      exact ⟨id', hlast ▸ ht.id_lt hid', hkeeps hid'⟩
    · rw [lookup_register hother exports] at hid
      obtain ⟨tree', htree', himports'⟩ := ht.imports other id hid
      refine ⟨tree', htree', fun path hpath => ?_⟩
      obtain ⟨id', hlt, hid'⟩ := himports' path hpath
      exact ⟨id', hlt, hkeeps hid'⟩
  · have hother : other ≠ dotted := fun heq => hnew (heq ▸ hmem)
    rw [lookup_register hother exports]
    exact hleft.unfinished other hmem

end DepthFirst

/-! ## Compiling keeps the registry -/

/-- Generating into an output that is `good` leaves a good one, and a failure is no import cycle. -/
def CyclesUnreported (backend : Backend γ) (good : γ → Prop) : Prop :=
  ∀ tree pool typed output, good output →
    match backend.generate tree pool typed output with
    | .ok _ after => good after
    | .error h after => good after ∧ h.NoCycle

/-- Steps of a session while the given imports are in progress: the registry only grows, and a cycle
is reported only where there is one. -/
def importing (store : ModuleStore) (good : γ → Prop) (inProgress : List String) :
    Discipline Halt (Session γ) where
  inv s := DepthFirst store s ∧ good s.output ∧ s.inProgress = inProgress
  le s t := ∀ dotted id, s.byPath.lookup dotted = some id → t.byPath.lookup dotted = some id
  fails _ h t := (DepthFirst store t ∧ good t.output ∧ t.inProgress = inProgress) ∧
    ∀ dotted, h = .error (.importCycle dotted) → TransGen store.Imports dotted dotted
  refl _ _ _ h := h
  trans h h' dotted id hid := h' dotted id (h dotted id hid)
  fails_trans _ h := h

/-- What the innermost module in progress may ask for. -/
def Asked (store : ModuleStore) (inProgress : List String) (path : List String) : Prop :=
  ∀ inner ∈ inProgress.head?, store.Imports inner (".".intercalate path)

/-- The module at the path is registered. -/
def Registered (path : List String) (s : Session γ) : Prop :=
  ∃ id, s.byPath.lookup (".".intercalate path) = some id

section Units

variable {good : γ → Prop} {fuel : Nat} {inProgress : List String} {p : Pool} {N : TypeId → Prop}
  {session : Session γ}

/-- The registry does not depend on the output. -/
theorem DepthFirst.setOutput {s : Session γ} (h : DepthFirst store s) (output : γ) :
    DepthFirst store { s with output } :=
  ⟨h.paths, h.ids, h.imports, h.unfinished, h.leads⟩

/-- Compiling one unit registers all it imports. -/
theorem compileWith_importing (hbackend : CyclesUnreported backend good)
    (hobeys : (importerWithin backend store fuel).Obeys (importing store good inProgress)
      (Asked store inProgress) Registered) (hT : p.Territory N)
    (hfits : (importerWithin backend store fuel).ExportsFit p N session) {tree : SyntaxTree}
    (htree : ∀ inner ∈ inProgress.head?, store.modules.lookup inner = some tree)
    (hinv : (importing store good inProgress).inv session) :
    ((importing store good inProgress).comap Prod.snd).KeepsAt (p, session)
      (compileWith backend (importerWithin backend store fuel) tree)
      fun _ after => ∀ path ∈ tree.importPaths, Registered path after.2 := by
  have hcalc := Typing.calculate_obeys { tree, importer := importerWithin backend store fuel } hT
    (importerWithin_lawful backend store fuel) hobeys
    (fun imports h hinv hcycle => ⟨hinv, fun dotted heq => absurd heq (hcycle dotted)⟩)
    (fun path s t _ hle _ ⟨id, hid⟩ => ⟨id, hle _ _ hid⟩)
    (fun path hpath inner hinner => ⟨tree, htree inner hinner, path, hpath, rfl⟩) hfits hinv
  refine compileWith_keeps hcalc (fun typed t output hrun hinv' hgen => ?_)
    fun typed t h output hrun hinv' hgen => ?_
  · have hgenerate := hbackend tree t.pool typed t.imports.output hinv'.2.1
    rw [hgen] at hgenerate
    exact ⟨⟨hinv'.1.setOutput output, hgenerate, hinv'.2.2⟩, fun _ _ hid => hid,
      (hcalc.ok hrun).2.2.2.2⟩
  · have hgenerate := hbackend tree t.pool typed t.imports.output hinv'.2.1
    rw [hgen] at hgenerate
    exact ⟨⟨hinv'.1.setOutput output, hgenerate.1, hinv'.2.2⟩,
      fun dotted heq => absurd heq (hgenerate.2 dotted)⟩

/-- A module that was neither compiled nor begun is compiled, and registered if that succeeds. -/
theorem compileNew_importing (hbackend : CyclesUnreported backend good) {path : List String}
    (hobeys : (importerWithin backend store fuel).Obeys
      (importing store good (".".intercalate path :: session.inProgress))
      (Asked store (".".intercalate path :: session.inProgress)) Registered) (hT : p.Territory N)
    (hfits : ∀ id e, session.exports? id = some e → e.Fits p N) (hdepth : DepthFirst store session)
    (hgood : good session.output) (hasked : Asked store session.inProgress path)
    (hknown : session.byPath.lookup (".".intercalate path) = none)
    (hnew : ".".intercalate path ∉ session.inProgress) {tree : SyntaxTree}
    (htree : store.modules.lookup (".".intercalate path) = some tree) :
    match compileWith backend (importerWithin backend store fuel) tree
        (p, { session with inProgress := ".".intercalate path :: session.inProgress }) with
    | .error h after => (importing store good session.inProgress).fails session h
        { after.2 with inProgress := session.inProgress }
    | .ok typed after =>
        let final := ({ after.2 with inProgress := session.inProgress }.register
          (".".intercalate path) typed.exports).2
        (importing store good session.inProgress).inv final ∧
          (importing store good session.inProgress).le session final ∧ Registered path final := by
  have hfits' : (importerWithin backend store fuel).ExportsFit p N
      { session with inProgress := ".".intercalate path :: session.inProgress } := by
    intro id e he
    rw [importerWithin_exports] at he
    exact hfits id e he
  have htop : ∀ inner ∈ (".".intercalate path :: session.inProgress).head?,
      store.modules.lookup inner = some tree := by
    rintro inner ⟨⟩
    exact htree
  have hnested := compileWith_importing hbackend hobeys hT hfits' htop
    ⟨hdepth.begin_ hknown hasked, hgood, rfl⟩
  cases hrun : compileWith backend (importerWithin backend store fuel) tree
      (p, { session with inProgress := ".".intercalate path :: session.inProgress }) with
  | error h after =>
      obtain ⟨⟨hdepth', hgood', hprogress⟩, hcycle⟩ := hnested.error hrun
      exact ⟨⟨hdepth.leave hdepth' hprogress, hgood', rfl⟩, hcycle⟩
  | ok typed after =>
      obtain ⟨⟨hdepth', hgood', hprogress⟩, hle, hall⟩ := hnested.ok hrun
      refine ⟨⟨hdepth.register hdepth' hprogress hnew htree hall typed.exports, hgood', rfl⟩,
        fun dotted id hid => ?_, after.2.modules.length, by simp [Session.register]⟩
      have hother : dotted ≠ ".".intercalate path := by
        rintro rfl
        simp [hknown] at hid
      rw [DepthFirst.lookup_register hother]
      exact hle dotted id hid

/-- The importer of a session compiles depth first, however deep imports nest. -/
theorem importerWithin_importing (hbackend : CyclesUnreported backend good) (fuel : Nat)
    (inProgress : List String) :
    (importerWithin backend store fuel).Obeys (importing store good inProgress)
      (Asked store inProgress) Registered := by
  induction fuel generalizing inProgress with
  | zero => exact fun _ _ _ _ _ _ _ hinv => ⟨hinv, fun _ h => by cases h⟩
  | succ fuel ih =>
      rintro path p session N hasked hT hfits ⟨hdepth, hgood, rfl⟩
      rw [Importer.ExportsFit, importerWithin_exports] at hfits
      unfold Discipline.KeepsAt
      rw [resolve_eq]
      cases hknown : session.byPath.lookup (".".intercalate path) with
      | some id => exact ⟨⟨hdepth, hgood, rfl⟩, fun _ _ h => h, id, hknown⟩
      | none =>
          by_cases hmem : ".".intercalate path ∈ session.inProgress
          · simp only [hmem, if_true]
            refine ⟨⟨hdepth, hgood, rfl⟩, fun dotted heq => ?_⟩
            cases heq
            exact hdepth.cyclic_of_mem hmem hasked
          · simp only [hmem, if_false]
            cases hload : store.load path with
            | error e =>
                refine ⟨⟨hdepth, hgood, rfl⟩, fun dotted heq => ?_⟩
                cases heq
                unfold ModuleStore.load at hload
                dsimp only at hload
                split at hload <;> cases hload
            | ok tree =>
                have hnew := compileNew_importing hbackend (ih _) hT hfits hdepth hgood hasked
                  hknown hmem (ModuleStore.lookup_of_load hload)
                simp only
                cases hrun : compileWith backend (importerWithin backend store fuel) tree
                    (p, { session with
                      inProgress := ".".intercalate path :: session.inProgress }) with
                | error h after =>
                    rw [hrun] at hnew
                    exact hnew
                | ok typed after =>
                    rw [hrun] at hnew
                    exact hnew

end Units

/-! ## Sessions that generate code -/

/-- Generating code reports no import cycle. -/
theorem code_cyclesUnreported : CyclesUnreported Backend.code fun output => output.builder.Sane := by
  intro tree pool typed output hsane
  have hgenerate : (flowing { tree, pool, typed } False _ none).KeepsAt output
      (Emit.generate { tree, pool, typed }) fun _ _ => True :=
    Emit.generate_keeps False.elim hsane
  cases hrun : Backend.code.generate tree pool typed output with
  | ok _ after => exact (hgenerate.ok hrun).1
  | error h after => exact hgenerate.error hrun

/-- The discipline of a session that generates code, between units. -/
abbrev betweenUnits (store : ModuleStore) : Discipline Halt (Session Output) :=
  importing store (fun output => output.builder.Sane) []

/-- A unit given to a session registers all it imports. -/
theorem compileUnit_importing {s : Pool × Session Output} (hsound : Sound s)
    (hinv : (betweenUnits store).inv s.2) (tree : SyntaxTree) :
    ((betweenUnits store).comap Prod.snd).KeepsAt s (compileUnit Backend.code store tree)
      fun _ after => ∀ path ∈ tree.importPaths, Registered path after.2 := by
  have htop : ∀ inner ∈ ([] : List String).head?, store.modules.lookup inner = some tree := by simp
  exact compileWith_importing code_cyclesUnreported
    (importerWithin_importing code_cyclesUnreported (store.size + 1) []) hsound.pool.territory
    hsound.exportsFit htop hinv

theorem Coding.betweenUnits {s : Pool × Session Output} (h : Coding store s) :
    (betweenUnits store).inv s.2 := by
  induction h with
  | start hstart =>
      obtain ⟨name, rfl⟩ := hstart
      refine ⟨⟨.nil, rfl, fun dotted id hid => ?_, ?_, ?_⟩, Output.ofName_sane name, rfl⟩
      · cases hid
      · simp
      · simp
  | @next s tree hs _ ih =>
      have hafter := compileUnit_importing hs.sound ih tree
      cases hrun : compileUnit Backend.code store tree s with
      | ok typed after => exact (hafter.ok hrun).1
      | error h after => exact (hafter.error hrun).1

end Session

end ClassLang
