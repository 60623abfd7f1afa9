import ClassLang.Proofs.Session.RuntimeTypes
import ClassLang.Proofs.Typing.MemoizedModules

/-!
# Sessions make each expansion once

Wherever the compilation of a unit begins in a session, be it of a unit or of something it imports,
typing the unit makes each expansion of a generic type once. An expansion is found again from the
moment it is registered, and when typing succeeds its member bodies were walked exactly once, under a
walk of its own.
-/

namespace ClassLang

namespace Session

variable {γ : Type} {backend : Backend γ} {store : ModuleStore} {fuel : Nat} {tree : SyntaxTree}
  {s : Pool × Session γ}

/-- Generic types are expanded once. Typing a unit leads from the memory at its beginning to the one
at its end, whether it succeeds or fails, by changes of the pool and the templates after each of
which the following holds, as it does at the beginning: every expansion has one type argument, no
two expansions of a template have equal arguments, and asking for an expansion with arguments equal
to those of one that is there gives its type and changes nothing. If typing succeeds, then each
expansion was walked exactly once, under a walk of its own, also those that were made while the
queue was worked off. -/
theorem calculate_expands_once (h : Begins backend store fuel tree s) :
    let ctx : TypingContext (Session γ) := { tree, importer := importerWithin backend store fuel }
    let start : TypingState (Session γ) := { pool := s.1, imports := s.2 }
    Typing.Memoized ctx start.memory ∧
      Typing.Remembers ctx start.memory (finalState (Typing.calculate ctx start)).memory ∧
      ∀ typed t, Typing.calculate ctx start = .ok typed t →
        typed.templates = t.templates ∧
          ∃ u walked, Typing.typeStatements ctx start = .ok () u ∧
            Typing.WalkedOnce ctx walked u t := by
  intro ctx start
  have hbegin : Typing.Unexpanded start := .initial h.sound.pool.initial_evolves
    h.sound.pool.indexed s.2
  have hkeeps := Typing.calculate_memoized h.sound.pool.territory
    (importerWithin_lawful backend store fuel) (h.sound.confined backend store fuel tree) hbegin
  refine ⟨hbegin.catalogued.memoized ctx, ?_, fun typed t hrun => ?_⟩
  · cases hrun : Typing.calculate ctx start with
    | ok typed t => exact (hkeeps.ok hrun).2.1
    | error e t => exact hkeeps.error hrun
  · obtain ⟨-, -, rfl, hwalked⟩ := hkeeps.ok hrun
    exact ⟨rfl, hwalked⟩

/-- A unit with generic classes `Node`, which mentions itself, and `Box`, of which a method makes a
node; `main` makes two boxes of integers. -/
def genericBoxUnit : SyntaxTree :=
  .ofStatements #[.namedType "T", .ivarDecl "value" 0, .templatedType "Node" [0], .pointerType 2,
    .ivarDecl "next" 3, .seq [1, 4], .classDef "Node" (some "T") 5, .namedType "T",
    .templatedInstance "Node" [7] [], .methodDef "fill" [] none 8, .seq [9],
    .classDef "Box" (some "T") 10, .namedType "Integer", .templatedInstance "Box" [12] [],
    .namedType "Integer", .templatedInstance "Box" [14] [], .seq [13, 15],
    .methodDef "main" [] none 16] [6, 11, 17]

/-- What `genericBoxUnit` is typed with. -/
def genericBoxContext : TypingContext (Session Unit) where
  tree := genericBoxUnit
  importer := importerWithin Backend.typesOnly {} 1

/-- A new session in which `genericBoxUnit` is typed. -/
def genericBoxStart : TypingState (Session Unit) :=
  { pool := Pool.initial, imports := { output := () } }

/-- The two boxes are one expansion. The node is made only when the queue is worked off, and it is
walked, too. -/
theorem calculate_expands_once_boxes :
    ∃ (u t : TypingState (Session Unit)) (walked : List Typing.Walked),
      Typing.typeStatements genericBoxContext genericBoxStart = .ok () u ∧ u.pending = [(1, 0)] ∧
      expansionAt? u.templates 0 0 = none ∧ Typing.WalkedOnce genericBoxContext walked u t ∧
      ⟨1, 0, { args := [.integer], type := 8, walk := 1 }⟩ ∈ walked ∧
      ⟨0, 0, { args := [.integer], type := 9, walk := 2 }⟩ ∈ walked := by
  have hbefore : okWith (fun _ u => (u.pending, expansionAt? u.templates 0 0))
      (Typing.typeStatements genericBoxContext genericBoxStart) = some ([(1, 0)], none) := by decide +kernel
  have hafter : okWith (fun _ t => (expansionAt? t.templates 1 0, expansionAt? t.templates 0 0))
      (Typing.calculate genericBoxContext genericBoxStart) =
        some (some (11, { args := [.integer], type := 8, walk := 1 }),
          some (6, { args := [.integer], type := 9, walk := 2 })) := by decide +kernel
  obtain ⟨typed, t, hrun, hexpansions⟩ := exists_of_okWith hafter
  obtain ⟨_, u, hu, hqueue⟩ := exists_of_okWith hbefore
  have hbegins : Begins Backend.typesOnly {} 1 genericBoxUnit (Pool.initial, { output := () }) :=
    .unit (.start ()) genericBoxUnit
  obtain ⟨-, u', walked, hu', hwalked⟩ := (calculate_expands_once hbegins).2.2 typed t hrun
  cases hu.symm.trans hu'
  simp only [Prod.mk.injEq] at hexpansions hqueue
  exact ⟨u, t, walked, hu, hqueue.1, hqueue.2, hwalked, (hwalked.mem_iff _).mpr ⟨_, hexpansions.1⟩,
    (hwalked.mem_iff _).mpr ⟨_, hexpansions.2⟩⟩

end Session

end ClassLang
