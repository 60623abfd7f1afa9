import Mathlib.Data.List.Basic
import ClassLang.Typing.Arguments

/-!
# What ordering the arguments of a call does

Placing arguments one after the other only moves them around: every argument that ends up on a
parameter or among the further ones was written in the call. Where it ends up does not depend on the
values of the arguments, so two passes that order different things alike agree on it.
-/

namespace ClassLang

variable {α : Type} {sig : Signature} {P : α → Prop}

/-- All arguments placed so far satisfy `P`. -/
structure Placement.All (P : α → Prop) (placed : Placement α) : Prop where
  slots : ∀ a, some a ∈ placed.slots → P a
  extra : ∀ a ∈ placed.extra, P a

namespace Placement.All

variable {placed placed' : Placement α}

/-- What holds of the slots holds after one of them was filled. -/
theorem set_slot (h : placed.All P) {a : α} (ha : P a) (i : Nat) :
    ∀ b, some b ∈ placed.slots.set i (some a) → P b := by
  intro b hb
  rcases List.mem_or_eq_of_mem_set hb with hb | hb
  · exact h.slots b hb
  · cases hb
    exact ha

/-- Placing one more argument. -/
theorem place (h : placed.All P) {arg : Option String × α} (ha : P arg.2)
    (hplace : placed.place sig arg = .ok placed') : placed'.All P := by
  obtain ⟨label, a⟩ := arg
  cases label with
  | none =>
      simp only [Placement.place] at hplace
      split at hplace
      · cases hplace
      · split at hplace <;> cases hplace
        · exact ⟨h.set_slot ha _, h.extra⟩
        · refine ⟨h.slots, fun b hb => ?_⟩
          rw [List.mem_append, List.mem_singleton] at hb
          rcases hb with hb | rfl
          · exact h.extra b hb
          · exact ha
  | some name =>
      simp only [Placement.place] at hplace
      split at hplace
      · cases hplace
      · split at hplace <;> cases hplace
        exact ⟨h.set_slot ha _, h.extra⟩

/-- Placing a list of arguments. -/
theorem foldlM {args : List (Option String × α)} (h : placed.All P) (hargs : ∀ arg ∈ args, P arg.2)
    (hplaced : args.foldlM (Placement.place sig) placed = .ok placed') : placed'.All P := by
  induction args generalizing placed with
  | nil =>
      cases hplaced
      exact h
  | cons arg args ih =>
      rw [List.foldlM_cons] at hplaced
      cases hplace : placed.place sig arg with
      | error e =>
          rw [hplace] at hplaced
          cases hplaced
      | ok next =>
          rw [hplace] at hplaced
          exact ih (h.place (hargs arg (by simp)) hplace)
            (fun a ha => hargs a (List.mem_cons_of_mem arg ha)) hplaced

end Placement.All

/-- What is read off full slots stood in them. -/
theorem mem_of_mapM_id {slots : List (Option α)} {fixed : List α} (h : slots.mapM id = some fixed) :
    ∀ a ∈ fixed, some a ∈ slots := by
  induction slots generalizing fixed with
  | nil =>
      cases h
      simp
  | cons slot slots ih =>
      rw [List.mapM_cons] at h
      obtain ⟨a, ha, h⟩ := Option.bind_eq_some_iff.1 h
      obtain ⟨rest, hrest, h⟩ := Option.bind_eq_some_iff.1 h
      cases h
      intro b hb
      rw [List.mem_cons] at hb
      rcases hb with rfl | hb
      · exact List.mem_cons.2 (.inl ha.symm)
      · exact List.mem_cons_of_mem _ (ih hrest b hb)

/-- Ordered arguments were written in the call. -/
theorem orderArguments_all {args : List (Option String × α)} {ordered : OrderedArgs α}
    (hargs : ∀ arg ∈ args, P arg.2) (h : orderArguments sig args = .ok ordered) :
    (∀ a ∈ ordered.fixed, P a) ∧ ∀ a ∈ ordered.extra, P a := by
  unfold orderArguments at h
  dsimp only at h
  split at h
  · cases h
  · split at h
    · cases h
    · next placed hplaced =>
        split at h
        · next fixed hfixed =>
            cases h
            have hall : placed.All P := by
              refine Placement.All.foldlM ⟨fun a ha => ?_, by simp⟩ hargs hplaced
              rw [List.mem_replicate] at ha
              cases ha.2
            exact ⟨fun a ha => hall.slots a (mem_of_mapM_id hfixed a ha), hall.extra⟩
        · cases h

/-- Only a wrong call stops the ordering of arguments. -/
theorem orderArguments_error {args : List (Option String × α)} {e : CompileError}
    (h : orderArguments sig args = .error e) :
    (∃ needed given, e = .missingArguments sig.name needed given) ∨ ∃ text, e = .badCall text := by
  have hplace : ∀ (placed : Placement α) (arg : Option String × α) (e : CompileError),
      placed.place sig arg = .error e → ∃ text, e = .badCall text := by
    rintro placed ⟨label, a⟩ e he
    unfold Placement.place at he
    split at he
    · split at he
      · cases he
        exact ⟨_, rfl⟩
      · split at he <;> cases he
    · split at he
      · cases he
        exact ⟨_, rfl⟩
      · split at he <;> cases he
        exact ⟨_, rfl⟩
  have hfold : ∀ (args : List (Option String × α)) (placed : Placement α) (e : CompileError),
      args.foldlM (Placement.place sig) placed = .error e → ∃ text, e = .badCall text := by
    intro args
    induction args with
    | nil => exact fun _ _ he => by cases he
    | cons arg args ih =>
        intro placed e he
        rw [List.foldlM_cons] at he
        cases hnext : placed.place sig arg with
        | error e' =>
            rw [hnext] at he
            cases he
            exact hplace placed arg _ hnext
        | ok next =>
            rw [hnext] at he
            exact ih next e he
  unfold orderArguments at h
  dsimp only at h
  split at h
  · cases h
    exact .inl ⟨_, _, rfl⟩
  · split at h
    · next e' he' =>
        cases h
        exact .inr (hfold _ _ _ he')
    · split at h <;> cases h
      exact .inl ⟨_, _, rfl⟩

/-! ## Other values

Placing looks at the names of arguments and at which parameters have one, never at a value. -/

variable {β : Type}

/-- `f` applied to every argument. -/
def OrderedArgs.map (f : α → β) (ordered : OrderedArgs α) : OrderedArgs β where
  fixed := ordered.fixed.map f
  extra := ordered.extra.map f

/-- `f` applied to every argument that was placed. -/
def Placement.map (f : α → β) (placed : Placement α) : Placement β where
  slots := placed.slots.map (Option.map f)
  extra := placed.extra.map f
  position := placed.position
  seenNamed := placed.seenNamed

namespace Placement

theorem place_map (f : α → β) (sig : Signature) (placed : Placement α)
    (arg : Option String × α) :
    (placed.map f).place sig (arg.1, f arg.2) = (placed.place sig arg).map (Placement.map f) := by
  obtain ⟨label, a⟩ := arg
  cases label with
  | none =>
      simp only [place, map, List.length_map]
      split
      · rfl
      · split
        · simp [Except.map, map, List.map_set]
        · simp [Except.map, map]
  | some name =>
      have hfilled (i : Nat) : ((placed.slots.map (Option.map f)).getD i none).isSome =
          (placed.slots.getD i none).isSome := by
        simp only [List.getD_eq_getElem?_getD, List.getElem?_map]
        cases placed.slots[i]? <;> simp
      simp only [place, map, hfilled]
      split
      · rfl
      · split
        · rfl
        · simp [Except.map, map, List.map_set]

theorem foldlM_place_map (f : α → β) (sig : Signature) (args : List (Option String × α))
    (placed : Placement α) :
    (args.map fun arg => (arg.1, f arg.2)).foldlM (place sig) (placed.map f) =
      (args.foldlM (place sig) placed).map (Placement.map f) := by
  induction args generalizing placed with
  | nil => rfl
  | cons arg args ih =>
      rw [List.map_cons, List.foldlM_cons, List.foldlM_cons, place_map]
      cases placed.place sig arg with
      | error e => rfl
      | ok next => exact ih next

end Placement

/-- Full slots are read off alike. -/
theorem mapM_id_map (f : α → β) (slots : List (Option α)) :
    (slots.map (Option.map f)).mapM id = (slots.mapM id).map (List.map f) := by
  induction slots with
  | nil => rfl
  | cons slot slots ih =>
      rw [List.map_cons, List.mapM_cons, List.mapM_cons, ih]
      cases slot with
      | none => rfl
      | some a => cases slots.mapM id <;> rfl

/-- Where arguments end up does not depend on their values: ordering them with `f` applied to every
value gives the same error, or `f` applied to every ordered argument. -/
theorem orderArguments_map (f : α → β) (sig : Signature) (args : List (Option String × α)) :
    orderArguments sig (args.map fun arg => (arg.1, f arg.2)) =
      (orderArguments sig args).map (OrderedArgs.map f) := by
  have hempty : ({ slots := List.replicate sig.arity none } : Placement β) =
      Placement.map f { slots := List.replicate sig.arity none } := by
    simp [Placement.map]
  unfold orderArguments
  simp only [List.length_map]
  rw [hempty, Placement.foldlM_place_map]
  split
  · rfl
  · cases args.foldlM (Placement.place sig) { slots := List.replicate sig.arity none } with
    | error e => rfl
    | ok placed =>
        simp only [Except.map, Placement.map, mapM_id_map]
        cases placed.slots.mapM id <;> rfl

end ClassLang
