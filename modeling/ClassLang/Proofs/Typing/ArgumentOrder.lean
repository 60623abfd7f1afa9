import Mathlib.Data.List.ReduceOption
import ClassLang.Proofs.Typing.Arguments

/-!
# Ordering arguments loses and duplicates nothing

`orderArguments` fills one slot for each declared parameter. Positional arguments take the slots
from the left and then join the further arguments; a named argument takes the first slot that
carries its name. A slot is filled at most once, so that the slots and the further arguments hold
exactly what the call wrote. Named arguments fill different slots, so their order among
themselves does not matter.
-/

namespace ClassLang

variable {α : Type} {sig : Signature}

/-- The positional arguments among `args`, in the order of the call. -/
def positionals (args : List (Option String × α)) : List α :=
  (args.filter (·.1.isNone)).map (·.2)

/-- `args'` lists the arguments of `args` with the named ones in another order: arguments of the
same kinds stand at the same places, and the positional ones are where they were. -/
structure NamedReordered (args args' : List (Option String × α)) : Prop where
  perm : args.Perm args'
  kinds : args'.map (·.1.isSome) = args.map (·.1.isSome)
  positional : positionals args' = positionals args

/-- `ordered` holds every argument of a call to `sig` once, at the place it belongs to. -/
structure OrderedArgs.Arranges (sig : Signature) (args : List (Option String × α))
    (ordered : OrderedArgs α) : Prop where
  arity : ordered.fixed.length = sig.params.length
  perm : (ordered.fixed ++ ordered.extra).Perm (args.map (·.2))
  /-- The `i`-th positional argument is on the `i`-th parameter, if there is one. -/
  positional : ∀ i value, (positionals args)[i]? = some value →
    if i < sig.arity then ordered.fixed[i]? = some value
    else ordered.extra[i - sig.arity]? = some value
  /-- A named argument is on the first parameter that carries its name. -/
  named : ∀ name value, (some name, value) ∈ args →
    ∃ slot, sig.params.findIdx? (·.name == some name) = some slot ∧
      ordered.fixed[slot]? = some value
  extra : ordered.extra = [] ∨ sig.varargs = true

@[simp] theorem positionals_append (args args' : List (Option String × α)) :
    positionals (args ++ args') = positionals args ++ positionals args' := by
  simp [positionals]

@[simp] theorem positionals_positional (value : α) :
    positionals [(none, value)] = [value] := rfl

@[simp] theorem positionals_named (name : String) (value : α) :
    positionals [(some name, value)] = [] := rfl

/-! ### Slots -/

/-- Full slots hold the values they are full of. -/
theorem reduceOption_map_some (values : List α) : (values.map some).reduceOption = values := by
  rw [List.reduceOption, List.filterMap_map, Function.id_comp, List.filterMap_some]

/-- Filling an empty slot adds its value to what the slots hold. -/
theorem perm_reduceOption_set {slots : List (Option α)} {i : Nat} (h : slots[i]? = some none)
    (value : α) : (slots.set i (some value)).reduceOption.Perm (value :: slots.reduceOption) := by
  induction slots generalizing i with
  | nil => cases h
  | cons slot slots ih =>
      cases i with
      | zero =>
          cases (by simpa using h : slot = none)
          exact .refl _
      | succ i =>
          have hrest := ih (i := i) (by simpa using h)
          cases slot with
          | none => simpa using hrest
          | some other =>
              simp only [List.set_cons_succ, List.reduceOption_cons_of_some]
              exact (hrest.cons other).trans (.swap _ _ _)

/-- Slots that are all full hold the values that are read off them. -/
theorem eq_map_some_of_mapM_id {slots : List (Option α)} {fixed : List α}
    (h : slots.mapM id = some fixed) : slots = fixed.map some := by
  induction slots generalizing fixed with
  | nil =>
      cases h
      rfl
  | cons slot slots ih =>
      rw [List.mapM_cons] at h
      obtain ⟨value, hvalue, h⟩ := Option.bind_eq_some_iff.1 h
      obtain ⟨rest, hrest, h⟩ := Option.bind_eq_some_iff.1 h
      cases h
      rw [List.map_cons, ← ih hrest, ← show slot = some value from hvalue]

/-- What was read off full slots stands in the slot of its parameter. -/
theorem getElem?_of_mapM_id {slots : List (Option α)} {fixed : List α}
    (h : slots.mapM id = some fixed) {i : Nat} {value : α} (hi : slots[i]? = some (some value)) :
    fixed[i]? = some value := by
  rw [eq_map_some_of_mapM_id h, List.getElem?_map] at hi
  obtain ⟨other, hother, heq⟩ := Option.map_eq_some_iff.1 hi
  rw [hother, Option.some.inj heq]

namespace Placement

variable {placed placed' : Placement α} {arg : Option String × α}
variable {args done : List (Option String × α)}

/-- Placing arguments places the first of them and then the others. -/
theorem foldlM_cons_ok_iff : (arg :: args).foldlM (place sig) placed = .ok placed' ↔
    ∃ next, placed.place sig arg = .ok next ∧ args.foldlM (place sig) next = .ok placed' := by
  rw [List.foldlM_cons]
  cases hplace : placed.place sig arg with
  | error e =>
      constructor
      · intro h
        cases h
      · rintro ⟨_, h, _⟩
        cases h
  | ok next =>
      constructor
      · exact fun h => ⟨next, rfl, h⟩
      · rintro ⟨_, h, hrest⟩
        cases h
        exact hrest

/-- What placing the arguments `done` one after the other has come to. -/
structure Filled (sig : Signature) (done : List (Option String × α)) (placed : Placement α) :
    Prop where
  length : placed.slots.length = sig.arity
  perm : (placed.slots.reduceOption ++ placed.extra).Perm (done.map (·.2))
  position : placed.position = (positionals done).length
  extra : placed.extra.length = placed.position - sig.arity
  /-- Before the first named argument the slots fill from the left. -/
  rest : placed.seenNamed = false → ∀ i, placed.position ≤ i → i < sig.arity →
    placed.slots[i]? = some none
  positional : ∀ i value, (positionals done)[i]? = some value →
    if i < sig.arity then placed.slots[i]? = some (some value)
    else placed.extra[i - sig.arity]? = some value
  named : ∀ name value, (some name, value) ∈ done →
    ∃ slot, sig.params.findIdx? (·.name == some name) = some slot ∧
      placed.slots[slot]? = some (some value)

/-- Nothing is placed at first. -/
theorem Filled.start : Filled sig ([] : List (Option String × α))
    { slots := List.replicate sig.arity none } := by
  refine ⟨by simp, ?_, rfl, by simp, fun _ i _ hi => by simp [hi], fun i value h => ?_,
    fun name value h => by cases h⟩
  · simp [List.reduceOption_replicate_none]
  · simp [positionals] at h

/-- A positional argument fills the next slot, which is empty. -/
theorem Filled.fill (h : Filled sig done placed) (hseen : placed.seenNamed = false)
    (hlt : placed.position < sig.arity) (value : α) :
    Filled sig (done ++ [(none, value)])
      { placed with
        slots := placed.slots.set placed.position (some value), position := placed.position + 1 } := by
  have hempty := h.rest hseen placed.position (Nat.le_refl _) hlt
  refine ⟨by simp [h.length], ?_, by simp [h.position], ?_, ?_, ?_, ?_⟩
  · have hstep := (perm_reduceOption_set hempty value).append_right placed.extra
    simp only [List.map_append, List.map_cons, List.map_nil]
    exact hstep.trans ((h.perm.cons value).trans (List.perm_append_singleton value _).symm)
  · simp only [h.extra]
    omega
  · intro _ i hi hlt'
    simp only at hi
    rw [List.getElem?_set_ne (by omega)]
    exact h.rest hseen i (by omega) hlt'
  · intro i other hi
    rw [positionals_append, positionals_positional, List.getElem?_append] at hi
    split at hi
    · next hold =>
        rw [← h.position] at hold
        have hprev := h.positional i other hi
        rw [if_pos (by omega)] at hprev ⊢
        rwa [List.getElem?_set_ne (by omega)]
    · next hnew =>
        rw [← h.position] at hnew hi
        obtain ⟨hzero, rfl⟩ : i - placed.position = 0 ∧ value = other := by
          rw [List.getElem?_singleton] at hi
          split at hi
          · exact ⟨‹_›, Option.some.inj hi⟩
          · cases hi
        rw [if_pos (by omega), show i = placed.position by omega,
          List.getElem?_set_self (by rwa [h.length])]
  · intro name other hmem
    obtain ⟨slot, hslot, hfull⟩ := h.named name other (by simpa using hmem)
    refine ⟨slot, hslot, ?_⟩
    rwa [List.getElem?_set_ne]
    rintro rfl
    rw [hempty] at hfull
    cases hfull

/-- A positional argument beyond the parameters is the next of the further ones. -/
theorem Filled.overflow (h : Filled sig done placed) (hge : ¬ placed.position < sig.arity)
    (value : α) :
    Filled sig (done ++ [(none, value)])
      { placed with extra := placed.extra ++ [value], position := placed.position + 1 } := by
  refine ⟨h.length, ?_, by simp [h.position], ?_, ?_, ?_, ?_⟩
  · simp only [List.map_append, List.map_cons, List.map_nil, ← List.append_assoc]
    exact h.perm.append_right [value]
  · simp only [List.length_append, List.length_singleton, h.extra]
    omega
  · intro _ i hi hlt
    simp only at hi
    omega
  · intro i other hi
    rw [positionals_append, positionals_positional, List.getElem?_append] at hi
    split at hi
    · next hold =>
        have hprev := h.positional i other hi
        split
        · rwa [if_pos ‹_›] at hprev
        · rw [if_neg ‹_›] at hprev
          rw [List.getElem?_append_left (List.getElem?_eq_some_iff.1 hprev).1]
          exact hprev
    · next hnew =>
        rw [← h.position] at hnew hi
        rw [if_neg (by omega), List.getElem?_append_right (by rw [h.extra]; omega), h.extra,
          show i - sig.arity - (placed.position - sig.arity) = i - placed.position by omega]
        exact hi
  · intro name other hmem
    exact h.named name other (by simpa using hmem)

/-- The slot a named argument takes is empty. -/
theorem Filled.fillNamed (h : Filled sig done placed) {name : String} {value : α}
    (hplace : placed.place sig (some name, value) = .ok placed') :
    Filled sig (done ++ [(some name, value)]) placed' := by
  simp only [place] at hplace
  split at hplace
  · cases hplace
  next slot hslot =>
  split at hplace <;> cases hplace
  next hfree =>
  have hlt : slot < placed.slots.length := by
    rw [h.length]
    exact (List.findIdx?_eq_some_iff_getElem.1 hslot).1
  have hempty : placed.slots[slot]? = some none := by
    rw [List.getD_eq_getElem?_getD, List.getElem?_eq_getElem hlt] at hfree
    rw [List.getElem?_eq_getElem hlt]
    simpa using hfree
  have hkept : ∀ {i : Nat} {other : α}, placed.slots[i]? = some (some other) →
      (placed.slots.set slot (some value))[i]? = some (some other) := by
    intro i other hi
    rwa [List.getElem?_set_ne]
    rintro rfl
    rw [hempty] at hi
    cases hi
  refine ⟨by simp [h.length], ?_, by simp [h.position], h.extra, ?_, ?_, ?_⟩
  · have hstep := (perm_reduceOption_set hempty value).append_right placed.extra
    simp only [List.map_append, List.map_cons, List.map_nil]
    exact hstep.trans ((h.perm.cons value).trans (List.perm_append_singleton value _).symm)
  · intro hseen
    cases hseen
  · intro i other hi
    have hprev := h.positional i other (by simpa using hi)
    split
    · rw [if_pos ‹_›] at hprev
      exact hkept hprev
    · rwa [if_neg ‹_›] at hprev
  · intro name' other hmem
    rw [List.mem_append, List.mem_singleton] at hmem
    rcases hmem with hmem | hmem
    · obtain ⟨slot', hslot', hfull⟩ := h.named name' other hmem
      exact ⟨slot', hslot', hkept hfull⟩
    · cases hmem
      exact ⟨slot, hslot, by simp [hlt]⟩

/-- Placing one more argument. -/
theorem Filled.place (h : Filled sig done placed) (hplace : placed.place sig arg = .ok placed') :
    Filled sig (done ++ [arg]) placed' := by
  obtain ⟨label, value⟩ := arg
  cases label with
  | none =>
      simp only [Placement.place, h.length] at hplace
      split at hplace
      · cases hplace
      next hseen =>
      split at hplace <;> cases hplace
      · exact h.fill (Bool.eq_false_iff.2 hseen) ‹_› value
      · exact h.overflow ‹_› value
  | some name => exact h.fillNamed hplace

/-- Placing a list of arguments. -/
theorem Filled.foldlM (h : Filled sig done placed)
    (hplaced : args.foldlM (Placement.place sig) placed = .ok placed') :
    Filled sig (done ++ args) placed' := by
  induction args generalizing done placed with
  | nil =>
      cases hplaced
      simpa using h
  | cons arg args ih =>
      obtain ⟨next, hplace, hrest⟩ := foldlM_cons_ok_iff.1 hplaced
      simpa using ih (h.place hplace) hrest

/-! ### Named arguments in another order -/

/-- Placing a named argument leaves its slot full. -/
theorem place_named_iff {name : String} {value : α} :
    placed.place sig (some name, value) = .ok placed' ↔
      ∃ slot, sig.params.findIdx? (·.name == some name) = some slot ∧
        (placed.slots.getD slot none).isSome = false ∧
        placed' = { placed with slots := placed.slots.set slot (some value), seenNamed := true } := by
  simp only [place]
  constructor
  · intro h
    split at h
    · cases h
    next slot hslot =>
    split at h <;> cases h
    next hfull => exact ⟨slot, hslot, Bool.eq_false_iff.2 hfull, rfl⟩
  · rintro ⟨slot, hslot, hfree, rfl⟩
    simp only [hslot, hfree, Bool.false_eq_true, if_false]

/-- A slot that takes no part in filling another one is as empty as before. -/
theorem getD_set_ne {slots : List (Option α)} {i j : Nat} (h : i ≠ j) (value : Option α) :
    (slots.set i value).getD j none = slots.getD j none := by
  rw [List.getD_eq_getElem?_getD, List.getElem?_set_ne h, ← List.getD_eq_getElem?_getD]

/-- Two named arguments that could be placed one after the other fill different slots. -/
theorem place_named_comm {name name' : String} {value value' : α} {middle : Placement α}
    (h : placed.place sig (some name, value) = .ok middle)
    (h' : middle.place sig (some name', value') = .ok placed')
    (hlength : placed.slots.length = sig.arity) :
    ∃ middle', placed.place sig (some name', value') = .ok middle' ∧
      middle'.place sig (some name, value) = .ok placed' := by
  obtain ⟨slot, hslot, hfree, rfl⟩ := place_named_iff.1 h
  obtain ⟨slot', hslot', hfree', rfl⟩ := place_named_iff.1 h'
  have hlt : slot < placed.slots.length := by
    rw [hlength]
    exact (List.findIdx?_eq_some_iff_getElem.1 hslot).1
  have hne : slot ≠ slot' := by
    rintro rfl
    simp [hlt] at hfree'
  rw [getD_set_ne hne] at hfree'
  refine ⟨_, place_named_iff.2 ⟨slot', hslot', hfree', rfl⟩,
    place_named_iff.2 ⟨slot, hslot, ?_, ?_⟩⟩
  · rw [getD_set_ne (Ne.symm hne)]
    exact hfree
  · simp [List.set_comm _ _ hne]

/-- Placing an argument keeps the number of slots. -/
theorem place_length (h : placed.place sig arg = .ok placed') :
    placed'.slots.length = placed.slots.length := by
  obtain ⟨label, value⟩ := arg
  cases label with
  | none =>
      simp only [place] at h
      split at h
      · cases h
      · split at h <;> cases h
        · simp
        · rfl
  | some name =>
      obtain ⟨_, -, -, rfl⟩ := place_named_iff.1 h
      simp

/-- Named arguments in another order fill the same slots. -/
theorem foldlM_named_perm {args' : List (Option String × α)} (hperm : args.Perm args')
    (hnamed : ∀ arg ∈ args, arg.1.isSome) (hlength : placed.slots.length = sig.arity)
    (h : args.foldlM (place sig) placed = .ok placed') :
    args'.foldlM (place sig) placed = .ok placed' := by
  induction hperm generalizing placed with
  | nil => exact h
  | cons arg _ ih =>
      obtain ⟨next, hplace, hrest⟩ := foldlM_cons_ok_iff.1 h
      exact foldlM_cons_ok_iff.2 ⟨next, hplace,
        ih (fun a ha => hnamed a (List.mem_cons_of_mem arg ha))
          ((place_length hplace).trans hlength) hrest⟩
  | swap arg arg' args =>
      obtain ⟨label, value⟩ := arg
      obtain ⟨label', value'⟩ := arg'
      obtain ⟨name, rfl⟩ := Option.isSome_iff_exists.1 (hnamed (label, value) (by simp))
      obtain ⟨name', rfl⟩ := Option.isSome_iff_exists.1 (hnamed (label', value') (by simp))
      obtain ⟨middle, hfirst, hrest⟩ := foldlM_cons_ok_iff.1 h
      obtain ⟨next, hsecond, hrest⟩ := foldlM_cons_ok_iff.1 hrest
      obtain ⟨middle', hfirst', hsecond'⟩ := place_named_comm hfirst hsecond hlength
      exact foldlM_cons_ok_iff.2 ⟨middle', hfirst',
        foldlM_cons_ok_iff.2 ⟨next, hsecond', hrest⟩⟩
  | trans hleft _ ih ih' =>
      exact ih' (fun a ha => hnamed a (hleft.mem_iff.2 ha)) hlength (ih hnamed hlength h)

/-- After a named argument no positional one can be placed. -/
theorem foldlM_seenNamed (hseen : placed.seenNamed = true)
    (h : args.foldlM (place sig) placed = .ok placed') : ∀ arg ∈ args, arg.1.isSome := by
  induction args generalizing placed with
  | nil => simp
  | cons arg args ih =>
      obtain ⟨next, hplace, hrest⟩ := foldlM_cons_ok_iff.1 h
      obtain ⟨label, value⟩ := arg
      cases label with
      | none => simp [place, hseen] at hplace
      | some name =>
          obtain ⟨_, -, -, rfl⟩ := place_named_iff.1 hplace
          intro arg harg
          rcases List.mem_cons.1 harg with rfl | harg
          · rfl
          · exact ih rfl hrest arg harg

/-- Arguments that can be placed are positional ones followed by named ones. -/
theorem foldlM_split (h : args.foldlM (place sig) placed = .ok placed') :
    ∃ front back, args = front ++ back ∧ (∀ arg ∈ front, arg.1.isSome = false) ∧
      ∀ arg ∈ back, arg.1.isSome := by
  induction args generalizing placed with
  | nil => exact ⟨[], [], rfl, by simp, by simp⟩
  | cons arg args ih =>
      obtain ⟨next, hplace, hrest⟩ := foldlM_cons_ok_iff.1 h
      obtain ⟨label, value⟩ := arg
      cases label with
      | none =>
          obtain ⟨front, back, rfl, hfront, hback⟩ := ih hrest
          exact ⟨(none, value) :: front, back, rfl, by simpa using hfront, hback⟩
      | some name =>
          obtain ⟨_, -, -, rfl⟩ := place_named_iff.1 hplace
          exact ⟨[], (some name, value) :: args, rfl, by simp,
            by simpa using foldlM_seenNamed rfl hrest⟩

end Placement

/-- Among named arguments none is positional. -/
theorem positionals_eq_nil {args : List (Option String × α)} (h : ∀ arg ∈ args, arg.1.isSome) :
    positionals args = [] := by
  simp only [positionals, List.map_eq_nil_iff, List.filter_eq_nil_iff]
  intro arg harg
  simp [Option.isSome_iff_ne_none.1 (h arg harg)]

/-- Arguments that are all positional are determined by their values. -/
theorem eq_map_positionals {args : List (Option String × α)}
    (h : ∀ arg ∈ args, arg.1.isSome = false) : args = (positionals args).map (none, ·) := by
  induction args with
  | nil => rfl
  | cons arg args ih =>
      obtain ⟨label, value⟩ := arg
      cases label with
      | none =>
          have hrest := ih fun a ha => h a (List.mem_cons_of_mem _ ha)
          simp only [positionals, List.filter_cons] at hrest ⊢
          simpa using hrest
      | some name => simpa using h (some name, value) (by simp)

/-- Lists of the same kinds of arguments agree on which are named. -/
theorem isSome_of_map_eq {args args' : List (Option String × α)} {named : Bool}
    (hkinds : args'.map (·.1.isSome) = args.map (·.1.isSome))
    (h : ∀ arg ∈ args, arg.1.isSome = named) : ∀ arg ∈ args', arg.1.isSome = named := by
  intro arg harg
  have hmem : arg.1.isSome ∈ args.map (·.1.isSome) := hkinds ▸ List.mem_map_of_mem harg
  obtain ⟨other, hother, heq⟩ := List.mem_map.1 hmem
  rw [← heq, h other hother]

/-- Where positional arguments come first, only the named ones behind them change places. -/
theorem NamedReordered.split {front back args' : List (Option String × α)}
    (h : NamedReordered (front ++ back) args')
    (hfront : ∀ arg ∈ front, arg.1.isSome = false) (hback : ∀ arg ∈ back, arg.1.isSome) :
    ∃ back', args' = front ++ back' ∧ back.Perm back' := by
  have hlength : args'.length = front.length + back.length := by
    simpa using h.perm.length_eq.symm
  obtain ⟨front', back', rfl, hlen⟩ : ∃ front' back', args' = front' ++ back' ∧
      front'.length = front.length :=
    ⟨args'.take front.length, args'.drop front.length, (List.take_append_drop _ _).symm,
      by simp [hlength]⟩
  have hkinds := h.kinds
  rw [List.map_append, List.map_append] at hkinds
  obtain ⟨hkinds, hkinds'⟩ := List.append_inj hkinds (by simpa using hlen)
  have hpositional := h.positional
  rw [positionals_append, positionals_append, positionals_eq_nil hback,
    positionals_eq_nil (isSome_of_map_eq hkinds' hback), List.append_nil, List.append_nil]
    at hpositional
  obtain rfl : front' = front := by
    rw [eq_map_positionals (isSome_of_map_eq hkinds hfront), hpositional,
      ← eq_map_positionals hfront]
  exact ⟨back', rfl, (List.perm_append_left_iff _).1 h.perm⟩

/-- When the arguments of a call are in order, then what they were placed on is full. -/
theorem orderArguments_ok {args : List (Option String × α)} {ordered : OrderedArgs α}
    (h : orderArguments sig args = .ok ordered) :
    ∃ placed : Placement α,
      args.foldlM (Placement.place sig) { slots := List.replicate sig.arity none } = .ok placed ∧
      placed.slots.mapM id = some ordered.fixed ∧ placed.extra = ordered.extra ∧
      ¬ (args.length < sig.arity ∨ (args.length > sig.arity ∧ !sig.varargs)) := by
  unfold orderArguments at h
  dsimp only at h
  split at h
  · cases h
  next hcount =>
  split at h
  · cases h
  next placed hplaced =>
  split at h
  · next fixed hfixed =>
      cases h
      exact ⟨placed, hplaced, hfixed, rfl, hcount⟩
  · cases h

/-- Each argument is placed once, and there is one on each parameter. -/
theorem orderArguments_places {args : List (Option String × α)} {ordered : OrderedArgs α}
    (h : orderArguments sig args = .ok ordered) : ordered.fixed.length = sig.params.length ∧
      (ordered.fixed ++ ordered.extra).Perm (args.map (·.2)) := by
  obtain ⟨placed, hplaced, hfixed, hextra, -⟩ := orderArguments_ok h
  have hfilled : placed.Filled sig args := by
    simpa using Placement.Filled.start.foldlM hplaced
  have hslots := eq_map_some_of_mapM_id hfixed
  have hperm := hfilled.perm
  rw [hslots, hextra, reduceOption_map_some] at hperm
  refine ⟨?_, hperm⟩
  show _ = sig.arity
  rw [← hfilled.length, hslots, List.length_map]

/-- **Ordering arguments loses and duplicates nothing**: whenever the arguments of a call can be
ordered, each of them is at its place, once; and the same call with its named arguments in another
order comes to the same. -/
theorem orderArguments_arranges {args : List (Option String × α)} {ordered : OrderedArgs α}
    (h : orderArguments sig args = .ok ordered) :
    ordered.Arranges sig args ∧
      ∀ args', NamedReordered args args' → orderArguments sig args' = .ok ordered := by
  obtain ⟨placed, hplaced, hfixed, hextra, hcount⟩ := orderArguments_ok h
  have hfilled : placed.Filled sig args := by
    simpa using Placement.Filled.start.foldlM hplaced
  have hslots := eq_map_some_of_mapM_id hfixed
  have harity : ordered.fixed.length = sig.arity := by
    rw [← hfilled.length, hslots, List.length_map]
  refine ⟨⟨harity, ?_, fun i value hi => ?_, fun name value hmem => ?_, ?_⟩, fun args' hargs => ?_⟩
  · have hperm := hfilled.perm
    rwa [hslots, hextra, reduceOption_map_some] at hperm
  · have hplace := hfilled.positional i value hi
    split
    · rw [if_pos ‹_›] at hplace
      exact getElem?_of_mapM_id hfixed hplace
    · rwa [if_neg ‹_›, hextra] at hplace
  · obtain ⟨slot, hslot, hfull⟩ := hfilled.named name value hmem
    exact ⟨slot, hslot, getElem?_of_mapM_id hfixed hfull⟩
  · rcases hvarargs : sig.varargs with _ | _
    · left
      have hlen := hfilled.perm.length_eq
      rw [List.length_append, List.length_map, hslots, reduceOption_map_some, harity, hextra]
        at hlen
      simp only [hvarargs, Bool.not_false, and_true] at hcount
      exact List.length_eq_zero_iff.1 (by omega)
    · exact .inr rfl
  · obtain ⟨front, back, rfl, hfront, hback⟩ := Placement.foldlM_split hplaced
    obtain ⟨back', rfl, hperm⟩ := hargs.split hfront hback
    have hplaced' : (front ++ back').foldlM (Placement.place sig)
        { slots := List.replicate sig.arity none } = .ok placed := by
      rw [List.foldlM_append] at hplaced ⊢
      cases hmiddle : front.foldlM (Placement.place sig)
          { slots := List.replicate sig.arity none } with
      | error e =>
          rw [hmiddle] at hplaced
          cases hplaced
      | ok middle =>
          rw [hmiddle] at hplaced
          exact Placement.foldlM_named_perm hperm hback
            (Placement.Filled.start.foldlM hmiddle).length hplaced
    unfold orderArguments
    dsimp only
    rw [if_neg (by rwa [← hargs.perm.length_eq]), hplaced']
    simp only [hfixed, hextra]

/-- A function with three named parameters. -/
def drawSignature : Signature where
  name := "draw"
  linkName := "draw"
  params := [⟨some "x", .integer⟩, ⟨some "y", .integer⟩, ⟨some "color", .string⟩]
  result := .void

/-- In `draw(1, color: 3, y: 2)` the named arguments may change places. -/
theorem orderArguments_arranges_draw :
    orderArguments drawSignature [(none, 1), (some "color", 3), (some "y", 2)] =
        .ok ⟨[1, 2, 3], []⟩ ∧
      OrderedArgs.Arranges drawSignature [(none, 1), (some "color", 3), (some "y", 2)]
        ⟨[1, 2, 3], []⟩ ∧
      orderArguments drawSignature [(none, 1), (some "y", 2), (some "color", 3)] =
        .ok ⟨[1, 2, 3], []⟩ := by
  have hordered : orderArguments drawSignature [(none, 1), (some "color", 3), (some "y", 2)] =
      .ok ⟨[1, 2, 3], []⟩ := by decide
  obtain ⟨harranges, hreordered⟩ := orderArguments_arranges hordered
  exact ⟨hordered, harranges, hreordered _ ⟨by decide, by decide, by decide⟩⟩

end ClassLang
