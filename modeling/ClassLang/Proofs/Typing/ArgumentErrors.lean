import ClassLang.Proofs.Typing.ArgumentOrder

/-!
# Which calls cannot be ordered

The number of arguments is looked at first. A call whose number fits is refused for the first argument
that cannot follow those before it: a positional one behind a named one, a name that no parameter
carries, or a name whose parameter was filled before. Every other call can be ordered. In particular
no parameter is left without an argument once all arguments were placed.
-/

namespace ClassLang

variable {α : Type} {sig : Signature}

/-- The number of arguments does not fit: there are fewer than parameters, or more without being
allowed to. -/
def Signature.Miscounts (sig : Signature) (given : Nat) : Prop :=
  given < sig.arity ∨ (sig.arity < given ∧ sig.varargs = false)

/-- An argument that cannot follow the arguments before it, and what is said of it. -/
inductive Misplaced (sig : Signature) (before : List (Option String × α)) :
    Option String × α → String → Prop
  | behindNamed {name : String} {value value' : α} (h : (some name, value) ∈ before) :
      Misplaced sig before (none, value')
        s!"positional argument after named argument in call to '{sig.name}'"
  | unknown {name : String} {value : α} (h : ∀ param ∈ sig.params, param.name ≠ some name) :
      Misplaced sig before (some name, value) s!"'{sig.name}' has no argument named '{name}'"
  /-- The first parameter of that name was filled by position or by an argument of the same
  name. -/
  | taken {name : String} {value : α} {slot : Nat}
      (hslot : sig.params.findIdx? (·.name == some name) = some slot)
      (h : slot < (positionals before).length ∨ ∃ value', (some name, value') ∈ before) :
      Misplaced sig before (some name, value) s!"argument '{name}' passed twice to '{sig.name}'"

/-- Some argument cannot follow those before it. -/
def IllFormed (sig : Signature) (args : List (Option String × α)) : Prop :=
  ∃ before arg after text, args = before ++ arg :: after ∧ Misplaced sig before arg text

/-- What is said of the first argument that cannot follow those before it. -/
def FirstFault (sig : Signature) (args : List (Option String × α)) (text : String) : Prop :=
  ∃ before arg after, args = before ++ arg :: after ∧ ¬ IllFormed sig before ∧
    Misplaced sig before arg text

/-- Of one argument only one thing is said. -/
theorem Misplaced.text_eq {before : List (Option String × α)} {arg : Option String × α}
    {text text' : String} (h : Misplaced sig before arg text)
    (h' : Misplaced sig before arg text') : text = text' := by
  cases h with
  | behindNamed => cases h' with | behindNamed => rfl
  | unknown hnone =>
      cases h' with
      | unknown => rfl
      | taken hslot =>
          obtain ⟨hlt, hname, -⟩ := List.findIdx?_eq_some_iff_getElem.1 hslot
          exact absurd (by simpa using hname) (hnone _ (List.getElem_mem hlt))
  | taken hslot =>
      cases h' with
      | unknown hnone =>
          obtain ⟨hlt, hname, -⟩ := List.findIdx?_eq_some_iff_getElem.1 hslot
          exact absurd (by simpa using hname) (hnone _ (List.getElem_mem hlt))
      | taken => rfl

/-! ### Ill-formed calls -/

theorem not_illFormed_nil : ¬ IllFormed sig ([] : List (Option String × α)) := by
  rintro ⟨before, arg, after, text, heq, -⟩
  simp at heq

theorem FirstFault.illFormed {args : List (Option String × α)} {text : String}
    (h : FirstFault sig args text) : IllFormed sig args := by
  obtain ⟨before, arg, after, heq, -, hbad⟩ := h
  exact ⟨before, arg, after, text, heq, hbad⟩

/-- There is only one first fault. -/
theorem FirstFault.text_eq {args : List (Option String × α)} {text text' : String}
    (h : FirstFault sig args text) (h' : FirstFault sig args text') : text = text' := by
  obtain ⟨before, arg, after, rfl, hgood, hbad⟩ := h
  obtain ⟨before', arg', after', heq, hgood', hbad'⟩ := h'
  rw [List.append_eq_append_iff] at heq
  rcases heq with ⟨between, rfl, heq⟩ | ⟨between, rfl, heq⟩
  · cases between with
    | nil =>
        cases heq
        rw [List.append_nil] at hbad'
        exact hbad.text_eq hbad'
    | cons other between =>
        cases heq
        exact absurd ⟨before, arg, between, text, rfl, hbad⟩ hgood'
  · cases between with
    | nil =>
        cases heq
        rw [List.append_nil] at hbad
        exact hbad.text_eq hbad'
    | cons other between =>
        cases heq
        exact absurd ⟨before', arg', between, text', rfl, hbad'⟩ hgood

/-- An argument that may follow arguments that are well formed. -/
theorem not_illFormed_concat {before : List (Option String × α)} {arg : Option String × α}
    (hbefore : ¬ IllFormed sig before) (harg : ∀ text, ¬ Misplaced sig before arg text) :
    ¬ IllFormed sig (before ++ [arg]) := by
  rintro ⟨front, bad, after, text, heq, hbad⟩
  rw [List.append_eq_append_iff] at heq
  rcases heq with ⟨between, rfl, heq⟩ | ⟨between, rfl, heq⟩
  · cases between with
    | nil =>
        cases heq
        rw [List.append_nil] at hbad
        exact harg text hbad
    | cons other between => simp at heq
  · cases between with
    | nil =>
        cases heq
        exact harg text (by simpa using hbad)
    | cons other between =>
        cases heq
        exact hbefore ⟨front, bad, between, text, rfl, hbad⟩

/-! ### Placing arguments -/

namespace Placement

variable {placed placed' : Placement α} {arg : Option String × α} {text : String}
variable {args done : List (Option String × α)}

/-- What was placed is known from the arguments: which slots are full, and whether a name was
written. -/
structure Tracked (sig : Signature) (done : List (Option String × α)) (placed : Placement α) :
    Prop where
  filled : placed.Filled sig done
  seen : placed.seenNamed = true ↔ ∃ name value, (some name, value) ∈ done
  full : ∀ slot, (placed.slots.getD slot none).isSome = true →
    slot < placed.position ∨ ∃ name value, (some name, value) ∈ done ∧
      sig.params.findIdx? (·.name == some name) = some slot

theorem Tracked.start (sig : Signature) : Tracked sig ([] : List (Option String × α))
    { slots := List.replicate sig.arity none } := by
  refine ⟨.start, by simp, fun slot h => ?_⟩
  rw [List.getD_eq_getElem?_getD, List.getElem?_replicate] at h
  split at h <;> cases h

/-- Placing one more argument. -/
theorem Tracked.place (h : Tracked sig done placed) (hplace : placed.place sig arg = .ok placed') :
    Tracked sig (done ++ [arg]) placed' := by
  refine ⟨h.filled.place hplace, ?_, fun slot hfull => ?_⟩
  · obtain ⟨label, value⟩ := arg
    cases label with
    | none =>
        have hseen : placed'.seenNamed = placed.seenNamed := by
          simp only [Placement.place] at hplace
          split at hplace
          · cases hplace
          · split at hplace <;> cases hplace <;> rfl
        rw [hseen, h.seen]
        simp
    | some name =>
        obtain ⟨_, -, -, rfl⟩ := place_named_iff.1 hplace
        exact ⟨fun _ => ⟨name, value, by simp⟩, fun _ => rfl⟩
  · have hold : (placed.slots.getD slot none).isSome = true →
        slot < placed.position ∨ ∃ name value, (some name, value) ∈ done ++ [arg] ∧
          sig.params.findIdx? (·.name == some name) = some slot := by
      intro hfull
      refine (h.full slot hfull).imp_right ?_
      rintro ⟨name, value, hmem, hslot⟩
      exact ⟨name, value, List.mem_append_left _ hmem, hslot⟩
    obtain ⟨label, value⟩ := arg
    cases label with
    | none =>
        simp only [Placement.place] at hplace
        split at hplace
        · cases hplace
        split at hplace <;> cases hplace
        · by_cases heq : placed.position = slot
          · exact .inl (by simp [heq])
          · simp only [getD_set_ne heq] at hfull
            exact (hold hfull).imp_left fun hlt => Nat.lt_succ_of_lt hlt
        · exact (hold hfull).imp_left fun hlt => Nat.lt_succ_of_lt hlt
    | some name =>
        obtain ⟨filled, hslot, -, rfl⟩ := place_named_iff.1 hplace
        by_cases heq : filled = slot
        · exact .inr ⟨name, value, by simp, heq ▸ hslot⟩
        · simp only [getD_set_ne heq] at hfull
          exact hold hfull

/-- A parameter was filled exactly if it is one of those filled by position or one whose name was
written. -/
theorem Tracked.isSome_iff (h : Tracked sig done placed) {name : String} {slot : Nat}
    (hslot : sig.params.findIdx? (·.name == some name) = some slot) :
    (placed.slots.getD slot none).isSome = true ↔
      slot < (positionals done).length ∨ ∃ value, (some name, value) ∈ done := by
  obtain ⟨hlt, hname, -⟩ := List.findIdx?_eq_some_iff_getElem.1 hslot
  have hname : sig.params[slot].name = some name := by simpa using hname
  constructor
  · intro hfull
    rcases h.full slot hfull with hposition | ⟨other, value, hmem, hother⟩
    · exact .inl (h.filled.position ▸ hposition)
    · -- a parameter carries one name only
      obtain ⟨_, hname', -⟩ := List.findIdx?_eq_some_iff_getElem.1 hother
      have hsame : some name = some other := hname.symm.trans (by simpa using hname')
      cases hsame
      exact .inr ⟨value, hmem⟩
  · rintro (hposition | ⟨value, hmem⟩)
    · have hplace := h.filled.positional slot _ (List.getElem?_eq_getElem hposition)
      rw [if_pos (show slot < sig.arity from hlt)] at hplace
      rw [List.getD_eq_getElem?_getD, hplace]
      rfl
    · obtain ⟨slot', hslot', hplace⟩ := h.filled.named name value hmem
      rw [hslot] at hslot'
      cases hslot'
      rw [List.getD_eq_getElem?_getD, hplace]
      rfl

/-- An argument is refused exactly if it cannot follow those before it. -/
theorem Tracked.place_error_iff (h : Tracked sig done placed) :
    placed.place sig arg = .error (.badCall text) ↔ Misplaced sig done arg text := by
  obtain ⟨label, value⟩ := arg
  constructor
  · intro hplace
    cases label with
    | none =>
        simp only [Placement.place] at hplace
        split at hplace
        · next hseen =>
            obtain ⟨name, other, hmem⟩ := h.seen.1 hseen
            cases hplace
            exact .behindNamed hmem
        · split at hplace <;> cases hplace
    | some name =>
        simp only [Placement.place] at hplace
        split at hplace
        · next hnone =>
            cases hplace
            exact .unknown fun param hparam => by
              simpa using List.findIdx?_eq_none_iff.1 hnone param hparam
        · next slot hslot =>
            split at hplace <;> cases hplace
            next hfull => exact .taken hslot ((h.isSome_iff hslot).1 hfull)
  · intro hbad
    cases hbad with
    | behindNamed hmem =>
        simp only [Placement.place, if_pos (h.seen.2 ⟨_, _, hmem⟩)]
    | unknown hnone =>
        have hnone : sig.params.findIdx? (·.name == some _) = none :=
          List.findIdx?_eq_none_iff.2 fun param hparam => by simpa using hnone param hparam
        simp only [Placement.place, hnone]
    | taken hslot hfull =>
        simp only [Placement.place, hslot, if_pos ((h.isSome_iff hslot).2 hfull)]

/-- An argument is placed, or refused with a text. -/
theorem place_cases (sig : Signature) (placed : Placement α) (arg : Option String × α) :
    (∃ placed', placed.place sig arg = .ok placed') ∨
      ∃ text, placed.place sig arg = .error (.badCall text) := by
  obtain ⟨label, value⟩ := arg
  cases label with
  | none =>
      simp only [Placement.place]
      split
      · exact .inr ⟨_, rfl⟩
      · split <;> exact .inl ⟨_, rfl⟩
  | some name =>
      simp only [Placement.place]
      split
      · exact .inr ⟨_, rfl⟩
      · split
        · exact .inr ⟨_, rfl⟩
        · exact .inl ⟨_, rfl⟩

/-- Placing a list of arguments ends with all of them placed or at the first fault. -/
theorem Tracked.foldlM_cases (h : Tracked sig done placed) (args : List (Option String × α))
    (hdone : ¬ IllFormed sig done) :
    (∃ placed', args.foldlM (Placement.place sig) placed = .ok placed' ∧
      Tracked sig (done ++ args) placed' ∧ ¬ IllFormed sig (done ++ args)) ∨
    ∃ text, args.foldlM (Placement.place sig) placed = .error (.badCall text) ∧
      FirstFault sig (done ++ args) text := by
  induction args generalizing done placed with
  | nil => exact .inl ⟨placed, rfl, by simpa using h, by simpa using hdone⟩
  | cons arg args ih =>
      rw [List.foldlM_cons]
      rcases place_cases sig placed arg with ⟨next, hplace⟩ | ⟨text, hplace⟩
      · have hfollows : ∀ text, ¬ Misplaced sig done arg text := fun text hbad => by
          rw [h.place_error_iff.2 hbad] at hplace
          cases hplace
        have hrest := ih (h.place hplace) (not_illFormed_concat hdone hfollows)
        rw [List.append_assoc, List.singleton_append] at hrest
        rw [hplace]
        exact hrest
      · rw [hplace]
        exact .inr ⟨text, rfl, done, arg, args, rfl, hdone, h.place_error_iff.1 hplace⟩

/-- Enough arguments fill all slots: the positional ones fill theirs before any is left over. -/
theorem Filled.exists_fixed (h : placed.Filled sig args) (hcount : ¬ sig.Miscounts args.length) :
    ∃ fixed, placed.slots.mapM id = some fixed := by
  have hfull : ∀ slot ∈ placed.slots, slot.isSome = true := by
    by_cases hover : placed.position ≤ sig.arity
    · -- nothing is left over, so there are as many full slots as arguments
      have hextra : placed.extra = [] :=
        List.length_eq_zero_iff.1 (by rw [h.extra]; omega)
      have hlength := h.perm.length_eq
      rw [hextra, List.append_nil, List.length_map] at hlength
      refine (List.reduceOption_length_eq_iff).1 (Nat.le_antisymm
        (List.reduceOption_length_le _) ?_)
      rw [hlength, h.length]
      exact Nat.le_of_not_lt fun hlt => hcount (.inl hlt)
    · intro slot hslot
      obtain ⟨i, hi, rfl⟩ := List.getElem_of_mem hslot
      have hi' : i < (positionals args).length := by
        rw [← h.position]
        rw [h.length] at hi
        omega
      have hplace := h.positional i _ (List.getElem?_eq_getElem hi')
      rw [if_pos (h.length ▸ hi), List.getElem?_eq_getElem hi] at hplace
      rw [Option.some.inj hplace]
      rfl
  generalize placed.slots = slots at hfull
  induction slots with
  | nil => exact ⟨[], rfl⟩
  | cons slot slots ih =>
      rw [List.forall_mem_cons] at hfull
      obtain ⟨value, rfl⟩ := Option.isSome_iff_exists.1 hfull.1
      obtain ⟨fixed, hfixed⟩ := ih hfull.2
      exact ⟨value :: fixed, by simp [List.mapM_cons, hfixed]⟩

end Placement

/-! ### Outcomes -/

variable {args : List (Option String × α)}

/-- A wrong number of arguments is reported, whatever they are. -/
theorem orderArguments_of_miscounts (h : sig.Miscounts args.length) :
    orderArguments sig args = .error (.missingArguments sig.name sig.arity args.length) := by
  unfold orderArguments
  dsimp only
  rw [if_pos (by simpa [Signature.Miscounts] using h)]

/-- A call whose number of arguments fits is ordered or refused for its first fault. -/
theorem orderArguments_of_not_miscounts (h : ¬ sig.Miscounts args.length) :
    (¬ IllFormed sig args ∧ ∃ ordered, orderArguments sig args = .ok ordered) ∨
      ∃ text, FirstFault sig args text ∧ orderArguments sig args = .error (.badCall text) := by
  have hcount : ¬ (args.length < sig.arity ∨ (args.length > sig.arity ∧ !sig.varargs)) := by
    simpa [Signature.Miscounts] using h
  rcases (Placement.Tracked.start sig).foldlM_cases args not_illFormed_nil with
    ⟨placed, hplaced, htracked, hgood⟩ | ⟨text, hfault, hfirst⟩
  · obtain ⟨fixed, hfixed⟩ := htracked.filled.exists_fixed h
    refine .inl ⟨hgood, ⟨fixed, placed.extra⟩, ?_⟩
    unfold orderArguments
    dsimp only
    rw [if_neg hcount, hplaced]
    simp only [hfixed]
  · refine .inr ⟨text, hfirst, ?_⟩
    unfold orderArguments
    dsimp only
    rw [if_neg hcount, hfault]

/-- **Ordering rejects exactly the ill-formed calls, with the right error.** The number of arguments
is the first thing reported; then comes the first argument that cannot follow those before it; any
other call is ordered. Once all arguments are placed, no parameter is without one. -/
theorem orderArguments_outcome (sig : Signature) (args : List (Option String × α)) :
    (orderArguments sig args = .error (.missingArguments sig.name sig.arity args.length) ↔
      sig.Miscounts args.length) ∧
    ((∃ text, orderArguments sig args = .error (.badCall text)) ↔
      ¬ sig.Miscounts args.length ∧ IllFormed sig args) ∧
    ((∃ ordered, orderArguments sig args = .ok ordered) ↔
      ¬ sig.Miscounts args.length ∧ ¬ IllFormed sig args) ∧
    (∀ text, orderArguments sig args = .error (.badCall text) ↔
      ¬ sig.Miscounts args.length ∧ FirstFault sig args text) ∧
    ∀ placed : Placement α, ¬ sig.Miscounts args.length →
      args.foldlM (Placement.place sig) { slots := List.replicate sig.arity none } = .ok placed →
        placed.slots.mapM id ≠ none := by
  by_cases hcount : sig.Miscounts args.length
  · have h := orderArguments_of_miscounts hcount
    simp [h, hcount]
  have hplaces : ∀ placed : Placement α,
      args.foldlM (Placement.place sig) { slots := List.replicate sig.arity none } = .ok placed →
        placed.slots.mapM id ≠ none := fun placed hplaced => by
    have hfilled : placed.Filled sig args := by
      simpa using Placement.Filled.start.foldlM hplaced
    obtain ⟨fixed, hfixed⟩ := hfilled.exists_fixed hcount
    simp [hfixed]
  rcases orderArguments_of_not_miscounts hcount with ⟨hgood, ordered, h⟩ | ⟨text, hfirst, h⟩
  · have hnone : ∀ text, ¬ FirstFault sig args text := fun text hfirst => hgood hfirst.illFormed
    exact ⟨by simp [h, hcount], by simp [h, hgood], by simp [h, hcount, hgood],
      fun text => by simp [h, hnone], fun placed _ => hplaces placed⟩
  · have honly : ∀ text', text = text' ↔ FirstFault sig args text' := fun text' =>
      ⟨fun heq => heq ▸ hfirst, hfirst.text_eq⟩
    exact ⟨by simp [h, hcount], by simp [h, hcount, hfirst.illFormed],
      by simp [h, hfirst.illFormed], fun text' => by simp [h, hcount, honly],
      fun placed _ => hplaces placed⟩

end ClassLang
