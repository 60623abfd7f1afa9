import ClassLang.Proofs.Pool.Operations
import ClassLang.Proofs.Typing.Arguments
import ClassLang.Typing.State

/-!
# Internal errors

An internal error says that an invariant of the compiler itself is broken. Calls and type
operations never end in one, and those that register members on a type only do so if the type is of
the wrong kind.
-/

namespace ClassLang

/-- The halt is an internal error. -/
def Halt.IsInternal (h : Halt) : Prop :=
  ∃ text, h = .error (.internal text)

theorem Halt.not_isInternal_of_kind {e : CompileError} (h : ∀ text, e ≠ .internal text) :
    ¬ (Halt.error e).IsInternal := by
  rintro ⟨text, heq⟩
  cases heq
  exact h text rfl

theorem Halt.not_isInternal_outOfFuel : ¬ Halt.outOfFuel.IsInternal := by
  rintro ⟨text, heq⟩
  cases heq

/-- If there is an error, it is not internal. -/
def Faultless {α : Type} (r : Except CompileError α) : Prop :=
  ∀ text, r ≠ .error (.internal text)

theorem Faultless.not_isInternal {α : Type} {r : Except CompileError α} {e : CompileError}
    (h : Faultless r) (he : r = .error e) : ¬ (Halt.error e).IsInternal :=
  Halt.not_isInternal_of_kind fun text heq => h text (heq ▸ he)

namespace Pool

variable {p q : Pool} {t : TypeId} {n : Nat}

/-! ## Classes and data types -/

/-- The type is a class. -/
def IsClass (p : Pool) (t : TypeId) : Prop :=
  ∃ name ivars methods, p.data t = .reference name ivars methods

/-- The type is a data type with at least so many cases. -/
def HasCases (p : Pool) (t : TypeId) (n : Nat) : Prop :=
  ∃ name cases methods, p.data t = .data name cases methods ∧ n ≤ cases.length

/-- Methods can be declared on the type. -/
def TakesMethods (p : Pool) (t : TypeId) : Prop :=
  p.IsClass t ∨ p.HasCases t 0

/-- A class stays a class. -/
theorem IsClass.mono (h : p.IsClass t) (he : p.Evolves q) : q.IsClass t := by
  obtain ⟨name, ivars, methods, hd⟩ := h
  have hbecomes := he.becomes t (lt_size_of_data_ne (by simp [hd]))
  unfold IsClass
  rw [hd] at hbecomes
  generalize q.data t = d at hbecomes ⊢
  cases hbecomes with
  | same => exact ⟨_, _, _, rfl⟩
  | reference => exact ⟨_, _, _, rfl⟩

/-- Cases are never lost. -/
theorem HasCases.mono (h : p.HasCases t n) (he : p.Evolves q) : q.HasCases t n := by
  obtain ⟨name, cases, methods, hd, hn⟩ := h
  have hbecomes := he.becomes t (lt_size_of_data_ne (by simp [hd]))
  unfold HasCases
  rw [hd] at hbecomes
  generalize q.data t = d at hbecomes ⊢
  cases hbecomes with
  | same => exact ⟨_, _, _, rfl, hn⟩
  | data hcases => exact ⟨_, _, _, rfl, Nat.le_trans hn hcases.length_le⟩

theorem TakesMethods.mono (h : p.TakesMethods t) (he : p.Evolves q) : q.TakesMethods t :=
  h.imp (·.mono he) (·.mono he)

/-- One more case. -/
theorem HasCases.addCase {added : TypeId} {name shortName : String} {fields : List (String × TypeId)}
    (h : p.HasCases t n) (hadded : p.addCase t name shortName fields = .ok (added, q)) :
    q.HasCases t (n + 1) := by
  obtain ⟨_, _, _, hd, hn⟩ := h
  obtain ⟨ownerName, cases, methods, hd', -, rfl⟩ := addCase_cases hadded
  have ht : t < p.size := lt_size_of_data_ne (by simp [hd])
  obtain ⟨-, rfl, -⟩ := TypeData.data.inj (hd'.symm.trans hd)
  refine ⟨ownerName, cases ++ [p.size], methods, ?_, by simpa using hn⟩
  refine data_set_self _ _ ?_
  rw [size_push]
  exact Nat.lt_succ_of_lt ht

/-- Each of the cases can be found. -/
theorem HasCases.getElem? {index : Nat} (h : p.HasCases t n) (hindex : index < n) :
    ((p.cases t)[index]?).isSome := by
  obtain ⟨name, cases, methods, hd, hn⟩ := h
  have hcases : p.cases t = cases := by
    simp [Pool.cases, Pool.view, resolve_of_not_var, hd, TypeData.isVar]
  simp [hcases, Nat.lt_of_lt_of_le hindex hn]

/-! ## Operations -/

theorem findOperation_faultless (p : Pool) (t : TypeId) (name : String) :
    Faultless (p.findOperation t name) := by
  intro path h
  unfold findOperation at h
  dsimp only at h
  split at h <;> cases h

theorem addCase_faultless {name shortName : String} {fields : List (String × TypeId)}
    (ht : p.HasCases t 0) : Faultless (p.addCase t name shortName fields) := by
  obtain ⟨_, _, _, hd, -⟩ := ht
  intro text h
  simp [Pool.addCase, hd] at h

theorem setIvars_faultless {ivars : List (String × TypeId)} (ht : p.IsClass t) :
    Faultless (p.setIvars t ivars) := by
  obtain ⟨_, _, _, hd⟩ := ht
  intro text h
  simp [setIvars, hd] at h

theorem addMethod_faultless {sig : Signature} (ht : p.TakesMethods t) :
    Faultless (p.addMethod t sig) := by
  intro text h
  rcases ht with ⟨_, _, _, hd⟩ | ⟨_, _, _, hd, -⟩
  · simp only [addMethod, hd] at h
    split at h <;> cases h
  · simp only [addMethod, hd] at h
    split at h <;> cases h

theorem unify_faultless {target : TypeId} (ht : p.data t = .var none) :
    Faultless (p.unify t target) := by
  intro text h
  simp [unify, ht] at h

end Pool

/-- A signature that was recorded is found. -/
theorem signature_faultless {table : TypeTable} {visit : Visit}
    (h : (table.signatures[visit]?).isSome) : Faultless (table.signature visit) := by
  intro text herror
  obtain ⟨sig, hsig⟩ := Option.isSome_iff_exists.mp h
  simp [TypeTable.signature, hsig] at herror

theorem orderArguments_faultless {α : Type} (sig : Signature) (args : List (Option String × α)) :
    Faultless (orderArguments sig args) := by
  intro text h
  rcases orderArguments_error h with ⟨_, _, he⟩ | ⟨_, he⟩ <;> cases he

end ClassLang
