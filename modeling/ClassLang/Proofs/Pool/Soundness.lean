import Mathlib.Data.List.Basic
import Mathlib.Logic.Relation
import ClassLang.Proofs.Pool.Tables

/-!
# Sound pools

A pool is `Sound` if its tables are those of its entries, every type is made of earlier types, every
variable was forwarded to a `Closed` type, and all that classes, data types and cases mention is
closed. A closed type is one in whose pointers and closures no variable occurs. In a sound pool
`resolve` gives the type itself or a closed one (`Sound.resolve_eq_or_closed`). Closed types stay
closed while the pool evolves.
-/

namespace ClassLang

namespace Pool

variable {p q r : Pool} {t u : TypeId}

/-! ## Closed types -/

/-- A type in whose pointers and closures no variable and no derived type occurs. -/
inductive Closed (p : Pool) : TypeId → Prop
  | intro {t : TypeId} (hlt : t < p.size) (hvar : (p.data t).isVar = false)
      (hparts : ∀ u ∈ (p.data t).parts, Closed p u) : Closed p t

namespace Closed

/-- A closed type is in the pool. -/
theorem lt_size (h : p.Closed t) : t < p.size := by
  cases h with
  | intro hlt _ _ => exact hlt

/-- A closed type is no variable. -/
theorem isVar_eq_false (h : p.Closed t) : (p.data t).isVar = false := by
  cases h with
  | intro _ hvar _ => exact hvar

/-- The parts of a closed type are closed. -/
theorem parts (h : p.Closed t) (hu : u ∈ (p.data t).parts) : p.Closed u := by
  cases h with
  | intro _ _ hparts => exact hparts u hu

/-- Closed types stay closed while the pool evolves. -/
theorem mono (h : p.Closed t) (he : p.Evolves q) : q.Closed t := by
  induction h with
  | intro hlt hvar _ ih =>
      have hb := he.becomes _ hlt
      refine .intro (Nat.lt_of_lt_of_le hlt he.size_le) (hb.isVar_eq.trans hvar) fun u hu => ?_
      rw [hb.parts_eq] at hu
      exact ih u hu

/-- A type without parts that is no variable is closed. -/
theorem of_no_parts (hlt : t < p.size) (hvar : (p.data t).isVar = false)
    (hparts : (p.data t).parts = []) : p.Closed t :=
  .intro hlt hvar fun u hu => by simp [hparts] at hu

/-- Nothing open is reached from a closed type through pointers and closures. -/
theorem of_reached (h : p.Closed t)
    (hreach : Relation.ReflTransGen (fun a b => b ∈ (p.data a).parts) t u) : p.Closed u := by
  induction hreach with
  | refl => exact h
  | tail _ hu ih => exact ih.parts hu

end Closed

/-! ## Sound pools -/

/-- What every pool of a session satisfies. -/
structure Sound (p : Pool) : Prop where
  /-- The tables are those of the entries. -/
  indexed : p.Indexed
  /-- The built-in types and `*Char` stand where they were put. -/
  builtin : ∀ t < initial.size, t < p.size ∧ p.data t = initial.data t
  /-- Pointers and closures are made of earlier types. -/
  parts_lt : ∀ {t u}, u ∈ (p.data t).parts → u < t
  /-- A derived type is made of earlier types. -/
  derived_lt : ∀ {t root op rhs}, p.data t = .derived root op rhs → root < t ∧ rhs < t
  /-- Variables are forwarded to closed types only. -/
  forwarded : ∀ {t target}, p.data t = .var (some target) → p.Closed target
  /-- Declarations mention closed types only. -/
  members : ∀ {t u}, u ∈ (p.data t).members → p.Closed u
  /-- Each parameter of a closure is closed or a variable of its own. -/
  params : ∀ {t params result captures}, p.data t = .closure params result captures →
    ∀ u ∈ params, p.Closed u ∨ ∃ target, p.data u = .var target

/-- A new pool is sound. -/
theorem sound_initial : initial.Sound := by
  have hvoid (t : TypeId) (ht : ¬ t < initial.size) : initial.data t = .void :=
    data_of_le (Nat.le_of_not_lt ht)
  have hparts : ∀ t < initial.size, ∀ u ∈ (initial.data t).parts, u < t := by decide
  have hvars : ∀ t < initial.size, (initial.data t).isVar = false := by decide
  have hmembers : ∀ t < initial.size, (initial.data t).members = [] := by decide
  have hclosures : ∀ t < initial.size, (initial.data t).flags ≠ 10 := by decide
  refine ⟨.initial, fun t ht => ⟨ht, rfl⟩, fun {t u} hu => ?_, fun {t root op rhs} hd => ?_,
    fun {t target} hd => ?_, fun {t u} hu => ?_, fun {t params result captures} hd => ?_⟩ <;>
    by_cases ht : t < initial.size
  · exact hparts t ht u hu
  · simp [hvoid t ht, TypeData.parts] at hu
  · simpa [hd, TypeData.isVar] using hvars t ht
  · simp [hvoid t ht] at hd
  · simpa [hd, TypeData.isVar] using hvars t ht
  · simp [hvoid t ht] at hd
  · simp [hmembers t ht] at hu
  · simp [hvoid t ht, TypeData.members] at hu
  · exact absurd (by rw [hd]; rfl) (hclosures t ht)
  · simp [hvoid t ht] at hd

/-- A sound pool holds the built-in types and `*Char`. -/
theorem Sound.initial_size_le (h : p.Sound) : initial.size ≤ p.size :=
  (h.builtin (initial.size - 1) (by decide)).1

/-- `Integer`, `Boolean` and the other types that every pool begins with are closed. -/
theorem Sound.closed_builtin (h : p.Sound) (ht : t < initial.size) : p.Closed t := by
  obtain ⟨hlt, hdata⟩ := h.builtin t ht
  have hchar : p.Closed TypeId.char := by
    obtain ⟨hlt, hdata⟩ := h.builtin TypeId.char (by decide)
    exact .of_no_parts hlt (by rw [hdata]; rfl) (by rw [hdata]; rfl)
  have hvars : ∀ t < initial.size, (initial.data t).isVar = false := by decide
  have hparts : ∀ t < initial.size, ∀ u ∈ (initial.data t).parts, u = TypeId.char := by decide
  refine .intro hlt (by rw [hdata]; exact hvars t ht) fun u hu => ?_
  rw [hdata] at hu
  rwa [hparts t ht u hu]

/-- A primitive entry stands for a closed type. -/
theorem closed_of_operator {op : BinaryOp} {operation : Operation}
    (h : (p.data t).operator? op = some operation) : p.Closed t := by
  have hd := TypeData.primitive_of_operator h
  have hlt : t < p.size := lt_size_of_data_ne (by rcases hd with hd | hd | hd <;> simp [hd])
  refine .of_no_parts hlt ?_ ?_ <;> rcases hd with hd | hd | hd <;> rw [hd] <;> rfl

/-- An operator found on a type gives that type or `Boolean`. -/
theorem resultType_of_operator {d : TypeData} {op : BinaryOp} {operation : Operation}
    (h : d.operator? op = some operation) :
    operation.resultType t = t ∨ operation.resultType t = TypeId.boolean := by
  have hkind : operation = .arith op ∨ operation = .compare op := by
    rcases TypeData.primitive_of_operator h with rfl | rfl | rfl <;>
      simp only [TypeData.operator?] at h <;> split at h <;> simp_all
  rcases hkind with rfl | rfl
  · exact .inl rfl
  · exact .inr rfl

/-- A type that is no variable stands for itself. -/
theorem resolveWithin_of_not_var (h : (p.data t).isVar = false) (fuel : Nat) :
    p.resolveWithin fuel t = t := by
  cases fuel with
  | zero => rfl
  | succ fuel =>
      unfold resolveWithin
      cases hd : p.data t <;> simp [hd, TypeData.isVar] at h <;> rfl

/-- A type that is no variable stands for itself. -/
theorem resolve_of_not_var (h : (p.data t).isVar = false) : p.resolve t = t :=
  resolveWithin_of_not_var h _

/-- A closed type stands for itself. -/
theorem Closed.resolveWithin_eq (h : p.Closed t) (fuel : Nat) : p.resolveWithin fuel t = t :=
  resolveWithin_of_not_var h.isVar_eq_false fuel

/-- A closed type stands for itself. -/
theorem Closed.resolve_eq (h : p.Closed t) : p.resolve t = t :=
  h.resolveWithin_eq _

namespace Sound

/-- Following variables in a sound pool leads nowhere or to a closed type. -/
theorem resolveWithin_eq_or_closed (h : p.Sound) (fuel : Nat) (t : TypeId) :
    p.resolveWithin fuel t = t ∨ p.Closed (p.resolveWithin fuel t) := by
  cases fuel with
  | zero => exact .inl rfl
  | succ fuel =>
      unfold resolveWithin
      split
      · rename_i target hd
        have htarget := h.forwarded hd
        rw [htarget.resolveWithin_eq]
        exact .inr htarget
      · dsimp only
        split
        · rename_i operation hop
          rcases resultType_of_operator (t := p.resolveWithin fuel _) hop with heq | heq
          · rw [heq]
            exact .inr (closed_of_operator hop)
          · rw [heq]
            exact .inr (h.closed_builtin (by decide))
        · exact .inl rfl
      · exact .inl rfl

/-- What a type stands for is that type or a closed one. -/
theorem resolve_eq_or_closed (h : p.Sound) (t : TypeId) :
    p.resolve t = t ∨ p.Closed (p.resolve t) :=
  h.resolveWithin_eq_or_closed _ t

/-- What a type of the pool stands for is in the pool. -/
theorem resolve_lt_size (h : p.Sound) (ht : t < p.size) : p.resolve t < p.size := by
  rcases h.resolve_eq_or_closed t with heq | hc
  · rwa [heq]
  · exact hc.lt_size

end Sound

end Pool

end ClassLang
