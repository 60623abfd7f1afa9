import ClassLang.Proofs.Pool.Termination

/-!
# Chains of types

What `resolve` does in a pool in which looking through types comes to an end, also when variables
were forwarded to open types. The types on a chain differ from each other, so its bound is never
met, and a derived type stands for the result of its operator on what its root stands for.
-/

namespace ClassLang.Pool

open Relation (TransGen)

variable {p : Pool} {t root rhs : TypeId} {op : BinaryOp}

/-! ## Bounds -/

/-- A type that is made of nothing and depends on nothing leads nowhere. -/
theorem not_looksAt_of_blank {u : TypeId} (hparts : (p.data t).parts = [])
    (hsources : (p.data t).sources = []) : ¬ TransGen p.LooksAt u t := by
  have hnone : ∀ v, ¬ p.LooksAt v t := fun v hlook => by simp [LooksAt, hparts, hsources] at hlook
  intro h
  cases h with
  | single hlook => exact hnone _ hlook
  | tail _ hlook => exact hnone _ hlook

/-- Looking through a type does not lead back to it. -/
theorem not_looksAt_self (hends : WellFounded p.LooksAt) : ¬ TransGen p.LooksAt t t :=
  fun h => hends.transGen.asymmetric t t h h

open Classical in
/-- How many types of the pool are reached by looking through `t`. -/
noncomputable def depth (p : Pool) (t : TypeId) : Nat :=
  ((Finset.range p.size).filter fun u => TransGen p.LooksAt u t).card

/-- What is reached from `t` reaches less than `t`. -/
theorem depth_lt_depth (hends : WellFounded p.LooksAt) (hu : u < p.size) (h : p.LooksAt u t) :
    p.depth u < p.depth t := by
  classical
  refine Finset.card_lt_card (Finset.ssubset_iff_of_subset ?_ |>.2 ⟨u, ?_, ?_⟩)
  · intro v hv
    simp only [Finset.mem_filter] at hv ⊢
    exact ⟨hv.1, hv.2.tail h⟩
  · simpa using ⟨hu, .single h⟩
  · intro hmem
    exact not_looksAt_self hends (Finset.mem_filter.1 hmem).2

/-- A type of the pool does not reach itself. -/
theorem depth_lt_size (hends : WellFounded p.LooksAt) (ht : t < p.size) : p.depth t < p.size := by
  classical
  have hsub : ((Finset.range p.size).filter fun u => TransGen p.LooksAt u t) ⊂
      Finset.range p.size := by
    refine Finset.ssubset_iff_of_subset (Finset.filter_subset _ _) |>.2 ⟨t, by simpa using ht, ?_⟩
    intro hmem
    exact not_looksAt_self hends (Finset.mem_filter.1 hmem).2
  have hcard := Finset.card_lt_card hsub
  rw [Finset.card_range] at hcard
  exact hcard

/-- A position outside the pool stands for itself. -/
theorem resolveWithin_of_le (h : p.size ≤ t) (fuel : Nat) : p.resolveWithin fuel t = t := by
  cases fuel with
  | zero => rfl
  | succ fuel => simp only [resolveWithin, data_of_le h]

/-- Two bounds that exceed the depth of a type give the same result. -/
theorem resolveWithin_congr_of_depth_lt (hends : WellFounded p.LooksAt) {fuel fuel' : Nat}
    (hfuel : p.depth t < fuel) (hfuel' : p.depth t < fuel') :
    p.resolveWithin fuel t = p.resolveWithin fuel' t := by
  induction fuel generalizing t fuel' with
  | zero => omega
  | succ fuel ih =>
      obtain ⟨fuel', rfl⟩ := Nat.exists_eq_succ_of_ne_zero (Nat.ne_zero_of_lt hfuel')
      have hnext (u : TypeId) (hlook : p.LooksAt u t) :
          p.resolveWithin fuel u = p.resolveWithin fuel' u := by
        by_cases hu : u < p.size
        · have hdepth := depth_lt_depth hends hu hlook
          exact ih (by omega) (by omega)
        · rw [resolveWithin_of_le (Nat.le_of_not_lt hu), resolveWithin_of_le (Nat.le_of_not_lt hu)]
      unfold resolveWithin
      cases hd : p.data t with
      | var target =>
          cases target with
          | none => rfl
          | some target => exact hnext target (.inr (by simp [hd, TypeData.sources]))
      | derived root op rhs => simp only [hnext root (.inr (by simp [hd, TypeData.sources]))]
      | _ => rfl

/-- A derived type stands for the result of its operator on what its root stands for. The other
operand does not matter. -/
theorem resolve_derived (hends : WellFounded p.LooksAt) (hd : p.data t = .derived root op rhs) :
    p.resolve t = (p.operator? root op).elim t (·.resultType (p.resolve root)) := by
  have ht : t < p.size := lt_size_of_data_ne (by simp [hd])
  obtain ⟨fuel, hsize⟩ := Nat.exists_eq_succ_of_ne_zero (Nat.ne_zero_of_lt ht)
  have hroot : p.resolveWithin fuel root = p.resolve root := by
    by_cases hlt : root < p.size
    · have hdepth : p.depth root < p.depth t :=
        depth_lt_depth hends hlt (.inr (by simp [hd, TypeData.sources]))
      have hdepth' := depth_lt_size hends ht
      exact resolveWithin_congr_of_depth_lt hends (by omega) (by omega)
    · rw [resolve, resolveWithin_of_le (Nat.le_of_not_lt hlt),
        resolveWithin_of_le (Nat.le_of_not_lt hlt)]
  rw [resolve, hsize]
  simp only [resolveWithin, hd, hroot, operator?, view]
  cases (p.data (p.resolve root)).operator? op <;> rfl

/-! ## Known types -/

/-- What a known type stands for stands for itself. -/
theorem resolve_resolve_of_resolved (h : p.isUnresolved t = false) :
    p.resolve (p.resolve t) = p.resolve t := by
  unfold isUnresolved view at h
  generalize p.resolve t = known at h ⊢
  unfold resolve
  cases p.size with
  | zero => rfl
  | succ fuel =>
      unfold resolveWithin
      cases hd : p.data known <;> simp [hd, TypeData.isVar] at h <;> rfl

/-- What is known is found within any bound. -/
theorem resolveStrictWithin_of_resolved (h : p.isUnresolved t = false) (fuel : Nat) :
    p.resolveStrictWithin fuel t = .ok (p.resolve t) := by
  unfold isUnresolved view at h
  unfold resolveStrictWithin
  dsimp only
  cases hd : p.data (p.resolve t) <;> simp [hd, TypeData.isVar] at h <;> rfl

/-- The result of an operator is the operand or a truth value, so it is known. -/
theorem isVar_resultType {operation : Operation} (hboolean : p.data .boolean = .boolean)
    (h : (p.data t).operator? op = some operation) :
    (p.data (operation.resultType t)).isVar = false := by
  rcases resultType_of_operator (t := t) h with heq | heq
  · rw [heq]
    rcases TypeData.primitive_of_operator h with hd | hd | hd <;> rw [hd] <;> rfl
  · rw [heq, hboolean]
    rfl

end ClassLang.Pool
