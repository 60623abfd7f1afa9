import ClassLang.Proofs.Pool.Growth

/-!
# The tables of a pool

A pool keeps the classification of its entries beside them, and it finds the entries that are made
only once by tables: pointers by what they point to, and closures without captures by their
parameters and result. The pool is `Indexed` if all of these describe its entries. The operations
keep it so: an entry is entered in its table when it is added, and no entry that stands in a table
is changed.
-/

namespace ClassLang

/-- Whether an entry is made only once. -/
def TypeData.isShared : TypeData → Bool
  | pointer _ | closure _ _ [] => true
  | _ => false

/-- What is made only once is a pointer or a closure without captures. -/
theorem TypeData.isShared_cases {d : TypeData} (h : d.isShared = true) :
    (∃ target, d = .pointer target) ∨ ∃ params result, d = .closure params result [] := by
  unfold isShared at h
  split at h
  · exact .inl ⟨_, rfl⟩
  · exact .inr ⟨_, _, rfl⟩
  · cases h

/-- A closure that captures something is made anew each time. -/
theorem TypeData.isShared_closure {params captures : List TypeId} {result : TypeId}
    (h : ¬ captures.isEmpty = true) : (TypeData.closure params result captures).isShared = false := by
  cases captures with
  | nil => simp at h
  | cons => rfl

/-- No entry changes into one that is made only once, or from one. -/
theorem TypeData.Becomes.eq_of_isShared {d d' : TypeData} (h : Becomes d d')
    (hshared : d.isShared = true ∨ d'.isShared = true) : d' = d := by
  cases h <;> simp [isShared] at hshared ⊢

namespace Pool

variable {p q : Pool} {t : TypeId} {d : TypeData}

/-- The classifications and tables describe the entries. -/
structure Indexed (p : Pool) : Prop where
  kinds : p.kinds = p.entries.map TypeData.flags
  /-- The tables have exactly the entries that are made only once. -/
  shared : ∀ {d t}, d.isShared = true → (p.shared? d = some t ↔ p.data t = d)

/-- The tables have nothing but what is made only once. -/
theorem shared?_of_not_isShared (p : Pool) (h : d.isShared = false) : p.shared? d = none := by
  unfold shared?
  split <;> simp [TypeData.isShared] at h ⊢

/-- Nothing else is entered in them. -/
theorem file_of_not_isShared (p : Pool) (t : TypeId) (h : d.isShared = false) : p.file t d = p := by
  unfold file
  split <;> simp [TypeData.isShared] at h ⊢

theorem kinds_file (p : Pool) (t : TypeId) (d : TypeData) : (p.file t d).kinds = p.kinds := by
  unfold file
  split <;> rfl

/-- An entry that was filed is found, and all others as before. -/
theorem shared?_file (p : Pool) (t : TypeId) (hd : d.isShared = true) (d' : TypeData) :
    (p.file t d).shared? d' = if d' = d then some t else p.shared? d' := by
  by_cases hd' : d'.isShared = true
  · rcases d.isShared_cases hd with ⟨target, rfl⟩ | ⟨params, result, rfl⟩ <;>
      rcases d'.isShared_cases hd' with ⟨target', rfl⟩ | ⟨params', result', rfl⟩
    · by_cases heq : target' = target
      · simp [file, shared?, heq]
      · have hne : (target' == target) = false := by simpa using heq
        simp [file, shared?, List.lookup_cons, hne, heq]
    · simp [file, shared?]
    · simp [file, shared?]
    · by_cases heq : (params', result') = (params, result)
      · cases heq
        simp [file, shared?]
      · have hne : ((params', result') == (params, result)) = false := by simpa using heq
        rw [Prod.mk.injEq] at heq
        simp [file, shared?, List.lookup_cons, hne, heq]
  · have hne : d' ≠ d := fun heq => hd' (heq ▸ hd)
    rw [if_neg hne, shared?_of_not_isShared _ (by simpa using hd'),
      shared?_of_not_isShared _ (by simpa using hd')]

namespace Indexed

/-- A pool without entries. -/
theorem empty : Indexed ⟨#[], #[], [], []⟩ where
  kinds := by simp
  shared {d t} hd := by
    have hvoid : d ≠ .void := by rintro rfl; cases hd
    have hnone : Pool.shared? ⟨#[], #[], [], []⟩ d = none := by
      unfold shared?
      split <;> rfl
    simp [hnone, data, hvoid.symm]

/-- What the tables have stands in the pool. -/
theorem data_of_shared? (h : p.Indexed) (hd : p.shared? d = some t) : p.data t = d := by
  cases hshared : d.isShared with
  | true => exact (h.shared hshared).mp hd
  | false => simp [p.shared?_of_not_isShared hshared] at hd

/-- The classification of a type is that of the entry it stands for. -/
theorem flags_eq (h : p.Indexed) (t : TypeId) : p.flags t = (p.view t).flags := by
  simp only [flags, h.kinds, view, data, Array.getD_eq_getD_getElem?, Array.getElem?_map,
    Option.getD_map]

/-- No position but one has an entry that is made only once. -/
theorem eq_of_data_eq (h : p.Indexed) {u : TypeId} (hd : (p.data t).isShared = true)
    (heq : p.data u = p.data t) : u = t := by
  have ht := (h.shared hd).mpr rfl
  have hu := (h.shared hd).mpr heq
  exact Option.some.inj (hu.symm.trans ht)

/-- Adding an entry that is made more than once. -/
theorem push (h : p.Indexed) (hd : d.isShared = false) : (p.push d).2.Indexed where
  kinds := by simp [Pool.push, h.kinds]
  shared {d' t} hd' := by
    have hne : d' ≠ d := by rintro rfl; simp [hd] at hd'
    have hvoid : d' ≠ .void := by rintro rfl; cases hd'
    rw [data_push]
    split
    · next ht =>
        have hout : p.data t = .void := data_of_le (Nat.le_of_eq ht.symm)
        refine ⟨fun hfound => ?_, fun heq => absurd heq.symm hne⟩
        exact absurd ((h.shared hd').mp hfound) (hout ▸ hvoid.symm)
    · exact h.shared hd'

/-- Adding an entry that is made only once, unless the tables have it. -/
theorem share (h : p.Indexed) (d : TypeData) : (p.share d).2.Indexed := by
  rcases p.share_cases d with ⟨t, -, heq⟩ | ⟨hnone, -, happends⟩
  · rwa [heq]
  have hfiled : (p.share d).2 = (p.push d).2.file p.size d := by simp [Pool.share, hnone]
  cases hd : d.isShared with
  | false => 
      rw [hfiled, file_of_not_isShared _ _ hd]
      exact h.push hd
  | true =>
      refine ⟨?_, fun {d' t} hd' => ?_⟩
      · rw [hfiled, kinds_file, entries_file]
        simp [Pool.push, h.kinds]
      · have hvoid : d' ≠ .void := by rintro rfl; cases hd'
        rw [happends.data_eq, hfiled, shared?_file _ _ hd]
        by_cases heq : d' = d
        · subst heq
          have hnew : ∀ u, p.data u ≠ d' := fun u hu => by
            simpa [hnone] using (h.shared hd').mpr hu
          by_cases ht : t = p.size <;> simp [ht, hnew, eq_comm]
        · rw [if_neg heq]
          split
          · next ht =>
              have hout : p.data t = .void := data_of_le (Nat.le_of_eq ht.symm)
              refine ⟨fun hfound => ?_, fun heq' => absurd heq'.symm heq⟩
              exact absurd ((h.shared hd').mp hfound) (hout ▸ hvoid.symm)
          · exact h.shared hd'

/-- Changing an entry, which is none that is made only once. -/
theorem set (h : p.Indexed) (hb : (p.data t).Becomes d) : (p.set t d).Indexed where
  kinds := by
    rw [show (p.set t d).kinds = p.kinds from rfl, h.kinds]
    refine Array.ext (by simp [Pool.set]) fun i hi hi' => ?_
    simp only [Array.size_map] at hi
    simp only [Pool.set, Array.getElem_map, Array.getElem_setIfInBounds hi]
    split
    · next hti =>
        subst hti
        have hdata : p.data t = p.entries[t] := by simp [data, hi]
        rw [← hdata, hb.flags_eq]
    · rfl
  shared {d' u} hd' := by
    rw [data_set]
    split
    · next heq =>
        obtain ⟨rfl, -⟩ := heq
        refine (h.shared (t := u) hd').trans ⟨fun hu => ?_, fun hd => ?_⟩
        · exact (hb.eq_of_isShared (.inl (hu ▸ hd'))).trans hu
        · exact (hb.eq_of_isShared (.inr (hd ▸ hd'))).symm.trans hd
    · exact h.shared hd'

/-- The tables of a new pool have `*Char` only. -/
theorem initial : Pool.initial.Indexed := by
  refine share (d := .pointer _) ?_
  have hbuiltins : ∀ (ds : List TypeData), (∀ d ∈ ds, d.isShared = false) → ∀ q : Pool,
      q.Indexed → (ds.foldl (fun p d => (p.push d).2) q).Indexed := by
    intro ds
    induction ds with
    | nil => exact fun _ _ hq => hq
    | cons d ds ih =>
        exact fun hds q hq => ih (fun d' hd' => hds d' (.tail _ hd')) _ (hq.push (hds d (.head _)))
  exact hbuiltins _ (by decide) _ .empty

end Indexed

end Pool

end ClassLang
