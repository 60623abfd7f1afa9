import Mathlib.Data.Finset.Card
import Mathlib.Order.WellFounded
import ClassLang.Proofs.Pool.Soundness

/-!
# Looking through types comes to an end

`resolve`, `resolveStrict`, `display` and `sameType` follow variables to what they were forwarded
to, derived types to their operands, and pointers and closures to their parts. In a sound pool this
relation is well founded: a step leads to an earlier type, except that a variable may lead to a
later one, which is closed, and from a closed type only closed types are reached.

Their recursion is bounded by the size of the pool. The types on one path differ from each other, so
the bound is never met, and a larger one changes nothing.
-/

namespace ClassLang.Pool

variable {p : Pool} {t u : TypeId}

/-- Looking through `t` may go on at `u`. -/
def LooksAt (p : Pool) (u t : TypeId) : Prop :=
  u ∈ (p.data t).parts ∨ u ∈ (p.data t).sources

/-- Closed types come before all others, and of two alike the earlier one comes first. -/
def Precedes (p : Pool) (u t : TypeId) : Prop :=
  (p.Closed u ∧ ¬ p.Closed t) ∨ ((p.Closed u ↔ p.Closed t) ∧ u < t)

theorem Precedes.trans {v : TypeId} (h : p.Precedes u t) (h' : p.Precedes t v) :
    p.Precedes u v := by
  rcases h with ⟨hu, ht⟩ | ⟨hiff, hlt⟩ <;> rcases h' with ⟨ht', hv⟩ | ⟨hiff', hlt'⟩
  · exact absurd ht' ht
  · exact .inl ⟨hu, fun hv => ht (hiff'.2 hv)⟩
  · exact .inl ⟨hiff.2 ht', hv⟩
  · exact .inr ⟨hiff.trans hiff', Nat.lt_trans hlt hlt'⟩

/-- What is reached from `t` in one step comes before it. -/
theorem Sound.precedes_of_looksAt (h : p.Sound) (hlook : p.LooksAt u t) : p.Precedes u t := by
  by_cases ht : p.Closed t
  · rcases hlook with hu | hu
    · have hclosed := ht.parts hu
      exact .inr ⟨⟨fun _ => ht, fun _ => hclosed⟩, h.parts_lt hu⟩
    · have hvar := ht.isVar_eq_false
      cases hd : p.data t <;> simp [hd, TypeData.sources, TypeData.isVar] at hu hvar
  · by_cases hu : p.Closed u
    · exact .inl ⟨hu, ht⟩
    · refine .inr ⟨⟨fun h => absurd h hu, fun h => absurd h ht⟩, ?_⟩
      rcases hlook with hpart | hsource
      · exact h.parts_lt hpart
      · cases hd : p.data t with
        | var target =>
            cases target with
            | none => simp [hd, TypeData.sources] at hsource
            | some target =>
                simp only [hd, TypeData.sources, List.mem_singleton] at hsource
                exact absurd (hsource ▸ h.forwarded hd) hu
        | derived root op rhs =>
            simp only [hd, TypeData.sources, List.mem_cons, List.not_mem_nil, or_false] at hsource
            rcases hsource with rfl | rfl
            · exact (h.derived_lt hd).1
            · exact (h.derived_lt hd).2
        | _ => simp [hd, TypeData.sources] at hsource

/-! ## Ranks -/

open Classical in
/-- How many types of the pool come before `t`. -/
noncomputable def rank (p : Pool) (t : TypeId) : Nat :=
  ((Finset.range p.size).filter fun u => p.Precedes u t).card

/-- What comes before has a smaller rank. -/
theorem rank_lt_rank (hlt : u < p.size) (h : p.Precedes u t) : p.rank u < p.rank t := by
  classical
  refine Finset.card_lt_card (Finset.ssubset_iff_of_subset ?_ |>.2 ⟨u, ?_, ?_⟩)
  · intro v hv
    simp only [Finset.mem_filter] at hv ⊢
    exact ⟨hv.1, hv.2.trans h⟩
  · simpa using ⟨hlt, h⟩
  · rintro hu
    simp only [Finset.mem_filter] at hu
    rcases hu.2 with ⟨hclosed, hopen⟩ | ⟨-, hlt⟩
    · exact hopen hclosed
    · exact Nat.lt_irrefl u hlt

/-- The rank of a type of the pool is less than the size of the pool. -/
theorem rank_lt_size (ht : t < p.size) : p.rank t < p.size := by
  classical
  have hsub : ((Finset.range p.size).filter fun u => p.Precedes u t) ⊂ Finset.range p.size := by
    refine Finset.ssubset_iff_of_subset (Finset.filter_subset _ _) |>.2 ⟨t, by simpa using ht, ?_⟩
    intro hmem
    rcases (Finset.mem_filter.1 hmem).2 with ⟨hclosed, hopen⟩ | ⟨-, hlt⟩
    · exact hopen hclosed
    · exact Nat.lt_irrefl t hlt
  have hcard := Finset.card_lt_card hsub
  rw [Finset.card_range] at hcard
  exact hcard

namespace Sound

/-- In a sound pool, looking through types comes to an end. -/
theorem wellFounded_looksAt (h : p.Sound) : WellFounded p.LooksAt := by
  classical
  -- closed types are put in front of all others
  let measure : TypeId → Nat × Nat := fun t => (if p.Closed t then 0 else 1, t)
  have hwf : WellFounded (Prod.Lex (fun a b : Nat => a < b) fun a b : Nat => a < b) :=
    WellFounded.prod_lex Nat.lt_wfRel.wf Nat.lt_wfRel.wf
  refine Subrelation.wf (r := InvImage _ measure) ?_ (InvImage.wf measure hwf)
  intro u t hlook
  show Prod.Lex _ _ _ _
  rcases h.precedes_of_looksAt hlook with ⟨hu, ht⟩ | ⟨hiff, hlt⟩
  · exact .left _ _ (by simp [hu, ht])
  · have hsame : (if p.Closed u then 0 else 1) = if p.Closed t then 0 else 1 := by simp [hiff]
    simp only [measure, hsame]
    exact .right _ hlt

/-! ## Bounds that are never met -/

/-- Two bounds greater than a position give the same result there. -/
theorem resolveWithin_congr (h : p.Sound) {fuel fuel' : Nat} (hfuel : t < fuel)
    (hfuel' : t < fuel') : p.resolveWithin fuel t = p.resolveWithin fuel' t := by
  induction t using Nat.strong_induction_on generalizing fuel fuel' with
  | _ t ih =>
      obtain ⟨fuel, rfl⟩ := Nat.exists_eq_succ_of_ne_zero (Nat.ne_zero_of_lt hfuel)
      obtain ⟨fuel', rfl⟩ := Nat.exists_eq_succ_of_ne_zero (Nat.ne_zero_of_lt hfuel')
      unfold resolveWithin
      cases hd : p.data t with
      | var target =>
          cases target with
          | none => rfl
          | some target =>
              have hclosed := h.forwarded hd
              simp only [hclosed.resolveWithin_eq]
      | derived root op rhs =>
          have hlt := (h.derived_lt hd).1
          have hroot := ih root hlt (Nat.lt_of_lt_of_le hlt (Nat.le_of_lt_succ hfuel))
            (Nat.lt_of_lt_of_le hlt (Nat.le_of_lt_succ hfuel'))
          simp only [hroot]
      | _ => rfl

/-- A larger bound changes nothing. -/
theorem resolveWithin_eq_resolve (h : p.Sound) {fuel : Nat} (hfuel : p.size ≤ fuel) (t : TypeId) :
    p.resolveWithin fuel t = p.resolve t := by
  by_cases ht : t < p.size
  · exact h.resolveWithin_congr (Nat.lt_of_lt_of_le ht hfuel) ht
  · have hvoid : p.data t = .void := data_of_le (Nat.le_of_not_lt ht)
    have hself : ∀ fuel, p.resolveWithin fuel t = t := by
      intro fuel
      cases fuel with
      | zero => rfl
      | succ fuel =>
          unfold resolveWithin
          simp only [hvoid]
    rw [resolve, hself, hself]

/-- Two bounds greater than a position give the same result there. -/
theorem resolveStrictWithin_congr (h : p.Sound) {fuel fuel' : Nat} (hfuel : t < fuel)
    (hfuel' : t < fuel') : p.resolveStrictWithin fuel t = p.resolveStrictWithin fuel' t := by
  induction t using Nat.strong_induction_on generalizing fuel fuel' with
  | _ t ih =>
      obtain ⟨fuel, rfl⟩ := Nat.exists_eq_succ_of_ne_zero (Nat.ne_zero_of_lt hfuel)
      obtain ⟨fuel', rfl⟩ := Nat.exists_eq_succ_of_ne_zero (Nat.ne_zero_of_lt hfuel')
      unfold resolveStrictWithin
      dsimp only
      cases hd : p.data (p.resolve t) with
      | derived root op rhs =>
          -- a closed type is not derived, so the type stands for itself
          have hself : p.resolve t = t := by
            refine (h.resolve_eq_or_closed t).resolve_right fun hclosed => ?_
            simpa [hd, TypeData.isVar] using hclosed.isVar_eq_false
          rw [hself] at hd
          obtain ⟨hroot, hrhs⟩ := h.derived_lt hd
          have hsame (u : TypeId) (hu : u < t) :
              p.resolveStrictWithin fuel u = p.resolveStrictWithin fuel' u :=
            ih u hu (Nat.lt_of_lt_of_le hu (Nat.le_of_lt_succ hfuel))
              (Nat.lt_of_lt_of_le hu (Nat.le_of_lt_succ hfuel'))
          simp only [hsame root hroot, hsame rhs hrhs]
      | _ => rfl

/-- A larger bound changes nothing. -/
theorem resolveStrictWithin_eq_resolveStrict (h : p.Sound) {fuel : Nat} (hfuel : p.size ≤ fuel)
    (t : TypeId) : p.resolveStrictWithin fuel t = p.resolveStrict t := by
  by_cases ht : t < p.size
  · exact h.resolveStrictWithin_congr (Nat.lt_of_lt_of_le ht hfuel) ht
  · have hvoid : p.data t = .void := data_of_le (Nat.le_of_not_lt ht)
    have hself : p.resolve t = t := by
      refine (h.resolve_eq_or_closed t).resolve_right fun hclosed => ?_
      rw [← h.resolveWithin_eq_resolve (Nat.le_succ p.size)] at hclosed
      unfold resolveWithin at hclosed
      simp only [hvoid] at hclosed
      exact ht hclosed.lt_size
    have hsame : ∀ fuel, p.resolveStrictWithin fuel t = .ok t := by
      intro fuel
      unfold resolveStrictWithin
      simp only [hself, hvoid]
    rw [resolveStrict, hsame, hsame]

/-- What a part of a type stands for comes before the type. -/
theorem rank_resolve_part_lt (h : p.Sound) (ht : t < p.size) (hu : u ∈ (p.data t).parts) :
    p.rank (p.resolve u) < p.rank t := by
  have hlt : u < p.size := Nat.lt_trans (h.parts_lt hu) ht
  have hprec : p.Precedes u t := h.precedes_of_looksAt (.inl hu)
  refine rank_lt_rank (h.resolve_lt_size hlt) ?_
  rcases h.resolve_eq_or_closed u with heq | hclosed
  · rwa [heq]
  · by_cases hopen : p.Closed t
    · rw [(hopen.parts hu).resolve_eq]
      exact hprec
    · exact .inl ⟨hclosed, hopen⟩

/-- Two bounds that a rank does not exceed give the same spelling. -/
theorem displayWithin_congr (h : p.Sound) {fuel fuel' : Nat} (hfuel : p.rank (p.resolve t) ≤ fuel)
    (hfuel' : p.rank (p.resolve t) ≤ fuel') :
    p.displayWithin fuel t = p.displayWithin fuel' t := by
  induction hr : p.rank (p.resolve t) using Nat.strong_induction_on generalizing t fuel fuel' with
  | _ r ih =>
      subst hr
      have hparts : ∀ u ∈ (p.data (p.resolve t)).parts, ∀ f f' : Nat, fuel = f + 1 →
          fuel' = f' + 1 → p.displayWithin f u = p.displayWithin f' u := by
        rintro u hu f f' rfl rfl
        have hlt : p.resolve t < p.size := lt_size_of_data_ne fun hvoid => by
          simp [hvoid, TypeData.parts] at hu
        have hrank := h.rank_resolve_part_lt hlt hu
        exact ih _ hrank (by omega) (by omega) rfl
      have hsucc : ∀ u ∈ (p.data (p.resolve t)).parts,
          ∃ f f', fuel = f + 1 ∧ fuel' = f' + 1 := by
        intro u hu
        have hlt : p.resolve t < p.size := lt_size_of_data_ne fun hvoid => by
          simp [hvoid, TypeData.parts] at hu
        have hrank := h.rank_resolve_part_lt hlt hu
        exact ⟨fuel - 1, fuel' - 1, by omega, by omega⟩
      unfold displayWithin
      dsimp only
      cases hd : p.data (p.resolve t) with
      | pointer target =>
          rw [hd] at hparts hsucc
          obtain ⟨f, f', rfl, rfl⟩ := hsucc target (by simp [TypeData.parts])
          simp only [hparts target (by simp [TypeData.parts]) f f' rfl rfl]
      | closure params result captures =>
          rw [hd] at hparts hsucc
          obtain ⟨f, f', rfl, rfl⟩ := hsucc result (by simp [TypeData.parts])
          have hparams : params.map (p.displayWithin f) = params.map (p.displayWithin f') :=
            List.map_congr_left fun u hu => hparts u (by simp [TypeData.parts, hu]) f f' rfl rfl
          simp only [hparams, hparts result (by simp [TypeData.parts]) f f' rfl rfl]
      | _ => rfl

/-- The size of the pool exceeds the rank of every type that can be looked into. -/
theorem rank_resolve_le {fuel : Nat} (hfuel : p.size ≤ fuel) (t : TypeId)
    (hd : (p.data (p.resolve t)).parts ≠ []) : p.rank (p.resolve t) ≤ fuel := by
  have hlt : p.resolve t < p.size := lt_size_of_data_ne fun hvoid => by
    simp [hvoid, TypeData.parts] at hd
  exact Nat.le_of_lt (Nat.lt_of_lt_of_le (rank_lt_size hlt) hfuel)

/-- A larger bound changes nothing. -/
theorem displayWithin_eq_display (h : p.Sound) {fuel : Nat} (hfuel : p.size ≤ fuel) (t : TypeId) :
    p.displayWithin fuel t = p.display t := by
  by_cases hd : (p.data (p.resolve t)).parts = []
  · unfold display
    unfold displayWithin
    dsimp only
    cases hdata : p.data (p.resolve t) <;> simp [hdata, TypeData.parts] at hd <;> rfl
  · exact h.displayWithin_congr (rank_resolve_le hfuel t hd)
      (rank_resolve_le (Nat.le_refl _) t hd)

/-- Types that two bounds compare alike are alike pairwise. -/
theorem all_sameTypeWithin_congr {p : Pool} {fuel fuel' : Nat} {xs : List TypeId}
    (ys : List TypeId) (h : ∀ x ∈ xs, ∀ y, p.sameTypeWithin fuel x y = p.sameTypeWithin fuel' x y) :
    ((xs.zip ys).all fun (x, y) => p.sameTypeWithin fuel x y) =
      (xs.zip ys).all fun (x, y) => p.sameTypeWithin fuel' x y := by
  rw [Bool.eq_iff_iff, List.all_eq_true, List.all_eq_true]
  refine forall₂_congr fun pair hpair => ?_
  simp only [h pair.1 (List.of_mem_zip hpair).1]

/-- Two bounds that a rank does not exceed give the same answer. -/
theorem sameTypeWithin_congr (h : p.Sound) {fuel fuel' : Nat} {b : TypeId}
    (hfuel : p.rank (p.resolve t) ≤ fuel) (hfuel' : p.rank (p.resolve t) ≤ fuel') :
    p.sameTypeWithin fuel t b = p.sameTypeWithin fuel' t b := by
  induction hr : p.rank (p.resolve t) using Nat.strong_induction_on
      generalizing t b fuel fuel' with
  | _ r ih =>
      subst hr
      unfold sameTypeWithin
      dsimp only
      split
      · rfl
      · cases hd : p.data (p.resolve t) with
        | closure params result captures =>
            cases hd' : p.data (p.resolve b) with
            | closure params' result' captures' =>
                have hlt : p.resolve t < p.size := lt_size_of_data_ne (by simp [hd])
                have hrank (u : TypeId) (hu : u ∈ params ++ result :: captures) :
                    p.rank (p.resolve u) < p.rank (p.resolve t) :=
                  h.rank_resolve_part_lt hlt (by rw [hd]; exact hu)
                have hpos := hrank result (by simp)
                obtain ⟨f, rfl⟩ := Nat.exists_eq_succ_of_ne_zero (n := fuel) (by omega)
                obtain ⟨f', rfl⟩ := Nat.exists_eq_succ_of_ne_zero (n := fuel') (by omega)
                have hpart (u : TypeId) (hu : u ∈ params ++ result :: captures) (v : TypeId) :
                    p.sameTypeWithin f u v = p.sameTypeWithin f' u v :=
                  ih _ (hrank u hu) (by have := hrank u hu; omega)
                    (by have := hrank u hu; omega) rfl
                have hparams := all_sameTypeWithin_congr params'
                  fun x (hx : x ∈ params) => hpart x (by simp [hx])
                have hcaptures := all_sameTypeWithin_congr captures'
                  fun x (hx : x ∈ captures) => hpart x (by simp [hx])
                simp only [hpart result (by simp), hparams, hcaptures]
            | _ => rfl
        | _ => rfl

/-- A larger bound changes nothing. -/
theorem sameTypeWithin_eq_sameType (h : p.Sound) {fuel : Nat} (hfuel : p.size ≤ fuel)
    (a b : TypeId) : p.sameTypeWithin fuel a b = p.sameType a b := by
  by_cases hd : (p.data (p.resolve a)).parts = []
  · unfold sameType
    unfold sameTypeWithin
    dsimp only
    cases hdata : p.data (p.resolve a) <;> simp [hdata, TypeData.parts] at hd <;> rfl
  · exact h.sameTypeWithin_congr (rank_resolve_le hfuel a hd)
      (rank_resolve_le (Nat.le_refl _) a hd)

end Sound

end ClassLang.Pool
