import ClassLang.Proofs.Pool.Operations
import ClassLang.Proofs.Pool.Termination

/-!
# Positions of equal types

Equality of types looks at positions and, for closures, at parts. A closure without captures is
shared by its parts as they are written in its entry, so a closure type is not made twice as long as
no part is a variable that is forwarded later. Equality of `Plain` types is then equality of
positions. Equal types of any other kind may stand at different positions, but then both are
closures.
-/

namespace ClassLang.Pool

variable {p q : Pool} {t u : TypeId}

/-- Types that stand for the same position are equal. -/
theorem sameType_of_resolve_eq (h : p.resolve t = p.resolve u) : p.sameType t u = true := by
  unfold sameType sameTypeWithin
  simp [h]

/-- Equal types stand for the same position, or for two closures. -/
theorem sameType_cases (h : p.sameType t u = true) :
    p.resolve t = p.resolve u ∨
      ((∃ params result captures, p.view t = .closure params result captures) ∧
        ∃ params result captures, p.view u = .closure params result captures) := by
  unfold sameType sameTypeWithin at h
  by_cases heq : p.resolve t = p.resolve u
  · exact .inl heq
  · simp only [heq, if_false] at h
    split at h
    · next ht hu => exact .inr ⟨⟨_, _, _, ht⟩, ⟨_, _, _, hu⟩⟩
    · cases h

/-- Types that are made up of neither variables nor closures with captures. -/
inductive Plain (p : Pool) : TypeId → Prop
  | intro {t : TypeId} (known : (p.data t).isVar = false)
      (captures : ∀ params result captures, p.data t = .closure params result captures →
        captures = [])
      (parts : ∀ u ∈ (p.data t).parts, Plain p u) : Plain p t

namespace Plain

theorem resolve_eq (h : p.Plain t) : p.resolve t = t := by
  obtain ⟨known, -, -⟩ := h
  exact resolve_of_not_var known

/-- A plain closure has no captures and is made of plain types. -/
theorem closure {params captures : List TypeId} {result : TypeId} (h : p.Plain t)
    (hd : p.data t = .closure params result captures) :
    captures = [] ∧ (∀ u ∈ params, p.Plain u) ∧ p.Plain result := by
  obtain ⟨-, hcaptures, hparts⟩ := h
  simp only [hd, TypeData.parts] at hparts
  exact ⟨hcaptures _ _ _ hd, fun u hu => hparts u (by simp [hu]), hparts result (by simp)⟩

end Plain

/-- No two entries are the same closure without captures. -/
def Interned (p : Pool) : Prop :=
  ∀ t u params result, p.data t = .closure params result [] → p.data u = .closure params result [] →
    t = u

namespace Interned

/-- Equal types that stand for plain ones stand for the same position. -/
theorem resolve_eq_of_sameTypeWithin (h : p.Interned) {fuel : Nat} {t u : TypeId}
    (ht : p.Plain (p.resolve t)) (hu : p.Plain (p.resolve u))
    (hsame : p.sameTypeWithin fuel t u = true) : p.resolve t = p.resolve u := by
  induction fuel generalizing t u with
  | zero =>
      unfold sameTypeWithin at hsame
      dsimp only at hsame
      split at hsame
      · assumption
      · split at hsame <;> cases hsame
  | succ fuel ih =>
      unfold sameTypeWithin at hsame
      dsimp only at hsame
      split at hsame
      · assumption
      split at hsame
      · next params result captures params' result' captures' hd hd' =>
          obtain ⟨rfl, hparams, hresult⟩ := ht.closure hd
          obtain ⟨rfl, hparams', hresult'⟩ := hu.closure hd'
          -- the parts of plain types stand for themselves, so equal parts are the same ones
          have hpart : ∀ {a b}, p.Plain a → p.Plain b →
              p.sameTypeWithin fuel a b = true → a = b := by
            intro a b ha hb hab
            have heq := ih (ha.resolve_eq.symm ▸ ha) (hb.resolve_eq.symm ▸ hb) hab
            rwa [ha.resolve_eq, hb.resolve_eq] at heq
          simp only [Bool.and_eq_true, beq_iff_eq, List.all_eq_true] at hsame
          obtain ⟨⟨⟨⟨hlength, hzip⟩, hres⟩, -⟩, -⟩ := hsame
          have heq : List.Forall₂ Eq params params' := by
            refine List.forall₂_iff_zip.mpr ⟨hlength, fun {a b} hab => ?_⟩
            obtain ⟨ha, hb⟩ := List.of_mem_zip hab
            exact hpart (hparams a ha) (hparams' b hb) (hzip (a, b) hab)
          rw [List.forall₂_eq_eq_eq] at heq
          cases heq
          cases hpart hresult hresult' hres
          exact h _ _ _ _ hd hd'
      · cases hsame

end Interned

/-- In a pool whose tables are those of its entries, closures are apart. -/
theorem Indexed.interned (h : p.Indexed) : p.Interned := by
  intro t u params result ht hu
  exact h.eq_of_data_eq (by rw [hu]; rfl) (ht.trans hu.symm)

end ClassLang.Pool
