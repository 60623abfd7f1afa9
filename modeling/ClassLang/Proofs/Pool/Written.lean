import ClassLang.Proofs.Pool.Interning

/-!
# Types that can be written down

A type expression never mentions a variable or a capture, so what it denotes is made of classes,
data types, cases and built-in types, of pointers to them, and of closures without captures over
them. Such a type is `Written`. It stays written while the pool evolves, and it is the only written
type that is equal to whatever it is equal to (`Interned.eq_of_sameType`).
-/

namespace ClassLang.Pool

variable {p q : Pool} {t u x : TypeId}

/-- Types that can be written down. -/
inductive Written (p : Pool) : TypeId → Prop
  | intro {t : TypeId} (hlt : t < p.size) (known : (p.data t).isVar = false)
      (captures : ∀ params result captures, p.data t = .closure params result captures →
        captures = [])
      (parts : ∀ u ∈ (p.data t).parts, Written p u) : Written p t

namespace Written

theorem plain (h : p.Written t) : p.Plain t := by
  induction h with
  | intro _ known captures _ ih => exact .intro known captures ih

theorem lt_size (h : p.Written t) : t < p.size := by
  cases h with
  | intro hlt => exact hlt

theorem isVar_eq (h : p.Written t) : (p.data t).isVar = false := by
  cases h with
  | intro _ known => exact known

theorem resolve_eq (h : p.Written t) : p.resolve t = t :=
  h.plain.resolve_eq

/-- What can be written down stays so while the pool evolves. -/
theorem mono (h : p.Written t) (he : p.Evolves q) : q.Written t := by
  induction h with
  | @intro t hlt known captures _ ih =>
      have hb := he.becomes t hlt
      refine .intro (Nat.lt_of_lt_of_le hlt he.size_le) (hb.isVar_eq.trans known) ?_ fun u hu => ?_
      · -- no closure is changed, and none comes of another kind
        intro params result captured hd
        rw [hd] at hb
        generalize hold : p.data t = before at hb
        cases hb
        exact captures _ _ _ hold
      · rw [hb.parts_eq] at hu
        exact ih u hu

/-- A type without parts that is no variable. -/
theorem of_no_parts (hlt : t < p.size) (hvar : (p.data t).isVar = false)
    (hparts : (p.data t).parts = []) : p.Written t := by
  refine .intro hlt hvar (fun params result captures hd => ?_) (by simp [hparts])
  simp [hd, TypeData.parts] at hparts

/-- Classes, data types and cases can be written down. -/
theorem of_nominalName {name : String} (h : (p.data t).nominalName? = some name) :
    p.Written t := by
  have hlt : t < p.size := lt_size_of_data_ne fun hd => by simp [hd, TypeData.nominalName?] at h
  refine .of_no_parts hlt ?_ ?_ <;>
    cases hd : p.data t <;> simp [hd, TypeData.nominalName?] at h <;> rfl

/-- The types that every pool begins with can be written down. -/
theorem builtin (he : initial.Evolves p) (ht : t < initial.size) : p.Written t := by
  refine mono (p := initial) ?_ he
  have hvars : ∀ t < initial.size, (initial.data t).isVar = false := by decide
  have hparts : ∀ t < initial.size, ∀ u ∈ (initial.data t).parts, u = TypeId.char := by decide
  have hclosures : ∀ t < initial.size, (initial.data t).flags ≠ 10 := by decide
  refine .intro ht (hvars t ht) (fun params result captures hd => ?_) fun u hu => ?_
  · exact absurd (by rw [hd]; rfl) (hclosures t ht)
  · rw [hparts t ht u hu]
    exact .of_no_parts (by decide) rfl rfl

/-- An entry made of types that can be written down, which is shared. -/
theorem share {d : TypeData} (hp : p.Indexed) (hvoid : d ≠ .void) (hvar : d.isVar = false)
    (hcaptures : ∀ params result captures, d = .closure params result captures → captures = [])
    (hparts : ∀ u ∈ d.parts, p.Written u) : (p.share d).2.Written (p.share d).1 := by
  rcases p.share_cases d with ⟨t, hfound, heq⟩ | ⟨-, hnew, happends⟩
  · rw [heq]
    obtain rfl := hp.data_of_shared? hfound
    exact .intro (lt_size_of_data_ne hvoid) hvar hcaptures hparts
  · have hself : (p.share d).2.data (p.share d).1 = d := by
      rw [hnew, happends.data_eq, if_pos rfl]
    refine .intro (by simp [hnew, happends.size_eq]) ?_ ?_ fun u hu => ?_
    · rwa [hself]
    · rwa [hself]
    · rw [hself] at hu
      exact (hparts u hu).mono (.appends happends)

theorem pointer (hp : p.Indexed) (h : p.Written t) :
    (p.pointer t).2.Written (p.pointer t).1 := by
  refine .share hp (by simp) rfl (by simp) fun u hu => ?_
  rw [List.mem_singleton.mp hu, h.resolve_eq]
  exact h

theorem closure {params : List TypeId} {result : TypeId} (hp : p.Indexed)
    (hparams : ∀ u ∈ params, p.Written u) (hresult : p.Written result) :
    (p.closure params result []).2.Written (p.closure params result []).1 := by
  refine .share hp (by simp) rfl (by simp) fun u hu => ?_
  rcases List.mem_append.mp hu with hu | hu
  · exact hparams u hu
  · rw [List.mem_singleton.mp hu]
    exact hresult

theorem addCase {owner added : TypeId} {name shortName : String}
    {fields : List (String × TypeId)} (h : p.addCase owner name shortName fields = .ok (added, q)) :
    q.Written added := by
  obtain ⟨ownerName, cases, methods, hd, rfl, rfl⟩ := addCase_cases h
  have howner : owner < p.size := lt_size_of_data_ne (by simp [hd])
  have hdata := data_push_self p (.variant name shortName cases.length owner fields)
  rw [fst_push, ← data_set_of_ne _ _ (Nat.ne_of_gt howner)] at hdata
  exact of_nominalName (congrArg TypeData.nominalName? hdata)

end Written

/-! ## Equality -/

/-- Equality of types looks at what they stand for. -/
theorem sameTypeWithin_congr_right {fuel : Nat} (h : p.resolve u = p.resolve x) (t : TypeId) :
    p.sameTypeWithin fuel t u = p.sameTypeWithin fuel t x := by
  unfold sameTypeWithin
  rw [h]

/-- Types that stand for the same position are equal. -/
theorem sameTypeWithin_of_resolve_eq (h : p.resolve t = p.resolve u) (fuel : Nat) :
    p.sameTypeWithin fuel t u = true := by
  unfold sameTypeWithin
  simp [h]

/-- Types that stand for closures with equal parts are equal. -/
theorem sameTypeWithin_of_closures {fuel : Nat} {params captures params' captures' : List TypeId}
    {result result' : TypeId} (ht : p.data (p.resolve t) = .closure params result captures)
    (hu : p.data (p.resolve u) = .closure params' result' captures')
    (hparams : List.Forall₂ (fun a b => p.sameTypeWithin fuel a b = true) params params')
    (hresult : p.sameTypeWithin fuel result result' = true)
    (hcaptures : List.Forall₂ (fun a b => p.sameTypeWithin fuel a b = true) captures captures') :
    p.sameTypeWithin (fuel + 1) t u = true := by
  unfold sameTypeWithin
  dsimp only
  split
  · rfl
  · obtain ⟨hlength, hzip⟩ := List.forall₂_iff_zip.mp hparams
    obtain ⟨hlength', hzip'⟩ := List.forall₂_iff_zip.mp hcaptures
    simp only [ht, hu, hresult, Bool.and_eq_true, beq_iff_eq, List.all_eq_true]
    exact ⟨⟨⟨⟨hlength, fun _ hpair => hzip hpair⟩, trivial⟩, hlength'⟩, fun _ hpair => hzip' hpair⟩

/-- Equal types stand for the same position, or for closures with equal parts. -/
theorem sameTypeWithin_cases {fuel : Nat} (h : p.sameTypeWithin fuel t u = true) :
    p.resolve t = p.resolve u ∨
      ∃ params result captures params' result' captures' nested, fuel = nested + 1 ∧
        p.data (p.resolve t) = .closure params result captures ∧
        p.data (p.resolve u) = .closure params' result' captures' ∧
        List.Forall₂ (fun a b => p.sameTypeWithin nested a b = true) params params' ∧
        p.sameTypeWithin nested result result' = true ∧
        List.Forall₂ (fun a b => p.sameTypeWithin nested a b = true) captures captures' := by
  unfold sameTypeWithin at h
  dsimp only at h
  split at h
  · next heq => exact .inl heq
  split at h
  · next params result captures params' result' captures' ht hu =>
      cases fuel with
      | zero => cases h
      | succ nested =>
          simp only [Bool.and_eq_true, beq_iff_eq, List.all_eq_true] at h
          obtain ⟨⟨⟨⟨hlength, hzip⟩, hresult⟩, hlength'⟩, hzip'⟩ := h
          refine .inr ⟨params, result, captures, params', result', captures', nested, rfl, ht, hu,
            ?_, hresult, ?_⟩
          · exact List.forall₂_iff_zip.mpr ⟨hlength, fun {a b} hab => hzip (a, b) hab⟩
          · exact List.forall₂_iff_zip.mpr ⟨hlength', fun {a b} hab => hzip' (a, b) hab⟩
  · cases h

namespace Interned

/-- Plain types that are equal to a third type, of whatever kind, stand for the same position. -/
theorem resolve_eq_of_common (h : p.Interned) {fuel : Nat} {t u x : TypeId}
    (ht : p.Plain (p.resolve t)) (hu : p.Plain (p.resolve u))
    (htx : p.sameTypeWithin fuel t x = true) (hux : p.sameTypeWithin fuel u x = true) :
    p.resolve t = p.resolve u := by
  induction fuel using Nat.strong_induction_on generalizing t u x with
  | _ fuel ih =>
      rcases sameTypeWithin_cases htx with ht' | ⟨params, result, captures, params', result',
        captures', nested, rfl, hd, hx, hparams, hresult, -⟩
      · -- the third type stands for a plain one, so all that is compared is plain
        rw [← sameTypeWithin_congr_right ht' u] at hux
        exact (h.resolve_eq_of_sameTypeWithin hu ht hux).symm
      rcases sameTypeWithin_cases hux with hu' | ⟨params₂, result₂, captures₂, params₂', result₂',
        captures₂', nested₂, hnested, hd₂, hx₂, hparams₂, hresult₂, -⟩
      · rw [← sameTypeWithin_congr_right hu' t] at htx
        exact h.resolve_eq_of_sameTypeWithin ht hu htx
      cases hnested
      cases hx.symm.trans hx₂
      obtain ⟨rfl, hplain, hplain'⟩ := ht.closure hd
      obtain ⟨rfl, hplain₂, hplain₂'⟩ := hu.closure hd₂
      have hpart : ∀ {a b c}, p.Plain a → p.Plain b → p.sameTypeWithin nested a c = true →
          p.sameTypeWithin nested b c = true → a = b := by
        intro a b c ha hb hac hbc
        have heq := ih nested (Nat.lt_succ_self _) (ha.resolve_eq.symm ▸ ha)
          (hb.resolve_eq.symm ▸ hb) hac hbc
        rwa [ha.resolve_eq, hb.resolve_eq] at heq
      have heq : params = params₂ := by
        clear hd hd₂ hx hx₂
        induction hparams generalizing params₂ with
        | nil =>
            cases hparams₂
            rfl
        | cons hac _ ih' =>
            cases hparams₂ with
            | cons hbc hrest =>
                rw [hpart (hplain _ (by simp)) (hplain₂ _ (by simp)) hac hbc,
                  ih' _ hrest (fun a ha => hplain a (List.mem_cons_of_mem _ ha))
                    fun a ha => hplain₂ a (List.mem_cons_of_mem _ ha)]
      subst heq
      cases hpart hplain' hplain₂' hresult hresult₂
      exact h _ _ _ _ hd hd₂

/-- Of the types that can be written down at most one is equal to a given type. -/
theorem eq_of_sameType (h : p.Interned) (ht : p.Written t) (hu : p.Written u)
    (htx : p.sameType t x = true) (hux : p.sameType u x = true) : t = u := by
  have heq := h.resolve_eq_of_common (ht.resolve_eq.symm ▸ ht.plain) (hu.resolve_eq.symm ▸ hu.plain)
    htx hux
  rwa [ht.resolve_eq, hu.resolve_eq] at heq

end Interned

end ClassLang.Pool
