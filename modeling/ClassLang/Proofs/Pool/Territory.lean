import ClassLang.Proofs.Pool.Soundness

/-!
# What a calculation may touch

A calculation starts from a pool that others have filled. The types it can get hold of are a
`Territory`: everything made from then on, and of the older types only closed ones, together with
all they mention. While the pool is `Kept`, it stays sound, its old entries stay as they were, and
nothing in the territory mentions anything outside of it.

`Change` lists the operations that change a pool. `Passes ok p q` says that `q` comes from `p` by
such operations with `ok` holding after each of them, so it speaks about every pool on the way.
-/

namespace ClassLang.Pool

variable {p₀ p q r : Pool} {N : TypeId → Prop} {t u : TypeId}

/-- The entries of `p₀` stand unchanged in `p`. -/
structure Agrees (p₀ p : Pool) : Prop where
  size_le : p₀.size ≤ p.size
  data_eq : ∀ t < p₀.size, p.data t = p₀.data t

/-- What types of a set mention is in the set. -/
def Respects (p : Pool) (N : TypeId → Prop) : Prop :=
  ∀ t, N t → ∀ u ∈ (p.data t).mentions, N u

/-- The types that a calculation from `p₀` on may get hold of. -/
structure Territory (p₀ : Pool) (N : TypeId → Prop) : Prop where
  sound : p₀.Sound
  builtin : ∀ t < initial.size, N t
  later : ∀ t, p₀.size ≤ t → N t
  closed : ∀ t < p₀.size, N t → p₀.Closed t
  respects : p₀.Respects N
  /-- Pointers and closures made of types in the territory are in it. -/
  composite : ∀ t < p₀.size, (p₀.data t).parts ≠ [] → (∀ u ∈ (p₀.data t).parts, N u) → N t

/-- A pool in which a calculation from `p₀` on has stayed in its territory. -/
structure Kept (p₀ : Pool) (N : TypeId → Prop) (p : Pool) : Prop where
  sound : p.Sound
  agrees : p₀.Agrees p
  respects : p.Respects N

/-- An entry that may be added to a pool. -/
structure Admits (p : Pool) (N : TypeId → Prop) (d : TypeData) : Prop where
  parts_lt : ∀ u ∈ d.parts, u < p.size
  sources_lt : ∀ u ∈ d.sources, u < p.size
  not_forwarded : ∀ target, d ≠ .var (some target)
  members : ∀ u ∈ d.members, p.Closed u
  params : ∀ params result captures, d = .closure params result captures →
    ∀ u ∈ params, p.Closed u ∨ ∃ target, p.data u = .var target
  mentions : ∀ u ∈ d.mentions, N u

/-- A variable stays a variable. -/
theorem Evolves.exists_var (he : p.Evolves q) (h : ∃ target, p.data t = .var target) :
    ∃ target, q.data t = .var target := by
  obtain ⟨target, h⟩ := h
  have hlt : t < p.size := lt_size_of_data_ne (by simp [h])
  have hb := he.becomes t hlt
  rw [h] at hb
  generalize q.data t = d at hb
  cases hb with
  | same => exact ⟨_, rfl⟩
  | forwarded target => exact ⟨_, rfl⟩

namespace Sound

/-- A sound pool stays sound when an admitted entry is added and entered in its table. -/
theorem appends {d : TypeData} (h : p.Sound) (hd : p.Admits N d) (hq : p.Appends d q)
    (hindexed : q.Indexed) : q.Sound := by
  have he := Evolves.appends hq
  refine ⟨hindexed, fun t ht => ?_, fun {t u} hu => ?_, fun {t root op rhs} heq => ?_,
    fun {t target} heq => ?_, fun {t u} hu => ?_, fun {t params result captures} heq u hu => ?_⟩
  · obtain ⟨hlt, hdata⟩ := h.builtin t ht
    exact ⟨Nat.lt_of_lt_of_le hlt he.size_le, by rw [hq.data_eq, if_neg (Nat.ne_of_lt hlt), hdata]⟩
  · rw [hq.data_eq] at hu
    split at hu
    · next heq => exact heq ▸ hd.parts_lt u hu
    · exact h.parts_lt hu
  · rw [hq.data_eq] at heq
    split at heq
    · next ht =>
        subst heq
        exact ht ▸ ⟨hd.sources_lt root (by simp [TypeData.sources]),
          hd.sources_lt rhs (by simp [TypeData.sources])⟩
    · exact h.derived_lt heq
  · rw [hq.data_eq] at heq
    split at heq
    · exact absurd heq (hd.not_forwarded target)
    · exact (h.forwarded heq).mono he
  · rw [hq.data_eq] at hu
    split at hu
    · exact (hd.members u hu).mono he
    · exact (h.members hu).mono he
  · rw [hq.data_eq] at heq
    split at heq
    · exact (hd.params _ _ _ heq u hu).imp (·.mono he) he.exists_var
    · exact (h.params heq u hu).imp (·.mono he) he.exists_var

/-- A sound pool stays sound when an entry that stands after the built-in ones evolves. -/
theorem set {d : TypeData} (h : p.Sound) (ht : initial.size ≤ t) (hb : (p.data t).Becomes d)
    (hmembers : ∀ u ∈ d.members, p.Closed u)
    (hforwarded : ∀ target, d = .var (some target) → p.Closed target) : (p.set t d).Sound := by
  have he : p.Evolves (p.set t d) := .set hb
  have hparts (u : TypeId) : ((p.set t d).data u).parts = (p.data u).parts := by
    rw [data_set]
    split
    · next heq =>
        rw [heq.1]
        exact hb.parts_eq
    · rfl
  refine ⟨h.indexed.set hb, fun u hu => ?_, fun {u v} hv => ?_, fun {u root op rhs} heq => ?_,
    fun {u target} heq => ?_, fun {u v} hv => ?_, fun {u params result captures} heq v hv => ?_⟩
  · obtain ⟨hlt, hdata⟩ := h.builtin u hu
    have hne : u ≠ t := by omega
    exact ⟨by simpa using hlt, by rw [data_set_of_ne p d hne, hdata]⟩
  · rw [hparts] at hv
    exact h.parts_lt hv
  · rw [data_set] at heq
    split at heq
    · next hu =>
        subst heq
        rw [hu.1]
        cases hd : p.data t with
        | derived root' op' rhs' =>
            rw [hd] at hb
            cases hb with
            | same => exact h.derived_lt hd
        | _ => rw [hd] at hb; cases hb
    · exact h.derived_lt heq
  · rw [data_set] at heq
    split at heq
    · exact (hforwarded target heq).mono he
    · exact (h.forwarded heq).mono he
  · rw [data_set] at hv
    split at hv
    · exact (hmembers v hv).mono he
    · exact (h.members hv).mono he
  · rw [data_set] at heq
    split at heq
    · next hu =>
        subst heq
        cases hd : p.data t with
        | closure params' result' captures' =>
            rw [hd] at hb
            cases hb with
            | same => exact (h.params hd v hv).imp (·.mono he) he.exists_var
        | _ => rw [hd] at hb; cases hb
    · exact (h.params heq v hv).imp (·.mono he) he.exists_var

end Sound

namespace Kept

/-- Types that are new since `p₀` are in the territory. -/
theorem mem_later (h : p₀.Kept N p) (hT : p₀.Territory N) (ht : p.size ≤ t) : N t :=
  hT.later t (Nat.le_trans h.agrees.size_le ht)

/-- Adding an admitted entry keeps the territory. -/
theorem appends {d : TypeData} (h : p₀.Kept N p) (hd : p.Admits N d) (hq : p.Appends d q)
    (hindexed : q.Indexed) : p₀.Kept N q where
  sound := h.sound.appends hd hq hindexed
  agrees := {
    size_le := Nat.le_trans h.agrees.size_le (Evolves.appends hq).size_le
    data_eq := fun t ht => by
      have hlt : t < p.size := Nat.lt_of_lt_of_le ht h.agrees.size_le
      rw [hq.data_eq, if_neg (Nat.ne_of_lt hlt), h.agrees.data_eq t ht] }
  respects t ht u hu := by
    rw [hq.data_eq] at hu
    split at hu
    · exact hd.mentions u hu
    · exact h.respects t ht u hu

theorem push {d : TypeData} (h : p₀.Kept N p) (hd : p.Admits N d) (hown : d.isShared = false) :
    p₀.Kept N (p.push d).2 :=
  h.appends hd (.push p d) (h.sound.indexed.push hown)

/-- Changing an entry made since `p₀` keeps the territory. -/
theorem set {d : TypeData} (hT : p₀.Territory N) (h : p₀.Kept N p) (ht : p₀.size ≤ t)
    (hb : (p.data t).Becomes d) (hmembers : ∀ u ∈ d.members, p.Closed u)
    (hforwarded : ∀ target, d = .var (some target) → p.Closed target)
    (hmentions : ∀ u ∈ d.mentions, N u) : p₀.Kept N (p.set t d) where
  sound := h.sound.set (Nat.le_trans hT.sound.initial_size_le ht) hb hmembers hforwarded
  agrees := {
    size_le := by simpa using h.agrees.size_le
    data_eq := fun u hu => by
      have hne : u ≠ t := by omega
      rw [data_set_of_ne p d hne, h.agrees.data_eq u hu] }
  respects u hu v hv := by
    rw [data_set] at hv
    split at hv
    · exact hmentions v hv
    · exact h.respects u hu v hv

/-- What a type of the territory stands for is in the territory. -/
theorem resolve_mem (hT : p₀.Territory N) (h : p₀.Kept N p) (ht : N t) : N (p.resolve t) := by
  suffices ∀ fuel t, N t → N (p.resolveWithin fuel t) from this _ t ht
  intro fuel
  induction fuel with
  | zero => exact fun t ht => ht
  | succ fuel ih =>
      intro t ht
      unfold resolveWithin
      split
      · next target hd =>
          exact ih target (h.respects t ht target (by simp [hd, TypeData.mentions, TypeData.sources]))
      · next root op rhs hd =>
          have hroot : N root :=
            h.respects t ht root (by simp [hd, TypeData.mentions, TypeData.sources])
          dsimp only
          split
          · next operation hop =>
              rcases resultType_of_operator (t := p.resolveWithin fuel root) hop with heq | heq
              · rw [heq]
                exact ih root hroot
              · rw [heq]
                exact hT.builtin _ (by decide)
          · exact ht
      · exact ht

end Kept

/-! ## Calculations inside a calculation -/

/-- What is left of a territory to a calculation that starts from `p`: new types, and closed ones
of the territory. -/
def Inner (N : TypeId → Prop) (p : Pool) (t : TypeId) : Prop :=
  p.size ≤ t ∨ (N t ∧ p.Closed t)

/-- In a sound pool, what is left of a set that respects mentions and contains the built-in types
is a territory. -/
theorem Sound.inner (h : p.Sound) (hbuiltin : ∀ t < initial.size, N t) (hrespects : p.Respects N)
    (hcomposite : ∀ t < p.size, (p.data t).parts ≠ [] → (∀ u ∈ (p.data t).parts, N u) → N t) :
    p.Territory (Inner N p) where
  sound := h
  builtin t ht := .inr ⟨hbuiltin t ht, h.closed_builtin ht⟩
  later t ht := .inl ht
  closed t hlt ht := ht.elim (fun hle => absurd hlt (Nat.not_lt.2 hle)) And.right
  respects t ht u hu := by
    rcases ht with hle | ⟨hN, hclosed⟩
    · simp [data_of_le hle, TypeData.mentions, TypeData.parts, TypeData.members,
        TypeData.sources] at hu
    · refine .inr ⟨hrespects t hN u hu, ?_⟩
      simp only [TypeData.mentions, List.mem_append] at hu
      rcases hu with (hu | hu) | hu
      · exact hclosed.parts hu
      · exact h.members hu
      · have hvar := hclosed.isVar_eq_false
        generalize p.data t = d at hu hvar
        cases d <;> simp [TypeData.sources] at hu <;> cases hvar
  composite t hlt hparts hall := by
    have hinner (u : TypeId) (hu : u ∈ (p.data t).parts) : N u ∧ p.Closed u :=
      (hall u hu).resolve_left (Nat.not_le.2 (Nat.lt_trans (h.parts_lt hu) hlt))
    refine .inr ⟨hcomposite t hlt hparts fun u hu => (hinner u hu).1,
      .intro hlt ?_ fun u hu => (hinner u hu).2⟩
    generalize p.data t = d at hparts
    cases d <;> first | rfl | exact absurd rfl hparts

/-- A calculation may start from any sound pool. -/
theorem Sound.territory (h : p.Sound) : p.Territory (Inner (fun _ => True) p) :=
  h.inner (fun _ _ => True.intro) (fun _ _ _ _ => True.intro) fun _ _ _ _ => True.intro

/-- Entries that agree stand at the same place. -/
theorem Agrees.getElem?_eq (h : p.Agrees q) (ht : t < p.size) : q.entries[t]? = p.entries[t]? := by
  have hlt : t < q.size := Nat.lt_of_lt_of_le ht h.size_le
  have hdata := h.data_eq t ht
  simp only [size] at ht hlt
  simp only [data, Array.getD_eq_getD_getElem?, Array.getElem?_eq_getElem ht,
    Array.getElem?_eq_getElem hlt, Option.getD_some] at hdata
  rw [Array.getElem?_eq_getElem ht, Array.getElem?_eq_getElem hlt, hdata]

namespace Kept

/-- The inner territory lies in the outer one. -/
theorem mem_of_inner (hT : p₀.Territory N) (h : p₀.Kept N p) (ht : Inner N p t) : N t :=
  ht.elim (h.mem_later hT) And.left

/-- A calculation may start in the midst of another. -/
theorem inner (hT : p₀.Territory N) (h : p₀.Kept N p) : p.Territory (Inner N p) := by
  refine h.sound.inner hT.builtin h.respects fun t hlt hparts hall => ?_
  by_cases hlate : p₀.size ≤ t
  · exact hT.later t hlate
  · have hsame := h.agrees.data_eq t (Nat.lt_of_not_le hlate)
    rw [hsame] at hparts hall
    exact hT.composite t (Nat.lt_of_not_le hlate) hparts hall

/-- What an inner calculation keeps, the outer one keeps. -/
theorem of_inner (hT : p₀.Territory N) (h : p₀.Kept N p) (hq : p.Kept (Inner N p) q) :
    p₀.Kept N q where
  sound := hq.sound
  agrees := {
    size_le := Nat.le_trans h.agrees.size_le hq.agrees.size_le
    data_eq := fun t ht => by
      rw [hq.agrees.data_eq t (Nat.lt_of_lt_of_le ht h.agrees.size_le), h.agrees.data_eq t ht] }
  respects t ht u hu := by
    by_cases hlt : t < p.size
    · rw [hq.agrees.data_eq t hlt] at hu
      exact h.respects t ht u hu
    · exact h.mem_of_inner hT (hq.respects t (.inl (Nat.le_of_not_lt hlt)) u hu)

end Kept

end ClassLang.Pool
