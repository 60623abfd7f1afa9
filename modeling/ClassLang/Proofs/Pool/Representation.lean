import ClassLang.Proofs.Pool.Founded

/-!
# What a pool keeps in step

A pool tells some things twice: the classification of an entry stands beside it, pointers and
closures without captures stand in tables, and a data type and its cases name each other. A pool is
`WellFormed` if all of these agree, the built-in types stand where they belong, and no entry mentions
a position outside of the pool. Every sequence of operations on the types of a pool keeps it so.
-/

namespace ClassLang

namespace TypeData

/-- The cases of a data type. -/
def cases? : TypeData → Option (List TypeId)
  | data _ cases _ => some cases
  | _ => none

/-- The tag of a case, and the data type it belongs to. -/
def place? : TypeData → Option (Nat × TypeId)
  | variant _ _ tag owner _ => some (tag, owner)
  | _ => none

end TypeData

namespace Pool

open Relation (ReflTransGen)

variable {p q : Pool} {t u : TypeId} {d : TypeData}

/-- Data types and their cases name each other. -/
structure Linked (p : Pool) : Prop where
  /-- The case at a place of the list of a data type has that place as its tag. -/
  listed : ∀ {t cases k c}, (p.data t).cases? = some cases → cases[k]? = some c →
    (p.data c).place? = some (k, t)
  /-- A case stands in the list of its data type at the place of its tag. -/
  owned : ∀ {c tag owner}, (p.data c).place? = some (tag, owner) →
    ∃ cases, (p.data owner).cases? = some cases ∧ cases[tag]? = some c

/-- Nothing outside a pool is a data type. -/
theorem lt_size_of_cases? {cases : List TypeId} (h : (p.data t).cases? = some cases) :
    t < p.size :=
  lt_size_of_data_ne fun hvoid => by simp [hvoid, TypeData.cases?] at h

/-- Nothing outside a pool is a case. -/
theorem lt_size_of_place? {place : Nat × TypeId} (h : (p.data t).place? = some place) :
    t < p.size :=
  lt_size_of_data_ne fun hvoid => by simp [hvoid, TypeData.place?] at h

namespace Linked

/-- There is no data type yet. -/
theorem initial : Pool.initial.Linked := by
  have hnone : ∀ t, (Pool.initial.data t).cases? = none ∧ (Pool.initial.data t).place? = none := by
    intro t
    by_cases ht : t < Pool.initial.size
    · have hsmall : ∀ t < Pool.initial.size,
          (Pool.initial.data t).cases? = none ∧ (Pool.initial.data t).place? = none := by decide
      exact hsmall t ht
    · rw [data_of_le (Nat.le_of_not_lt ht)]
      exact ⟨rfl, rfl⟩
  refine ⟨fun {t cases k c} ht _ => ?_, fun {c tag owner} hc => ?_⟩
  · simp [(hnone t).1] at ht
  · simp [(hnone c).2] at hc

/-- Data types and cases that stay as they are stay linked. -/
theorem congr (h : p.Linked) (hcases : ∀ t, (q.data t).cases? = (p.data t).cases?)
    (hplace : ∀ t, (q.data t).place? = (p.data t).place?) : q.Linked where
  listed ht hk := by
    rw [hcases] at ht
    rw [hplace]
    exact h.listed ht hk
  owned hc := by
    rw [hplace] at hc
    obtain ⟨cases, howner, htag⟩ := h.owned hc
    exact ⟨cases, by rw [hcases, howner], htag⟩

/-- An added entry that is neither a data type nor a case. -/
theorem appends (h : p.Linked) (hcases : d.cases? = none) (hplace : d.place? = none)
    (hq : p.Appends d q) : q.Linked := by
  have hout : p.data p.size = .void := data_of_le (Nat.le_refl _)
  refine h.congr (fun t => ?_) fun t => ?_ <;> rw [hq.data_eq] <;> split
  · next ht => rw [hcases, ht, hout]; rfl
  · rfl
  · next ht => rw [hplace, ht, hout]; rfl
  · rfl

/-- A changed entry with the same cases and the same place. -/
theorem set (h : p.Linked) (hcases : d.cases? = (p.data t).cases?)
    (hplace : d.place? = (p.data t).place?) : (p.set t d).Linked := by
  refine h.congr (fun u => ?_) fun u => ?_ <;> rw [data_set] <;> split
  · next hu => rw [hcases, hu.1]
  · rfl
  · next hu => rw [hplace, hu.1]
  · rfl

/-- A data type without cases is added. -/
theorem newData (h : p.Linked) (name : String) : (p.newData name).2.Linked := by
  have hq : p.Appends (.data name [] []) (p.newData name).2 := .push p _
  refine ⟨fun {t cases k c} ht hk => ?_, fun {c tag owner} hc => ?_⟩
  · rw [hq.data_eq] at ht
    split at ht
    · cases ht
      simp at hk
    · have hplace := h.listed ht hk
      rwa [hq.data_eq, if_neg (Nat.ne_of_lt (lt_size_of_place? hplace))]
  · rw [hq.data_eq] at hc
    split at hc
    · cases hc
    · obtain ⟨cases, howner, htag⟩ := h.owned hc
      have hlt := lt_size_of_cases? howner
      exact ⟨cases, by rw [hq.data_eq, if_neg (Nat.ne_of_lt hlt), howner], htag⟩

/-- A case is added, with the next free tag. -/
theorem addCase (h : p.Linked) {owner added : TypeId} {name shortName : String}
    {fields : List (String × TypeId)} (hq : p.addCase owner name shortName fields = .ok (added, q)) :
    q.Linked := by
  obtain ⟨ownerName, cases, methods, hd, -, rfl⟩ := addCase_cases hq
  have howner : owner < p.size := lt_size_of_data_ne (by simp [hd])
  have hdata : ∀ t, ((p.push (.variant name shortName cases.length owner fields)).2.set owner
      (.data ownerName (cases ++ [p.size]) methods)).data t =
        if t = owner then .data ownerName (cases ++ [p.size]) methods
        else if t = p.size then .variant name shortName cases.length owner fields
        else p.data t := fun t => by
    simp only [data_set, data_push, size_push, Nat.lt_succ_of_lt howner, and_true]
  have hlast : p.size ≠ owner := Nat.ne_of_gt howner
  -- a case that was there is neither the data type nor the new case
  have hold : ∀ {c k t}, (p.data c).place? = some (k, t) → c ≠ owner ∧ c ≠ p.size := by
    refine fun hplace => ⟨?_, Nat.ne_of_lt (lt_size_of_place? hplace)⟩
    rintro rfl
    simp [hd, TypeData.place?] at hplace
  refine ⟨fun {t listed k c} ht hk => ?_, fun {c tag t} hc => ?_⟩
  · rw [hdata] at ht ⊢
    by_cases hto : t = owner
    · subst hto
      rw [if_pos rfl] at ht
      cases ht
      rcases Nat.lt_trichotomy k cases.length with hlt | rfl | hgt
      · rw [List.getElem?_append_left hlt] at hk
        have hplace := h.listed (t := t) (by rw [hd]; rfl) hk
        rwa [if_neg (hold hplace).1, if_neg (hold hplace).2]
      · simp only [List.getElem?_concat_length, Option.some.injEq] at hk
        subst hk
        rw [if_neg hlast, if_pos rfl]
        rfl
      · rw [List.getElem?_eq_none (by simp; omega)] at hk
        cases hk
    · rw [if_neg hto] at ht
      split at ht
      · cases ht
      · have hplace := h.listed ht hk
        rwa [if_neg (hold hplace).1, if_neg (hold hplace).2]
  · rw [hdata] at hc
    split at hc
    · cases hc
    split at hc
    · next hcs =>
        cases hc
        refine ⟨cases ++ [p.size], by rw [hdata, if_pos rfl]; rfl, ?_⟩
        rw [hcs, List.getElem?_concat_length]
    · obtain ⟨listed, ht, htag⟩ := h.owned hc
      by_cases hto : t = owner
      · subst hto
        rw [hd] at ht
        cases ht
        have hlt : tag < cases.length := (List.getElem?_eq_some_iff.mp htag).1
        refine ⟨cases ++ [p.size], by rw [hdata, if_pos rfl]; rfl, ?_⟩
        rwa [List.getElem?_append_left hlt]
      · refine ⟨listed, ?_, htag⟩
        rw [hdata, if_neg hto, if_neg (Nat.ne_of_lt (lt_size_of_cases? ht)), ht]

/-- Sharing a pointer or closure. -/
theorem share (h : p.Linked) (hd : d.isShared = true) : (p.share d).2.Linked := by
  rcases p.share_cases d with ⟨t, -, heq⟩ | ⟨-, -, happends⟩
  · rwa [heq]
  · refine h.appends ?_ ?_ happends <;>
      rcases d.isShared_cases hd with ⟨target, rfl⟩ | ⟨params, result, rfl⟩ <;> rfl

/-- Every operation keeps data types and cases linked. -/
theorem change (h : p.Linked) (hchange : p.Change q) : q.Linked := by
  cases hchange with
  | pointer => exact h.share rfl
  | closure params result captures =>
      unfold Pool.closure
      split
      · exact h.share rfl
      · exact h.appends rfl rfl (.push p _)
  | freshVar => exact h.appends rfl rfl (.push p _)
  | derive => exact h.appends rfl rfl (.push p _)
  | newReference => exact h.appends rfl rfl (.push p _)
  | newData name => exact h.newData name
  | addCase hadd => exact h.addCase hadd
  | setIvars hset =>
      obtain ⟨name, old, methods, hd, rfl⟩ := setIvars_cases hset
      exact h.set (by rw [hd]; rfl) (by rw [hd]; rfl)
  | addMethod hadd =>
      obtain ⟨-, ⟨name, ivars, methods, hd, rfl⟩ | ⟨name, cases, methods, hd, rfl⟩⟩ :=
        addMethod_eq hadd <;>
      exact h.set (by rw [hd]; rfl) (by rw [hd]; rfl)
  | unify hunify =>
      obtain ⟨hd, rfl | rfl⟩ := unify_cases hunify
      · exact h
      · exact h.set (by rw [hd]; rfl) (by rw [hd]; rfl)

theorem grows (h : p.Linked) (hgrows : p.Grows q) : q.Linked := by
  induction hgrows with
  | refl => exact h
  | tail _ hstep ih => exact ih.change hstep.change

end Linked

/-! ## Well-formed pools -/

/-- What agrees in a pool. -/
structure WellFormed (p : Pool) : Prop where
  kinds_size : p.kinds.size = p.size
  /-- The classification beside an entry is that of the entry. -/
  kinds : ∀ t < p.size, p.kinds[t]? = some (p.data t).flags
  /-- The built-in types and `*Char` stand at their positions. -/
  builtins : TypeId.charPointer < p.size ∧ (List.range (TypeId.charPointer + 1)).map p.data =
    [.integer, .boolean, .char, .void, .string, .typeRecord, .dynamic, .pointer .char]
  /-- The table of pointers has exactly the pointers of the pool. -/
  pointers : ∀ target t, p.pointers.lookup target = some t ↔ p.data t = .pointer target
  pointers_once : ∀ target t u, p.data t = .pointer target → p.data u = .pointer target → t = u
  /-- The table of closures has exactly the closures without captures. -/
  closures : ∀ params result t, p.closures.lookup (params, result) = some t ↔
    p.data t = .closure params result []
  closures_once : ∀ params result t u, p.data t = .closure params result [] →
    p.data u = .closure params result [] → t = u
  /-- Each entry in the list of a data type is a case of that type, tagged with its place. -/
  cases : ∀ t name cases methods, p.data t = .data name cases methods →
    ∀ k c, cases[k]? = some c → ∃ caseName shortName fields,
      p.data c = .variant caseName shortName k t fields
  /-- A case stands in the list of its data type at the place of its tag and nowhere else. -/
  owners : ∀ c name shortName tag owner fields,
    p.data c = .variant name shortName tag owner fields →
    ∃ ownerName cases methods, p.data owner = .data ownerName cases methods ∧
      ∀ k, cases[k]? = some c ↔ k = tag
  /-- No entry mentions a position outside of the pool. -/
  mentions_lt : ∀ t, ∀ u ∈ (p.data t).mentions, u < p.size

/-- The tables of an indexed pool have one position for each entry that is made only once. -/
theorem Indexed.eq_of_isShared (h : p.Indexed) (hd : d.isShared = true) (ht : p.data t = d)
    (hu : p.data u = d) : t = u :=
  h.eq_of_data_eq (hu ▸ hd) (ht.trans hu.symm)

/-- The representation invariant. After any sequence of operations on the types of a pool, from the
new pool on and without a variable forwarded to a type built from it, the classifications, the
tables and the links between data types and cases are those of the entries, the built-in types are
in place, and nothing dangles. -/
theorem Grows.wellFormed (h : initial.Grows p) : p.WellFormed := by
  have hindexed := h.indexed .initial
  have hlinked := Linked.initial.grows h
  have hfounded := Founded.initial.grows h
  refine {
    kinds_size := by simp [hindexed.kinds, size]
    kinds := fun t ht => ?_
    builtins := ?_
    pointers := fun target t => hindexed.shared (d := .pointer target) rfl
    pointers_once := fun target t u => hindexed.eq_of_isShared rfl
    closures := fun params result t => hindexed.shared (d := .closure params result []) rfl
    closures_once := fun params result t u => hindexed.eq_of_isShared rfl
    cases := fun t name cases methods hd k c hk => ?_
    owners := fun c name shortName tag owner fields hd => ?_
    mentions_lt := fun t u hu => hfounded.mentions_lt hu }
  · simp only [size] at ht
    simp [hindexed.kinds, data, ht]
  · refine ⟨Nat.lt_of_lt_of_le (by decide) hfounded.builtins.size_le, ?_⟩
    have hlist : (List.range (TypeId.charPointer + 1)).map initial.data =
        [.integer, .boolean, .char, .void, .string, .typeRecord, .dynamic, .pointer .char] := by
      decide
    rw [← hlist]
    exact List.map_congr_left fun t ht => hfounded.data_of_builtin (List.mem_range.mp ht)
  · have hplace := hlinked.listed (t := t) (by rw [hd]; rfl) hk
    cases hc : p.data c with
    | variant caseName shortName tag owner fields =>
        rw [hc] at hplace
        cases hplace
        exact ⟨caseName, shortName, fields, rfl⟩
    | _ => simp [hc, TypeData.place?] at hplace
  · obtain ⟨cases, howner, htag⟩ := hlinked.owned (c := c) (by rw [hd]; rfl)
    cases ho : p.data owner with
    | data ownerName listed methods =>
        have hlisted : listed = cases := by simpa [ho, TypeData.cases?] using howner
        subst hlisted
        refine ⟨ownerName, listed, methods, rfl, fun k => ⟨fun hk => ?_, fun hk => hk ▸ htag⟩⟩
        have hplace := hlinked.listed (t := owner) (by rw [ho]; rfl) hk
        rw [hd] at hplace
        cases hplace
        rfl
    | _ => simp [ho, TypeData.cases?] at howner

/-- A data type with one case. -/
def circlePool : Pool :=
  let p := (Pool.initial.newData "Shape").2
  (p.push (.variant "Shape.Circle" "Circle" 0 8 [("radius", .integer)])).2.set 8
    (.data "Shape" [9] [])

/-- The pool `circlePool` with a pointer to the data type, a closure that takes it, and a variable
that was forwarded to it. -/
def pointedCirclePool : Pool :=
  (((circlePool.pointer 8).2.closure [8] .void []).2.freshVar).2.set 12 (.var (some 8))

/-- The tables of `pointedCirclePool` have the pointer and the closure, and its data type has the
case. -/
theorem wellFormed_circle :
    Pool.initial.Grows pointedCirclePool ∧ pointedCirclePool.WellFormed ∧
      pointedCirclePool.pointers = [(8, 10), (2, 7)] ∧
      pointedCirclePool.closures = [(([8], .void), 11)] ∧
      pointedCirclePool.data 8 = .data "Shape" [9] [] := by
  have hadd : (Pool.initial.newData "Shape").2.addCase 8 "Shape.Circle" "Circle"
      [("radius", .integer)] = .ok (9, circlePool) := rfl
  have hunify : (((circlePool.pointer 8).2.closure [8] .void []).2.freshVar).2.unify 12 8 =
      .ok pointedCirclePool := rfl
  have hcircle : Pool.initial.Grows circlePool :=
    .tail (.single (.newData _ "Shape")) (.addCase (by decide) hadd)
  have hclosure := (hcircle.tail (.pointer (show 8 < _ by decide))).tail
    (.closure (show ∀ t ∈ [8] ++ TypeId.void :: [], t < _ by decide))
  have hgrows : Pool.initial.Grows pointedCirclePool :=
    (hclosure.tail (.freshVar _)).tail (.unify (by decide) (not_looksAt_of_blank rfl rfl) hunify)
  exact ⟨hgrows, hgrows.wellFormed, by decide, by decide, by decide⟩

end Pool

end ClassLang
