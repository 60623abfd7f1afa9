import ClassLang.Proofs.Pool.Representation

/-!
# The cases of a data type

The list of a data type only ever gets longer, and only by `addCase`: all other operations are
`Caseless`. A case keeps the name that it was declared with, and its place.
-/

namespace ClassLang

/-- The cases of a data type; none for any other type. -/
def TypeData.caseList : TypeData → List TypeId
  | data _ cases _ => cases
  | _ => []

/-- The name that a case was declared with. -/
def TypeData.shortName? : TypeData → Option String
  | variant _ shortName _ _ _ => some shortName
  | _ => none

/-- Names of cases are never changed, and nothing becomes a case. -/
theorem TypeData.Becomes.shortName?_eq {d d' : TypeData} (h : d.Becomes d') :
    d'.shortName? = d.shortName? := by
  cases h <;> rfl

namespace Pool

variable {p q : Pool} {t : TypeId}

/-- Names of cases are kept. -/
theorem Evolves.shortName?_eq (h : p.Evolves q) (ht : t < p.size) :
    (q.data t).shortName? = (p.data t).shortName? :=
  (h.becomes t ht).shortName?_eq

/-- A case stands for itself. -/
theorem caseShortName?_of_shortName? {name : String} (h : (p.data t).shortName? = some name) :
    p.caseShortName? t = some name := by
  cases hd : p.data t <;> simp [hd, TypeData.shortName?] at h
  have hvar : (p.data t).isVar = false := by simp [hd, TypeData.isVar]
  rw [caseShortName?, view, resolve_of_not_var hvar, hd, h]

/-- The cases that were added to a data type so far; none for any other type. -/
def caseList (p : Pool) (t : TypeId) : List TypeId :=
  (p.data t).caseList

/-- An operation that adds no case. -/
structure Caseless (p q : Pool) : Prop where
  change : p.Change q
  caseList : ∀ t, q.caseList t = p.caseList t

/-- Outside a pool there are no cases. -/
theorem caseList_of_le (h : p.size ≤ t) : p.caseList t = [] := by
  rw [caseList, data_of_le h]
  rfl

/-- The cases of a data type that stands for itself. -/
theorem cases_eq_caseList (h : (p.data t).isVar = false) : p.cases t = p.caseList t := by
  rw [cases, view, resolve_of_not_var h, caseList]
  cases p.data t <;> rfl

/-- Cases stay where they are while the pool evolves. -/
theorem Evolves.caseList_prefix (h : p.Evolves q) (t : TypeId) : p.caseList t <+: q.caseList t := by
  by_cases ht : t < p.size
  · have hbecomes := h.becomes t ht
    unfold caseList
    generalize p.data t = d at hbecomes
    generalize q.data t = d' at hbecomes
    cases hbecomes with
    | same => exact List.prefix_refl _
    | data hcases => exact hcases
    | _ => exact List.nil_prefix
  · rw [caseList_of_le (Nat.le_of_not_lt ht)]
    exact List.nil_prefix

/-- A new entry without cases. -/
theorem Appends.caseList_eq {d : TypeData} (h : p.Appends d q)
    (hd : d.caseList = []) (t : TypeId) : q.caseList t = p.caseList t := by
  rw [caseList, h.data_eq]
  split
  · next ht => rw [ht, hd, caseList_of_le (Nat.le_refl _)]
  · rfl

/-- A changed entry with the cases that it had. -/
theorem caseList_set {d : TypeData} {u : TypeId}
    (hd : d.caseList = (p.data u).caseList) (t : TypeId) : (p.set u d).caseList t = p.caseList t := by
  rw [caseList, data_set]
  split
  · next hu => rw [hd, hu.1, caseList]
  · rfl

namespace Caseless

/-- Sharing an entry. -/
theorem share_caseList {d : TypeData} (hd : d.isShared = true) (t : TypeId) :
    (p.share d).2.caseList t = p.caseList t := by
  rcases p.share_cases d with ⟨u, -, heq⟩ | ⟨-, -, happends⟩
  · rw [heq]
  · refine happends.caseList_eq ?_ t
    cases d <;> first | rfl | cases hd

theorem pointer (p : Pool) (target : TypeId) : p.Caseless (p.pointer target).2 :=
  ⟨.pointer p target, share_caseList rfl⟩

theorem closure (p : Pool) (params : List TypeId) (result : TypeId) (captures : List TypeId) :
    p.Caseless (p.closure params result captures).2 := by
  refine ⟨.closure p params result captures, fun t => ?_⟩
  unfold Pool.closure
  split
  · exact share_caseList rfl t
  · exact (Appends.push p _).caseList_eq rfl t

theorem freshVar (p : Pool) : p.Caseless p.freshVar.2 :=
  ⟨.freshVar p, (Appends.push p _).caseList_eq rfl⟩

theorem derive (p : Pool) (root : TypeId) (op : BinaryOp) (rhs : TypeId) :
    p.Caseless (p.derive root op rhs).2 :=
  ⟨.derive p root op rhs, (Appends.push p _).caseList_eq rfl⟩

theorem setIvars {ivars : List (String × TypeId)} (h : p.setIvars t ivars = .ok q) :
    p.Caseless q := by
  refine ⟨.setIvars h, ?_⟩
  obtain ⟨name, old, methods, hd, rfl⟩ := setIvars_cases h
  exact caseList_set (by rw [hd]; rfl)

theorem addMethod {sig : Signature} (h : p.addMethod t sig = .ok q) : p.Caseless q := by
  refine ⟨.addMethod h, ?_⟩
  obtain ⟨-, ⟨name, ivars, methods, hd, rfl⟩ | ⟨name, cases, methods, hd, rfl⟩⟩ := addMethod_eq h <;>
    exact caseList_set (by rw [hd]; rfl)

theorem unify {var target : TypeId} (h : p.unify var target = .ok q) : p.Caseless q := by
  refine ⟨.unify h, ?_⟩
  obtain ⟨hd, rfl | rfl⟩ := unify_cases h
  · exact fun _ => rfl
  · exact caseList_set (by rw [hd]; rfl)

end Caseless

/-- A case is added at the end of the list of its data type, under the next position. -/
theorem caseList_addCase {owner added : TypeId} {name shortName : String}
    {fields : List (String × TypeId)} (h : p.addCase owner name shortName fields = .ok (added, q)) :
    added = p.size ∧ q.caseList owner = p.caseList owner ++ [added] ∧
      (∀ t, t ≠ owner → q.caseList t = p.caseList t) ∧
      ∃ tag, q.data added = .variant name shortName tag owner fields := by
  obtain ⟨ownerName, cases, methods, hd, rfl, rfl⟩ := addCase_cases h
  have howner : owner < p.size := lt_size_of_data_ne (by simp [hd])
  have hdata : ∀ t, ((p.push (.variant name shortName cases.length owner fields)).2.set owner
      (.data ownerName (cases ++ [p.size]) methods)).data t =
        if t = owner then .data ownerName (cases ++ [p.size]) methods
        else if t = p.size then .variant name shortName cases.length owner fields
        else p.data t := fun t => by
    simp only [data_set, data_push, size_push, Nat.lt_succ_of_lt howner, and_true]
  refine ⟨rfl, ?_, fun t ht => ?_, cases.length, ?_⟩
  · simp only [caseList, hdata, if_true, hd, TypeData.caseList]
  · simp only [caseList, hdata, if_neg ht]
    split
    · next heq => rw [heq, data_of_le (Nat.le_refl _)]; rfl
    · rfl
  · rw [hdata, if_neg (Nat.ne_of_gt howner), if_pos rfl]

/-! ## Cases and their data types -/

section Linked

variable {c owner : TypeId} {tag : Nat}

/-- What tells its place stands for itself. -/
theorem isVar_of_place? {place : Nat × TypeId} (h : (p.data c).place? = some place) :
    (p.data c).isVar = false := by
  cases hd : p.data c <;> simp [hd, TypeData.place?] at h
  rfl

/-- The name of a case is the one that it was declared with. -/
theorem caseShortName?_of_place? {place : Nat × TypeId} (h : (p.data c).place? = some place) :
    p.caseShortName? c = (p.data c).shortName? := by
  rw [caseShortName?, view, resolve_of_not_var (isVar_of_place? h)]
  cases p.data c <;> rfl

/-- A case stands in the list of its data type. -/
theorem Linked.mem_cases (h : p.Linked) (hplace : (p.data c).place? = some (tag, owner)) :
    p.cases owner = p.caseList owner ∧ c ∈ p.caseList owner := by
  obtain ⟨cases, hcases, hat⟩ := h.owned hplace
  cases hd : p.data owner with
  | data name listed methods =>
      obtain rfl : listed = cases := by simpa [hd, TypeData.cases?] using hcases
      have hlist : p.caseList owner = listed := by rw [caseList, hd]; rfl
      refine ⟨cases_eq_caseList (by rw [hd]; rfl), ?_⟩
      rw [hlist]
      exact List.mem_of_getElem? hat
  | _ => simp [hd, TypeData.cases?] at hcases

/-- What stands in the list of a data type is one of its cases. -/
theorem Linked.place?_of_mem (h : p.Linked) (hmem : c ∈ p.caseList owner) :
    ∃ k, (p.data c).place? = some (k, owner) := by
  obtain ⟨k, hk⟩ := List.mem_iff_getElem?.mp hmem
  have hcases : (p.data owner).cases? = some (p.caseList owner) := by
    unfold caseList at hk ⊢
    cases hd : p.data owner <;> simp [hd, TypeData.caseList] at hk
    rfl
  exact ⟨k, h.listed hcases hk⟩

/-- Places are never changed, and nothing becomes a case. -/
theorem Evolves.place?_eq (h : p.Evolves q) (hc : c < p.size) :
    (q.data c).place? = (p.data c).place? := by
  have hbecomes := h.becomes c hc
  generalize p.data c = d at hbecomes
  generalize q.data c = d' at hbecomes
  cases hbecomes <;> rfl

end Linked

end Pool

end ClassLang
