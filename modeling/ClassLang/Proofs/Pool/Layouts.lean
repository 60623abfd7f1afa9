import Mathlib.Data.List.Nodup
import ClassLang.Proofs.Pool.Representation

/-!
# The layouts of classes

The instance variables of a class are set by `setIvars`, and every other operation leaves all of them
as they are. Where names are distinct, `ivarIndex?` and `ivarType?` find an instance variable at its
position.
-/

namespace ClassLang

/-- The instance variables of a class; none for any other type. -/
def TypeData.ivarList : TypeData → List (String × TypeId)
  | reference _ ivars _ => ivars
  | _ => []

namespace Pool

variable {p q : Pool} {t : TypeId}

/-- The instance variables with which a class was laid out; none for any other type. -/
def ivarList (p : Pool) (t : TypeId) : List (String × TypeId) :=
  (p.data t).ivarList

/-- Outside a pool there are no instance variables. -/
theorem ivarList_of_le (h : p.size ≤ t) : p.ivarList t = [] := by
  rw [ivarList, data_of_le h]
  rfl

/-- The instance variables of a type that stands for itself. -/
theorem ivars_eq_ivarList (h : (p.data t).isVar = false) : p.ivars t = p.ivarList t := by
  rw [ivars, view, resolve_of_not_var h, ivarList]
  cases p.data t <;> rfl

/-- An operation that leaves all layouts as they are. -/
def KeepsLayouts (p q : Pool) : Prop :=
  ∀ t, q.ivarList t = p.ivarList t

namespace KeepsLayouts

/-- A new entry without instance variables. -/
theorem of_appends {d : TypeData} (h : p.Appends d q) (hd : d.ivarList = []) : p.KeepsLayouts q := by
  intro t
  rw [ivarList, h.data_eq]
  split
  · next ht => rw [ht, hd, ivarList_of_le (Nat.le_refl _)]
  · rfl

/-- A changed entry with the instance variables that it had. -/
theorem of_set {d : TypeData} {u : TypeId} (hd : d.ivarList = (p.data u).ivarList) :
    p.KeepsLayouts (p.set u d) := by
  intro t
  rw [ivarList, data_set]
  split
  · next hu => rw [hd, hu.1, ivarList]
  · rfl

theorem share {d : TypeData} (hd : d.isShared = true) : p.KeepsLayouts (p.share d).2 := by
  rcases p.share_cases d with ⟨u, -, heq⟩ | ⟨-, -, happends⟩
  · rw [heq]
    exact fun _ => rfl
  · refine of_appends happends ?_
    cases d <;> first | rfl | cases hd

theorem pointer (p : Pool) (target : TypeId) : p.KeepsLayouts (p.pointer target).2 :=
  share rfl

theorem closure (p : Pool) (params : List TypeId) (result : TypeId) (captures : List TypeId) :
    p.KeepsLayouts (p.closure params result captures).2 := by
  unfold Pool.closure
  split
  · exact share rfl
  · exact of_appends (Appends.push p _) rfl

theorem freshVar (p : Pool) : p.KeepsLayouts p.freshVar.2 :=
  of_appends (Appends.push p _) rfl

theorem derive (p : Pool) (root : TypeId) (op : BinaryOp) (rhs : TypeId) :
    p.KeepsLayouts (p.derive root op rhs).2 :=
  of_appends (Appends.push p _) rfl

theorem newReference (p : Pool) (name : String) : p.KeepsLayouts (p.newReference name).2 :=
  of_appends (Appends.push p _) rfl

theorem newData (p : Pool) (name : String) : p.KeepsLayouts (p.newData name).2 :=
  of_appends (Appends.push p _) rfl

theorem addMethod {sig : Signature} (h : p.addMethod t sig = .ok q) : p.KeepsLayouts q := by
  obtain ⟨-, ⟨name, ivars, methods, hd, rfl⟩ | ⟨name, cases, methods, hd, rfl⟩⟩ := addMethod_eq h <;>
    exact of_set (by rw [hd]; rfl)

theorem unify {var target : TypeId} (h : p.unify var target = .ok q) : p.KeepsLayouts q := by
  obtain ⟨hd, rfl | rfl⟩ := unify_cases h
  · exact fun _ => rfl
  · exact of_set (by rw [hd]; rfl)

theorem addCase {owner added : TypeId} {name shortName : String} {fields : List (String × TypeId)}
    (h : p.addCase owner name shortName fields = .ok (added, q)) : p.KeepsLayouts q := by
  obtain ⟨ownerName, cases, methods, hd, rfl, rfl⟩ := addCase_cases h
  have howner : owner < p.size := lt_size_of_data_ne (by simp [hd])
  intro t
  rw [of_set ?_ t, of_appends (Appends.push p _) rfl t]
  rw [data_push_of_lt _ _ howner, hd]
  rfl

end KeepsLayouts

/-- A class gets its layout, and no other type changes its own. -/
theorem ivarList_setIvars {ivars : List (String × TypeId)} (h : p.setIvars t ivars = .ok q) :
    q.ivarList t = ivars ∧ ∀ other, other ≠ t → q.ivarList other = p.ivarList other := by
  obtain ⟨name, old, methods, hd, rfl⟩ := setIvars_cases h
  have ht : t < p.size := lt_size_of_data_ne (by simp [hd])
  refine ⟨?_, fun other hne => ?_⟩
  · rw [ivarList, data_set, if_pos ⟨rfl, ht⟩]
    rfl
  · rw [ivarList, data_set, if_neg fun h => hne h.1]
    rfl

/-- What is laid out is an entry of the pool. -/
theorem lt_size_of_setIvars {ivars : List (String × TypeId)} (h : p.setIvars t ivars = .ok q) :
    t < q.size := by
  obtain ⟨name, old, methods, hd, rfl⟩ := setIvars_cases h
  rw [size_set]
  exact lt_size_of_data_ne (by simp [hd])

end Pool

/-- Where names are distinct, an instance variable is found at its position. -/
theorem ivarIndex?_of_mem {ivars : List (String × TypeId)} {name : String} {t : TypeId}
    (hdistinct : (ivars.map (·.1)).Nodup) (h : (name, t) ∈ ivars) :
    ∃ i, ivarIndex? ivars name = some i ∧ ivars[i]? = some (name, t) ∧
      ivarType? ivars name = some t := by
  induction ivars with
  | nil => cases h
  | cons entry ivars ih =>
      obtain ⟨hnew, hdistinct⟩ := List.nodup_cons.mp hdistinct
      rcases List.mem_cons.mp h with rfl | h
      · exact ⟨0, by simp [ivarIndex?, List.findIdx?_cons], rfl, by simp [ivarType?]⟩
      · have hne : entry.1 ≠ name := by
          rintro rfl
          exact hnew (List.mem_map.mpr ⟨_, h, rfl⟩)
        obtain ⟨i, hindex, hat, htype⟩ := ih hdistinct h
        refine ⟨i + 1, ?_, hat, ?_⟩
        · simp only [ivarIndex?] at hindex
          simp [ivarIndex?, List.findIdx?_cons, hne, hindex]
        · obtain ⟨other, u⟩ := entry
          have hother : (name == other) = false := by simpa using Ne.symm hne
          simpa [ivarType?, List.lookup_cons, hother] using htype

end ClassLang
