import Mathlib.Data.List.Basic
import ClassLang.Types.Pool

/-!
# How a pool grows

An operation adds an entry at the end of a pool or changes one in place. `Appends` is the first of
the two. `Evolves` says how entries may change while a pool grows: they keep their kind, classes and
data types gain members, and an open variable may be forwarded.
-/

namespace ClassLang

/-- The types that a signature mentions. -/
def Signature.types (sig : Signature) : List TypeId :=
  sig.result :: sig.paramTypes

namespace TypeData

/-- What a pointer or closure is made of. -/
def parts : TypeData → List TypeId
  | pointer target => [target]
  | closure params result captures => params ++ result :: captures
  | _ => []

/-- What the declaration of a class, data type or case mentions. -/
def members : TypeData → List TypeId
  | reference _ ivars methods => ivars.map (·.2) ++ methods.flatMap Signature.types
  | data _ cases methods => cases ++ methods.flatMap Signature.types
  | variant _ _ _ owner fields => owner :: fields.map (·.2)
  | _ => []

/-- What a forwarded variable or derived type depends on. -/
def sources : TypeData → List TypeId
  | var (some target) => [target]
  | derived root _ rhs => [root, rhs]
  | _ => []

/-- Only variables and derived types depend on others. -/
theorem sources_of_not_var {d : TypeData} (h : d.isVar = false) : d.sources = [] := by
  unfold sources
  split <;> simp [isVar] at h ⊢

/-- Every type that an entry mentions. -/
def mentions (d : TypeData) : List TypeId :=
  d.parts ++ d.members ++ d.sources

/-- How an entry may change: it keeps its kind and its methods, and a variable is forwarded at
most once. -/
inductive Becomes : TypeData → TypeData → Prop
  | same (d : TypeData) : Becomes d d
  | reference {name : String} {ivars ivars' : List (String × TypeId)}
      {methods methods' : List Signature} (h : methods ⊆ methods') :
      Becomes (.reference name ivars methods) (.reference name ivars' methods')
  | data {name : String} {cases cases' : List TypeId} {methods methods' : List Signature}
      (hcases : cases <+: cases') (h : methods ⊆ methods') :
      Becomes (.data name cases methods) (.data name cases' methods')
  | forwarded (target : TypeId) : Becomes (.var none) (.var (some target))

namespace Becomes

variable {d d' d'' : TypeData}

/-- Changes compose. -/
theorem trans (h : Becomes d d') (h' : Becomes d' d'') : Becomes d d'' := by
  cases h with
  | same => exact h'
  | reference hm =>
      cases h' with
      | same => exact .reference hm
      | reference hm' => exact .reference (List.Subset.trans hm hm')
  | data hc hm =>
      cases h' with
      | same => exact .data hc hm
      | data hc' hm' => exact .data (hc.trans hc') (List.Subset.trans hm hm')
  | forwarded target =>
      cases h' with
      | same => exact .forwarded target

/-- An entry stays a variable or stays none. -/
theorem isVar_eq (h : Becomes d d') : d'.isVar = d.isVar := by
  cases h <;> rfl

/-- A pointer or closure keeps its parts. -/
theorem parts_eq (h : Becomes d d') : d'.parts = d.parts := by
  cases h <;> rfl

/-- Only classes, data types and variables change. -/
theorem eq_of_fixed (h : Becomes d d') (hname : d.nominalName? = none) (hvar : d.isVar = false) :
    d' = d := by
  cases h with
  | same => rfl
  | reference => cases hname
  | data => cases hname
  | forwarded => cases hvar

/-- An entry keeps its classification. -/
theorem flags_eq (h : Becomes d d') : d'.flags = d.flags := by
  cases h <;> rfl

/-- Methods are never lost. -/
theorem methods_subset (h : Becomes d d') : d.methods ⊆ d'.methods := by
  cases h with
  | same => exact List.Subset.refl _
  | reference hm => exact hm
  | data _ hm => exact hm
  | forwarded => exact List.Subset.refl _

end Becomes

/-- Only numbers, characters and truth values have operators. -/
theorem primitive_of_operator {d : TypeData} {op : BinaryOp} {operation : Operation}
    (h : d.operator? op = some operation) : d = .integer ∨ d = .char ∨ d = .boolean := by
  cases d <;> simp [operator?] at h <;> simp

end TypeData

namespace Pool

variable {p q r : Pool} {t u : TypeId}

/-- An entry at a position outside the pool reads as `Void`. -/
theorem data_of_le (h : p.size ≤ t) : p.data t = .void := by
  simp only [size] at h
  simp [data, h]

/-- An entry that does not read as `Void` stands inside the pool. -/
theorem lt_size_of_data_ne (h : p.data t ≠ .void) : t < p.size := by
  by_contra hle
  exact h (data_of_le (Nat.le_of_not_lt hle))

/-- The pool `q` has the entries of `p`, and `d` after them. -/
def Appends (p : Pool) (d : TypeData) (q : Pool) : Prop :=
  q.entries = p.entries.push d

namespace Appends

variable {d : TypeData}

theorem push (p : Pool) (d : TypeData) : p.Appends d (p.push d).2 :=
  rfl

/-- Sharing an entry that the tables do not have adds it. -/
theorem share (h : p.shared? d = none) : p.Appends d (p.share d).2 := by
  simp [Appends, Pool.share, h, Pool.push]

theorem size_eq (h : p.Appends d q) : q.size = p.size + 1 := by
  simp [size, show q.entries = _ from h]

theorem data_eq (h : p.Appends d q) (t : TypeId) :
    q.data t = if t = p.size then d else p.data t := by
  simp only [data, size, show q.entries = _ from h, Array.getD_eq_getD_getElem?,
    Array.getElem?_push]
  split <;> simp

end Appends

/-- The entries of a pool after a new one was added. -/
theorem data_push (p : Pool) (d : TypeData) (t : TypeId) :
    (p.push d).2.data t = if t = p.size then d else p.data t :=
  (Appends.push p d).data_eq t

/-- The entries of a pool after one was replaced. -/
theorem data_set (p : Pool) (t : TypeId) (d : TypeData) (u : TypeId) :
    (p.set t d).data u = if u = t ∧ t < p.size then d else p.data u := by
  by_cases hu : u = t
  · subst hu
    by_cases hlt : u < p.size
    · simp [data_set_self p d hlt, hlt]
    · have hle : p.size ≤ u := Nat.le_of_not_lt hlt
      have hle' : (p.set u d).size ≤ u := by simpa [set, size] using hle
      simp [data_of_le hle, data_of_le hle', hlt]
  · simp [data_set_of_ne p d hu, hu]

@[simp] theorem size_push (p : Pool) (d : TypeData) : (p.push d).2.size = p.size + 1 := by
  simp [push, size]

@[simp] theorem fst_push (p : Pool) (d : TypeData) : (p.push d).1 = p.size := rfl

@[simp] theorem size_set (p : Pool) (t : TypeId) (d : TypeData) : (p.set t d).size = p.size := by
  simp [set, size]

/-! ## Growth -/

/-- The pool grows, and its entries only change as `Becomes` allows. -/
structure Evolves (p q : Pool) : Prop where
  size_le : p.size ≤ q.size
  becomes : ∀ t < p.size, (p.data t).Becomes (q.data t)

namespace Evolves

/-- A pool that stays as it is. -/
theorem refl (p : Pool) : p.Evolves p :=
  ⟨Nat.le_refl _, fun _ _ => .same _⟩

/-- Changes of a pool compose. -/
theorem trans (h : p.Evolves q) (h' : q.Evolves r) : p.Evolves r where
  size_le := Nat.le_trans h.size_le h'.size_le
  becomes t ht := (h.becomes t ht).trans (h'.becomes t (Nat.lt_of_lt_of_le ht h.size_le))

/-- Entries other than classes, data types and variables stay as they are. -/
theorem data_eq_of_fixed (h : p.Evolves q) (ht : t < p.size)
    (hname : (p.data t).nominalName? = none) (hvar : (p.data t).isVar = false) :
    q.data t = p.data t :=
  (h.becomes t ht).eq_of_fixed hname hvar

/-- A class, data type or case keeps its symbol. -/
theorem nominalName? {name : String} (h : p.Evolves q)
    (ht : (p.data t).nominalName? = some name) : (q.data t).nominalName? = some name := by
  have hlt : t < p.size := lt_size_of_data_ne fun hd => by simp [hd, TypeData.nominalName?] at ht
  have hbecomes := h.becomes t hlt
  generalize p.data t = d at hbecomes ht
  generalize q.data t = d' at hbecomes ⊢
  cases hbecomes with
  | same => exact ht
  | reference => exact ht
  | data => exact ht
  | forwarded => cases ht

/-- A method of a type stays one. -/
theorem methods_subset (h : p.Evolves q) (t : TypeId) :
    (p.data t).methods ⊆ (q.data t).methods := by
  intro sig hsig
  have hlt : t < p.size := lt_size_of_data_ne fun hvoid => by
    simp [hvoid, TypeData.methods] at hsig
  exact (h.becomes t hlt).methods_subset hsig

/-- A new entry changes no other. -/
theorem appends {d : TypeData} (h : p.Appends d q) : p.Evolves q where
  size_le := by simp [h.size_eq]
  becomes t ht := by
    rw [h.data_eq, if_neg (Nat.ne_of_lt ht)]
    exact .same _

theorem push (p : Pool) (d : TypeData) : p.Evolves (p.push d).2 :=
  .appends (.push p d)

/-- Replacing an entry changes only that one. -/
theorem set {d : TypeData} (h : (p.data t).Becomes d) : p.Evolves (p.set t d) where
  size_le := by simp
  becomes u hu := by
    rw [data_set]
    split
    · rename_i heq
      obtain ⟨rfl, -⟩ := heq
      exact h
    · exact .same _

end Evolves

/-! ## Sharing -/

/-- Sharing gives the position that the tables have, or adds the entry. -/
theorem share_cases (p : Pool) (d : TypeData) :
    (∃ t, p.shared? d = some t ∧ p.share d = (t, p)) ∨
      p.shared? d = none ∧ (p.share d).1 = p.size ∧ p.Appends d (p.share d).2 := by
  cases hd : p.shared? d with
  | some t => exact .inl ⟨t, rfl, by simp [share, hd]⟩
  | none => exact .inr ⟨rfl, by simp [share, hd], .share hd⟩

/-- Sharing an entry changes nothing but by adding it. -/
theorem share_evolves (p : Pool) (d : TypeData) : p.Evolves (p.share d).2 := by
  rcases p.share_cases d with ⟨t, -, heq⟩ | ⟨-, -, happends⟩
  · rw [heq]
    exact .refl p
  · exact .appends happends

end Pool

end ClassLang
