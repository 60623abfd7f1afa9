import ClassLang.Proofs.Pool.Interning
import ClassLang.Proofs.Semantics.Evaluation

/-!
# Integers and Booleans in the pool

What the pool says of the types of words and truth values: they stand for themselves, a Boolean
becomes an Integer, and their operators are those of the language. Nothing but the two becomes one of
them. `ScalarType.accepts` and `BinaryOp.scalarResult?` are these facts without the pool.
-/

namespace ClassLang

/-- The entry of the type in every pool. -/
def ScalarType.data : ScalarType → TypeData
  | integer => .integer
  | boolean => .boolean

/-- Whether values of type `given` are passed where the type is expected. -/
def ScalarType.accepts (expected given : ScalarType) : Bool :=
  given == expected || expected == integer

/-- The type of the results of an operator on left operands of a type. -/
def BinaryOp.scalarResult? (op : BinaryOp) : ScalarType → Option ScalarType
  | .integer => some (if op.isComparison then .boolean else .integer)
  | .boolean => if op = .eq ∨ op = .ne then some .boolean else none

/-- An operator on values of one type gives values of its result type. -/
theorem BinaryOp.scalarResult?_combine {op : BinaryOp} {l r v : Scalar} (h : op.combine l r = some v) :
    op.scalarResult? l.type = some v.type := by
  cases l <;> cases r <;> cases op <;>
    simp only [combine, onIntegers, onBooleans, reduceCtorEq, Option.some.injEq,
      Option.ite_none_right_eq_some] at h <;>
    (obtain ⟨-, rfl⟩ := h; rfl)

theorem ScalarType.id_inj {σ τ : ScalarType} (h : σ.id = τ.id) : σ = τ := by
  cases σ <;> cases τ <;> first | rfl | cases h

namespace Scalar

variable {v : Scalar} {τ : ScalarType}

/-- A value of the expected type is passed as it is. -/
theorem passTo_self (v : Scalar) : v.passTo v.type = some v := by
  cases v <;> rfl

theorem passTo_isSome (h : τ.accepts v.type = true) : (v.passTo τ).isSome = true := by
  cases τ <;> cases v <;> first | rfl | cases h

end Scalar

namespace Pool

/-- The types of words and truth values are in their places. -/
structure HasScalars (p : Pool) : Prop where
  integer : p.data .integer = .integer
  boolean : p.data .boolean = .boolean

theorem Sound.hasScalars {p : Pool} (h : p.Sound) : p.HasScalars :=
  ⟨(h.builtin TypeId.integer (by decide)).2, (h.builtin TypeId.boolean (by decide)).2⟩

namespace HasScalars

variable {p : Pool} (h : p.HasScalars) (σ τ : ScalarType)

include h

theorem data_id : p.data τ.id = τ.data := by
  cases τ
  · exact h.integer
  · exact h.boolean

theorem resolve_id : p.resolve τ.id = τ.id := by
  apply resolve_of_not_var
  rw [h.data_id]
  cases τ <;> rfl

theorem view_id : p.view τ.id = τ.data := by
  rw [view, h.resolve_id, h.data_id]

theorem resolveStrict_id : p.resolveStrict τ.id = .ok τ.id := by
  unfold resolveStrict resolveStrictWithin
  rw [h.resolve_id]
  simp only [h.data_id]
  cases τ <;> rfl

/-- What counts as the type is the type. -/
theorem sameType_id_iff {t : TypeId} : p.sameType t τ.id = true ↔ p.resolve t = τ.id := by
  refine ⟨fun hsame => ?_, fun heq => sameType_of_resolve_eq (heq.trans (h.resolve_id τ).symm)⟩
  rcases sameType_cases hsame with heq | ⟨-, _, _, _, hview⟩
  · exact heq.trans (h.resolve_id τ)
  · rw [h.view_id] at hview
    cases τ <;> cases hview

/-- How values of the types become each other. -/
theorem conversion?_id : p.conversion? σ.id τ.id =
    if σ = τ then some .identity
    else if τ = .integer then some .widenBool else none := by
  unfold conversion?
  by_cases heq : σ = τ
  · rw [if_pos heq, if_pos ((h.sameType_id_iff τ).mpr (heq ▸ h.resolve_id σ))]
  · have hnot : ¬ p.sameType σ.id τ.id = true := fun hsame =>
      heq (ScalarType.id_inj ((h.resolve_id σ).symm.trans ((h.sameType_id_iff τ).mp hsame)))
    rw [if_neg heq, if_neg hnot, h.view_id, h.view_id]
    cases σ <;> cases τ <;> first | rfl | exact absurd rfl heq

/-- The operators of the types. -/
theorem operator?_id (op : BinaryOp) : p.operator? τ.id op =
    (op.scalarResult? τ).map fun _ => if op.isComparison then .compare op else .arith op := by
  unfold operator?
  rw [h.view_id]
  cases τ with
  | integer => rfl
  | boolean =>
      by_cases hop : op = .eq ∨ op = .ne
      · rcases hop with rfl | rfl <;> rfl
      · simp [ScalarType.data, TypeData.operator?, BinaryOp.scalarResult?, hop]

end HasScalars

end Pool

end ClassLang
