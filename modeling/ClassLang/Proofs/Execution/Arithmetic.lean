import Mathlib.Algebra.Group.Nat.Defs
import ClassLang.Lowering.Expression
import ClassLang.Proofs.Semantics.Evaluation

/-!
# Arithmetic on words and truth values

The integer operations of generated code compute on signed numbers that are wrapped to a width. On
the numbers of 32-bit words and of truth values they give what the operators of the language give
on words and truth values.
-/

namespace ClassLang

open Execution (Datum)
open IR (IntOp Predicate Width)

/-! ## Words -/

namespace IR.Width

@[simp] theorem bits_w32 : w32.bits = 32 := rfl

@[simp] theorem wrap_w32 (n : Int) : w32.wrap n = n.bmod (2 ^ 32) := rfl

@[simp] theorem unsigned_w32 (b : BitVec 32) : w32.unsigned b.toInt = b.toNat := by
  have hlt := b.isLt
  simp only [unsigned, bits, BitVec.toInt_eq_toNat_bmod, Nat.pow_eq]
  rw [Int.bmod_emod]
  omega

/-- A number that is wrapped already. -/
theorem bmod_toInt (b : BitVec 32) : b.toInt.bmod (2 ^ 32) = b.toInt := by
  rw [BitVec.toInt_eq_toNat_bmod, Int.bmod_bmod]

end IR.Width

/-- A number literal that fits into a word. -/
theorem toInt_ofInt_literal {n : Int} (h : -Nat.pow 2 31 ≤ n ∧ n < Nat.pow 2 31) :
    (BitVec.ofInt 32 n).toInt = n := by
  rw [BitVec.toInt_ofInt]
  apply Int.bmod_eq_of_le
  · simpa using h.1
  · simpa using h.2

theorem toInt_zero_iff (b : BitVec 32) : b.toInt = 0 ↔ b = 0 :=
  ⟨fun h => BitVec.eq_of_toInt_eq (by simpa using h), fun h => by simp [h]⟩

/-- The condition under which a division is defined. -/
theorem divides_iff (a b : BitVec 32) :
    (b.toInt != 0 && !(b.toInt == -1 && a.toInt == -Nat.pow 2 (Width.w32.bits - 1))) = true ↔
      (b ≠ 0 ∧ ¬ (a = BitVec.intMin 32 ∧ b = -1)) := by
  have hb : b.toInt = -1 ↔ b = -1 :=
    ⟨fun h => BitVec.eq_of_toInt_eq (by rw [h]; decide), fun h => by rw [h]; decide⟩
  have ha : a.toInt = -Nat.pow 2 (Width.w32.bits - 1) ↔ a = BitVec.intMin 32 :=
    ⟨fun h => BitVec.eq_of_toInt_eq (by rw [h]; decide), fun h => by rw [h]; decide⟩
  simp only [bne_iff_ne, Bool.and_eq_true, Bool.not_eq_true', Bool.and_eq_false_iff, beq_eq_false_iff_ne,
    ne_eq, toInt_zero_iff, hb, ha, not_and]
  refine and_congr_right fun _ => ⟨fun h hleast hone => ?_, fun h => ?_⟩
  · exact h.elim (fun hne => hne hone) fun hne => hne hleast
  · by_cases hone : b = -1
    · exact .inr fun hleast => h hleast hone
    · exact .inl hone

/-- An arithmetic operator and its integer operation agree where the operator is defined. -/
theorem arithmetic_eval {op : BinaryOp} {iop : IntOp} {name : String} {a b : BitVec 32} {v : Scalar}
    (hop : Lower.arithmetic? op = some (iop, name)) (hv : op.onIntegers a b = some v) :
    ∃ n, v = .int n ∧ iop.eval .w32 a.toInt b.toInt = some n.toInt := by
  cases op <;> cases hop <;>
    simp only [BinaryOp.onIntegers, Option.some.injEq, Option.ite_none_right_eq_some] at hv
  case add => exact ⟨_, hv.symm, by simp [IntOp.eval, BitVec.toInt_add]⟩
  case sub => exact ⟨_, hv.symm, by simp [IntOp.eval, BitVec.toInt_sub]⟩
  case mul => exact ⟨_, hv.symm, by simp [IntOp.eval, BitVec.toInt_mul]⟩
  case div =>
    refine ⟨_, hv.2.symm, ?_⟩
    simp only [IntOp.eval, (divides_iff a b).mpr hv.1, if_true, BitVec.toInt_sdiv,
      IR.Width.wrap_w32]
  case rem =>
    refine ⟨_, hv.2.symm, ?_⟩
    simp only [IntOp.eval, (divides_iff a b).mpr hv.1, if_true, ← BitVec.toInt_srem,
      IR.Width.wrap_w32, IR.Width.bmod_toInt]
  case shl =>
    refine ⟨_, hv.2.symm, ?_⟩
    simp only [IntOp.eval, IR.Width.unsigned_w32, IR.Width.bits_w32, if_pos hv.1, IR.Width.wrap_w32]
    rw [BitVec.toInt_eq_toNat_bmod (a <<< b.toNat), BitVec.toNat_shiftLeft, Nat.shiftLeft_eq,
      BitVec.toInt_eq_toNat_bmod a]
    simp only [Int.bmod_mul_bmod, Nat.pow_eq, Int.natCast_emod, Int.natCast_mul]
    exact congrArg some (Int.emod_bmod _ _).symm
  case shr =>
    refine ⟨_, hv.2.symm, ?_⟩
    simp only [IntOp.eval, IR.Width.unsigned_w32, IR.Width.bits_w32, if_pos hv.1,
      ← BitVec.toInt_sshiftRight, IR.Width.wrap_w32, IR.Width.bmod_toInt]

/-- A comparison operator and its predicate agree on words. -/
theorem compare_words {op : BinaryOp} {p : Predicate} {a b : BitVec 32} {v : Scalar}
    (hop : Lower.predicate? op = some p) (hv : op.onIntegers a b = some v) :
    v = .bool (p.eval a.toInt b.toInt) := by
  have heq : (a == b) = (a.toInt == b.toInt) := by
    rw [Bool.eq_iff_iff, beq_iff_eq, beq_iff_eq, BitVec.toInt_inj]
  have hne : (a != b) = (a.toInt != b.toInt) := by rw [bne, heq, bne]
  cases op <;> cases hop <;> cases hv <;>
    simp [Predicate.eval, BitVec.slt, BitVec.sle, heq, hne]

/-! ## Truth values -/

/-- A comparison operator and its predicate agree on truth values. -/
theorem compare_truths {op : BinaryOp} {p : Predicate} {a b : Bool} {v : Scalar}
    (hop : Lower.predicate? op = some p) (hv : op.onBooleans a b = some v) :
    v = .bool (p.eval (if a then -1 else 0) (if b then -1 else 0)) := by
  cases op <;> cases hop <;> cases hv <;> cases a <;> cases b <;> rfl

/-- The complement of a truth value. -/
theorem complement_truth (b : Bool) :
    IntOp.xor.eval .w1 (if b then -1 else 0) (-1) = some (if !b then -1 else 0) := by
  cases b <;> rfl

/-- A truth value that is extended to a word is 0 or 1. -/
theorem widen_truth (b : Bool) :
    Width.w32.wrap (Width.w1.unsigned (if b then -1 else 0)) = (Scalar.bool b).toInteger.toInt := by
  cases b <;> rfl

/-- A word counts as true if it is not 0. -/
theorem compare_zero (n : BitVec 32) : Predicate.ne.eval n.toInt 0 = (Scalar.int n).holds := by
  rw [Bool.eq_iff_iff]
  simp [Predicate.eval, Scalar.holds, toInt_zero_iff]

end ClassLang
