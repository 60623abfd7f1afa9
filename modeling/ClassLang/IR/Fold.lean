import ClassLang.IR.Module

/-!
# Arithmetic and constant folding

What integer operations compute, with everything wrapped to the width of the operands. An operation
on constants is computed at once: division by zero, the least number divided by -1 and shifts by the
width or more give `poison`, and so does anything computed from `poison`.
-/

namespace ClassLang.IR

/-- The result of an integer operation, if it is defined. -/
def IntOp.eval (op : IntOp) (w : Width) (a b : Int) : Option Int :=
  let divides := b != 0 && !(b == -1 && a == -Nat.pow 2 (w.bits - 1))
  let shift := w.unsigned b
  match op with
  | .add => some (w.wrap (a + b))
  | .sub => some (w.wrap (a - b))
  | .mul => some (w.wrap (a * b))
  | .sdiv => if divides then some (w.wrap (a.tdiv b)) else none
  | .srem => if divides then some (w.wrap (a.tmod b)) else none
  | .shl => if shift < w.bits then some (w.wrap (a * Nat.pow 2 shift)) else none
  | .ashr => if shift < w.bits then some (w.wrap (a >>> shift)) else none
  | .xor => some (w.wrap (w.unsigned a ^^^ w.unsigned b : Nat))

/-- The truth value of a comparison of signed integers. -/
def Predicate.eval (p : Predicate) (a b : Int) : Bool :=
  match p with
  | .eq => a == b
  | .ne => a != b
  | .slt => a < b
  | .sle => a ≤ b
  | .sgt => a > b
  | .sge => a ≥ b

namespace Const

/-- An integer operation on constants. -/
def binary? (op : IntOp) : Const → Const → Option Const
  | int w a, int w' b =>
    if w = w' then some (((op.eval w a b).map (int w)).getD (poison (.int w))) else none
  | poison t, int .. | poison t, poison _ => some (poison t)
  | int w _, poison _ => some (poison (.int w))
  | _, _ => none

/-- A comparison of constants. -/
def compare? (p : Predicate) : Const → Const → Option Const
  | int w a, int w' b => if w = w' then some (bool (p.eval a b)) else none
  | null, null => some (bool (p.eval 0 0))
  | poison _, int .. | poison _, poison _ | int .., poison _ => some (poison .i1)
  | _, _ => none

/-- A constant extended to another integer type. -/
def widen? (target : Ty) : Const → Option Const
  | int w a =>
    match target with
    | .int w' => some (int w' (w'.wrap (w.unsigned a)))
    | _ => none
  | poison _ => some (poison target)
  | _ => none

/-- The address of a field of the struct at a constant address. -/
def field (struct : StructId) (base : Const) (index : Nat) : Const :=
  if index = 0 then base else fieldAddr struct base index

end Const

end ClassLang.IR
