/-!
# Operators

The binary operators with their surface spelling, and the two unary operators.
-/

namespace ClassLang

/-- Integer arithmetic, shifts and comparisons. -/
inductive BinaryOp where
  | add | sub | mul | div | rem | shl | shr
  | lt | gt | le | ge | eq | ne
deriving DecidableEq, Repr

namespace BinaryOp

/-- The surface spelling, which is also the operation's name on a type. -/
def symbol : BinaryOp → String
  | add => "+"
  | sub => "-"
  | mul => "*"
  | div => "/"
  | rem => "%"
  | shl => "<<"
  | shr => ">>"
  | lt => "<"
  | gt => ">"
  | le => "<="
  | ge => ">="
  | eq => "=="
  | ne => "!="

/-- Every operator once. -/
def all : List BinaryOp :=
  [add, sub, mul, div, rem, shl, shr, lt, gt, le, ge, eq, ne]

/-- The operator with the given spelling. -/
def ofSymbol? (symbol : String) : Option BinaryOp :=
  all.find? (·.symbol == symbol)

/-- Whether the operator produces a Boolean. -/
def isComparison : BinaryOp → Bool
  | lt | gt | le | ge | eq | ne => true
  | _ => false

end BinaryOp

/-- The operators on one operand. -/
inductive UnaryOp where
  /-- `~Foo(...)`: construct in the stack frame instead of on the heap. -/
  | stack
  /-- `!b`: the other truth value. -/
  | not
deriving DecidableEq, Repr

end ClassLang
