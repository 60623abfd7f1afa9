import Std.Data.TreeMap
import ClassLang.IR.Module

/-!
# Well-formed code

A module is well formed if every block of every function with a body ends in its only terminator,
branches stay within the function and never lead back to its entry, operands have the types their
operations ask for, merged values come in from exactly the blocks that lead there, and every value
used in a reachable block is defined on all ways to it. `Module.isWellFormed` decides this.
-/

namespace ClassLang.IR

namespace Op

/-- The operands of an operation other than merged values. -/
def operands : Op → List Value
  | alloca _ | phi .. | jump _ | unreachable => []
  | load _ address => [address]
  | store value address => [value, address]
  | field _ base _ => [base]
  | binary _ lhs rhs | compare _ lhs rhs => [lhs, rhs]
  | widen value _ => [value]
  | call (.direct _) _ args => args
  | call (.indirect target) _ args => target :: args
  | branch cond _ _ => [cond]
  | ret value => value.toList

/-- The values that an operation merges, with the blocks they come from. -/
def incoming : Op → List (Value × BlockRef)
  | phi _ incoming => incoming
  | _ => []

/-- Whether the operation merges values. -/
def isPhi : Op → Bool
  | phi .. => true
  | _ => false

/-- Whether arguments fit the parameters of a function. -/
def argsFit (t : FnType) (args : List Value) : Bool :=
  (if t.varargs then t.params.length ≤ args.length else t.params.length == args.length)
    && (t.params.zip args).all (fun (param, arg) => param == arg.type)

/-- Whether the operands have the types that the operation asks for, in a function of the given
type. -/
def isTyped (f : FnType) : Op → Bool
  | alloca _ | jump _ | unreachable => true
  | load _ address => address.isPtr
  | store _ address => address.isPtr
  | field _ base _ => base.isPtr
  | binary _ lhs rhs => lhs.isInt && lhs.type == rhs.type
  | compare _ lhs rhs => (lhs.isInt || lhs.isPtr) && lhs.type == rhs.type
  | widen value t =>
    match value.type, t with
    | .int w, .int w' => w.bits < w'.bits
    | _, _ => false
  | call (.direct _) t args => argsFit t args
  | call (.indirect target) t args => target.isPtr && argsFit t args
  | phi t incoming => incoming.all (·.1.type == t)
  | branch cond _ _ => cond.type == .i1
  | ret value => value.map (·.type) == f.result

end Op

namespace Block

/-- Whether the block holds a terminator at its end and nowhere else. -/
def endsOnce (b : Block) : Bool :=
  b.isTerminated && b.instructions.dropLast.all (!·.op.isTerminator)

/-- Whether no merge follows another kind of instruction. -/
def phisFirst (b : Block) : Bool :=
  (b.instructions.dropWhile (·.op.isPhi)).all (!·.op.isPhi)

end Block

namespace Function

/-- The blocks that lead to a block, once for each edge. -/
def predecessors (f : Function) (target : BlockRef) : List Nat :=
  f.layout.flatMap fun number =>
    ((f.block number).successors.filter (· == target)).map fun _ => number

/-- Mark the blocks that can be reached from those in the worklist without passing `avoid`. Every
block is marked at most once and has at most two successors, which bounds the steps. -/
def mark (f : Function) (avoid : Option Nat) : Nat → List Nat → Array Bool → Array Bool
  | 0, _, seen => seen
  | _, [], seen => seen
  | fuel + 1, number :: work, seen =>
    if seen.getD number true || some number == avoid then f.mark avoid fuel work seen
    else
      f.mark avoid fuel ((f.block number).successors.map (·.block) ++ work)
        (seen.setIfInBounds number true)

/-- Which blocks can be reached from the entry without passing `avoid`. -/
def reachable (f : Function) (avoid : Option Nat) : Array Bool :=
  f.mark avoid (2 * f.blocks.size + 2) f.entryBlock?.toList (Array.replicate f.blocks.size false)

/-- Where each instruction stands: its block and its place in it. -/
def definitions (f : Function) : Std.TreeMap Nat (Nat × Nat) :=
  f.layout.foldl (fun places number =>
    (f.block number).instructions.zipIdx.foldl
      (fun places (i, place) => places.insert i.id (number, place)) places) ∅

/-- Whether merged values come in from exactly the blocks that lead to the block. -/
def phisComplete (f : Function) (here : BlockRef) (b : Block) : Bool :=
  let wanted := f.predecessors here
  b.instructions.all fun i =>
    !i.op.isPhi ||
      (i.op.incoming.all (·.2.function == here.function)
        && (i.op.incoming.map (·.2.block)).isPerm wanted)

/-- Whether a block by itself is in order. -/
def blockInOrder (f : Function) (id : FunctionId) (number : Nat) : Bool :=
  let b := f.block number
  b.endsOnce && b.phisFirst
    && b.successors.all (fun s => s.function == id && some s.block != f.entryBlock?)
    && b.instructions.all (·.op.isTyped f.type)
    && f.phisComplete { function := id, block := number } b

/-- Whether every value used in a reachable block is defined on all ways to its use. -/
def usesDominated (f : Function) (id : FunctionId) : Bool :=
  let reached := f.reachable none
  let avoiding := (Array.range f.blocks.size).map fun number => f.reachable (some number)
  let dominates (d b : Nat) : Bool := !((avoiding.getD d #[]).getD b true)
  let places := f.definitions
  let defined (v : Value) (ok : Nat → Nat → Bool) : Bool :=
    match v with
    | .const _ => true
    | .param function _ _ => function == id
    | .result function number _ =>
      function == id && (places[number]?.any fun (block, place) => ok block place)
  f.layout.all fun number =>
    !(reached.getD number false) ||
      (f.block number).instructions.zipIdx.all fun (i, place) =>
        i.op.operands.all (fun v => defined v fun block at' =>
          if block == number then at' < place else dominates block number)
        && i.op.incoming.all fun (v, source) =>
          !(reached.getD source.block false) ||
            defined v fun block _ => block == source.block || dominates block source.block

/-- Whether the body of a function is in order. -/
def isWellFormed (f : Function) (id : FunctionId) : Bool :=
  f.layout.all (f.blockInOrder id) && f.usesDominated id

end Function

/-- Whether all functions with a body are in order. -/
def Module.isWellFormed (m : Module) : Bool :=
  m.functions.toList.zipIdx.all fun (f, id) => !f.hasBody || f.isWellFormed id

end ClassLang.IR
