import ClassLang.Execution.Memory

/-!
# Running intermediate code

A small-step machine for intermediate code. Its state is a stack of calls together with a world: the
memory, and whatever the functions without a body act on. `Context.step?` executes one instruction;
an operation that is not defined has no next state. `Context.run` takes a bounded number of steps
and says how they ended; allowing more steps never changes how a finished run ended
(`Context.run_add_of_ne_unfinished`).
-/

namespace ClassLang.Execution

open IR (Block FunctionId Instruction Op Value)

/-- The memory together with the state of the surroundings. -/
structure World (η : Type) where
  memory : Memory
  host : η

/-- What stays fixed while code runs: the module, and what a call of a function without a body
does. -/
structure Context (η : Type) where
  module : IR.Module
  external : FunctionId → List Datum → World η → Option (Option Datum × World η)

/-- A call in progress. -/
structure Frame where
  function : FunctionId
  args : List Datum
  /-- The number of the instruction of the caller that waits for the result. -/
  waiting : Nat
  /-- The results of the instructions executed so far. -/
  results : Std.TreeMap Nat Datum := {}
  /-- The number of the block that runs. -/
  block : Nat
  /-- The number of the block control came from. -/
  previous : Option Nat := none
  /-- The rest of the block. -/
  code : List Instruction

/-- A state of the machine: the calls in progress, innermost first, and the world. -/
structure State (η : Type) where
  frame : Frame
  callers : List Frame
  world : World η

/-- What comes after an instruction. -/
inductive Next (η : Type) where
  | running (state : State η)
  /-- The outermost call is over. -/
  | finished (result : Option Datum) (world : World η)

/-- How a bounded run ended. -/
inductive Outcome (η : Type) where
  | finished (result : Option Datum) (world : World η)
  /-- An operation is not defined. -/
  | stuck
  /-- The run is not over within its bound. -/
  | unfinished

namespace Frame

/-- The frame after an instruction with this result. -/
def setResult (f : Frame) (id : Nat) (v : Datum) : Frame :=
  { f with results := f.results.insert id v }

/-- The frame after an instruction that may have a result. -/
def setResult? (f : Frame) (id : Nat) : Option Datum → Frame
  | some v => f.setResult id v
  | none => f

end Frame

namespace Context

variable {η : Type} (ctx : Context η)

/-- The value of an operand. -/
def eval? (f : Frame) : Value → Option Datum
  | .const c => Datum.ofConst? ctx.module.structs c
  | .param _ index _ => f.args[index]?
  | .result _ id _ => f.results[id]?

/-- The address that an operand is. -/
def address? (f : Frame) (v : Value) : Option Address := do
  (← ctx.eval? f v).toAddress?

/-- The code of a block of a function. -/
def code (function : FunctionId) (block : Nat) : List Instruction :=
  ((ctx.module.function function).block block).instructions

/-- The frame in which a function with a body starts. -/
def enter? (function : FunctionId) (args : List Datum) (waiting : Nat) : Option Frame := do
  let block ← (ctx.module.function function).entryBlock?
  return { function, args, waiting, block, code := ctx.code function block }

/-- The frame after control went to another block. -/
def goto (f : Frame) (target : IR.BlockRef) : Frame :=
  { f with
    block := target.block
    previous := some f.block
    code := ctx.code f.function target.block }

/-- Call a function: one with a body gets a frame of its own, any other is left to the
surroundings. -/
def call? (f : Frame) (callers : List Frame) (world : World η) (id : Nat) (function : FunctionId)
    (args : List Datum) : Option (State η) :=
  if (ctx.module.function function).hasBody then do
    return { frame := ← ctx.enter? function args id, callers := f :: callers, world }
  else do
    let (result, world) ← ctx.external function args world
    return { frame := f.setResult? id result, callers, world }

/-- The function that a call goes to. -/
def callee? (f : Frame) : IR.Callee → Option FunctionId
  | .direct function => some function
  | .indirect target => do
    let .code function ← ctx.address? f target | none
    return function

/-- Leave a call. -/
def leave (f : Frame) (result : Option Datum) (world : World η) : List Frame → Next η
  | [] => .finished result world
  | caller :: callers => .running { frame := caller.setResult? f.waiting result, callers, world }

/-- Execute one operation in a frame whose code goes on after it. -/
def execute? (f : Frame) (callers : List Frame) (world : World η) (id : Nat) :
    Op → Option (Next η)
  | .alloca _ =>
    let (a, memory) := world.memory.allocate
    some (.running
      { frame := f.setResult id (.address a), callers, world := { world with memory } })
  | .load t address => do
    let v ← world.memory.load? t (← ctx.address? f address)
    return .running { frame := f.setResult id v, callers, world }
  | .store value address => do
    let v ← ctx.eval? f value
    let memory ← world.memory.store? v (← ctx.address? f address)
    return .running { frame := f, callers, world := { world with memory } }
  | .field struct base index => do
    let a ← (← ctx.address? f base).shift? (ctx.module.structs.fieldOffset struct index)
    return .running { frame := f.setResult id (.address a), callers, world }
  | .binary op lhs rhs => do
    let v ← Datum.binary? op (← ctx.eval? f lhs) (← ctx.eval? f rhs)
    return .running { frame := f.setResult id v, callers, world }
  | .compare p lhs rhs => do
    let v ← Datum.compare? p (← ctx.eval? f lhs) (← ctx.eval? f rhs)
    return .running { frame := f.setResult id v, callers, world }
  | .widen value t => do
    let v ← Datum.widen? t (← ctx.eval? f value)
    return .running { frame := f.setResult id v, callers, world }
  | .call callee _ args => do
    let function ← ctx.callee? f callee
    return .running (← ctx.call? f callers world id function (← args.mapM (ctx.eval? f)))
  | .phi _ incoming => do
    let (value, _) ← incoming.find? fun (_, source) => some source.block == f.previous
    return .running { frame := f.setResult id (← ctx.eval? f value), callers, world }
  | .jump target => some (.running { frame := ctx.goto f target, callers, world })
  | .branch cond yes no => do
    let b ← (← ctx.eval? f cond).toBool?
    return .running { frame := ctx.goto f (if b then yes else no), callers, world }
  | .ret none => some (leave f none world callers)
  | .ret (some value) => do
    return leave f (some (← ctx.eval? f value)) world callers
  | .unreachable => none

/-- Execute the next instruction. -/
def step? (s : State η) : Option (Next η) :=
  match s.frame.code with
  | [] => none
  | i :: rest => ctx.execute? { s.frame with code := rest } s.callers s.world i.id i.op

/-- Take at most this many steps. -/
def run : Nat → State η → Outcome η
  | 0, _ => .unfinished
  | fuel + 1, s =>
    match ctx.step? s with
    | none => .stuck
    | some (.finished result world) => .finished result world
    | some (.running s) => run fuel s

/-- A run that is over ends in the same way if more steps are allowed. -/
theorem run_add_of_ne_unfinished {n : Nat} {s : State η} (h : ctx.run n s ≠ .unfinished)
    (more : Nat) : ctx.run (n + more) s = ctx.run n s := by
  induction n generalizing s with
  | zero => exact absurd rfl h
  | succ n ih =>
    rw [Nat.succ_add]
    simp only [run] at h ⊢
    split at h
    · rfl
    · rfl
    · exact ih h

/-- Call a function from outside and take at most this many steps. -/
def runFunction (fuel : Nat) (function : FunctionId) (args : List Datum) (world : World η) :
    Outcome η :=
  match ctx.enter? function args 0 with
  | some frame => ctx.run fuel { frame, callers := [], world }
  | none =>
    match ctx.external function args world with
    | some (result, world) => .finished result world
    | none => .stuck

end Context

end ClassLang.Execution
