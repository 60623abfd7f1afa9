import ClassLang.Execution.Memory
import ClassLang.Syntax.Tree
import ClassLang.Types.Basic

/-!
# Evaluating Integers and Booleans

A big-step evaluation of syntax trees whose values are Integers and Booleans, independent of types
and of generated code. Operands and arguments are evaluated from left to right; Integers are
32-bit words; a Boolean becomes 0 or 1 where an Integer is expected, and an Integer counts as true
unless it is 0. A `return` abandons the rest of the body like an exception.

`Eval` steps may be undefined: division by zero, the least number divided by -1, shifts by the width
or more, reading a local that was given no value, and running out of fuel all are.
-/

namespace ClassLang

/-- The types whose values are words and truth values. -/
inductive ScalarType where
  | integer | boolean
deriving DecidableEq, Repr

namespace ScalarType

/-- The name that programs use for the type. -/
def name : ScalarType → String
  | integer => "Integer"
  | boolean => "Boolean"

/-- The type with the given name. -/
def ofName? (name : String) : Option ScalarType :=
  if name = integer.name then some integer
  else if name = boolean.name then some boolean
  else none

/-- The position of the type in every pool. -/
def id : ScalarType → TypeId
  | integer => .integer
  | boolean => .boolean

/-- The type of the values in generated code. -/
def ty : ScalarType → IR.Ty
  | integer => .i32
  | boolean => .i1

end ScalarType

/-- A word or a truth value. -/
inductive Scalar where
  | int (n : BitVec 32)
  | bool (b : Bool)
deriving DecidableEq, Repr, Inhabited

namespace Scalar

/-- The type of a value. -/
def type : Scalar → ScalarType
  | int _ => .integer
  | bool _ => .boolean

/-- The word that a value is where an Integer is expected. -/
def toInteger : Scalar → BitVec 32
  | int n => n
  | bool b => if b then 1 else 0

/-- The value as one of the expected type; no Integer is a Boolean. -/
def passTo (v : Scalar) (expected : ScalarType) : Option Scalar :=
  match expected, v with
  | .integer, v => some (int v.toInteger)
  | .boolean, bool b => some (bool b)
  | .boolean, int _ => none

theorem type_passTo {v w : Scalar} {τ : ScalarType} (h : v.passTo τ = some w) : w.type = τ := by
  cases τ <;> cases v <;> cases h <;> rfl

/-- Whether a condition with this value holds. -/
def holds : Scalar → Bool
  | int n => n != 0
  | bool b => b

/-- The value in running code. -/
def datum : Scalar → Execution.Datum
  | int n => .int .w32 n.toInt
  | bool b => .ofBool b

end Scalar

namespace BinaryOp

/-- What an operator gives on words. -/
def onIntegers (op : BinaryOp) (a b : BitVec 32) : Option Scalar :=
  let divides := b ≠ 0 ∧ ¬ (a = BitVec.intMin 32 ∧ b = -1)
  match op with
  | add => some (.int (a + b))
  | sub => some (.int (a - b))
  | mul => some (.int (a * b))
  | div => if divides then some (.int (a.sdiv b)) else none
  | rem => if divides then some (.int (a.srem b)) else none
  | shl => if b.toNat < 32 then some (.int (a <<< b.toNat)) else none
  | shr => if b.toNat < 32 then some (.int (a.sshiftRight b.toNat)) else none
  | lt => some (.bool (a.slt b))
  | gt => some (.bool (b.slt a))
  | le => some (.bool (a.sle b))
  | ge => some (.bool (b.sle a))
  | eq => some (.bool (a == b))
  | ne => some (.bool (a != b))

/-- What an operator gives on truth values. -/
def onBooleans (op : BinaryOp) (a b : Bool) : Option Scalar :=
  match op with
  | eq => some (.bool (a == b))
  | ne => some (.bool (a != b))
  | _ => none

/-- What an operator gives on values of one type. -/
def combine (op : BinaryOp) (l r : Scalar) : Option Scalar :=
  match l, r with
  | .int a, .int b => op.onIntegers a b
  | .bool a, .bool b => op.onBooleans a b
  | _, _ => none

/-- What an operator gives on values: the type of the left one is expected of the right one. -/
def apply (op : BinaryOp) (l r : Scalar) : Option Scalar := do
  op.combine l (← r.passTo l.type)

end BinaryOp

/-! ## Steps of evaluation -/

/-- The values of the locals that have one. -/
abbrev Locals := String → Option Scalar

/-- The locals after one of them got a value. -/
def Locals.set (l : Locals) (name : String) (v : Scalar) : Locals :=
  fun other => if other = name then some v else l other

/-- A step of evaluating a body. The exception is the value of a `return`; a step that is undefined
has no result at all. -/
abbrev Eval := ExceptT Scalar (StateT Locals Option)

namespace Eval

variable {α : Type}

/-- Run a step: what it gives, or what the body returns, and the locals afterwards. -/
def run (x : Eval α) (l : Locals) : Option (Except Scalar α × Locals) :=
  StateT.run (ExceptT.run x) l

/-- A step that is defined nowhere. -/
def undefined : Eval α :=
  ExceptT.mk (StateT.mk fun _ => none)

/-- A result that may be undefined. -/
def ofOption : Option α → Eval α
  | some a => pure a
  | none => undefined

/-- Abandon the body with a value. -/
def leave (v : Scalar) : Eval α :=
  throw v

/-- The value of a local. -/
def read (name : String) : Eval Scalar := do
  ofOption ((← getThe Locals) name)

/-- Give a local a value. -/
def write (name : String) (v : Scalar) : Eval Unit :=
  modifyThe Locals (·.set name v)

variable {β : Type} {l l' : Locals} {u : Scalar}

@[simp] theorem run_read (name : String) (l : Locals) :
    (read name).run l = (l name).map fun v => (.ok v, l) := by
  show (ofOption (l name) : Eval Scalar).run l = _
  cases l name <;> rfl

@[simp] theorem run_write (name : String) (v : Scalar) (l : Locals) :
    (write name v).run l = some (.ok ⟨⟩, l.set name v) := rfl

theorem run_bind (x : Eval α) (next : α → Eval β) (l : Locals) :
    (x >>= next).run l = (x.run l).bind fun
      | (.ok a, l') => (next a).run l'
      | (.error u, l') => some (.error u, l') := by
  show (StateT.bind x.run _ l : Option _) = _
  show Option.bind (x.run l) _ = _
  congr 1
  funext ⟨outcome, l'⟩
  cases outcome <;> rfl

/-- A sequence that comes to its end. -/
theorem run_bind_ok {x : Eval α} {next : α → Eval β} {b : β} :
    (x >>= next).run l = some (.ok b, l') ↔
      ∃ a l₁, x.run l = some (.ok a, l₁) ∧ (next a).run l₁ = some (.ok b, l') := by
  rw [run_bind]
  constructor
  · intro h
    obtain ⟨⟨outcome, l₁⟩, hx, hnext⟩ := Option.bind_eq_some_iff.mp h
    cases outcome with
    | ok a => exact ⟨a, l₁, hx, hnext⟩
    | error u => cases hnext
  · rintro ⟨a, l₁, hx, hnext⟩
    rw [hx]
    exact hnext

/-- A sequence that leaves the body. -/
theorem run_bind_error {x : Eval α} {next : α → Eval β} :
    (x >>= next).run l = some (.error u, l') ↔
      x.run l = some (.error u, l') ∨
        ∃ a l₁, x.run l = some (.ok a, l₁) ∧ (next a).run l₁ = some (.error u, l') := by
  rw [run_bind]
  constructor
  · intro h
    obtain ⟨⟨outcome, l₁⟩, hx, hnext⟩ := Option.bind_eq_some_iff.mp h
    cases outcome with
    | ok a => exact .inr ⟨a, l₁, hx, hnext⟩
    | error u =>
        cases hnext
        exact .inl hx
  · rintro (hx | ⟨a, l₁, hx, hnext⟩)
    · rw [hx]
      rfl
    · rw [hx]
      exact hnext

/-- Undefined results of one step after the other. -/
theorem ofOption_bind (a? : Option α) (next : α → Option β) :
    ofOption (a?.bind next) = ofOption a? >>= fun a => ofOption (next a) := by
  cases a? with
  | none => rfl
  | some a => exact (pure_bind a fun a => ofOption (next a)).symm

theorem ofOption_mapM {γ : Type} (items : List γ) (step : γ → Option α) :
    ofOption (items.mapM step) = items.mapM fun item => ofOption (step item) := by
  induction items with
  | nil => rfl
  | cons item items ih =>
      rw [List.mapM_cons, List.mapM_cons, ← ih]
      show ofOption ((step item).bind fun a => (items.mapM step).bind fun as => some (a :: as)) = _
      simp only [ofOption_bind]
      rfl

end Eval

/-! ## Functions -/

/-- A function whose parameters and result are Integers and Booleans. -/
structure ScalarFunction where
  params : List (String × ScalarType)
  result : ScalarType
  body : NodeId
deriving DecidableEq, Repr

namespace ScalarFunction

/-- The argument of the parameter `name` in position `index`: the one that is passed by this name,
else the positional one at this position. -/
def argument? {α : Type} (args : List (Option String × α)) (name : String) (index : Nat) :
    Option α :=
  match args.find? (·.1 == some name) with
  | some (_, value) => some value
  | none => ((args.filter (·.1.isNone))[index]?).map (·.2)

/-- The values of the parameters in a call with these arguments. -/
def bind? (f : ScalarFunction) (args : List (Option String × Scalar)) : Option (List Scalar) :=
  f.params.zipIdx.mapM fun ((name, type), index) => do
    (← argument? args name index).passTo type

/-- The locals in which the body begins. -/
def locals (f : ScalarFunction) (values : List Scalar) : Locals :=
  fun name => ((f.params.map (·.1)).zip values).lookup name

/-- What the function gives for these values of its parameters, given how nodes are evaluated: the
value that the body returns, or its own value when its end is reached. -/
def result? (f : ScalarFunction) (eval : NodeId → Eval (Option Scalar)) (values : List Scalar) :
    Option Scalar := do
  let (outcome, _) ← (eval f.body).run (f.locals values)
  let value ← match outcome with
    | .error returned => some returned
    | .ok last => last
  value.passTo f.result

/-- A function gives values of its result type. -/
theorem type_result? {f : ScalarFunction} {eval : NodeId → Eval (Option Scalar)}
    {values : List Scalar} {v : Scalar} (h : f.result? eval values = some v) : v.type = f.result := by
  obtain ⟨⟨outcome, l⟩, -, h⟩ := Option.bind_eq_some_iff.mp h
  cases outcome with
  | error returned => exact Scalar.type_passTo h
  | ok last =>
      obtain ⟨value, -, hpass⟩ := Option.bind_eq_some_iff.mp h
      exact Scalar.type_passTo hpass

/-- The values have the types of the parameters. -/
def Fits (f : ScalarFunction) (values : List Scalar) : Prop :=
  values.map (·.type) = f.params.map (·.2)

/-- The parameters of a call get values of their types. -/
theorem fits_bind? {f : ScalarFunction} {args : List (Option String × Scalar)} {values : List Scalar}
    (h : f.bind? args = some values) : f.Fits values := by
  unfold bind? at h
  unfold Fits
  generalize 0 = start at h
  generalize f.params = params at h ⊢
  induction params generalizing start values with
  | nil =>
      cases h
      rfl
  | cons param params ih =>
      rw [List.zipIdx_cons, List.mapM_cons] at h
      obtain ⟨v, hv, h⟩ := Option.bind_eq_some_iff.mp h
      obtain ⟨vs, hvs, ⟨⟩⟩ := Option.bind_eq_some_iff.mp h
      obtain ⟨arg, -, hpass⟩ := Option.bind_eq_some_iff.mp hv
      rw [List.map_cons, List.map_cons, Scalar.type_passTo hpass, ih _ hvs]

/-- What a call gives. -/
def invoke (f : ScalarFunction) (eval : NodeId → Eval (Option Scalar))
    (args : List (Option String × Scalar)) : Option Scalar := do
  f.result? eval (← f.bind? args)

end ScalarFunction

namespace SyntaxTree

variable (tree : SyntaxTree)

/-- The type that a type expression spells, if it is `Integer` or `Boolean`. -/
def scalarType? (node : NodeId) : Option ScalarType :=
  match tree.node node with
  | .namedType name => ScalarType.ofName? name
  | _ => none

/-- The name that an argument is passed by. -/
def argumentName? (node : NodeId) : Option String :=
  match tree.node node with
  | .namedArg name _ => some name
  | _ => none

/-- The definition of a top-level function. -/
def function? (name : String) : Option NodeId :=
  (tree.statements tree.root).find? fun statement =>
    match tree.node statement with
    | .methodDef other .. => other == name
    | _ => false

/-- The function that a node defines, if its parameters and result are Integers and Booleans. -/
def scalarFunction? (node : NodeId) : Option ScalarFunction :=
  match tree.node node with
  | .methodDef _ params (some result) body => do
    let params ← params.mapM fun param =>
      match tree.node param with
      | .typed name type => return (name, ← tree.scalarType? type)
      | _ => none
    return { params, result := ← tree.scalarType? result, body }
  | _ => none

variable {tree} {name : String} {decl : NodeId} {fn : ScalarFunction}

/-- A top-level function is defined by one of the statements of the unit. -/
theorem mem_of_function? (h : tree.function? name = some decl) :
    decl ∈ tree.statements tree.root ∧ ∃ params result body,
      tree.node decl = .methodDef name params result body := by
  refine ⟨List.mem_of_find?_eq_some h, ?_⟩
  have hname := List.find?_some h
  split at hname
  · next hnode =>
      rw [hnode, beq_iff_eq.mp hname]
      exact ⟨_, _, _, rfl⟩
  · cases hname

theorem node_of_scalarFunction? (h : tree.scalarFunction? decl = some fn) :
    ∃ name params result, tree.node decl = .methodDef name params (some result) fn.body := by
  unfold scalarFunction? at h
  split at h
  · next name params result body hnode =>
      obtain ⟨ps, -, h⟩ := Option.bind_eq_some_iff.mp h
      obtain ⟨τ, -, ⟨⟩⟩ := Option.bind_eq_some_iff.mp h
      exact ⟨name, params, result, hnode⟩
  · cases h

end SyntaxTree

/-! ## Nodes -/

namespace Eval

variable (tree : SyntaxTree) (eval : NodeId → Eval (Option Scalar))

/-- Evaluate a node that must have a value. -/
def value (node : NodeId) : Eval Scalar := do
  ofOption (← eval node)

/-- Evaluate a condition. -/
def condition (node : NodeId) : Eval Bool :=
  return (← value eval node).holds

/-- Evaluate an argument, together with the name it is passed by. -/
def argument (node : NodeId) : Eval (Option String × Scalar) :=
  return (tree.argumentName? node, ← value eval node)

/-- What a call of a top-level function gives. -/
def invoke? (name : String) (args : List (Option String × Scalar)) : Option Scalar := do
  let f ← tree.scalarFunction? (← tree.function? name)
  f.invoke eval args

/-- Evaluate a node, given how nodes are evaluated. There is a value if the node has one. -/
def evalNode (node : NodeId) : Eval (Option Scalar) := do
  match tree.node node with
  | .seq statements => statements.foldlM (fun _ statement => eval statement) none
  | .number n => pure (some (.int (.ofInt 32 n)))
  | .bool b => pure (some (.bool b))
  | .ident name => return some (← read name)
  | .var name none initial =>
    let v ← value eval initial
    write name v
    pure (some v)
  | .var name (some type) initial =>
    let v ← value eval initial
    let v ← ofOption do v.passTo (← tree.scalarType? type)
    write name v
    pure (some v)
  | .assign target new =>
    match tree.node target with
    | .ident name =>
      let v ← value eval new
      write name v
      pure (some v)
    | _ => undefined
  | .binary op lhs rhs =>
    let l ← value eval lhs
    let r ← value eval rhs
    return some (← ofOption (op.apply l r))
  | .unary .not operand =>
    match ← value eval operand with
    | .bool b => pure (some (.bool !b))
    | .int _ => undefined
  | .branch cond yes no =>
    if ← condition eval cond then
      let _ ← eval yes
    else
      no.forM fun no => do let _ ← eval no
    pure none
  | .loop cond body =>
    if ← condition eval cond then
      let _ ← eval body
      eval node
    else pure none
  | .ret (some result) => leave (← value eval result)
  | .namedArg _ passed => eval passed
  | .call none name args =>
    let passed ← args.mapM (argument tree eval)
    return some (← ofOption (invoke? tree eval name passed))
  | _ => undefined

section Equations

variable {tree eval} {node : NodeId}

theorem evalNode_var {name : String} {declared : Option NodeId} {initial : NodeId}
    (h : tree.node node = .var name declared initial) :
    evalNode tree eval node = (value eval initial >>= fun v =>
      (match declared with
        | none => pure v
        | some type => ofOption do v.passTo (← tree.scalarType? type)) >>= fun v =>
      write name v >>= fun _ => pure v) >>= fun v => pure (some v) := by
  rw [evalNode, h]
  cases declared <;> simp only [bind_assoc, pure_bind]

theorem evalNode_assign {target given : NodeId} {name : String}
    (h : tree.node node = .assign target given) (htarget : tree.node target = .ident name) :
    evalNode tree eval node = (value eval given >>= fun v =>
      write name v >>= fun _ => pure v) >>= fun v => pure (some v) := by
  rw [evalNode, h]
  simp only [htarget, bind_assoc, pure_bind]

theorem evalNode_binary {op : BinaryOp} {lhs rhs : NodeId}
    (h : tree.node node = .binary op lhs rhs) :
    evalNode tree eval node = (value eval lhs >>= fun l => value eval rhs >>= fun r =>
      ofOption (op.apply l r)) >>= fun v => pure (some v) := by
  rw [evalNode, h]
  simp only [bind_assoc]

theorem evalNode_not {operand : NodeId} (h : tree.node node = .unary .not operand) :
    evalNode tree eval node = (value eval operand >>= fun
      | .bool b => pure (.bool !b)
      | .int _ => undefined) >>= fun v => pure (some v) := by
  rw [evalNode, h, bind_assoc]
  refine bind_congr fun v => ?_
  cases v with
  | bool b => exact (pure_bind _ _).symm
  | int _ => rfl

theorem evalNode_branch {cond yes : NodeId} {no : Option NodeId}
    (h : tree.node node = .branch cond yes no) :
    evalNode tree eval node = condition eval cond >>= fun p =>
      if p then eval yes >>= fun _ => pure none
      else match no with
        | none => pure none
        | some no => eval no >>= fun _ => pure none := by
  rw [evalNode, h]
  refine bind_congr fun p => ?_
  cases p <;> cases no <;> simp

theorem evalNode_call {name : String} {args : List NodeId}
    (h : tree.node node = .call none name args) :
    evalNode tree eval node = (args.mapM (argument tree eval) >>= fun passed =>
      ofOption (invoke? tree eval name passed)) >>= fun v => pure (some v) := by
  rw [evalNode, h]
  simp only [bind_assoc]

end Equations

/-- Evaluate a node with a bound on nested nodes, calls and turns of loops. -/
def evalWithin : Nat → NodeId → Eval (Option Scalar)
  | 0, _ => undefined
  | fuel + 1, node => evalNode tree (evalWithin fuel) node

end Eval

end ClassLang
