import ClassLang.IR.Fold

/-!
# Building modules

A `Builder` adds structs, globals, functions, blocks and instructions to a module. Instructions go
to the insertion point: usually the end of the current block. A misuse, such as reading through
something that is no address or ending a block twice, is counted and answered by a harmless value
instead of spoiling the module.
-/

namespace ClassLang.IR

/-- Where the next instruction goes. -/
inductive Cursor where
  | atEnd (block : BlockRef)
  /-- In front of the instruction with the given number. -/
  | before (block : BlockRef) (id : Nat)
deriving DecidableEq, Repr

/-- A module under construction. -/
structure Builder where
  module : Module
  /-- The insertion point. -/
  cursor : Option Cursor := none
  /-- The function being built. -/
  currentFunction : Option FunctionId := none
  /-- The block being built. -/
  currentBlock : Option BlockRef := none
  /-- Each declared function by the name it was asked for under. -/
  declared : List (String × FunctionId) := []
  /-- How many misuses were counted. -/
  errors : Nat := 0
deriving Repr

/-- The function and block being built, to come back to later. -/
structure Position where
  function : Option FunctionId
  block : Option BlockRef
deriving DecidableEq, Repr

/-- A step of building. -/
abbrev Build := StateM Builder

namespace Builder

/-- A builder of an empty module. -/
def ofName (name : String) : Builder := { module := { name } }

instance : Inhabited Builder := ⟨ofName ""⟩

/-- The function declared under a name. -/
def function? (b : Builder) (name : String) : Option FunctionId :=
  b.declared.lookup name

/-- Whether a struct has a body. -/
def structHasBody (b : Builder) (t : Ty) : Bool :=
  match t with
  | .struct id => (b.module.structs[id]?.bind (·.fields)).isSome
  | _ => false

/-- The name of a struct. -/
def structName? (b : Builder) (t : Ty) : Option String :=
  match t with
  | .struct id => b.module.structs[id]?.map (·.name)
  | _ => none

/-- The size of a value in bytes. -/
def sizeOf (b : Builder) (t : Ty) : Nat :=
  (b.module.structs.extent t).size

/-- Whether nothing can be added to the current block: there is none, or it has ended. -/
def isTerminated (b : Builder) : Bool :=
  match b.currentBlock with
  | some block => (b.module.block block).isTerminated
  | none => true

/-- The function and block being built. -/
def position (b : Builder) : Position :=
  { function := b.currentFunction, block := b.currentBlock }

/-- A parameter of a function. -/
def param (b : Builder) (function : FunctionId) (index : Nat) : Value :=
  .param function index ((b.module.function function).type.params.getD index default)

end Builder

namespace Build

/-- Count a misuse. -/
def misuse : Build Unit :=
  modify fun b => { b with errors := b.errors + 1 }

/-- Change the module. -/
def modifyModule (change : Module → Module) : Build Unit :=
  modify fun b => { b with module := change b.module }

/-! ## Structs, globals and functions -/

/-- A new struct without a body. -/
def namedStruct (name : String) : Build Ty :=
  modifyGet fun b =>
    let m := b.module
    let (unique, structNames) := m.structNames.take name
    (.struct m.structs.size,
      { b with module := { m with structs := m.structs.push { name := unique }, structNames } })

/-- Give a struct its fields, once. -/
def setStructBody (t : Ty) (fields : List Ty) : Build Unit := do
  if (← get).structHasBody t then misuse
  else
    match t with
    | .struct id =>
      modifyModule fun m =>
        { m with structs := m.structs.modify id fun s => { s with fields := some fields } }
    | _ => misuse

/-- A constant struct. -/
def constStruct (t : Ty) (fields : List Value) : Build Value := do
  match t with
  | .struct id => pure (.const (.struct id (fields.map (·.toConst))))
  | _ =>
    misuse
    pure (.const .null)

/-- Declare a function, or give the one declared under that name before. -/
def declareFunction (name : String) (type : FnType) : Build FunctionId :=
  modifyGet fun b =>
    match b.function? name with
    | some id => (id, b)
    | none =>
      let m := b.module
      let id := m.functions.size
      let (unique, symbols) := m.symbols.take name
      (id, { b with
        module := { m with functions := m.functions.push (.declared unique type), symbols }
        declared := (name, id) :: b.declared })

theorem run_declareFunction (b : Builder) (name : String) (type : FnType) :
    (declareFunction name type).run b =
      match b.function? name with
      | some id => (id, b)
      | none => (b.module.functions.size, { b with
          module := { b.module with
            functions := b.module.functions.push
              (.declared (b.module.symbols.take name).1 type)
            symbols := (b.module.symbols.take name).2 }
          declared := (name, b.module.functions.size) :: b.declared }) :=
  rfl

/-- Name a parameter. -/
def setParamName (function : FunctionId) (index : Nat) (name : String) : Build Unit :=
  modifyModule (·.modifyFunction function fun f =>
    match f.paramNames[index]? with
    | none => f
    | some old =>
      if old == name then f
      else
        let (unique, names) := (f.names.release old).take name
        { f with names, paramNames := f.paramNames.set index unique })

/-- Add a constant global and give its address. -/
def addConstant (name : String) (type : Ty) (init : Value) : Build Value :=
  modifyGet fun b =>
    let m := b.module
    let (unique, symbols) := m.symbols.take name
    (.const (.globalAddr m.globals.size),
      { b with module := { m with
        globals := m.globals.push { name := unique, type, init := init.toConst }, symbols } })

/-! ## Blocks -/

/-- A new block at the end of a function. -/
def appendBlock (function : FunctionId) (label : String) : Build BlockRef :=
  modifyGet fun b =>
    let f := b.module.function function
    let (unique, names) := f.names.take label
    let number := f.blocks.size
    ({ function, block := number },
      { b with module := b.module.modifyFunction function fun f =>
        { f with
          names
          blocks := f.blocks.push { label := unique }
          layout := f.layout ++ [number] } })

/-- Make a function the current one. -/
def setCurrentFunction (function : FunctionId) : Build Unit :=
  modify fun b => { b with currentFunction := some function }

/-- Go on at the end of a block. -/
def positionAtEnd (block : BlockRef) : Build Unit :=
  modify fun b => { b with cursor := some (.atEnd block), currentBlock := some block }

/-- Come back to a saved position. -/
def restore (p : Position) : Build Unit := do
  modify fun b => { b with currentFunction := p.function }
  match p.block with
  | some block => positionAtEnd block
  | none => modify fun b => { b with cursor := none, currentBlock := none }

/-- Move a block behind all others of its function. -/
def moveBlockToEnd (block : BlockRef) : Build Unit :=
  modifyModule (·.modifyFunction block.function fun f =>
    { f with layout := f.layout.erase block.block ++ [block.block] })

/-! ## Instructions -/

/-- Put an instruction in front of the one with the given number. -/
def insertBefore (new : Instruction) (id : Nat) : List Instruction → List Instruction
  | [] => [new]
  | i :: rest => if i.id = id then new :: i :: rest else i :: insertBefore new id rest

/-- Add an instruction at the insertion point and give its result. Only results are named. -/
def insert (name : String) (op : Op) : Build Value :=
  modifyGet fun b =>
    match b.cursor with
    | none => (.const (.poison (op.resultType?.getD .ptr)), b)
    | some cursor =>
      let (block, place) : BlockRef × (Instruction → List Instruction → List Instruction) :=
        match cursor with
        | .atEnd block => (block, fun new is => is ++ [new])
        | .before block id => (block, fun new is => insertBefore new id is)
      let f := b.module.function block.function
      let id := f.nextId
      let (unique, names) :=
        if op.resultType?.isSome then f.names.take name else ("", f.names)
      let new : Instruction := { id, name := unique, op }
      (.result block.function id (op.resultType?.getD .ptr),
        { b with module := b.module.modifyFunction block.function fun f =>
          { f with names, nextId := id + 1 }.modifyBlock block.block fun bl =>
            { bl with instructions := place new bl.instructions } })

/-- A stack slot at the start of a function's entry block. -/
def entryAlloca (function : FunctionId) (name : String) (type : Ty) : Build Value := do
  let b ← get
  let f := b.module.function function
  match f.entryBlock? with
  | none =>
    misuse
    pure (.const .null)
  | some entry =>
    let block : BlockRef := { function, block := entry }
    let cursor : Cursor := match (f.block entry).instructions with
      | first :: _ => .before block first.id
      | [] => .atEnd block
    modify fun b => { b with cursor := some cursor }
    let slot ← insert name (.alloca type)
    match b.currentBlock with
    | some current => modify fun b => { b with cursor := some (.atEnd current) }
    | none => pure ()
    pure slot

/-- Read a value. Reading through something that is no address gives that back. -/
def load (type : Ty) (address : Value) (name : String) : Build Value := do
  if address.isPtr then insert name (.load type address)
  else
    misuse
    pure address

/-- Write a value. -/
def store (value address : Value) : Build Unit := do
  if address.isPtr then
    let _ ← insert "" (.store value address)
  else misuse

/-- The address of a field of the struct at `base`. -/
def structField (type : Ty) (base : Value) (index : Nat) (name : String) : Build Value := do
  let refuse : Build Value := do
    misuse
    pure (.const .null)
  match type with
  | .struct id =>
    if base.isPtr && index < ((← get).module.structs.fields id).length then
      match base with
      | .const c => pure (.const (.field id c index))
      | _ => insert name (.field id base index)
    else refuse
  | _ => refuse

/-- An integer operation. Two constants are folded. -/
def binary (op : IntOp) (lhs rhs : Value) (name : String) : Build Value := do
  if lhs.isInt && rhs.isInt then
    match lhs, rhs with
    | .const a, .const b =>
      match Const.binary? op a b with
      | some c => pure (.const c)
      | none => insert name (.binary op lhs rhs)
    | _, _ => insert name (.binary op lhs rhs)
  else
    misuse
    pure (.const (.int .w32 0))

/-- The complement of an integer. -/
def not (value : Value) (name : String) : Build Value := do
  match value.type with
  | .int w => binary .xor value (.const (.int w (-1))) name
  | _ =>
    misuse
    pure (.const (.bool false))

/-- A comparison of operands that both have the wanted kind of type. -/
def compareOf (wanted : Value → Bool) (p : Predicate) (lhs rhs : Value) (name : String) :
    Build Value := do
  if wanted lhs && wanted rhs then
    match lhs, rhs with
    | .const a, .const b =>
      match Const.compare? p a b with
      | some c => pure (.const c)
      | none => insert name (.compare p lhs rhs)
    | _, _ => insert name (.compare p lhs rhs)
  else
    misuse
    pure (.const (.bool false))

/-- A comparison of integers. -/
def compare (p : Predicate) (lhs rhs : Value) (name : String) : Build Value :=
  compareOf Value.isInt p lhs rhs name

/-- A comparison of addresses. -/
def comparePtr (p : Predicate) (lhs rhs : Value) (name : String) : Build Value :=
  compareOf Value.isPtr p lhs rhs name

/-- Extend an integer with zero bits. Its own type gives the value itself, and what is no integer
stays as it is. -/
def widen (value : Value) (type : Ty) (name : String) : Build Value := do
  if value.isInt && type.isInt then
    if value.type == type then pure value
    else
      match value with
      | .const c =>
        match Const.widen? type c with
        | some c => pure (.const c)
        | none => insert name (.widen value type)
      | _ => insert name (.widen value type)
  else
    misuse
    pure value

/-- Call a function; there is a value unless it returns nothing. -/
def call (function : FunctionId) (args : List Value) (name : String) : Build (Option Value) := do
  let type := ((← get).module.function function).type
  let result ← insert name (.call (.direct function) type args)
  pure (type.result.map fun _ => result)

/-- Call the function at an address. -/
def callIndirect (type : FnType) (target : Value) (args : List Value) (name : String) :
    Build (Option Value) := do
  if target.isPtr then
    let result ← insert name (.call (.indirect target) type args)
    pure (type.result.map fun _ => result)
  else
    misuse
    pure none

/-- Merge the values that come in from several blocks. One value needs no merging. -/
def phi (type : Ty) (incoming : List (Value × BlockRef)) (name : String) :
    Build (Option Value) :=
  match incoming with
  | [] => pure none
  | [(single, _)] => pure (some single)
  | _ => return some (← insert name (.phi type incoming))

/-! ## Terminators -/

/-- End the current block, unless there is none or it has ended. -/
def terminate (op : Op) : Build Unit := do
  if (← get).isTerminated then misuse
  else
    let _ ← insert "" op

/-- Go to a block. -/
def jump (target : BlockRef) : Build Unit :=
  terminate (.jump target)

/-- Go to one of two blocks. A condition that is no integer leads to `no`. -/
def branch (cond : Value) (yes no : BlockRef) : Build Unit := do
  if (← get).isTerminated then misuse
  else if cond.isInt then terminate (.branch cond yes no)
  else
    misuse
    jump no

/-- Return a value. -/
def ret (value : Value) : Build Unit :=
  terminate (.ret (some value))

/-- Return without a value. -/
def retVoid : Build Unit :=
  terminate (.ret none)

/-- Mark a place that control never reaches. -/
def unreachable : Build Unit :=
  terminate .unreachable

end Build

end ClassLang.IR
