import ClassLang.Lowering.Expression

/-!
# Control flow in generated code

Sequences, branches, loops, `case` and `return`. Except for sequences none of them has a value. What
follows a `return` in its block is not generated.
-/

namespace ClassLang.Lower

open IR (BlockRef Build Value)

variable (ctx : LoweringContext) (lower : NodeId → Lower (Option Value))

/-- Statements in order, as long as the current block is open. The value is that of the last
statement generated. -/
def lowerSeq (statements : List NodeId) : Lower (Option Value) :=
  statements.foldlM (fun last statement => do
    if ← terminated then pure last else lower statement) none

/-- The truth value of a condition; an Integer is compared with zero. -/
def condition (cond : NodeId) : Lower Value := do
  let t ← typeOf ctx cond
  let value ← lowerValue lower cond
  if t = .integer then build (Build.compare .ne value (.const (.int .w32 0)) "tobool")
  else pure value

/-- Leave the current block for the block where the branches meet, which is made on first use. -/
def joinAt (merge : Option BlockRef) : Lower (Option BlockRef) := do
  if ← terminated then pure merge
  else
    let target ← match merge with
      | some target => pure target
      | none => block "if.end"
    build (Build.jump target)
    pure (some target)

/-- `if cond then yes [else no]`. If both branches return there is no place where they meet. -/
def lowerBranch (cond yes : NodeId) (no : Option NodeId) : Lower Unit := do
  let cond ← condition ctx lower cond
  let yesBlock ← block "if.then"
  let (noBlock, merge) ← match no with
    | some _ => do pure (← block "if.else", none)
    | none => do
      let merge ← block "if.end"
      pure (merge, some merge)
  build do
    Build.branch cond yesBlock noBlock
    Build.positionAtEnd yesBlock
  let _ ← lower yes
  let merge ← joinAt merge
  let merge ← match no with
    | some no => do
      build (Build.positionAtEnd noBlock)
      let _ ← lower no
      joinAt merge
    | none => pure merge
  match merge with
  | some merge => build do
    Build.moveBlockToEnd merge
    Build.positionAtEnd merge
  | none => pure ()

/-- `while cond do body`. -/
def lowerLoop (cond body : NodeId) : Lower Unit := do
  let condBlock ← block "while.cond"
  let bodyBlock ← block "while.body"
  let endBlock ← block "while.end"
  build do
    Build.jump condBlock
    Build.positionAtEnd condBlock
  let cond ← condition ctx lower cond
  build do
    Build.branch cond bodyBlock endBlock
    Build.positionAtEnd bodyBlock
  let _ ← lower body
  if !(← terminated) then build (Build.jump condBlock)
  build do
    Build.moveBlockToEnd endBlock
    Build.positionAtEnd endBlock

/-! ## Case -/

/-- Whether a tag is that of a case. -/
def tagMatches (tag : Value) (t : TypeId) : Lower Value := do
  let parts ← Emit.caseParts ctx t
  build (Build.compare .eq tag (.const (.int .w32 parts.tag)) ("is." ++ parts.shortName))

/-- The fields of the matched case become locals, in the order the pattern names them. -/
def bindFields (value : Value) (t : TypeId) (fields : List String) : Lower Unit := do
  let parts ← Emit.caseParts ctx t
  let struct ← Emit.layout ctx t
  (fields.zip parts.fields).zipIdx.forM fun ((name, (_, fieldType)), index) => do
    let type ← Emit.valueType ctx fieldType
    let loaded ← build do
      let slot ← Build.structField struct value (index + 1) (name ++ ".ptr")
      Build.load type slot name
    bind name (.fixed loaded)

/-- Bind the names of a matched pattern: the binder first, then the fields. -/
def bindPattern (value : Value) (t : TypeId) (onDynamic : Bool) (binder : Option String)
    (fields : List String) : Lower Unit := do
  if onDynamic then
    match binder with
    | some name => bind name (.fixed (← unboxDynamic ctx value t))
    | none => pure ()
  else
    match binder with
    | some name => bind name (.fixed value)
    | none => pure ()
    if !fields.isEmpty then bindFields ctx value t fields

/-- One arm: test the pattern, and on a match bind its names and run the body, which leads to
`endBlock`. What follows goes on where the test failed. -/
def lowerArm (value : Value) (tag : Option Value) (endBlock : BlockRef) (arm : NodeId) :
    Lower Unit := do
  match ctx.tree.node arm with
  | .arm pattern body =>
    match ctx.tree.node pattern with
    | .pattern _ binder fields =>
      let t ← typeOf ctx pattern
      let found ← match tag with
        | some tag => tagMatches ctx tag t
        | none => dynamicHolds ctx value t
      let armBlock ← block "when"
      let nextBlock ← block "when.next"
      build do
        Build.branch found armBlock nextBlock
        Build.positionAtEnd armBlock
      let outer := (← get).scope
      bindPattern ctx value t tag.isNone binder fields
      let _ ← lower body
      modify fun b => { b with scope := outer }
      if !(← terminated) then build (Build.jump endBlock)
      build (Build.positionAtEnd nextBlock)
    | _ => broken "'when' without a pattern"
  | _ => broken "case arm is not a 'when'"

/-- `case cond; when ...; end`: the arms are tried in order. A data value is told by its tag, a
`Dynamic` by the record of its type. -/
def lowerSelect (cond : NodeId) (arms : List NodeId) : Lower Unit := do
  let t ← typeOf ctx cond
  let value ← lowerValue lower cond
  let tag ← if t = .dynamic then pure none
    else do
      let envelope ← Emit.layout ctx t
      build do
        let slot ← Build.structField envelope value 0 "tag.ptr"
        return some (← Build.load .i32 slot "tag")
  let endBlock ← block "case.end"
  arms.forM (lowerArm ctx lower value tag endBlock)
  build do
    Build.jump endBlock
    Build.moveBlockToEnd endBlock
    Build.positionAtEnd endBlock

/-- `return [value]`. -/
def lowerReturn (value : Option NodeId) : Lower Unit := do
  match value with
  | none => returnVoid
  | some value =>
    if ← returnsVoid then broken "value returned from a void function"
    let t ← typeOf ctx value
    let v ← lowerValue lower value
    if !(← terminated) then returnValue ctx v t

end ClassLang.Lower
