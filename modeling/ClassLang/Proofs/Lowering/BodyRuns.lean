import ClassLang.Lowering.Generate
import ClassLang.Proofs.Discipline

/-!
# Which parts a run generates

The constructs are generated with a parameter that generates their parts. A run comes to a part in
certain states: if the parameter stops there, the whole run stops there. This is `Visits`. What a run
does is determined by what the parameter does at the places it visits (`Determined`), for steps that
use the parameter only to run it, as all constructs do (`Lower.lowerNode_determined`).

The body of a function is generated in one run, a `BodyRun`. It begins where the function is open and
its parameters are locals; it generates the node of the body, and from there its parts, and ends with
the exit block. `Returns` says which values the run brings to the exit block: those of the nodes that
are returned, and that of the body itself, as they are converted to the result of the function.
-/

namespace ClassLang

open IR (BlockRef Build Value)

/-- How nodes are generated. -/
abbrev Generator := NodeId → Lower (Option Value)

/-- Generating a node begins in certain states. -/
structure CodePlace where
  node : NodeId
  body : Body
  output : Output

namespace Emit

variable {α β : Type}

open Classical in
/-- Stop at the place, and generate as before elsewhere. -/
noncomputable def stopAt (place : CodePlace) (halt : Halt) (lower : Generator) : Generator :=
  fun node b o =>
    if (⟨node, b, o⟩ : CodePlace) = place then .error halt o else (lower node).run b o

/-- The run of the step from `o` generates a part at the place: to stop there stops the run. -/
def Visits (step : Generator → Emit α) (lower : Generator) (o : Output) (place : CodePlace) : Prop :=
  ∀ halt, step (stopAt place halt lower) o = .error halt place.output

/-- Two ways to generate do the same at a place. -/
def AgreeAt (lower lower' : Generator) (place : CodePlace) : Prop :=
  (lower' place.node).run place.body place.output = (lower place.node).run place.body place.output

/-- What the step does is determined by how parts are generated at the places that it visits. -/
def Determined (step : Generator → Emit α) : Prop :=
  ∀ (lower lower' : Generator) (o : Output),
    (∀ place, Visits step lower o place → AgreeAt lower lower' place) → step lower' o = step lower o

variable {lower lower' : Generator} {o : Output} {place : CodePlace}

theorem stopAt_self (halt : Halt) :
    (stopAt place halt lower place.node).run place.body place.output =
      .error halt place.output := by
  show stopAt place halt lower place.node place.body place.output = _
  rw [stopAt, if_pos rfl]

/-- Stopping at one place changes nothing at others. -/
theorem agreeAt_stopAt {other : CodePlace} (h : other ≠ place) (halt : Halt) :
    AgreeAt lower (stopAt place halt lower) other := by
  show stopAt place halt lower other.node other.body other.output = _
  rw [stopAt, if_neg h]

namespace Determined

/-- A step that generates no part. -/
theorem const (step : Emit α) : Determined fun _ => step :=
  fun _ _ _ _ => rfl

/-- Generating one part. -/
theorem part (node : NodeId) (b : Body) : Determined fun lower => (lower node).run b :=
  fun _ _ o h => h ⟨node, b, o⟩ fun halt => stopAt_self halt

theorem bind {first : Generator → Emit β} {next : Generator → β → Emit α}
    (hfirst : Determined first) (hnext : ∀ a, Determined fun lower => next lower a) :
    Determined fun lower => first lower >>= next lower := by
  intro lower lower' o h
  have hvisits : ∀ place, Visits first lower o place →
      Visits (fun lower => first lower >>= next lower) lower o place := by
    intro place hplace halt
    simp only [Bind.bind, EStateM.bind, hplace halt]
  have hsame := hfirst lower lower' o fun place hplace => h place (hvisits place hplace)
  simp only [Bind.bind, EStateM.bind, hsame]
  cases hrun : first lower o with
  | error e u => rfl
  | ok a u =>
      refine hnext a lower lower' u fun place hplace => ?_
      by_cases hearly : Visits first lower o place
      · exact h place (hvisits place hearly)
      · -- the first step does not come to the place, so it still ends as before
        refine h place fun halt => ?_
        have hfirst' : first (stopAt place halt lower) o = .ok a u := by
          rw [hfirst lower _ o fun other hother => agreeAt_stopAt ?_ halt, hrun]
          rintro rfl
          exact hearly hother
        simp only [Bind.bind, EStateM.bind, hfirst']
        exact hplace halt

end Determined

open Classical in
/-- Generate parts only at the places that a run visits. -/
noncomputable def onlyVisited (step : Generator → Emit α) (lower : Generator) (o : Output) :
    Generator :=
  fun node b o' =>
    if Visits step lower o ⟨node, b, o'⟩ then (lower node).run b o' else .error .outOfFuel o'

theorem onlyVisited_of_visits {step : Generator → Emit α} {node : NodeId} {b : Body} {o' : Output}
    (h : Visits step lower o ⟨node, b, o'⟩) :
    (onlyVisited step lower o node).run b o' = (lower node).run b o' := by
  show onlyVisited step lower o node b o' = _
  rw [onlyVisited, if_pos h]

theorem onlyVisited_of_not_visits {step : Generator → Emit α} {node : NodeId} {b : Body}
    {o' : Output} (h : ¬ Visits step lower o ⟨node, b, o'⟩) :
    (onlyVisited step lower o node).run b o' = .error .outOfFuel o' := by
  show onlyVisited step lower o node b o' = _
  rw [onlyVisited, if_neg h]

/-- A part that was generated is visited. -/
theorem visits_of_onlyVisited {step : Generator → Emit α} {node : NodeId} {b : Body} {o' u : Output}
    {r : Option Value × Body} (h : (onlyVisited step lower o node).run b o' = .ok r u) :
    Visits step lower o ⟨node, b, o'⟩ := by
  by_contra hnot
  rw [onlyVisited_of_not_visits hnot] at h
  cases h

/-- The run comes to no other places. -/
theorem Determined.run_onlyVisited {step : Generator → Emit α} (h : Determined step) :
    step (onlyVisited step lower o) o = step lower o :=
  h _ _ _ fun _ hplace => onlyVisited_of_visits hplace

end Emit

namespace Lower

variable {α β : Type}

/-- A step of a body is determined by the parts that it generates. -/
def Determined (step : Generator → Lower α) : Prop :=
  ∀ b, Emit.Determined fun lower => (step lower).run b

namespace Determined

theorem const (step : Lower α) : Determined fun _ => step :=
  fun b => .const (step.run b)

theorem part (node : NodeId) : Determined fun lower => lower node :=
  fun b => .part node b

theorem bind {first : Generator → Lower β} {next : Generator → β → Lower α}
    (hfirst : Determined first) (hnext : ∀ a, Determined fun lower => next lower a) :
    Determined fun lower => first lower >>= next lower := by
  intro b
  have hrun : ∀ lower, (first lower >>= next lower).run b =
      (first lower).run b >>= fun r => (next lower r.1).run r.2 := fun lower => rfl
  simp only [hrun]
  exact .bind (hfirst b) fun r => hnext r.1 r.2

theorem ite {p : Prop} [Decidable p] {yes no : Generator → Lower α} (hyes : Determined yes)
    (hno : Determined no) : Determined fun lower => if p then yes lower else no lower := by
  by_cases hp : p
  · simpa [hp] using hyes
  · simpa [hp] using hno

/-- A step on the output alone. -/
theorem lift {step : Generator → Emit α} (h : Emit.Determined step) :
    Determined fun lower => (liftM (step lower) : Lower α) := by
  intro b
  have hrun : ∀ lower, (liftM (step lower) : Lower α).run b =
      step lower >>= fun a => pure (a, b) := fun lower => rfl
  simp only [hrun]
  exact .bind h fun a => .const _

theorem mapM {items : List β} {body : Generator → β → Lower α}
    (h : ∀ item ∈ items, Determined fun lower => body lower item) :
    Determined fun lower => items.mapM (body lower) := by
  induction items with
  | nil => exact .const _
  | cons item items ih =>
      simp only [List.mapM_cons]
      refine .bind (h item (by simp)) fun _ => ?_
      exact .bind (ih fun other hother => h other (by simp [hother])) fun _ => .const _

theorem forM {items : List β} {body : Generator → β → Lower PUnit}
    (h : ∀ item ∈ items, Determined fun lower => body lower item) :
    Determined fun lower => items.forM (body lower) := by
  induction items with
  | nil => exact .const _
  | cons item items ih =>
      show Determined fun lower => body lower item >>= fun _ => items.forM (body lower)
      exact .bind (h item (by simp)) fun _ => ih fun other hother => h other (by simp [hother])

theorem foldlM {items : List β} {body : Generator → α → β → Lower α}
    (h : ∀ item ∈ items, ∀ a, Determined fun lower => body lower a item) (a : α) :
    Determined fun lower => items.foldlM (body lower) a := by
  induction items generalizing a with
  | nil => exact .const _
  | cons item items ih =>
      simp only [List.foldlM_cons]
      refine .bind (h item (by simp) a) fun next => ?_
      exact ih (fun other hother => h other (by simp [hother])) next

end Determined

/-! ## The constructs -/

variable (ctx : LoweringContext)

theorem lowerValue_determined (node : NodeId) : Determined fun lower => lowerValue lower node := by
  unfold lowerValue
  exact .bind (.part node) fun _ => .const _

theorem lowerBinary_determined (node : NodeId) (op : BinaryOp) (lhs rhs : NodeId) :
    Determined fun lower => lowerBinary ctx lower node op lhs rhs := by
  unfold lowerBinary
  refine .bind (.const _) fun lhsType => .bind (.const _) fun rhsType => ?_
  refine .bind (lowerValue_determined lhs) fun l => ?_
  exact .bind (lowerValue_determined rhs) fun r => .const _

theorem lowerVar_determined (node : NodeId) (name : String) (value : NodeId) :
    Determined fun lower => lowerVar ctx lower node name value := by
  unfold lowerVar
  refine .bind (.const _) fun valueType => .bind (.const _) fun varType => ?_
  exact .bind (lowerValue_determined value) fun v => .const _

theorem lowerAssign_determined (target value : NodeId) :
    Determined fun lower => lowerAssign ctx lower target value := by
  unfold lowerAssign
  refine .bind (.const _) fun valueType => .bind (.const _) fun targetType => ?_
  exact .bind (lowerValue_determined value) fun v => .const _

theorem lowerArgs_determined (sig : Signature) (args : List NodeId) :
    Determined fun lower => lowerArgs ctx lower sig args := by
  unfold lowerArgs
  refine .bind (.const _) fun ordered => .bind (.mapM fun arg _ => ?_) fun lowered => .const _
  exact .bind (lowerValue_determined arg) fun value => .const _

theorem callFunction_determined (sig : Signature) (receiver : Option Value) (args : List NodeId) :
    Determined fun lower => callFunction ctx lower sig receiver args := by
  unfold callFunction
  refine .bind (.const _) fun function => ?_
  exact .bind (lowerArgs_determined ctx sig args) fun values => .const _

theorem lowerElement_determined (node receiver : NodeId) (method : String) (index : Nat) :
    Determined fun lower => lowerElement ctx lower node receiver method index := by
  unfold lowerElement
  refine .bind (.const _) fun receiverType => .bind (.const _) fun resultType => ?_
  exact .bind (lowerValue_determined receiver) fun object => .const _

theorem callClosure_determined (name : String) (sig : Signature) (args : List NodeId) :
    Determined fun lower => callClosure ctx lower name sig args := by
  unfold callClosure
  refine .bind (.const _) fun closure => .bind (.const _) fun header => ?_
  refine .bind (.const _) fun type => ?_
  exact .bind (lowerArgs_determined ctx sig args) fun values => .const _

theorem constructObject_determined (t : TypeId) (init : Option Signature) (args : List NodeId)
    (onStack : Bool) : Determined fun lower => constructObject ctx lower t init args onStack := by
  unfold constructObject
  refine .bind (.const _) fun struct => .bind (.const _) fun object => ?_
  cases init with
  | none => exact .const _
  | some init =>
      refine .bind (.const _) fun function => ?_
      exact .bind (lowerArgs_determined ctx init args) fun values => .const _

theorem constructCase_determined (t : TypeId) (sig : Signature) (args : List NodeId)
    (onStack : Bool) : Determined fun lower => constructCase ctx lower t sig args onStack := by
  unfold constructCase
  refine .bind (.const _) fun parts => ?_
  exact .bind (lowerArgs_determined ctx sig args) fun values => .const _

theorem lowerConstruction_determined (node : NodeId) (args : List NodeId) (onStack : Bool) :
    Determined fun lower => lowerConstruction ctx lower node args onStack := by
  unfold lowerConstruction
  refine .bind (.const _) fun found => ?_
  cases found with
  | construct t init => exact constructObject_determined ctx t init args onStack
  | constructCase t sig => exact constructCase_determined ctx t sig args onStack
  | _ => exact .const _

/-- The value of a construction is there whenever the construction is. -/
theorem Determined.some {γ : Type} {step : Generator → Lower γ} (h : Determined step) :
    Determined fun lower => (do return Option.some (← step lower) : Lower (Option γ)) :=
  .bind h fun _ => .const _

theorem lowerUnary_determined (op : UnaryOp) (operand : NodeId) :
    Determined fun lower => lowerUnary ctx lower op operand := by
  unfold lowerUnary
  cases op with
  | not => exact .bind (lowerValue_determined operand) fun value => .const _
  | stack =>
      cases ctx.tree.node operand with
      | call receiver method args => exact lowerConstruction_determined ctx operand args true
      | templatedInstance name typeArgs args =>
          exact lowerConstruction_determined ctx operand args true
      | _ => exact .const _

theorem lowerCall_determined (node : NodeId) (receiver : Option NodeId) (method : String)
    (args : List NodeId) :
    Determined fun lower => lowerCall ctx lower node receiver method args := by
  unfold lowerCall
  refine .bind (.const _) fun found => ?_
  cases found with
  | function sig => exact callFunction_determined ctx sig Option.none args
  | method sig =>
      refine .bind (.const _) fun object => .bind (lowerValue_determined object) fun object => ?_
      exact callFunction_determined ctx sig _ args
  | selfMethod sig => exact .bind (.const _) fun object => callFunction_determined ctx sig _ args
  | element index =>
      refine .bind (.const _) fun object => ?_
      exact .some (lowerElement_determined ctx node object method index)
  | closure sig => exact callClosure_determined ctx method sig args
  | construct t init => exact .some (lowerConstruction_determined ctx node args false)
  | constructCase t sig => exact .some (lowerConstruction_determined ctx node args false)
  | builtin function =>
      cases function
      dsimp only
      split
      · next object => exact .bind (lowerValue_determined object) fun object => .const _
      · exact .const _
  | _ => exact .const _

/-! ### Control flow -/

theorem lowerSeq_determined (statements : List NodeId) :
    Determined fun lower => lowerSeq lower statements := by
  unfold lowerSeq
  refine .foldlM (fun statement _ last => .bind (.const _) fun ended => ?_) _
  exact .ite (.const _) (.part statement)

theorem condition_determined (cond : NodeId) :
    Determined fun lower => condition ctx lower cond := by
  unfold condition
  refine .bind (.const _) fun t => ?_
  exact .bind (lowerValue_determined cond) fun value => .const _

theorem lowerBranch_determined (cond yes : NodeId) (no : Option NodeId) :
    Determined fun lower => lowerBranch ctx lower cond yes no := by
  unfold lowerBranch
  refine .bind (condition_determined ctx cond) fun cond => .bind (.const _) fun yesBlock => ?_
  cases no with
  | none =>
      dsimp only
      refine .bind (.const _) fun merge => .bind (.const _) fun blocks => ?_
      exact .bind (.const _) fun _ => .bind (.part yes) fun _ => .const _
  | some no =>
      dsimp only
      refine .bind (.const _) fun noBlock => .bind (.const _) fun blocks => ?_
      refine .bind (.const _) fun _ => .bind (.part yes) fun _ => ?_
      refine .bind (.const _) fun merge => .bind (.const _) fun _ => ?_
      exact .bind (.part no) fun _ => .const _

theorem lowerLoop_determined (cond body : NodeId) :
    Determined fun lower => lowerLoop ctx lower cond body := by
  unfold lowerLoop
  refine .bind (.const _) fun condBlock => .bind (.const _) fun bodyBlock => ?_
  refine .bind (.const _) fun endBlock => .bind (.const _) fun _ => ?_
  refine .bind (condition_determined ctx cond) fun cond => .bind (.const _) fun _ => ?_
  exact .bind (.part body) fun _ => .const _

theorem lowerArm_determined (value : Value) (tag : Option Value) (endBlock : BlockRef)
    (arm : NodeId) : Determined fun lower => lowerArm ctx lower value tag endBlock arm := by
  unfold lowerArm
  split
  · next pattern body _ =>
      split
      · refine .bind (.const _) fun t => ?_
        dsimp only
        split
        all_goals
          refine .bind (.const _) fun found => .bind (.const _) fun armBlock => ?_
          refine .bind (.const _) fun nextBlock => .bind (.const _) fun _ => ?_
          refine .bind (.const _) fun b => .bind (.const _) fun _ => ?_
          exact .bind (.part body) fun _ => .const _
      · exact .const _
  · exact .const _

theorem lowerSelect_determined (cond : NodeId) (arms : List NodeId) :
    Determined fun lower => lowerSelect ctx lower cond arms := by
  unfold lowerSelect
  refine .bind (.const _) fun t => .bind (lowerValue_determined cond) fun value => ?_
  have harms : ∀ tag endBlock, Determined fun lower =>
      arms.forM (lowerArm ctx lower value tag endBlock) :=
    fun tag endBlock => .forM fun arm _ => lowerArm_determined ctx value tag endBlock arm
  dsimp only
  refine .ite (.bind (.const _) fun tag => ?_) (.bind (.const _) fun _ => ?_)
  · exact .bind (.const _) fun endBlock => .bind (harms tag endBlock) fun _ => .const _
  · refine .bind (.const _) fun tag => .bind (.const _) fun endBlock => ?_
    exact .bind (harms tag endBlock) fun _ => .const _

theorem lowerReturn_determined (value : Option NodeId) :
    Determined fun lower => lowerReturn ctx lower value := by
  unfold lowerReturn
  cases value with
  | none => exact .const _
  | some value =>
      refine .bind (.const _) fun isVoid => .ite (.bind (.const _) fun _ => ?_) ?_
      all_goals
        refine .bind (.const _) fun t => ?_
        exact .bind (lowerValue_determined value) fun v => .const _

/-! ### Lambdas -/

theorem finish_determined (body : NodeId) : Determined fun lower => finish ctx lower body := by
  unfold finish
  exact .bind (.part body) fun value => .const _

theorem lambdaBody_determined (struct : IR.Ty) (params : List (NodeId × TypeId))
    (captures : List (String × TypeId)) (body : NodeId) :
    Determined fun lower => lambdaBody ctx lower struct params captures body := by
  unfold lambdaBody
  refine .bind (.const _) fun b => .bind (.const _) fun _ => .bind (.const _) fun o => ?_
  refine .bind (.const _) fun _ => .bind (.const _) fun _ => ?_
  exact finish_determined ctx body

theorem lowerLambda_determined (node : NodeId) (params : List NodeId) (captures : List String)
    (body : NodeId) : Determined fun lower => lowerLambda ctx lower node params captures body := by
  unfold lowerLambda
  refine .bind (.const _) fun t => ?_
  split
  · refine .bind (.const _) fun struct => .bind (.const _) fun type => ?_
    refine .bind (.const _) fun name => .bind (.const _) fun function => ?_
    refine .bind (.const _) fun o => .bind (.const _) fun b => .bind (.const _) fun inner => ?_
    exact .bind (.lift (lambdaBody_determined ctx struct _ _ body inner)) fun _ => .const _
  · exact .const _

/-! ### Nodes -/

/-- A construct generates nodes only by what generates its parts. -/
theorem lowerNode_determined (node : NodeId) : Determined fun lower => lowerNode ctx lower node := by
  have hnone : ∀ {step : Generator → Lower Unit}, Determined step →
      Determined fun lower => (do
        step lower
        pure none : Lower (Option Value)) := fun h => .bind h fun _ => .const _
  unfold lowerNode
  cases ctx.tree.node node with
  | seq statements => exact lowerSeq_determined statements
  | var name type value => exact .some (lowerVar_determined ctx node name value)
  | assign target value => exact .some (lowerAssign_determined ctx target value)
  | call receiver method args => exact lowerCall_determined ctx node receiver method args
  | namedArg name value => exact .part value
  | templatedInstance name typeArgs args =>
      exact .some (lowerConstruction_determined ctx node args false)
  | binary op lhs rhs => exact .some (lowerBinary_determined ctx node op lhs rhs)
  | unary op operand => exact .some (lowerUnary_determined ctx op operand)
  | branch cond yes no => exact hnone (lowerBranch_determined ctx cond yes no)
  | loop cond body => exact hnone (lowerLoop_determined ctx cond body)
  | select cond arms => exact hnone (lowerSelect_determined ctx cond arms)
  | ret value => exact hnone (lowerReturn_determined ctx value)
  | lambda params captures body => exact .some (lowerLambda_determined ctx node params captures body)
  | _ => exact .const _

end Lower

/-! ## The run that generates a body -/

open IR (BlockRef Builder Value)

/-- Generating the body of a function: its node, below which nodes nest at most `fuel` deep, and the
states in which its code begins. -/
structure BodyRun where
  fuel : Nat
  node : NodeId
  before : Body
  output : Output

/-- Where the run begins. -/
def BodyRun.start (run : BodyRun) : CodePlace where
  node := run.node
  body := run.before
  output := run.output

variable (ctx : LoweringContext)

/-- Generating the node at a place comes to a part at the next place. -/
def LoweringContext.Visits (fuel : Nat) (place next : CodePlace) : Prop :=
  Emit.Visits (fun lower => (Lower.lowerNode ctx lower place.node).run place.body)
    (Lower.lowerWithin ctx fuel) place.output next

/-- The concrete type of a node. -/
def LoweringContext.recordedType (walk : InstanceId) (node : NodeId) :
    Except CompileError TypeId := do
  ctx.pool.resolveStrict (← ctx.typed.table.typeOf { walk, node })

/-- The value of the site is the one that the node has at the place, converted there from the node's
type to `result`, and the block of the site is the one in which it then is. -/
def Converts (lower : Generator) (place : CodePlace) (result : TypeId) (site : Value × BlockRef) :
    Prop :=
  ∃ t v b o b' o', ctx.recordedType place.body.walk place.node = .ok t ∧
    (lower place.node).run place.body place.output = .ok (some v, b) o ∧
    (Lower.convert ctx v t result).run b o = .ok (site.1, b') o' ∧
    o'.builder.currentBlock = some site.2

variable {ctx} in
theorem Converts.congr {lower lower' : Generator} {place : CodePlace} {result : TypeId}
    {site : Value × BlockRef} (h : Converts ctx lower place result site)
    (hsame : (lower place.node).run place.body place.output =
      (lower' place.node).run place.body place.output) : Converts ctx lower' place result site := by
  obtain ⟨t, v, b, o, b', o', htype, hrun, h⟩ := h
  exact ⟨t, v, b, o, b', o', htype, hsame ▸ hrun, h⟩

namespace BodyRun

/-- The run comes to a place, below which nodes nest at most as deep as given. -/
inductive Reaches (run : BodyRun) : Nat → CodePlace → Prop
  | code : Reaches run run.fuel run.start
  | part {fuel : Nat} {place next : CodePlace} (hplace : Reaches run (fuel + 1) place)
      (hnext : ctx.Visits fuel place next) : Reaches run fuel next

/-- The run brings the value of the site to the exit block: it is that of the body's node, or of a
node that the function returns. -/
inductive Returns (run : BodyRun) (site : Value × BlockRef) : Prop
  | fallThrough
      (h : Converts ctx (Lower.lowerWithin ctx run.fuel) run.start run.before.result site)
  | ret {fuel : Nat} {place next : CodePlace} (hplace : run.Reaches ctx (fuel + 1) place)
      (hown : place.body.function = run.before.function)
      (hnode : ctx.tree.node place.node = .ret (some next.node))
      (hnext : ctx.Visits fuel place next)
      (h : Converts ctx (Lower.lowerWithin ctx fuel) next run.before.result site)

/-- The run ends in the given states. -/
def EndsIn (run : BodyRun) (b : Body) (o : Output) : Prop :=
  (Lower.finish ctx (Lower.lowerWithin ctx run.fuel) run.node).run run.before run.output =
    .ok ((), b) o

/-- The run is one for the body of a lambda that the outer run comes to. The type of the lambda says
what its function returns. -/
inductive Encloses (outer run : BodyRun) : Prop
  | lambda {place : CodePlace} {params : List NodeId} {captures : List String} {t result : TypeId}
      {paramTypes captureTypes : List TypeId} (hplace : outer.Reaches ctx (run.fuel + 1) place)
      (hnode : ctx.tree.node place.node = .lambda params captures run.node)
      (hbody : ctx.Visits run.fuel place run.start)
      (htype : ctx.recordedType place.body.walk place.node = .ok t)
      (hview : ctx.pool.view t = .closure paramTypes result captureTypes)
      (hresult : ctx.pool.resolveStrict result = .ok run.before.result)

end BodyRun

/-- Looking up the type of a node changes nothing. -/
theorem Lower.typeOf_run {ctx : LoweringContext} (node : NodeId) (b : Body) (o : Output) :
    (typeOf ctx node).run b o =
      (liftM (Emit.ofExcept (ctx.recordedType b.walk node)) : Lower TypeId).run b o := by
  rw [LoweringContext.recordedType]
  show (liftM (Emit.ofExcept (ctx.typed.table.typeOf { walk := b.walk, node })) >>=
    fun t => liftM (Emit.resolve ctx t) : Lower TypeId).run b o = _
  cases ctx.typed.table.typeOf { walk := b.walk, node } <;> rfl

end ClassLang
