import ClassLang.Proofs.Lowering.Declared
import ClassLang.Proofs.Lowering.StraightCode

/-!
# What making layouts consists of

Layouts, string records and the constants of cases are made on first use: the output is asked for
them, and otherwise they are defined and remembered. `Emit.Lays` says of a step of generating that it
consists of nothing else. What holds of these parts holds of every layout.
-/

namespace ClassLang.Emit

open IR (Build KeepsQuiet Retains Value)

variable {α β : Type} {ctx : LoweringContext}

/-- The errors that making a layout stops with. -/
inductive LayoutError (ctx : LoweringContext) : CompileError → Prop
  | unresolved {t : TypeId} {e : CompileError} (h : ctx.pool.resolveStrict t = .error e) :
      LayoutError ctx e
  | void : LayoutError ctx (.internal "'Void' has no value representation")
  | unknown : LayoutError ctx (.internal "unresolved type reached code generation")
  | noStruct (name : String) : LayoutError ctx (.internal s!"'{name}' has no struct layout")
  | noCase (name : String) : LayoutError ctx (.internal s!"'{name}' is not a data case")
  | tooLong : LayoutError ctx (.typeMismatch "string literal is too long")

/-- The step looks things up in the output, remembers what it made, other than records of runtime
types, and makes structs and constants. -/
inductive Lays (ctx : LoweringContext) : {α : Type} → Emit α → Prop
  | pure {α : Type} (a : α) : Lays ctx (Pure.pure a : Emit α)
  | bind {α β : Type} {step : Emit α} {next : α → Emit β} (h : Lays ctx step)
      (hnext : ∀ a, Lays ctx (next a)) : Lays ctx (step >>= next)
  | get : Lays ctx (MonadState.get : Emit Output)
  | update {f : Output → Output} (hbuilder : ∀ o, (f o).builder = o.builder)
      (hrecords : ∀ o, (f o).runtimeTypes = o.runtimeTypes) : Lays ctx (modify f : Emit PUnit)
  | build {α : Type} {step : Build α} (hquiet : KeepsQuiet step) (hretains : Retains step) :
      Lays ctx (Emit.build step)
  | fail {α : Type} {e : CompileError} (h : LayoutError ctx e) : Lays ctx (Emit.fail e : Emit α)

theorem Lays.mapM {items : List β} {body : β → Emit α} (h : ∀ item, Lays ctx (body item)) :
    Lays ctx (items.mapM body) := by
  induction items with
  | nil => exact .pure _
  | cons item items ih =>
      rw [List.mapM_cons]
      exact (h item).bind fun _ => ih.bind fun _ => .pure _

/-! ## Types and layouts -/

theorem resolve_lays (t : TypeId) : Lays ctx (resolve ctx t) := by
  unfold resolve
  cases h : ctx.pool.resolveStrict t with
  | ok u => exact .pure u
  | error e => exact .fail (.unresolved h)

theorem valueType_lays (t : TypeId) : Lays ctx (valueType ctx t) := by
  refine (resolve_lays t).bind fun t => ?_
  split
  · exact .pure _
  · exact .pure _
  · exact .pure _
  · exact .fail .void
  · exact .fail .unknown
  · exact .fail .unknown
  · exact .pure _

theorem returnType_lays (t : TypeId) : Lays ctx (returnType ctx t) := by
  refine (resolve_lays t).bind fun u => ?_
  split
  · exact .pure _
  · exact (valueType_lays t).bind fun _ => .pure _

theorem defineStruct_lays (name : String) (fields : List IR.Ty) :
    Lays ctx (defineStruct name fields) :=
  .build
    ((KeepsQuiet.namedStruct _).bind fun _ => (KeepsQuiet.setStructBody _ _).bind fun _ => .pure _)
    ((Retains.namedStruct _).bind fun _ => (Retains.setStructBody _ _).bind fun _ => .pure _)

/-- A struct is remembered. -/
theorem setLayout_lays (t : TypeId) (struct : IR.Ty) :
    Lays ctx (do setLayout t struct; pure struct) :=
  Lays.bind (.update (fun _ => rfl) fun _ => rfl) fun _ => .pure _

theorem closureLayout_lays (params : List TypeId) (result : TypeId) (captures : List TypeId) :
    Lays ctx (closureLayout ctx params result captures) := by
  refine (Lays.mapM fun t => resolve_lays t).bind fun params => ?_
  refine (resolve_lays result).bind fun result => ?_
  refine (Lays.mapM fun t => resolve_lays t).bind fun captures => Lays.get.bind fun o => ?_
  split
  · exact .pure _
  · refine (Lays.mapM fun t => valueType_lays t).bind fun fields => ?_
    refine (defineStruct_lays _ _).bind fun t => ?_
    exact Lays.bind (.update (fun _ => rfl) fun _ => rfl) fun _ => .pure _

theorem dataLayout_lays (t : TypeId) : Lays ctx (dataLayout ctx t) := by
  refine (resolve_lays t).bind fun t => Lays.get.bind fun o => ?_
  split
  · exact .pure _
  · exact (defineStruct_lays _ _).bind (setLayout_lays t)
  · exact .fail (.noStruct _)

theorem layout_lays (t : TypeId) : Lays ctx (layout ctx t) := by
  refine (resolve_lays t).bind fun t => Lays.get.bind fun o => ?_
  split
  · exact .pure _
  · dsimp only
    split
    · exact (defineStruct_lays _ _).bind (setLayout_lays t)
    · exact (defineStruct_lays _ _).bind (setLayout_lays t)
    · exact (defineStruct_lays _ _).bind (setLayout_lays t)
    · refine (Lays.build (.namedStruct _) (.namedStruct _)).bind fun struct => ?_
      refine Lays.bind (.update (fun _ => rfl) fun _ => rfl) fun _ => ?_
      refine (Lays.mapM fun _ => valueType_lays _).bind fun fields => ?_
      exact (Lays.build (.setStructBody _ _) (.setStructBody _ _)).bind fun _ =>
        setLayout_lays t struct
    · exact (defineStruct_lays _ _).bind (setLayout_lays t)
    · refine (dataLayout_lays _).bind fun envelope => ?_
      refine (Lays.mapM fun _ => valueType_lays _).bind fun fields => ?_
      exact (defineStruct_lays _ _).bind (setLayout_lays t)
    · exact (closureLayout_lays _ _ _).bind (setLayout_lays t)
    · exact (Lays.fail (.noStruct _)).bind (setLayout_lays t)

theorem closureFnType_lays (params : List TypeId) (result : TypeId) :
    Lays ctx (closureFnType ctx params result) :=
  (Lays.mapM fun t => valueType_lays t).bind fun _ => (returnType_lays result).bind fun _ => .pure _

theorem signatureType_lays (sig : Signature) (receiver : Bool) :
    Lays ctx (signatureType ctx sig receiver) :=
  (Lays.mapM fun t => valueType_lays t).bind fun _ =>
    (returnType_lays sig.result).bind fun _ => .pure _

theorem dynamicLayout_lays (payload : TypeId) : Lays ctx (dynamicLayout ctx payload) := by
  refine (resolve_lays payload).bind fun payload => Lays.get.bind fun o => ?_
  split
  · exact .pure _
  · refine (layout_lays _).bind fun header => (valueType_lays payload).bind fun value => ?_
    refine (defineStruct_lays _ _).bind fun t => ?_
    exact Lays.bind (.update (fun _ => rfl) fun _ => rfl) fun _ => .pure _

/-! ## Constants -/

theorem stringLiteral_lays (text : String) : Lays ctx (stringLiteral ctx text) := by
  refine Lays.get.bind fun o => ?_
  split
  · exact .pure _
  · dsimp only
    have hrest : ∀ _ : PUnit, Lays ctx (do
        let struct ← layout ctx .string
        let record ← build do
          let data : Value := .const (.bytes (text.toUTF8.toList ++ [0]))
          let chars ← Build.addConstant ".str" data.type data
          let init ← Build.constStruct struct [.const (.int .w32 text.utf8ByteSize), chars]
          Build.addConstant ".string" struct init
        modify fun o => { o with strings := (text, record) :: o.strings }
        pure record) := by
      intro _
      refine (layout_lays _).bind fun struct => (Lays.build ?_ ?_).bind fun record => ?_
      · refine (KeepsQuiet.addConstant _ _ _).bind fun chars => ?_
        exact (KeepsQuiet.constStruct _ _).bind fun init => .addConstant _ _ _
      · refine (Retains.addConstant _ _ _).bind fun chars => ?_
        exact (Retains.constStruct _ _).bind fun init => .addConstant _ _ _
      · exact Lays.bind (.update (fun _ => rfl) fun _ => rfl) fun _ => .pure _
    split
    · exact (Lays.fail .tooLong).bind hrest
    · exact hrest ⟨⟩

theorem caseParts_lays (t : TypeId) : Lays ctx (caseParts ctx t) := by
  unfold caseParts
  split
  · exact .pure _
  · exact .fail (.noCase _)

theorem singleton_lays (t : TypeId) : Lays ctx (singleton ctx t) := by
  refine (resolve_lays t).bind fun t => Lays.get.bind fun o => ?_
  split
  · exact .pure _
  · refine (caseParts_lays t).bind fun parts => (layout_lays t).bind fun struct => ?_
    refine (dataLayout_lays _).bind fun envelope => (Lays.build ?_ ?_).bind fun value => ?_
    · refine (KeepsQuiet.constStruct _ _).bind fun tag => ?_
      exact (KeepsQuiet.constStruct _ _).bind fun init => .addConstant _ _ _
    · refine (Retains.constStruct _ _).bind fun tag => ?_
      exact (Retains.constStruct _ _).bind fun init => .addConstant _ _ _
    · exact Lays.bind (.update (fun _ => rfl) fun _ => rfl) fun _ => .pure _

end ClassLang.Emit
