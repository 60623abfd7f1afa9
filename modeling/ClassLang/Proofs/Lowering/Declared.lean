import ClassLang.Lowering.Generate

/-!
# What building retains

Building code adds functions and globals to a module and never forgets one, and functions that are
declared under different names are different. `Retains` says so of one step of building; it holds of
all of them. Most of them make no struct and no constant either, so they are said to be
`KeepsShared`.
-/

namespace ClassLang.IR

open Build

variable {α β : Type}

/-- A declared function exists, and it is declared under one name. -/
def Builder.Numbered (b : Builder) : Prop :=
  ∀ name id, b.function? name = some id → id < b.module.functions.size ∧
    ∀ name', b.function? name' = some id → name = name'

/-- Functions may change as long as they stay declared under the same names. -/
theorem Builder.Numbered.of_eq {b b' : Builder} (h : b.Numbered)
    (hdeclared : b'.declared = b.declared)
    (hsize : b'.module.functions.size = b.module.functions.size) : b'.Numbered := by
  have hfunction : ∀ name, b'.function? name = b.function? name := fun name => by
    rw [function?, function?, hdeclared]
  intro name id hid
  rw [hfunction] at hid
  rw [hsize]
  exact ⟨(h name id hid).1, fun name' hid' => (h name id hid).2 name' (hfunction name' ▸ hid')⟩

/-- Every function that was declared before the step is declared after it. -/
def KeepsDeclared (step : Build α) : Prop :=
  ∀ b name, (b.function? name).isSome → ((step.run b).2.function? name).isSome

/-- The step forgets no declared function and no global, and gives no function a second name. -/
structure Retains (step : Build α) : Prop where
  declared : KeepsDeclared step
  numbered : ∀ b : Builder, b.Numbered → (step.run b).2.Numbered
  globals : ∀ b, b.module.globals.size ≤ (step.run b).2.module.globals.size

/-- The step makes no struct and no constant. -/
structure KeepsShared (step : Build α) : Prop extends Retains step where
  structs_eq : ∀ b, (step.run b).2.module.structs = b.module.structs
  globals_eq : ∀ b, (step.run b).2.module.globals = b.module.globals

namespace Retains

/-- A step that leaves the list of declared functions and the globals alone. -/
theorem of_eq {step : Build α} (h : ∀ b, (step.run b).2.declared = b.declared ∧
    (step.run b).2.module.globals = b.module.globals ∧
      (step.run b).2.module.functions.size = b.module.functions.size) : Retains step := by
  refine ⟨fun b name hname => ?_, fun b hb => hb.of_eq (h b).1 (h b).2.2,
    fun b => Nat.le_of_eq (by rw [(h b).2.1])⟩
  rw [Builder.function?, (h b).1]
  exact hname

theorem pure (a : α) : Retains (Pure.pure a : Build α) :=
  of_eq fun _ => ⟨rfl, rfl, rfl⟩

theorem bind {step : Build α} {next : α → Build β} (h : Retains step)
    (hnext : ∀ a, Retains (next a)) : Retains (step >>= next) where
  declared b name hname := (hnext _).declared _ name (h.declared b name hname)
  numbered b hb := (hnext _).numbered _ (h.numbered b hb)
  globals b := Nat.le_trans (h.globals b) ((hnext _).globals _)

theorem declareFunction (name : String) (type : FnType) :
    Retains (declareFunction name type) := by
  constructor
  · intro b other hother
    rw [run_declareFunction]
    split
    · exact hother
    · simp only [Builder.function?, List.lookup_cons]
      split
      · rfl
      · exact hother
  · intro b hb
    rw [run_declareFunction]
    split
    · exact hb
    · next hnone =>
        -- the new function is none of those that were declared before
        have hnew : ∀ other, b.function? other ≠ some b.module.functions.size :=
          fun other hother => absurd (hb other _ hother).1 (Nat.lt_irrefl _)
        intro other id hid
        simp only [Builder.function?, List.lookup_cons] at hid ⊢
        rw [Array.size_push]
        split at hid
        · next heq =>
            cases hid
            refine ⟨Nat.lt_succ_self _, fun other' hid' => ?_⟩
            split at hid'
            · next heq' => exact (eq_of_beq heq).trans (eq_of_beq heq').symm
            · exact absurd hid' (hnew other')
        · refine ⟨Nat.lt_succ_of_lt (hb other id hid).1, fun other' hid' => ?_⟩
          split at hid'
          · cases hid'
            exact absurd hid (hnew other)
          · exact (hb other id hid).2 other' hid'
  · intro b
    rw [run_declareFunction]
    split <;> exact Nat.le_refl _

/-- A declared function is found. -/
theorem declareFunction_isSome (name : String) (type : FnType) (b : Builder) :
    (((Build.declareFunction name type).run b).2.function? name).isSome := by
  rw [run_declareFunction]
  split
  · next hid => simp [hid]
  · simp [Builder.function?]

end Retains

namespace KeepsShared

/-- A step that leaves structs, globals and the list of declared functions alone. -/
theorem of_eq {step : Build α} (h : ∀ b, (step.run b).2.declared = b.declared ∧
    (step.run b).2.module.globals = b.module.globals ∧
      (step.run b).2.module.structs = b.module.structs ∧
        (step.run b).2.module.functions.size = b.module.functions.size) : KeepsShared step :=
  ⟨.of_eq fun b => ⟨(h b).1, (h b).2.1, (h b).2.2.2⟩, fun b => (h b).2.2.1, fun b => (h b).2.1⟩

theorem pure (a : α) : KeepsShared (Pure.pure a : Build α) :=
  of_eq fun _ => ⟨rfl, rfl, rfl, rfl⟩

theorem bind {step : Build α} {next : α → Build β} (h : KeepsShared step)
    (hnext : ∀ a, KeepsShared (next a)) : KeepsShared (step >>= next) where
  toRetains := h.toRetains.bind fun a => (hnext a).toRetains
  structs_eq b := ((hnext _).structs_eq _).trans (h.structs_eq b)
  globals_eq b := ((hnext _).globals_eq _).trans (h.globals_eq b)

theorem ite {c : Prop} [Decidable c] {yes no : Build α} (hyes : KeepsShared yes)
    (hno : KeepsShared no) : KeepsShared (if c then yes else no) := by
  split
  · exact hyes
  · exact hno

theorem forM {items : List β} {body : β → Build PUnit} (h : ∀ item, KeepsShared (body item)) :
    KeepsShared (items.forM body) := by
  induction items with
  | nil => exact pure _
  | cons item items ih => exact (h item).bind fun _ => ih

/-- A step that only looks at the builder before it goes on. -/
theorem read {next : Builder → Build α} (h : ∀ b, KeepsShared (next b)) : KeepsShared (get >>= next) :=
  bind (of_eq fun _ => ⟨rfl, rfl, rfl, rfl⟩) h

theorem misuse : KeepsShared misuse := of_eq fun _ => ⟨rfl, rfl, rfl, rfl⟩

/-- A refused step counts a misuse and answers with some value. -/
theorem refuse (a : α) : KeepsShared (do Build.misuse; Pure.pure a) :=
  misuse.bind fun _ => pure a

theorem modifyModule {change : Module → Module} (h : ∀ m, (change m).globals = m.globals ∧
    (change m).structs = m.structs ∧ (change m).functions.size = m.functions.size) :
    KeepsShared (modifyModule change) :=
  of_eq fun b => ⟨rfl, h b.module⟩

/-- Changing a function changes neither structs and globals nor the number of functions. -/
theorem modifyFunction_eq (m : Module) (id : FunctionId) (change : Function → Function) :
    (m.modifyFunction id change).globals = m.globals ∧
      (m.modifyFunction id change).structs = m.structs ∧
        (m.modifyFunction id change).functions.size = m.functions.size :=
  ⟨rfl, rfl, Array.size_modify⟩

theorem setParamName (function : FunctionId) (index : Nat) (name : String) :
    KeepsShared (setParamName function index name) :=
  modifyModule fun m => modifyFunction_eq m _ _

theorem appendBlock (function : FunctionId) (label : String) :
    KeepsShared (appendBlock function label) :=
  of_eq fun b => ⟨rfl, modifyFunction_eq b.module _ _⟩

theorem setCurrentFunction (function : FunctionId) : KeepsShared (setCurrentFunction function) :=
  of_eq fun _ => ⟨rfl, rfl, rfl, rfl⟩

theorem positionAtEnd (block : BlockRef) : KeepsShared (positionAtEnd block) :=
  of_eq fun _ => ⟨rfl, rfl, rfl, rfl⟩

theorem restore (p : Position) : KeepsShared (restore p) := by
  refine bind (of_eq fun _ => ⟨rfl, rfl, rfl, rfl⟩) fun _ => ?_
  split
  · exact positionAtEnd _
  · exact of_eq fun _ => ⟨rfl, rfl, rfl, rfl⟩

theorem moveBlockToEnd (block : BlockRef) : KeepsShared (moveBlockToEnd block) :=
  modifyModule fun m => modifyFunction_eq m _ _

theorem insert (name : String) (op : Op) : KeepsShared (insert name op) := by
  refine of_eq fun b => ?_
  obtain ⟨_, cursor, _, _, _, _⟩ := b
  cases cursor
  · exact ⟨rfl, rfl, rfl, rfl⟩
  · exact ⟨rfl, modifyFunction_eq _ _ _⟩

/-- An instruction whose result is not used any more. -/
theorem insert_bind (name : String) (op : Op) {next : Value → Build α}
    (h : ∀ v, KeepsShared (next v)) : KeepsShared (Build.insert name op >>= next) :=
  (insert name op).bind h

theorem entryAlloca (function : FunctionId) (name : String) (type : Ty) :
    KeepsShared (entryAlloca function name type) := by
  refine read fun b => ?_
  dsimp only
  split
  · exact refuse _
  · refine bind (of_eq fun _ => ⟨rfl, rfl, rfl, rfl⟩) fun _ => insert_bind _ _ fun _ => ?_
    split
    · exact bind (of_eq fun _ => ⟨rfl, rfl, rfl, rfl⟩) fun _ => pure _
    · exact pure _

theorem load (type : Ty) (address : Value) (name : String) :
    KeepsShared (load type address name) :=
  ite (insert _ _) (refuse _)

theorem store (value address : Value) : KeepsShared (store value address) :=
  ite (insert_bind _ _ fun _ => pure _) misuse

theorem structField (type : Ty) (base : Value) (index : Nat) (name : String) :
    KeepsShared (structField type base index name) := by
  unfold Build.structField
  dsimp only
  split
  · refine read fun b => ite ?_ (refuse _)
    split
    · exact pure _
    · exact insert _ _
  · exact refuse _

theorem binary (op : IntOp) (lhs rhs : Value) (name : String) :
    KeepsShared (binary op lhs rhs name) := by
  refine ite ?_ (refuse _)
  split
  · split
    · exact pure _
    · exact insert _ _
  · exact insert _ _

theorem not (value : Value) (name : String) : KeepsShared (Build.not value name) := by
  unfold Build.not
  split
  · exact binary _ _ _ _
  · exact refuse _

theorem compareOf (wanted : Value → Bool) (p : Predicate) (lhs rhs : Value) (name : String) :
    KeepsShared (compareOf wanted p lhs rhs name) := by
  refine ite ?_ (refuse _)
  split
  · split
    · exact pure _
    · exact insert _ _
  · exact insert _ _

theorem widen (value : Value) (type : Ty) (name : String) :
    KeepsShared (widen value type name) := by
  refine ite (ite (pure _) ?_) (refuse _)
  split
  · split
    · exact pure _
    · exact insert _ _
  · exact insert _ _

theorem call (function : FunctionId) (args : List Value) (name : String) :
    KeepsShared (call function args name) :=
  read fun _ => insert_bind _ _ fun _ => pure _

theorem callIndirect (type : FnType) (target : Value) (args : List Value) (name : String) :
    KeepsShared (callIndirect type target args name) :=
  ite (insert_bind _ _ fun _ => pure _) (refuse _)

theorem phi (type : Ty) (incoming : List (Value × BlockRef)) (name : String) :
    KeepsShared (phi type incoming name) := by
  unfold Build.phi
  split
  · exact pure _
  · exact pure _
  · exact insert_bind _ _ fun _ => pure _

theorem terminate (op : Op) : KeepsShared (terminate op) :=
  read fun _ => ite misuse (insert_bind _ _ fun _ => pure _)

theorem jump (target : BlockRef) : KeepsShared (jump target) := terminate _

theorem branch (cond : Value) (yes no : BlockRef) : KeepsShared (branch cond yes no) :=
  read fun _ => ite misuse (ite (terminate _) (misuse.bind fun _ => jump _))

theorem declareFunction (name : String) (type : FnType) :
    KeepsShared (declareFunction name type) := by
  refine ⟨.declareFunction name type, fun b => ?_, fun b => ?_⟩ <;>
    · rw [run_declareFunction]
      split <;> rfl

end KeepsShared

namespace Retains

theorem namedStruct (name : String) : Retains (namedStruct name) := of_eq fun _ => ⟨rfl, rfl, rfl⟩

theorem setStructBody (t : Ty) (fields : List Ty) : Retains (setStructBody t fields) := by
  refine bind (of_eq fun _ => ⟨rfl, rfl, rfl⟩) fun b => ?_
  split
  · exact KeepsShared.misuse.toRetains
  · split
    · exact of_eq fun _ => ⟨rfl, rfl, rfl⟩
    · exact KeepsShared.misuse.toRetains

theorem constStruct (t : Ty) (fields : List Value) : Retains (constStruct t fields) := by
  unfold Build.constStruct
  split
  · exact pure _
  · exact (KeepsShared.refuse _).toRetains

theorem addConstant (name : String) (type : Ty) (init : Value) :
    Retains (addConstant name type init) := by
  refine ⟨fun _ _ hname => hname, fun _ hb => hb, fun b => ?_⟩
  show b.module.globals.size ≤ (b.module.globals.push _).size
  simp

/-- The global that a step adds at its end is none of those there were before. -/
theorem addConstant_fresh {first : Build β} (h : Retains first) (name : String) (type : Ty)
    (init : β → Value) (b : Builder) :
    ∃ g, ((first >>= fun part => Build.addConstant name type (init part)).run b).1 =
        .const (.globalAddr g) ∧ b.module.globals.size ≤ g ∧
      g < ((first >>= fun part =>
        Build.addConstant name type (init part)).run b).2.module.globals.size := by
  refine ⟨(first.run b).2.module.globals.size, rfl, h.globals b, ?_⟩
  show (first.run b).2.module.globals.size < ((first.run b).2.module.globals.push _).size
  simp

end Retains

end ClassLang.IR
