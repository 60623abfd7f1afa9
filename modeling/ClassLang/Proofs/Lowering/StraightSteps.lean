import ClassLang.Lowering.Generate
import ClassLang.Proofs.Discipline
import ClassLang.Proofs.ImportErrors
import ClassLang.Proofs.Lowering.LayoutSteps

/-!
# Generating straight code

Laying out types and making shared constants touches no function. What a body asks for besides its
parts (locals, conversions, fields, patterns) is straight code in the current block. Each function of
the generator that does not generate parts has one lemma here: `Emit.Quiet` or `Lower.Straight`.
-/

namespace ClassLang

open IR (Build Builder FunctionId KeepsQuiet KeepsStraight Value)

variable {α β : Type}

/-- A failed step of generating leaves a sane builder, and does not report an import cycle. -/
def FailsSanely (_ : Output) (h : Halt) (o : Output) : Prop :=
  o.builder.Sane ∧ h.NoCycle

/-! ## Steps that touch no function -/

/-- Functions and place of building stay as they are. -/
def quietly : Discipline Halt Output where
  inv o := o.builder.Sane
  le o o' := o.builder.Quiet o'.builder
  fails := FailsSanely
  refl _ := .refl _
  trans := .trans
  fails_trans _ h := h

namespace Emit

/-- The step touches no function. -/
def Quiet (step : Emit α) : Prop :=
  ∀ o, quietly.inv o → quietly.KeepsAt o step fun _ _ => True

namespace Quiet

theorem pure (a : α) : Quiet (Pure.pure a) :=
  fun _ ho => .pure ho True.intro

theorem bind {step : Emit α} {next : α → Emit β} (h : Quiet step)
    (hnext : ∀ a, Quiet (next a)) : Quiet (step >>= next) :=
  fun o ho => .bind (h o ho) fun a u hu _ _ => hnext a u hu

theorem throw {h : Halt} (hh : h.NoCycle) : Quiet (MonadExcept.throw h : Emit α) :=
  fun _ ho => .of_error rfl ⟨ho, hh⟩

theorem fail {e : CompileError} (h : ∀ path, e ≠ .importCycle path) :
    Quiet (Emit.fail e : Emit α) :=
  throw fun path heq => h path (Halt.error.inj heq)

theorem broken (text : String) : Quiet (Emit.broken text : Emit α) :=
  fail (by simp)

theorem ofExcept {r : Except CompileError α} (h : FreeOfCycles r) : Quiet (Emit.ofExcept r) := by
  cases r with
  | ok a => exact pure a
  | error e => exact throw (h.noCycle rfl)

theorem get : Quiet (MonadState.get : Emit Output) :=
  fun _ ho => .of_ok rfl ho (.refl _) True.intro

/-- A change of the output that leaves the builder alone. -/
theorem update {f : Output → Output} (h : ∀ o, (f o).builder = o.builder) :
    Quiet (modify f : Emit PUnit) := by
  intro o ho
  have hsane : quietly.inv (f o) := by
    show (f o).builder.Sane
    rw [h o]
    exact ho
  refine .of_ok (a := ⟨⟩) (t := f o) rfl hsane ?_ True.intro
  show o.builder.Quiet (f o).builder
  rw [h o]
  exact .refl _

theorem build {step : Build α} (h : KeepsQuiet step) : Quiet (Emit.build step) :=
  fun o ho => .of_ok rfl (((h o.builder).straight 0 0).sane ho) (h o.builder) True.intro

theorem mapM {items : List β} {body : β → Emit α} (h : ∀ item ∈ items, Quiet (body item)) :
    Quiet (items.mapM body) :=
  fun _ ho => (Discipline.mapM_keeps_each (P := fun _ _ => True) items ho
    (fun _ _ _ _ _ _ _ _ => True.intro) fun item hitem u hu _ => h item hitem u hu).trivial

theorem forM {items : List β} {body : β → Emit PUnit} (h : ∀ item ∈ items, Quiet (body item)) :
    Quiet (items.forM body) :=
  fun _ ho => (Discipline.forM_keeps (P := fun _ => True) items ho True.intro
    fun item hitem u hu _ _ => h item hitem u hu).trivial

end Quiet

/-- A result that generating goes on with. -/
theorem ofExcept_ok {r : Except CompileError α} {a : α} {o o' : Output}
    (h : ofExcept r o = .ok a o') : r = .ok a ∧ o' = o := by
  cases r with
  | error e => cases h
  | ok a' =>
      cases h
      exact ⟨rfl, rfl⟩

/-! ## Types and layouts -/

theorem LayoutError.noCycle {ctx : LoweringContext} {e : CompileError} (h : LayoutError ctx e) :
    Halt.NoCycle (.error e) := by
  cases h with
  | unresolved h => exact (ctx.pool.resolveStrict_free _).noCycle h
  | _ => exact fun path heq => nomatch heq

theorem Lays.quiet {ctx : LoweringContext} {step : Emit α} (h : Lays ctx step) : Quiet step := by
  induction h with
  | pure a => exact .pure a
  | bind _ _ ih ihnext => exact ih.bind ihnext
  | get => exact .get
  | update hbuilder _ => exact .update hbuilder
  | build hquiet _ => exact .build hquiet
  | fail h => exact .throw h.noCycle

variable (ctx : LoweringContext)

theorem runtimeType_quiet (t : TypeId) : Quiet (runtimeType ctx t) := by
  refine (resolve_lays t).quiet.bind fun t => Quiet.get.bind fun o => ?_
  split
  · exact .pure _
  · refine (stringLiteral_lays _).quiet.bind fun name => (layout_lays _).quiet.bind fun struct => ?_
    refine (Quiet.build ?_).bind fun record => Quiet.bind (.update fun _ => rfl) fun _ => .pure _
    exact (KeepsQuiet.constStruct _ _).bind fun init => .addConstant _ _ _

theorem functionFor_quiet (sig : Signature) : Quiet (functionFor sig) := by
  refine Quiet.get.bind fun o => ?_
  split
  · exact .pure _
  · exact .broken _

end Emit

/-! ## Steps of a body -/

/-- Only the scope and the receiver may differ. -/
structure Body.Same (b b' : Body) : Prop where
  function : b'.function = b.function
  walk : b'.walk = b.walk
  result : b'.result = b.result
  exit : b'.exit = b.exit
  returnSites : b'.returnSites = b.returnSites

theorem Body.Same.refl (b : Body) : b.Same b := ⟨rfl, rfl, rfl, rfl, rfl⟩

theorem Body.Same.trans {b b' b'' : Body} (h : b.Same b') (h' : b'.Same b'') : b.Same b'' :=
  ⟨h'.function.trans h.function, h'.walk.trans h.walk, h'.result.trans h.result,
    h'.exit.trans h.exit, h'.returnSites.trans h.returnSites⟩

/-- Straight code is added to block `c` of function `f`. -/
def straightly (f : FunctionId) (c : Nat) : Discipline Halt Output where
  inv o := o.builder.Sane ∧ o.builder.At f c
  le o o' := o.builder.Straight f c o'.builder
  fails := FailsSanely
  refl _ := .refl _ _ _
  trans := .trans
  fails_trans _ h := h

namespace Lower

/-- The step of a body of function `f` adds straight code to the current block. -/
def Straight (f : FunctionId) (step : Lower α) : Prop :=
  ∀ b : Body, b.function = f → ∀ (c : Nat) (o : Output), (straightly f c).inv o →
    (straightly f c).KeepsAt o (step.run b) fun r _ => b.Same r.2

namespace Straight

variable {f : FunctionId}

theorem pure (a : α) : Straight f (Pure.pure a) :=
  fun b _ _ _ ho => .pure ho (.refl b)

theorem bind {step : Lower α} {next : α → Lower β} (h : Straight f step)
    (hnext : ∀ a, Straight f (next a)) : Straight f (step >>= next) := by
  intro b hb c o ho
  refine .bind (h b hb c o ho) fun r u hu _ hsame => ?_
  refine (hnext r.1 r.2 (hsame.function.trans hb) c u hu).weaken fun _ _ _ _ hsame' => ?_
  exact hsame.trans hsame'

/-- A step of generating that does not look at the body. -/
theorem lift {step : Emit α} (h : Emit.Quiet step) : Straight f (liftM step) := by
  intro b _ c o ho
  have hrun := h o ho.1
  show (straightly f c).KeepsAt o (step >>= fun a => Pure.pure (a, b)) _
  unfold Discipline.KeepsAt at hrun
  refine .bind (P := fun _ _ => True) ?_ fun _ u hu _ _ => .pure hu (.refl b)
  unfold Discipline.KeepsAt
  cases hstep : step o with
  | error e u =>
      rw [hstep] at hrun
      exact hrun
  | ok a u =>
      simp only [hstep] at hrun
      have hstraight := hrun.2.1.straight f c
      exact ⟨⟨hrun.1, hstraight.at_ ho.2⟩, hstraight, True.intro⟩

theorem build {step : Build α} (h : KeepsStraight f step) : Straight f (Lower.build step) := by
  intro b _ c o ho
  have hstraight := h c o.builder ho.2
  exact .of_ok rfl ⟨hstraight.sane ho.1, hstraight.at_ ho.2⟩ hstraight (.refl b)

/-- Reading the body tells the function. -/
theorem get_bind {next : Body → Lower α} (h : ∀ b : Body, b.function = f → Straight f (next b)) :
    Straight f (get >>= next) :=
  fun b hb c o ho => h b hb b hb c o ho

theorem getOutput : Straight f (getThe Output : Lower Output) :=
  lift Emit.Quiet.get

/-- A change of the body that concerns scope and receiver only. -/
theorem update {change : Body → Body} (h : ∀ b : Body, b.Same (change b)) :
    Straight f (modify change : Lower PUnit) :=
  fun b _ c _ ho => .of_ok rfl ho ((straightly f c).refl _) (h b)

theorem mismatch (text : String) : Straight f (Lower.mismatch text : Lower α) :=
  lift (.fail (by simp))

theorem broken (text : String) : Straight f (Lower.broken text : Lower α) :=
  lift (.broken text)

theorem ite {c : Prop} [Decidable c] {yes no : Lower α} (hyes : Straight f yes)
    (hno : Straight f no) : Straight f (if c then yes else no) := by
  split
  · exact hyes
  · exact hno

theorem forM {items : List β} {body : β → Lower PUnit} (h : ∀ item, Straight f (body item)) :
    Straight f (items.forM body) := by
  induction items with
  | nil => exact pure _
  | cons item items ih => exact (h item).bind fun _ => ih

theorem mapM {items : List β} {body : β → Lower α} (h : ∀ item, Straight f (body item)) :
    Straight f (items.mapM body) := by
  induction items with
  | nil => exact pure _
  | cons item items ih =>
      rw [List.mapM_cons]
      exact (h item).bind fun _ => ih.bind fun _ => pure _

end Straight

/-- A result that a body goes on with. -/
theorem ofExcept_ok {r : Except CompileError α} {a : α} {b b' : Body} {o o' : Output}
    (h : (liftM (Emit.ofExcept r) : Lower α).run b o = .ok (a, b') o') :
    r = .ok a ∧ b' = b ∧ o' = o := by
  cases r with
  | error e => cases h
  | ok a' =>
      cases h
      exact ⟨rfl, rfl, rfl⟩

variable {f : FunctionId} (ctx : LoweringContext)

theorem typeOf_straight (node : NodeId) : Straight f (typeOf ctx node) :=
  .get_bind fun _ _ => (Straight.lift (.ofExcept (TypeTable.typeOf_free _ _))).bind fun t =>
    .lift (Emit.resolve_lays t).quiet

theorem target_straight (node : NodeId) : Straight f (target ctx node) :=
  .get_bind fun _ _ => .lift (.ofExcept (TypeTable.target_free _ _))

theorem bind_straight (name : String) (storage : Storage) : Straight f (bind name storage) :=
  .update fun _ => ⟨rfl, rfl, rfl, rfl, rfl⟩

theorem bindLocal_straight (name : String) (value : Value) (t : TypeId) :
    Straight f (bindLocal ctx name value t) := by
  refine (Straight.lift (Emit.valueType_lays t).quiet).bind fun type => .get_bind fun b hb => ?_
  subst hb
  refine (Straight.build ?_).bind fun slot => bind_straight _ _
  exact (KeepsStraight.entryAlloca _ _).bind fun slot => (KeepsStraight.store _ _).bind fun _ =>
    .pure _

theorem bindParam_straight (index : Nat) (name : String) (t : TypeId) :
    Straight f (bindParam ctx index name t) := by
  refine .get_bind fun b hb => ?_
  subst hb
  refine (Straight.build (.setParamName _ _)).bind fun _ => ?_
  exact Straight.getOutput.bind fun o => bindLocal_straight ctx _ _ _

theorem loadLocal_straight (name : String) : Straight f (loadLocal name) := by
  refine .get_bind fun b _ => ?_
  split
  · exact .pure _
  · exact .build (.load _ _ _)
  · exact .broken _

theorem receiver_straight : Straight f receiver := by
  refine .get_bind fun b _ => ?_
  split
  · exact .pure _
  · exact .mismatch _

/-! ### Conversion -/

theorem allocate_straight (type : IR.Ty) (onStack : Bool) (name : String) :
    Straight f (allocate type onStack name) := by
  refine Straight.getOutput.bind fun o => .ite ?_ ?_
  · refine .get_bind fun b hb => ?_
    subst hb
    exact .build (.entryAlloca _ _)
  · refine (Straight.build (.call _ _ _)).bind fun result => ?_
    split
    · exact .pure _
    · exact .broken _

theorem boxDynamic_straight (value : Value) (t : TypeId) :
    Straight f (boxDynamic ctx value t) := by
  refine (Straight.lift (Emit.dynamicLayout_lays t).quiet).bind fun struct => ?_
  refine (Straight.lift (Emit.layout_lays _).quiet).bind fun header => ?_
  refine (Straight.lift (Emit.runtimeType_quiet ctx t)).bind fun record => ?_
  refine (allocate_straight _ _ _).bind fun box => ?_
  refine (Straight.build ?_).bind fun _ => .pure _
  refine (KeepsStraight.structField _ _ _ _).bind fun _ => ?_
  refine (KeepsStraight.structField _ _ _ _).bind fun _ => ?_
  refine (KeepsStraight.store _ _).bind fun _ => ?_
  exact (KeepsStraight.structField _ _ _ _).bind fun _ => .store _ _

theorem dynamicHolds_straight (box : Value) (t : TypeId) :
    Straight f (dynamicHolds ctx box t) := by
  refine (Straight.lift (Emit.layout_lays _).quiet).bind fun header => ?_
  refine (Straight.lift (Emit.runtimeType_quiet ctx t)).bind fun record => .build ?_
  refine (KeepsStraight.structField _ _ _ _).bind fun _ => ?_
  exact (KeepsStraight.load _ _ _).bind fun _ => .compareOf _ _ _ _ _

theorem unboxDynamic_straight (box : Value) (t : TypeId) :
    Straight f (unboxDynamic ctx box t) := by
  refine (Straight.lift (Emit.dynamicLayout_lays t).quiet).bind fun struct => ?_
  refine (Straight.lift (Emit.valueType_lays t).quiet).bind fun type => .build ?_
  exact (KeepsStraight.structField _ _ _ _).bind fun _ => .load _ _ _

theorem convert_straight (value : Value) (source wanted : TypeId) :
    Straight f (convert ctx value source wanted) := by
  unfold convert
  split
  · exact .pure _
  · exact .build (.widen _ _ _)
  · exact .pure _
  · exact boxDynamic_straight ctx _ _
  · exact .mismatch _

/-! ### Names and patterns -/

theorem lowerIdent_straight (node : NodeId) (name : String) :
    Straight f (lowerIdent ctx node name) := by
  refine (target_straight ctx node).bind fun found => ?_
  split
  · exact loadLocal_straight _
  · exact .lift (Emit.singleton_lays _).quiet
  · exact .broken _

theorem ivarSlot_straight (name : String) : Straight f (ivarSlot ctx name) := by
  refine .get_bind fun b _ => ?_
  dsimp only
  split
  · split
    · split
      · refine (Straight.lift (Emit.layout_lays _).quiet).bind fun struct => ?_
        refine (Straight.lift (Emit.valueType_lays _).quiet).bind fun type => ?_
        exact (Straight.build (.structField _ _ _ _)).bind fun slot => .pure _
      · exact .lift (.fail (by simp))
    · exact .mismatch _
  · exact .mismatch _

theorem lowerIvar_straight (name : String) : Straight f (lowerIvar ctx name) :=
  (ivarSlot_straight ctx name).bind fun _ => .build (.load _ _ _)

theorem tagMatches_straight (tag : Value) (t : TypeId) : Straight f (tagMatches ctx tag t) :=
  (Straight.lift (Emit.caseParts_lays t).quiet).bind fun _ =>
    .build (.compareOf _ _ _ _ _)

theorem bindFields_straight (value : Value) (t : TypeId) (fields : List String) :
    Straight f (bindFields ctx value t fields) := by
  refine (Straight.lift (Emit.caseParts_lays t).quiet).bind fun parts => ?_
  refine (Straight.lift (Emit.layout_lays t).quiet).bind fun struct => .forM ?_
  rintro ⟨⟨name, _, fieldType⟩, index⟩
  refine (Straight.lift (Emit.valueType_lays _).quiet).bind fun type => ?_
  refine (Straight.build ?_).bind fun loaded => bind_straight _ _
  exact (KeepsStraight.structField _ _ _ _).bind fun _ => .load _ _ _

theorem bindPattern_straight (value : Value) (t : TypeId) (onDynamic : Bool)
    (binder : Option String) (fields : List String) :
    Straight f (bindPattern ctx value t onDynamic binder fields) := by
  unfold bindPattern
  dsimp only
  split
  · split
    · exact (unboxDynamic_straight ctx _ _).bind fun _ => bind_straight _ _
    · exact .pure _
  · split
    · exact (bind_straight _ _).bind fun _ => .ite (bindFields_straight ctx value t fields) (.pure _)
    · exact .ite (bindFields_straight ctx value t fields) (.pure _)

end Lower

end ClassLang
