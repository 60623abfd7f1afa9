import ClassLang.Proofs.Discipline
import ClassLang.Proofs.Lowering.LayoutSteps
import ClassLang.Proofs.Typing.ConfinedViews

/-!
# The records of runtime types

The output keeps one table from types to the records that describe them at run time. A record is
made when a type is first asked for and is a global constant of its own. While code is generated the
table only grows, and entries with different types have different addresses.

`Emit.Registers` says so of one step of generating. It also says how a step may fail: a `strict`
step never because a name has no storage. A `frozen` step leaves the table alone.
-/

namespace ClassLang

open IR (Build Builder Ty Value)

/-! ## The table of records -/

/-- Reading a name stops because there is no storage for it. -/
def Halt.Unstored (h : Halt) : Prop :=
  ∃ name : String, h = .error (.internal s!"'{name}' has no storage in this function")

/-- A text that begins otherwise. -/
theorem Halt.not_unstored_of_head {text : String} (h : text.toList.head? ≠ some '\'') :
    ¬ Halt.Unstored (.error (.internal text)) := by
  rintro ⟨name, heq⟩
  cases heq
  exact h (by simp [ToString.toString])

/-- A text that ends otherwise. -/
theorem Halt.not_unstored_of_tail {text : String}
    (h : text.toList.reverse.take 5 ≠ ['n', 'o', 'i', 't', 'c']) :
    ¬ Halt.Unstored (.error (.internal text)) := by
  rintro ⟨name, heq⟩
  cases heq
  exact h (by simp [ToString.toString])

/-- An error of the program. -/
theorem Halt.not_unstored_of_program {e : CompileError} (h : ∀ text, e ≠ .internal text) :
    ¬ Halt.Unstored (.error e) := by
  rintro ⟨name, heq⟩
  cases heq
  exact h _ rfl

theorem Halt.not_unstored_outOfFuel : ¬ Halt.outOfFuel.Unstored := by
  rintro ⟨name, h⟩
  cases h

/-- A type, meaning or signature that was not recorded. -/
theorem TypeTable.not_unstored_of_typeOf {table : TypeTable} {visit : Visit} {e : CompileError}
    (h : table.typeOf visit = .error e) : ¬ Halt.Unstored (.error e) := by
  unfold TypeTable.typeOf at h
  split at h
  · cases h
  · cases h
    exact Halt.not_unstored_of_head (by simp [ToString.toString])

theorem TypeTable.not_unstored_of_target {table : TypeTable} {visit : Visit} {e : CompileError}
    (h : table.target visit = .error e) : ¬ Halt.Unstored (.error e) := by
  unfold TypeTable.target at h
  split at h
  · cases h
  · cases h
    exact Halt.not_unstored_of_head (by simp [ToString.toString])

theorem TypeTable.not_unstored_of_signature {table : TypeTable} {visit : Visit} {e : CompileError}
    (h : table.signature visit = .error e) : ¬ Halt.Unstored (.error e) := by
  unfold TypeTable.signature at h
  split at h
  · cases h
  · cases h
    exact Halt.not_unstored_of_head (by simp [ToString.toString])

namespace Output

/-- The record of a type, if it was asked for. -/
def record? (o : Output) (t : TypeId) : Option Value :=
  o.runtimeTypes.lookup t

/-- Each record is a global constant, and different types have different ones. -/
structure Registered (o : Output) : Prop where
  globals : ∀ t record, o.record? t = some record →
    ∃ g, g < o.builder.module.globals.size ∧ record = .const (.globalAddr g)
  injective : ∀ t t' record, o.record? t = some record → o.record? t' = some record → t = t'

theorem Registered.of_none {o : Output} (h : o.runtimeTypes = []) : o.Registered := by
  have hnone : ∀ t, o.record? t = none := fun t => by rw [record?, h, List.lookup_nil]
  exact ⟨fun t record ht => by simp [hnone t] at ht, fun t _ record ht => by simp [hnone t] at ht⟩

/-- An output with the same records and no fewer globals. -/
theorem Registered.of_eq {o o' : Output} (h : o.Registered)
    (heq : o'.runtimeTypes = o.runtimeTypes)
    (hle : o.builder.module.globals.size ≤ o'.builder.module.globals.size) : o'.Registered := by
  have hrecord : ∀ t, o'.record? t = o.record? t := fun t => by rw [record?, record?, heq]
  refine ⟨fun t record ht => ?_, fun t t' record ht ht' => ?_⟩
  · obtain ⟨g, hg, rfl⟩ := h.globals t record (hrecord t ▸ ht)
    exact ⟨g, Nat.lt_of_lt_of_le hg hle, rfl⟩
  · exact h.injective t t' record (hrecord t ▸ ht) (hrecord t' ▸ ht')

/-- Remember the record of a type. -/
def register (o : Output) (t : TypeId) (record : Value) : Output :=
  { o with runtimeTypes := (t, record) :: o.runtimeTypes }

@[simp] theorem record?_register_self (o : Output) (t : TypeId) (record : Value) :
    (o.register t record).record? t = some record := by
  simp [record?, register]

theorem record?_register_of_ne (o : Output) {t t' : TypeId} (record : Value) (h : t' ≠ t) :
    (o.register t record).record? t' = o.record? t' := by
  have hne : (t' == t) = false := by simp [h]
  simp [record?, register, List.lookup_cons, hne]

/-- A global constant that was added after all records is the record of a new type. -/
theorem Registered.register {o o' : Output} {t : TypeId} {g : Nat} (h : o.Registered)
    (heq : o'.runtimeTypes = o.runtimeTypes) (hle : o.builder.module.globals.size ≤ g)
    (hlt : g < o'.builder.module.globals.size) :
    (o'.register t (.const (.globalAddr g))).Registered := by
  have h' := h.of_eq heq (Nat.le_trans hle (Nat.le_of_lt hlt))
  have hrecord : ∀ t, o'.record? t = o.record? t := fun t => by rw [record?, record?, heq]
  have hnew : ∀ u, o'.record? u ≠ some (.const (.globalAddr g)) := by
    intro u hu
    obtain ⟨g', hg', heq⟩ := h.globals u _ (hrecord u ▸ hu)
    cases heq
    exact absurd hg' (Nat.not_lt.mpr hle)
  refine ⟨fun u record hu => ?_, fun u u' record hu hu' => ?_⟩
  · by_cases hut : u = t
    · subst hut
      rw [record?_register_self] at hu
      exact ⟨g, hlt, (Option.some.inj hu).symm⟩
    · rw [record?_register_of_ne _ _ hut] at hu
      exact h'.globals u record hu
  · by_cases hut : u = t <;> by_cases hut' : u' = t
    · rw [hut, hut']
    · subst hut
      rw [record?_register_self] at hu
      rw [record?_register_of_ne _ _ hut', ← hu] at hu'
      exact absurd hu' (hnew u')
    · subst hut'
      rw [record?_register_self] at hu'
      rw [record?_register_of_ne _ _ hut, ← hu'] at hu
      exact absurd hu (hnew u)
    · rw [record?_register_of_ne _ _ hut] at hu
      rw [record?_register_of_ne _ _ hut'] at hu'
      exact h'.injective u u' record hu hu'

end Output

/-- How generating code may change an output: it keeps the records of runtime types and the numbering
of functions. A frozen step makes no record. -/
structure Output.Evolves (frozen : Prop) (o o' : Output) : Prop where
  records : ∀ t record, o.record? t = some record → o'.record? t = some record
  frozen : frozen → o'.runtimeTypes = o.runtimeTypes
  numbered : o.builder.Numbered → o'.builder.Numbered

namespace Output.Evolves

variable {frozen : Prop} {o o' o'' : Output}

theorem refl (o : Output) : o.Evolves frozen o := ⟨fun _ _ h => h, fun _ => rfl, id⟩

theorem trans (h : o.Evolves frozen o') (h' : o'.Evolves frozen o'') : o.Evolves frozen o'' where
  records t record ht := h'.records t record (h.records t record ht)
  frozen hfrozen := (h'.frozen hfrozen).trans (h.frozen hfrozen)
  numbered hnumbered := h'.numbered (h.numbered hnumbered)

end Output.Evolves

/-- Generating code keeps the records of runtime types. A strict step does not fail because a name
has no storage, and a frozen one makes no record. -/
def registering (strict frozen : Prop) : Discipline Halt Output where
  inv o := o.Registered
  le o o' := o.Evolves frozen o'
  fails o h o' := (strict → ¬ h.Unstored) ∧ o'.Registered ∧
    (o.builder.Numbered → o'.builder.Numbered)
  refl := .refl
  trans := .trans
  fails_trans h h' := ⟨h'.1, h'.2.1, fun hnumbered => h'.2.2 (h.numbered hnumbered)⟩

/-! ## Steps of generating -/

variable {strict frozen : Prop} {α β : Type}

/-- The step keeps the records of runtime types. -/
def Emit.Registers (strict frozen : Prop) (step : Emit α) : Prop :=
  ∀ o : Output, o.Registered → (registering strict frozen).KeepsAt o step fun _ _ => True

namespace Emit.Registers

theorem pure (a : α) : Registers strict frozen (Pure.pure a) :=
  fun _ ho => .pure ho True.intro

theorem bind {step : Emit α} {next : α → Emit β} (h : Registers strict frozen step)
    (hnext : ∀ a, Registers strict frozen (next a)) : Registers strict frozen (step >>= next) :=
  fun o ho => .bind (h o ho) fun a u hu _ _ => hnext a u hu

theorem fail {e : CompileError} (h : strict → ¬ Halt.Unstored (.error e)) :
    Registers strict frozen (Emit.fail e : Emit α) :=
  fun _ ho => .of_error rfl ⟨h, ho, id⟩

theorem outOfFuel : Registers strict frozen (MonadExcept.throw Halt.outOfFuel : Emit α) :=
  fun _ ho => .of_error rfl ⟨fun _ => Halt.not_unstored_outOfFuel, ho, id⟩

theorem program {e : CompileError} (h : ∀ text, e ≠ .internal text) :
    Registers strict frozen (Emit.fail e : Emit α) :=
  fail fun _ => Halt.not_unstored_of_program h

/-- A broken invariant whose text begins otherwise than that of a name without storage. -/
theorem broken {text : String} (h : text.toList.head? ≠ some '\'') :
    Registers strict frozen (Emit.broken text : Emit α) :=
  fail fun _ => Halt.not_unstored_of_head h

theorem ofExcept {r : Except CompileError α}
    (h : ∀ e, r = .error e → ¬ Halt.Unstored (.error e)) :
    Registers strict frozen (Emit.ofExcept r) := by
  cases r with
  | ok a => exact pure a
  | error e => exact fail fun _ => h e rfl

theorem get : Registers strict frozen (MonadState.get : Emit Output) :=
  fun _ ho => .of_ok rfl ho ((registering strict frozen).refl _) True.intro

/-- A change of the output that leaves the builder and the records alone. -/
theorem update {f : Output → Output} (hbuilder : ∀ o, (f o).builder = o.builder)
    (hrecords : ∀ o, (f o).runtimeTypes = o.runtimeTypes) :
    Registers strict frozen (modify f : Emit PUnit) := by
  intro o ho
  refine .of_ok (a := ⟨⟩) (t := f o) rfl (ho.of_eq (hrecords o) ?_)
    ⟨fun t record ht => ?_, fun _ => hrecords o, fun h => hbuilder o ▸ h⟩ True.intro
  · exact Nat.le_of_eq (by rw [hbuilder o])
  · rwa [Output.record?, hrecords o]

theorem build {step : Build α} (h : IR.Retains step) :
    Registers strict frozen (Emit.build step) :=
  fun o ho => .of_ok rfl (Output.Registered.of_eq ho rfl (h.globals o.builder))
    ⟨fun _ _ ht => ht, fun _ => rfl, h.numbered o.builder⟩ True.intro

theorem ite {c : Prop} [Decidable c] {yes no : Emit α} (hyes : Registers strict frozen yes)
    (hno : Registers strict frozen no) : Registers strict frozen (if c then yes else no) := by
  split
  · exact hyes
  · exact hno

theorem mapM {items : List β} {body : β → Emit α}
    (h : ∀ item ∈ items, Registers strict frozen (body item)) :
    Registers strict frozen (items.mapM body) := by
  induction items with
  | nil => exact pure _
  | cons item items ih =>
      rw [List.mapM_cons]
      refine (h item (by simp)).bind fun _ => ?_
      exact (ih fun i hi => h i (List.mem_cons_of_mem _ hi)).bind fun _ => pure _

theorem forM {items : List β} {body : β → Emit PUnit}
    (h : ∀ item ∈ items, Registers strict frozen (body item)) :
    Registers strict frozen (items.forM body) :=
  fun _ ho => (Discipline.forM_keeps (P := fun _ => True) items ho True.intro
    fun item hitem u hu _ _ => h item hitem u hu).trivial

end Emit.Registers

/-! ## Types and layouts -/

namespace Emit

variable {ctx : LoweringContext}

theorem LayoutError.not_unstored {e : CompileError} (h : LayoutError ctx e) :
    ¬ Halt.Unstored (.error e) := by
  cases h with
  | unresolved h => exact Halt.not_unstored_of_program (Pool.resolveStrict_error h)
  | void => exact Halt.not_unstored_of_tail (by decide)
  | unknown => exact Halt.not_unstored_of_head (by decide)
  | noStruct _ => exact Halt.not_unstored_of_tail (by simp [ToString.toString])
  | noCase _ => exact Halt.not_unstored_of_tail (by simp [ToString.toString])
  | tooLong => exact Halt.not_unstored_of_program (by simp)

theorem Lays.registers {step : Emit α} (h : Lays ctx step) : Registers strict frozen step := by
  induction h with
  | pure a => exact .pure a
  | bind _ _ ih ihnext => exact ih.bind ihnext
  | get => exact .get
  | update hbuilder hrecords => exact .update hbuilder hrecords
  | build _ hretains => exact .build hretains
  | fail h => exact .fail fun _ => h.not_unstored

theorem functionFor_registers (sig : Signature) : Registers strict frozen (functionFor sig) := by
  refine Registers.get.bind fun o => ?_
  split
  · exact .pure _
  · exact .broken (by simp [ToString.toString])

theorem declareFunction_registers (sig : Signature) (receiver : Bool) :
    Registers strict frozen (declareFunction ctx sig receiver) := by
  refine (signatureType_lays sig receiver).registers.bind fun type => Registers.get.bind fun o => ?_
  dsimp only
  split
  · exact .ite (Registers.bind (.program (by simp)) fun _ => .pure _) (.pure _)
  · exact .build (.declareFunction _ _)

/-! ## Requests for records -/

/-- A step that is not frozen, seen as one that is. -/
theorem Registers.thaw {step : Emit α} (h : Registers strict True step) {o : Output}
    (ho : o.Registered) : (registering strict False).KeepsAt o step fun _ o' =>
      o'.runtimeTypes = o.runtimeTypes := by
  have hkeeps := h o ho
  cases hrun : step o with
  | error e o' => exact .of_error hrun (hkeeps.error hrun)
  | ok a o' =>
      obtain ⟨ho', hle, -⟩ := hkeeps.ok hrun
      exact .of_ok hrun ho' ⟨hle.records, False.elim, hle.numbered⟩ (hle.frozen True.intro)

/-- A request for the record of a type finds it or makes one, and the table has it afterwards. -/
theorem runtimeType_registers (t : TypeId) {o : Output} (ho : o.Registered) :
    (registering strict False).KeepsAt o (runtimeType ctx t) fun record o' =>
      ∃ u, ctx.pool.resolveStrict t = .ok u ∧ o'.record? u = some record := by
  unfold runtimeType
  cases hresolve : ctx.pool.resolveStrict t with
  | error e =>
      have herror : resolve ctx t o = .error (.error e) o := by
        rw [resolve, hresolve]
        rfl
      exact .bind (.of_error herror
        ⟨fun _ => Halt.not_unstored_of_program (Pool.resolveStrict_error hresolve), ho, id⟩)
        fun _ _ _ _ h => h
  | ok u =>
      have hok : resolve ctx t o = .ok u o := by
        rw [resolve, hresolve]
        rfl
      refine .bind_read ho hok (.bind_read ho (b := o) rfl ?_)
      split
      · next record hrecord => exact .pure ho ⟨u, rfl, hrecord⟩
      · next hnone =>
          refine .bind ((stringLiteral_lays _).registers.thaw ho) fun name o₁ ho₁ _ h₁ => ?_
          refine .bind ((layout_lays _).registers.thaw ho₁) fun struct o₂ ho₂ _ h₂ => ?_
          obtain ⟨g, hrecord, hle, hlt⟩ := IR.Retains.addConstant_fresh
            (.constStruct struct [name]) ("talon.Type." ++ ctx.pool.display u) struct id
            o₂.builder
          let make : Build Value := do
            let init ← Build.constStruct struct [name]
            Build.addConstant ("talon.Type." ++ ctx.pool.display u) struct init
          let made := make.run o₂.builder
          have hretains : IR.Retains make :=
            (IR.Retains.constStruct struct [name]).bind fun _ => .addConstant _ _ _
          have hsame : ∀ t, o₂.record? t = o.record? t :=
            fun t => by rw [Output.record?, Output.record?, h₂, h₁]
          refine .of_ok (a := made.1)
            (t := { o₂ with builder := made.2 }.register u made.1) rfl ?_
            ⟨?_, False.elim, hretains.numbered o₂.builder⟩ ⟨u, rfl, by simp⟩
          · rw [show made.1 = _ from hrecord]
            exact ho₂.register rfl hle hlt
          · intro t' record ht'
            rw [Output.record?_register_of_ne]
            · exact ht'
            · rintro rfl
              rw [hsame, Output.record?, hnone] at ht'
              cases ht'

end Emit

end ClassLang
