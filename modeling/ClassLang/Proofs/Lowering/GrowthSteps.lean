import ClassLang.Proofs.Lowering.Growth
import ClassLang.Proofs.Typing.Members

/-!
# Generating code that only grows

What generating does to the output. Laying out types and making shared constants only adds to it:
`Emit.Enlarges`. What a body asks for besides its parts adds code to the current block: `Lower.Adds`.
Each function of the generator that does not generate parts has one lemma here.
-/

namespace ClassLang

open IR (Build Builder FunctionId HasOperands KeepsAdding KeepsEnlarging Ty Value below_cons below_nil
  below_none below_some noOperands)
open IR.HasOperands (Below)

/-! ## Outputs -/

/-- The value is the address of a constant that holds the tag. -/
def IR.Builder.HoldsTag (b : Builder) (value : Value) (tag : Nat) : Prop :=
  ∃ g global struct envelope, value = .const (.globalAddr g) ∧
    b.module.globals[g]? = some global ∧
      global.init = .struct struct [.struct envelope [.int .w32 tag]]

/-- Constants stay as they are. -/
theorem IR.Builder.HoldsTag.mono {b b' : Builder} {value : Value} {tag : Nat}
    (h : b.HoldsTag value tag) (henlarges : b.Enlarges b') : b'.HoldsTag value tag := by
  obtain ⟨g, global, struct, envelope, hvalue, hglobal, hinit⟩ := h
  exact ⟨g, global, struct, envelope, hvalue, henlarges.globals g global hglobal, hinit⟩

/-- The tags of cases that the constants of cases without fields must have. -/
class CaseTags where
  IsTag : TypeId → Nat → Prop

/-- The tags of cases are those that the pool gives them. -/
def LoweringContext.Tags [CaseTags] (ctx : LoweringContext) : Prop :=
  ∀ t link short tag owner fields, ctx.pool.view t = .variant link short tag owner fields →
    CaseTags.IsTag t tag

namespace Output

variable {o o' o'' : Output} {f : FunctionId} {c c' c'' : Nat} {own : Option FunctionId}

/-- The constants of cases without fields hold the tags of the cases, if the builder was not
misused. -/
def Tagged [CaseTags] (o : Output) : Prop :=
  o.builder.errors = 0 → ∀ entry ∈ o.singletons, ∃ tag, CaseTags.IsTag entry.1 tag ∧
    o.builder.HoldsTag entry.2 tag

/-- The records that are shared are constants. -/
def Constants (o : Output) : Prop :=
  (∀ entry ∈ o.runtimeTypes, ∃ c, entry.2 = .const c) ∧
    (∀ entry ∈ o.singletons, ∃ c, entry.2 = .const c) ∧
      ∀ entry ∈ o.strings, ∃ c, entry.2 = .const c

/-- What was made once and is shared stays as it is. -/
structure Remembers (o o' : Output) : Prop where
  malloc : o'.malloc = o.malloc
  layouts : ∀ t struct, o.layouts.lookup t = some struct → o'.layouts.lookup t = some struct
  dynamicLayouts : ∀ t struct, o.dynamicLayouts.lookup t = some struct →
    o'.dynamicLayouts.lookup t = some struct
  runtimeTypes : ∀ t record, o.runtimeTypes.lookup t = some record →
    o'.runtimeTypes.lookup t = some record
  singletons : ∀ t value, o.singletons.lookup t = some value → o'.singletons.lookup t = some value
  constants : o.Constants → o'.Constants

theorem Remembers.refl (o : Output) : o.Remembers o :=
  ⟨rfl, fun _ _ h => h, fun _ _ h => h, fun _ _ h => h, fun _ _ h => h, id⟩

theorem Remembers.trans (h : o.Remembers o') (h' : o'.Remembers o'') : o.Remembers o'' where
  malloc := h'.malloc.trans h.malloc
  layouts t struct ht := h'.layouts t struct (h.layouts t struct ht)
  dynamicLayouts t struct ht := h'.dynamicLayouts t struct (h.dynamicLayouts t struct ht)
  runtimeTypes t record ht := h'.runtimeTypes t record (h.runtimeTypes t record ht)
  singletons t value ht := h'.singletons t value (h.singletons t value ht)
  constants ho := h'.constants (h.constants ho)

/-- Only the builder has changed. -/
theorem Remembers.of_build (o : Output) (builder : Builder) : o.Remembers { o with builder } :=
  ⟨rfl, fun _ _ h => h, fun _ _ h => h, fun _ _ h => h, fun _ _ h => h, id⟩

/-- Nothing of the output was taken back. -/
structure Grows (o o' : Output) : Prop extends Remembers o o' where
  builder : o.builder.Grows o'.builder

theorem Grows.refl (o : Output) : o.Grows o := ⟨.refl o, .refl _⟩

theorem Grows.trans (h : o.Grows o') (h' : o'.Grows o'') : o.Grows o'' :=
  ⟨h.toRemembers.trans h'.toRemembers, h.builder.trans h'.builder⟩

variable [CaseTags]

/-- What is shared stays as it is, and new constants of cases hold their tags. -/
structure Extends (o o' : Output) : Prop extends Remembers o o' where
  tagged : o.Tagged → o'.Tagged

theorem Extends.refl (o : Output) : o.Extends o := ⟨.refl o, id⟩

theorem Extends.trans (h : o.Extends o') (h' : o'.Extends o'') : o.Extends o'' :=
  ⟨h.toRemembers.trans h'.toRemembers, fun ho => h'.tagged (h.tagged ho)⟩

theorem Tagged.mono (h : o.Tagged) (henlarges : o.builder.Enlarges o'.builder)
    (hsame : o'.singletons = o.singletons) : o'.Tagged := by
  intro herrors entry hentry
  have herrors' : o.builder.errors = 0 := Nat.le_zero.mp (herrors ▸ henlarges.errors)
  obtain ⟨tag, htag, hholds⟩ := h herrors' entry (hsame ▸ hentry)
  exact ⟨tag, htag, hholds.mono henlarges⟩

/-- Only the builder has changed. -/
theorem Extends.of_build (o : Output) {builder : Builder} (h : o.builder.Enlarges builder) :
    o.Extends { o with builder } :=
  ⟨.of_build o builder, fun ho => ho.mono h rfl⟩

/-- Shared things were added, besides structs and globals. -/
structure Enlarges (o o' : Output) : Prop extends Extends o o' where
  builder : o.builder.Enlarges o'.builder

theorem Enlarges.refl (o : Output) : o.Enlarges o := ⟨.refl o, .refl _⟩

theorem Enlarges.trans (h : o.Enlarges o') (h' : o'.Enlarges o'') : o.Enlarges o'' :=
  ⟨h.toExtends.trans h'.toExtends, h.builder.trans h'.builder⟩

/-- The output goes on from another one; functions with a body other than the `own` one stay as they
are. -/
structure Continues (own : Option FunctionId) (o o' : Output) : Prop extends Extends o o' where
  builder : Builder.Continues own o.builder o'.builder

namespace Continues

theorem refl (o : Output) : Continues own o o := ⟨.refl o, .refl _⟩

theorem trans (h : Continues own o o') (h' : Continues own o' o'') : Continues own o o'' :=
  ⟨h.toExtends.trans h'.toExtends, h.builder.trans h'.builder⟩

theorem grows (h : Continues own o o') : o.Grows o' := ⟨h.toRemembers, h.builder.grows⟩

/-- Building in a function that had no body before. -/
theorem close (h : Continues (some f) o o') (hbody : (o.builder.module.function f).hasBody = false) :
    Continues own o o' :=
  ⟨h.toExtends, h.builder.close hbody⟩

end Continues

/-- Code was added to block `c` of function `f`. -/
structure Adds (f : FunctionId) (c : Nat) (o o' : Output) : Prop extends Extends o o' where
  builder : Builder.Adds f c o.builder o'.builder

theorem Adds.refl (h : o.builder.At f c) : Adds f c o o := ⟨.refl o, .refl h⟩

theorem Adds.trans (h : Adds f c o o') (h' : Adds f c o' o'') : Adds f c o o'' :=
  ⟨h.toExtends.trans h'.toExtends, h.builder.trans h'.builder⟩

theorem Adds.grows (h : Adds f c o o') : o.Grows o' :=
  ⟨h.toRemembers, h.builder.proceeds.grows⟩

end Output

/-- A shaped builder is sane. -/
theorem IR.Builder.Shaped.sane {b : Builder} (h : b.Shaped) : b.Sane where
  declared := h.declared
  layout g hbody := by
    simp only [IR.Function.hasBody, Array.isEmpty, Bool.not_eq_false', decide_eq_true_eq] at hbody
    rcases (h.functions g).entry with ⟨-, hlayout⟩ | ⟨hpos, -⟩
    · exact hlayout
    · omega

/-- Functions are shaped, and what is shared is constant. -/
structure Output.Shaped (o : Output) : Prop where
  builder : o.builder.Shaped
  constants : o.Constants

/-! ## Bodies -/

/-- The body is still that of the same function. -/
structure Body.Stays (b b' : Body) : Prop where
  function : b'.function = b.function
  exit : b'.exit = b.exit

theorem Body.Stays.refl (b : Body) : b.Stays b := ⟨rfl, rfl⟩

theorem Body.Stays.trans {b b' b'' : Body} (h : b.Stays b') (h' : b'.Stays b'') : b.Stays b'' :=
  ⟨h'.function.trans h.function, h'.exit.trans h.exit⟩

/-- The operands of a storage, and those that a body refers to. -/
instance : HasOperands Storage where
  Below n
    | .fixed value => Below n value
    | .slot address _ => Below n address
  below_mono {_ _ s} h := by
    cases s with
    | fixed _ => exact HasOperands.below_mono h
    | slot _ _ => exact HasOperands.below_mono h

instance : HasOperands Body where
  Below n b := Below n b.scope ∧ Below n b.receiver ∧ Below n b.returnSites
  below_mono h hb := ⟨hb.1.mono h, hb.2.1.mono h, hb.2.2.mono h⟩

/-- The storage of a name. -/
theorem below_lookup {scope : List (String × Storage)} {name : String} {storage : Storage} {n : Nat}
    (h : Below n scope) (hlookup : scope.lookup name = some storage) : Below n storage :=
  (h _ (mem_of_lookup_eq_some hlookup)).2

namespace Lower

variable {α β : Type}

/-- A sequence of two steps of a body that succeeds. -/
theorem bind_ok {step : Lower α} {next : α → Lower β} {b b' : Body} {o o' : Output} {r : β}
    (h : (step >>= next).run b o = .ok (r, b') o') :
    ∃ a b₁ o₁, step.run b o = .ok (a, b₁) o₁ ∧ (next a).run b₁ o₁ = .ok (r, b') o' := by
  rw [StateT.run_bind] at h
  obtain ⟨⟨a, b₁⟩, o₁, hstep, hrest⟩ := bind_eq_ok.mp h
  exact ⟨a, b₁, o₁, hstep, hrest⟩

theorem run_bind_ok {step : Lower α} {next : α → Lower β} {b b₁ b' : Body} {o o₁ o' : Output} {a : α}
    {r : β} (hstep : step.run b o = .ok (a, b₁) o₁)
    (hnext : (next a).run b₁ o₁ = .ok (r, b') o') :
    (step >>= next).run b o = .ok (r, b') o' := by
  rw [StateT.run_bind]
  exact bind_eq_ok.mpr ⟨_, o₁, hstep, hnext⟩

/-- A step of generating that does not look at the body. -/
theorem lift_ok {step : Emit α} {b b' : Body} {o o' : Output} {r : α}
    (h : (liftM step : Lower α).run b o = .ok (r, b') o') : b' = b ∧ step o = .ok r o' := by
  obtain ⟨a, o₁, hstep, hrest⟩ := bind_eq_ok.mp h
  cases hrest
  exact ⟨rfl, hstep⟩

theorem run_lift_ok {step : Emit α} {o o' : Output} {r : α} (h : step o = .ok r o') (b : Body) :
    (liftM step : Lower α).run b o = .ok (r, b) o' :=
  bind_eq_ok.mpr ⟨r, o', h, rfl⟩

end Lower

section Tags

variable [CaseTags]

theorem Output.Continues.shaped {o o' : Output} {own : Option FunctionId} (h : Continues own o o')
    (ho : o.Shaped) : o'.Shaped :=
  ⟨h.builder.shaped ho.builder, h.constants ho.constants⟩

theorem Output.Adds.shaped {o o' : Output} {f : FunctionId} {c : Nat} (h : Adds f c o o')
    (ho : o.Shaped) : o'.Shaped :=
  ⟨h.builder.proceeds.shaped ho.builder, h.constants ho.constants⟩

/-! ## Steps that touch no function -/

variable {α β : Type}

namespace Emit

/-- What runs of the step lead to from outputs that have what `o` has still has it. -/
def EnlargesFrom (o : Output) (step : Emit α) : Prop :=
  ∀ o₁ r o₂, o.Enlarges o₁ → step o₁ = .ok r o₂ → o.Enlarges o₂

/-- The step only adds to the output. -/
def Enlarges (step : Emit α) : Prop :=
  ∀ o r o', step o = .ok r o' → o.Enlarges o'

theorem Enlarges.from {step : Emit α} (h : Enlarges step) (o : Output) : EnlargesFrom o step :=
  fun o₁ r o₂ hle hrun => hle.trans (h o₁ r o₂ hrun)

namespace EnlargesFrom

variable {o : Output}

theorem bind {step : Emit α} {next : α → Emit β} (h : EnlargesFrom o step)
    (hnext : ∀ a, EnlargesFrom o (next a)) : EnlargesFrom o (step >>= next) := by
  intro o₁ r o₂ hle hrun
  obtain ⟨a, u, hstep, hrest⟩ := bind_eq_ok.mp hrun
  exact hnext a u r o₂ (h o₁ a u hle hstep) hrest

theorem pure (a : α) : EnlargesFrom o (Pure.pure a) := by
  rintro o₁ r o₂ hle ⟨⟩
  exact hle

theorem broken_bind {text : String} {next : α → Emit β} :
    EnlargesFrom o (Emit.broken text >>= next) := by
  rintro _ _ _ - ⟨⟩

/-- A change of what is shared. -/
theorem update {f : Output → Output} (hbuilder : ∀ o, (f o).builder = o.builder)
    (h : ∀ o₁, o.Enlarges o₁ → o.Extends (f o₁)) : EnlargesFrom o (modify f : Emit PUnit) := by
  rintro o₁ r o₂ hle ⟨⟩
  exact ⟨h o₁ hle, (hbuilder o₁).symm ▸ hle.builder⟩

/-- Something is built that is shared from now on. -/
theorem share {step : Build Value} (h : KeepsEnlarging step) {f : Value → Output → Output}
    (hbuilder : ∀ value o, (f value o).builder = o.builder)
    (hshare : ∀ o₁, o.Enlarges o₁ → o.Enlarges { o₁ with builder := (step.run o₁.builder).2 } →
      o.Extends (f (step.run o₁.builder).1 { o₁ with builder := (step.run o₁.builder).2 })) :
    EnlargesFrom o (do
      let value ← Emit.build step
      modify (f value)
      Pure.pure value) := by
  rintro o₁ _ _ hle ⟨⟩
  have hbuilt : o₁.Enlarges { o₁ with builder := (step.run o₁.builder).2 } :=
    ⟨.of_build o₁ (h o₁.builder), h o₁.builder⟩
  have hall := hle.trans hbuilt
  exact ⟨hshare o₁ hle hall, (hbuilder _ _).symm ▸ hall.builder⟩

end EnlargesFrom

omit [CaseTags] in
/-- An entry for another key. -/
theorem lookup_cons_of_none {κ ν : Type} [BEq κ] [LawfulBEq κ] {table later : List (κ × ν)}
    {key : κ} {value : ν} (hkey : table.lookup key = none)
    (h : ∀ k v, table.lookup k = some v → later.lookup k = some v) (k : κ) (v : ν)
    (hk : table.lookup k = some v) : ((key, value) :: later).lookup k = some v := by
  have hne : (k == key) = false := by
    rw [beq_eq_false_iff_ne]
    rintro rfl
    rw [hkey] at hk
    cases hk
  rw [List.lookup_cons, hne]
  exact h k v hk

namespace Enlarges

theorem of_from {step : Emit α} (h : ∀ o, EnlargesFrom o step) : Enlarges step :=
  fun o r o' hrun => h o o r o' (.refl o) hrun

theorem pure (a : α) : Enlarges (Pure.pure a) := of_from fun _ => .pure a

theorem bind {step : Emit α} {next : α → Emit β} (h : Enlarges step)
    (hnext : ∀ a, Enlarges (next a)) : Enlarges (step >>= next) :=
  of_from fun o => (h.from o).bind fun a => (hnext a).from o

/-- What comes after reading the output may rely on it. -/
theorem get_bind {next : Output → Emit α} (h : ∀ o, EnlargesFrom o (next o)) :
    Enlarges (get >>= next) :=
  fun o r o' hrun => h o o r o' (.refl o) hrun

theorem fail (e : CompileError) : Enlarges (Emit.fail e : Emit α) := by
  rintro _ _ _ ⟨⟩

theorem broken (text : String) : Enlarges (Emit.broken text : Emit α) := fail _

theorem ofExcept (r : Except CompileError α) : Enlarges (Emit.ofExcept r) := by
  cases r with
  | ok a => exact pure a
  | error e => exact fail e

theorem build {step : Build α} (h : KeepsEnlarging step) : Enlarges (Emit.build step) := by
  rintro o _ _ ⟨⟩
  exact ⟨.of_build o (h o.builder), h o.builder⟩

theorem mapM {items : List β} {body : β → Emit α} (h : ∀ item, Enlarges (body item)) :
    Enlarges (items.mapM body) := by
  induction items with
  | nil => exact pure _
  | cons item items ih =>
      rw [List.mapM_cons]
      exact (h item).bind fun _ => ih.bind fun _ => pure _

end Enlarges

/-! ## Types and layouts -/

variable (ctx : LoweringContext)

theorem resolve_enlarges (t : TypeId) : Enlarges (resolve ctx t) := .ofExcept _

theorem valueType_enlarges (t : TypeId) : Enlarges (valueType ctx t) := by
  refine (resolve_enlarges ctx t).bind fun t => ?_
  split
  · exact .pure _
  · exact .pure _
  · exact .pure _
  · exact .broken _
  · exact .broken _
  · exact .broken _
  · exact .pure _

theorem returnType_enlarges (t : TypeId) : Enlarges (returnType ctx t) := by
  refine (resolve_enlarges ctx t).bind fun _ => ?_
  split
  · exact .pure _
  · exact (valueType_enlarges ctx t).bind fun _ => .pure _

theorem defineStruct_enlarges (name : String) (fields : List Ty) :
    Enlarges (defineStruct name fields) :=
  .build ((KeepsEnlarging.namedStruct _).bind fun _ => (KeepsEnlarging.setStructBody _ _).bind
    fun _ => .pure _)

/-- A type that had no struct gets one. -/
theorem setLayout_enlargesFrom {o : Output} {t : TypeId} (h : o.layouts.lookup t = none)
    (struct : Ty) : EnlargesFrom o (setLayout t struct) :=
  .update (fun _ => rfl) fun _ hle =>
    { hle.toExtends with layouts := lookup_cons_of_none h hle.layouts }

theorem closureLayout_enlarges (params : List TypeId) (result : TypeId) (captures : List TypeId) :
    Enlarges (closureLayout ctx params result captures) := by
  refine (Enlarges.mapM fun t => resolve_enlarges ctx t).bind fun params => ?_
  refine (resolve_enlarges ctx result).bind fun result => ?_
  refine (Enlarges.mapM fun t => resolve_enlarges ctx t).bind fun captures => .get_bind fun o => ?_
  split
  · exact .pure _
  · refine ((Enlarges.mapM fun t => valueType_enlarges ctx t).from o).bind fun fields => ?_
    refine ((defineStruct_enlarges _ _).from o).bind fun t => .bind ?_ fun _ => .pure _
    exact .update (fun _ => rfl) fun _ hle => { hle.toExtends with }

theorem dataLayout_enlarges (t : TypeId) : Enlarges (dataLayout ctx t) := by
  refine (resolve_enlarges ctx t).bind fun t => .get_bind fun o => ?_
  split
  · exact .pure _
  · next hnone _ =>
      refine ((defineStruct_enlarges _ _).from o).bind fun struct => ?_
      exact (setLayout_enlargesFrom hnone _).bind fun _ => .pure _
  · exact (Enlarges.broken _).from o

theorem layout_enlarges (t : TypeId) : Enlarges (layout ctx t) := by
  refine (resolve_enlarges ctx t).bind fun t => .get_bind fun o => ?_
  split
  · exact .pure _
  · next hnone =>
      have hset : ∀ struct, EnlargesFrom o (do setLayout t struct; pure struct) :=
        fun struct => (setLayout_enlargesFrom hnone struct).bind fun _ => .pure _
      dsimp only
      split
      · exact ((defineStruct_enlarges _ _).from o).bind hset
      · exact ((defineStruct_enlarges _ _).from o).bind hset
      · exact ((defineStruct_enlarges _ _).from o).bind hset
      · refine ((Enlarges.build (.namedStruct _)).from o).bind fun struct => ?_
        refine (setLayout_enlargesFrom hnone struct).bind fun _ => ?_
        refine ((Enlarges.mapM fun field => valueType_enlarges ctx _).from o).bind fun fields => ?_
        exact ((Enlarges.build (.setStructBody _ _)).from o).bind fun _ => hset struct
      · exact ((defineStruct_enlarges _ _).from o).bind hset
      · refine ((dataLayout_enlarges ctx _).from o).bind fun envelope => ?_
        refine ((Enlarges.mapM fun field => valueType_enlarges ctx _).from o).bind fun fields => ?_
        exact ((defineStruct_enlarges _ _).from o).bind hset
      · exact ((closureLayout_enlarges ctx _ _ _).from o).bind hset
      · exact ((Enlarges.broken _).from o).bind hset

theorem closureFnType_enlarges (params : List TypeId) (result : TypeId) :
    Enlarges (closureFnType ctx params result) :=
  (Enlarges.mapM fun t => valueType_enlarges ctx t).bind fun _ =>
    (returnType_enlarges ctx result).bind fun _ => .pure _

theorem signatureType_enlarges (sig : Signature) (receiver : Bool) :
    Enlarges (signatureType ctx sig receiver) :=
  (Enlarges.mapM fun t => valueType_enlarges ctx t).bind fun _ =>
    (returnType_enlarges ctx sig.result).bind fun _ => .pure _

theorem dynamicLayout_enlarges (payload : TypeId) : Enlarges (dynamicLayout ctx payload) := by
  refine (resolve_enlarges ctx payload).bind fun payload => .get_bind fun o => ?_
  split
  · exact .pure _
  · next hnone =>
      refine ((layout_enlarges ctx _).from o).bind fun header => ?_
      refine ((valueType_enlarges ctx payload).from o).bind fun value => ?_
      refine ((defineStruct_enlarges _ _).from o).bind fun t => .bind ?_ fun _ => .pure _
      exact .update (fun _ => rfl) fun _ hle =>
        { hle.toExtends with dynamicLayouts := lookup_cons_of_none hnone hle.dynamicLayouts }

theorem stringLiteral_enlarges (text : String) : Enlarges (stringLiteral ctx text) := by
  refine .get_bind fun o => ?_
  split
  · exact .pure _
  · dsimp only
    have hrest : ∀ _ : PUnit, EnlargesFrom o (do
        let struct ← layout ctx .string
        let record ← build do
          let data : Value := .const (.bytes (text.toUTF8.toList ++ [0]))
          let chars ← Build.addConstant ".str" data.type data
          let init ← Build.constStruct struct [.const (.int .w32 text.utf8ByteSize), chars]
          Build.addConstant ".string" struct init
        modify fun o => { o with strings := (text, record) :: o.strings }
        pure record) := by
      intro _
      refine ((layout_enlarges ctx _).from o).bind fun struct => ?_
      refine .share ?_ (f := fun record o => { o with strings := (text, record) :: o.strings })
        (fun _ _ => rfl) fun o₁ _ hle => { hle.toExtends with
          constants := fun ho => ⟨(hle.constants ho).1, (hle.constants ho).2.1,
            List.forall_mem_cons.mpr ⟨⟨_, rfl⟩, (hle.constants ho).2.2⟩⟩ }
      refine (KeepsEnlarging.addConstant _ _ _).bind fun chars => ?_
      exact (KeepsEnlarging.constStruct _ _).bind fun init => .addConstant _ _ _
    split
    · exact ((Enlarges.fail _).from o).bind hrest
    · exact hrest ⟨⟩

theorem runtimeType_enlarges (t : TypeId) : Enlarges (runtimeType ctx t) := by
  refine (resolve_enlarges ctx t).bind fun t => .get_bind fun o => ?_
  split
  · exact .pure _
  · next hnone =>
      refine ((stringLiteral_enlarges ctx _).from o).bind fun name => ?_
      refine ((layout_enlarges ctx _).from o).bind fun struct => ?_
      refine .share ?_ (f := fun record o => { o with runtimeTypes := (t, record) :: o.runtimeTypes })
        (fun _ _ => rfl) fun o₁ _ hle => { hle.toExtends with
          runtimeTypes := lookup_cons_of_none hnone hle.runtimeTypes
          constants := fun ho => ⟨List.forall_mem_cons.mpr ⟨⟨_, rfl⟩, (hle.constants ho).1⟩,
            (hle.constants ho).2⟩ }
      exact (KeepsEnlarging.constStruct _ _).bind fun init => .addConstant _ _ _

theorem caseParts_enlarges (t : TypeId) : Enlarges (caseParts ctx t) := by
  unfold caseParts
  split
  · exact .pure _
  · exact .broken _

omit [CaseTags] in
/-- Building the constant of a case without fields. -/
theorem buildSingleton_holds (struct envelope : Ty) (name : String) (tag : Nat) (b : Builder) :
    let r := (do
      let tag ← Build.constStruct envelope [.const (.int .w32 tag)]
      let init ← Build.constStruct struct [tag]
      Build.addConstant name struct init : Build Value).run b
    r.2.errors = 0 → r.2.HoldsTag r.1 tag := by
  intro r herrors
  cases envelope with
  | struct envelope =>
      cases struct with
      | struct struct =>
          refine ⟨_, _, struct, envelope, rfl, Array.getElem?_push_size, rfl⟩
      | _ => exact absurd herrors (Nat.succ_ne_zero _)
  | _ =>
      cases struct with
      | struct struct => exact absurd herrors (Nat.succ_ne_zero _)
      | _ => exact absurd herrors (Nat.succ_ne_zero _)

theorem singleton_enlarges (htags : ctx.Tags) (t : TypeId) : Enlarges (singleton ctx t) := by
  refine (resolve_enlarges ctx t).bind fun t => .get_bind fun o => ?_
  split
  · exact .pure _
  · next hnone =>
      unfold caseParts
      split
      · next link short tag owner fields hview =>
          rw [pure_bind]
          refine ((layout_enlarges ctx t).from o).bind fun struct => ?_
          refine ((dataLayout_enlarges ctx _).from o).bind fun envelope => ?_
          refine .share ?_ (f := fun value o => { o with singletons := (t, value) :: o.singletons })
            (fun _ _ => rfl) fun o₁ _ hle => { hle.toExtends with
              singletons := lookup_cons_of_none hnone hle.singletons
              constants := fun ho => ⟨(hle.constants ho).1,
                List.forall_mem_cons.mpr ⟨⟨_, rfl⟩, (hle.constants ho).2.1⟩, (hle.constants ho).2.2⟩
              tagged := fun ho herrors => List.forall_mem_cons.mpr
                ⟨⟨tag, htags t _ _ _ _ _ hview, buildSingleton_holds _ _ _ _ _ herrors⟩,
                  hle.tagged ho herrors⟩ }
          refine (KeepsEnlarging.constStruct _ _).bind fun tag => ?_
          exact (KeepsEnlarging.constStruct _ _).bind fun init => .addConstant _ _ _
      · exact .broken_bind

/-! ### Shared constants -/

section Constants

variable {ctx} {o o' : Output} {value : Value}

omit [CaseTags] in
theorem stringLiteral_const {text : String} (ho : o.Constants)
    (h : stringLiteral ctx text o = .ok value o') : ∃ c, value = .const c := by
  obtain ⟨_, o₁, hget, hrest⟩ := bind_eq_ok.mp h
  cases hget
  cases hfound : o.strings.lookup text with
  | some found =>
      rw [hfound] at hrest
      cases hrest
      exact ho.2.2 _ (mem_of_lookup_eq_some hfound)
  | none =>
      rw [hfound] at hrest
      dsimp only at hrest
      split at hrest
      · cases hrest
      · obtain ⟨struct, o₁, -, hrest⟩ := bind_eq_ok.mp hrest
        cases hrest
        exact ⟨_, rfl⟩

theorem runtimeType_const {t : TypeId} (ho : o.Constants)
    (h : runtimeType ctx t o = .ok value o') : ∃ c, value = .const c := by
  obtain ⟨t', o₁, hresolve, hrest⟩ := bind_eq_ok.mp h
  obtain ⟨_, o₂, hget, hrest⟩ := bind_eq_ok.mp hrest
  cases hget
  have ho₁ := (resolve_enlarges ctx t o t' o₁ hresolve).constants ho
  cases hfound : o₁.runtimeTypes.lookup t' with
  | some found =>
      rw [hfound] at hrest
      cases hrest
      exact ho₁.1 _ (mem_of_lookup_eq_some hfound)
  | none =>
      rw [hfound] at hrest
      obtain ⟨name, o₂, -, hrest⟩ := bind_eq_ok.mp hrest
      obtain ⟨struct, o₃, -, hrest⟩ := bind_eq_ok.mp hrest
      cases hrest
      exact ⟨_, rfl⟩

theorem singleton_const {t : TypeId} (ho : o.Constants)
    (h : singleton ctx t o = .ok value o') : ∃ c, value = .const c := by
  obtain ⟨t', o₁, hresolve, hrest⟩ := bind_eq_ok.mp h
  obtain ⟨_, o₂, hget, hrest⟩ := bind_eq_ok.mp hrest
  cases hget
  have ho₁ := (resolve_enlarges ctx t o t' o₁ hresolve).constants ho
  cases hfound : o₁.singletons.lookup t' with
  | some found =>
      rw [hfound] at hrest
      cases hrest
      exact ho₁.2.1 _ (mem_of_lookup_eq_some hfound)
  | none =>
      rw [hfound] at hrest
      obtain ⟨parts, o₂, -, hrest⟩ := bind_eq_ok.mp hrest
      obtain ⟨struct, o₃, -, hrest⟩ := bind_eq_ok.mp hrest
      obtain ⟨envelope, o₄, -, hrest⟩ := bind_eq_ok.mp hrest
      cases hrest
      exact ⟨_, rfl⟩

end Constants

theorem functionFor_enlarges (sig : Signature) : Enlarges (functionFor sig) := by
  refine .get_bind fun o => ?_
  split
  · exact .pure _
  · exact (Enlarges.broken _).from o

end Emit

/-! ## Steps of a body -/

namespace Lower

/-- Once the numbers below `n` are given out, the step adds code to the current block from any place
in function `f`, and what it leaves refers to instructions that are there. -/
def Adds [HasOperands α] (f : FunctionId) (n : Nat) (step : Lower α) : Prop :=
  ∀ b c o, b.function = f → o.builder.At f c → o.Shaped → n ≤ o.builder.next f →
    Below (o.builder.next f) b → ∀ r b' o', step.run b o = .ok (r, b') o' →
      b.Stays b' ∧ o.Adds f c o' ∧ Below (o'.builder.next f) b' ∧ Below (o'.builder.next f) r

namespace Adds

variable [HasOperands α] [HasOperands β] {f : FunctionId} {n : Nat}

theorem mono {step : Lower α} {n' : Nat} (h : Adds f n step) (hle : n ≤ n') : Adds f n' step :=
  fun b c o hb hat hshaped hn => h b c o hb hat hshaped (Nat.le_trans hle hn)

theorem pure {a : α} (h : Below n a) : Adds f n (Pure.pure a) := by
  rintro b c o hb hat - hn hbelow _ _ _ ⟨⟩
  exact ⟨.refl b, .refl hat, hbelow, h.mono hn⟩

theorem done : Adds f n (Pure.pure ⟨⟩ : Lower PUnit) := pure trivial

/-- What comes after a step may use what the step gives. -/
theorem bind {step : Lower α} {next : α → Lower β} (h : Adds f n step)
    (hnext : ∀ a n', n ≤ n' → Below n' a → Adds f n' (next a)) : Adds f n (step >>= next) := by
  intro b c o hb hat hshaped hn hbelow r b' o' hrun
  obtain ⟨a, b₁, o₁, hstep, hrest⟩ := bind_ok hrun
  obtain ⟨hb₁, hadds, hbelow₁, ha⟩ := h b c o hb hat hshaped hn hbelow _ _ _ hstep
  obtain ⟨hb', hadds', hbelow', hr⟩ := hnext a _ (Nat.le_trans hn hadds.builder.next_le) ha b₁ c o₁
    (hb₁.function.trans hb) hadds.builder.at_ (hadds.shaped hshaped) (Nat.le_refl _) hbelow₁ _ _ _ hrest
  exact ⟨hb₁.trans hb', hadds.trans hadds', hbelow', hr⟩

/-- What comes after a step does not depend on what it gives. -/
theorem andThen {step : Lower α} {next : α → Lower β} (h : Adds f n step)
    (hnext : ∀ a, Adds f n (next a)) : Adds f n (step >>= next) :=
  h.bind fun a _ hle _ => (hnext a).mono hle

theorem lift {step : Emit α} (hquiet : Emit.Quiet step) (h : Emit.Enlarges step)
    (hbelow : ∀ n o a o', o.Constants → step o = .ok a o' → Below n a) :
    Adds f n (liftM step) := by
  intro b c o hb hat hshaped hn hb' r b' o' hrun
  obtain ⟨rfl, hstep⟩ := lift_ok hrun
  have henlarges := h o r o' hstep
  obtain ⟨-, hsame, -⟩ := (hquiet o hshaped.builder.sane).ok hstep
  have hadds : o.Adds f c o' := ⟨henlarges.toExtends, .of_quiet hat hsame henlarges.builder⟩
  exact ⟨.refl _, hadds, hb'.mono hadds.builder.next_le, hbelow _ o r o' hshaped.constants hstep⟩

theorem build {step : Build α} (h : KeepsAdding f n step) : Adds f n (Lower.build step) := by
  rintro b c o hb hat hshaped hn hbelow _ _ _ ⟨⟩
  obtain ⟨hadds, hr⟩ := h c o.builder hat hshaped.builder hn
  exact ⟨.refl b, ⟨.of_build o hadds.proceeds.grows.toEnlarges, hadds⟩, hbelow.mono hadds.next_le, hr⟩

/-- Reading the body tells the function, and what the body refers to is there. -/
theorem get_bind {next : Body → Lower α}
    (h : ∀ b : Body, b.function = f → ∀ n', n ≤ n' → Below n' b → Adds f n' (next b)) :
    Adds f n (get >>= next) :=
  fun b c o hb hat hshaped hn hbelow =>
    h b hb _ hn hbelow b c o hb hat hshaped (Nat.le_refl _) hbelow

/-- What comes after reading the body depends on the function only. -/
theorem get_andThen {next : Body → Lower α} (h : ∀ b : Body, b.function = f → Adds f n (next b)) :
    Adds f n (get >>= next) :=
  get_bind fun b hb _ hle _ => (h b hb).mono hle

theorem getOutput : Adds f n (getThe Output : Lower Output) := by
  rintro b c o hb hat - hn hbelow _ _ _ ⟨⟩
  exact ⟨.refl b, .refl hat, hbelow, trivial⟩

/-- A change of the body that does not concern the function. -/
theorem update {change : Body → Body} (h : ∀ b : Body, b.Stays (change b))
    (hbelow : ∀ (b : Body) n', n ≤ n' → Below n' b → Below n' (change b)) :
    Adds f n (modify change : Lower PUnit) := by
  rintro b c o hb hat - hn hb' _ _ _ ⟨⟩
  exact ⟨h b, .refl hat, hbelow b _ hn hb', trivial⟩

theorem fail (e : CompileError) : Adds f n (liftM (Emit.fail e : Emit α) : Lower α) := by
  rintro b c o hb hat - - - _ _ _ ⟨⟩

theorem mismatch (text : String) : Adds f n (Lower.mismatch text : Lower α) := fail _

theorem broken (text : String) : Adds f n (Lower.broken text : Lower α) := fail _

theorem ite {p : Prop} [Decidable p] {yes no : Lower α} (hyes : Adds f n yes) (hno : Adds f n no) :
    Adds f n (if p then yes else no) := by
  split
  · exact hyes
  · exact hno

theorem forM {γ : Type} {items : List γ} {body : γ → Lower PUnit}
    (h : ∀ item ∈ items, Adds f n (body item)) : Adds f n (items.forM body) := by
  induction items with
  | nil => exact done
  | cons item items ih =>
      rw [List.forall_mem_cons] at h
      exact h.1.andThen fun _ => ih h.2

theorem mapM {γ : Type} {items : List γ} {body : γ → Lower α}
    (h : ∀ item ∈ items, Adds f n (body item)) : Adds f n (items.mapM body) := by
  induction items with
  | nil => exact pure below_nil
  | cons item items ih =>
      rw [List.forall_mem_cons] at h
      rw [List.mapM_cons]
      refine h.1.bind fun first n' hle hfirst => ?_
      refine ((ih h.2).mono hle).bind fun rest n'' hle' hrest => ?_
      exact pure (below_cons (hfirst.mono hle') hrest)

end Adds

variable {f : FunctionId} {n : Nat} (ctx : LoweringContext)

theorem ofExcept_adds (r : Except CompileError α) :
    @Adds _ α noOperands f n (liftM (Emit.ofExcept r) : Lower α) := by
  cases r with
  | ok a => exact @Adds.pure _ α noOperands f n a trivial
  | error e => exact .fail e

theorem valueType_adds (t : TypeId) : Adds f n (liftM (Emit.valueType ctx t) : Lower Ty) :=
  .lift (Emit.valueType_lays t).quiet (Emit.valueType_enlarges ctx t) fun _ _ _ _ _ _ => trivial

theorem layout_adds (t : TypeId) : Adds f n (liftM (Emit.layout ctx t) : Lower Ty) :=
  .lift (Emit.layout_lays t).quiet (Emit.layout_enlarges ctx t) fun _ _ _ _ _ _ => trivial

theorem dataLayout_adds (t : TypeId) : Adds f n (liftM (Emit.dataLayout ctx t) : Lower Ty) :=
  .lift (Emit.dataLayout_lays t).quiet (Emit.dataLayout_enlarges ctx t) fun _ _ _ _ _ _ => trivial

theorem dynamicLayout_adds (t : TypeId) : Adds f n (liftM (Emit.dynamicLayout ctx t) : Lower Ty) :=
  .lift (Emit.dynamicLayout_lays t).quiet (Emit.dynamicLayout_enlarges ctx t)
    fun _ _ _ _ _ _ => trivial

theorem caseParts_adds (t : TypeId) :
    Adds f n (liftM (Emit.caseParts ctx t) : Lower Emit.CaseParts) :=
  .lift (Emit.caseParts_lays t).quiet (Emit.caseParts_enlarges ctx t) fun _ _ _ _ _ _ => trivial

theorem runtimeType_adds (t : TypeId) : Adds f n (liftM (Emit.runtimeType ctx t) : Lower Value) := by
  refine .lift (Emit.runtimeType_quiet ctx t) (Emit.runtimeType_enlarges ctx t) ?_
  intro n o value o' ho h
  obtain ⟨c, rfl⟩ := Emit.runtimeType_const ho h
  trivial

theorem singleton_adds (htags : ctx.Tags) (t : TypeId) :
    Adds f n (liftM (Emit.singleton ctx t) : Lower Value) := by
  refine .lift (Emit.singleton_lays t).quiet (Emit.singleton_enlarges ctx htags t) ?_
  intro n o value o' ho h
  obtain ⟨c, rfl⟩ := Emit.singleton_const ho h
  trivial

theorem stringLiteral_adds (text : String) :
    Adds f n (liftM (Emit.stringLiteral ctx text) : Lower Value) := by
  refine .lift (Emit.stringLiteral_lays text).quiet (Emit.stringLiteral_enlarges ctx text) ?_
  intro n o value o' ho h
  obtain ⟨c, rfl⟩ := Emit.stringLiteral_const ho h
  trivial

theorem functionFor_adds (sig : Signature) :
    Adds f n (liftM (Emit.functionFor sig) : Lower FunctionId) :=
  .lift (Emit.functionFor_quiet sig) (Emit.functionFor_enlarges sig) fun _ _ _ _ _ _ => trivial

theorem closureLayout_adds (params : List TypeId) (result : TypeId) (captures : List TypeId) :
    Adds f n (liftM (Emit.closureLayout ctx params result captures) : Lower Ty) :=
  .lift (Emit.closureLayout_lays params result captures).quiet
    (Emit.closureLayout_enlarges ctx params result captures) fun _ _ _ _ _ _ => trivial

theorem closureFnType_adds (params : List TypeId) (result : TypeId) :
    Adds f n (liftM (Emit.closureFnType ctx params result) : Lower IR.FnType) :=
  .lift (Emit.closureFnType_lays params result).quiet (Emit.closureFnType_enlarges ctx params result)
    fun _ _ _ _ _ _ => trivial

theorem typeOf_adds (node : NodeId) : Adds f n (typeOf ctx node) :=
  .get_andThen fun _ _ => (ofExcept_adds _).andThen fun t =>
    .lift (Emit.resolve_lays t).quiet (Emit.resolve_enlarges ctx t) fun _ _ _ _ _ _ => trivial

theorem target_adds (node : NodeId) : Adds f n (target ctx node) :=
  .get_andThen fun _ _ => ofExcept_adds _

theorem bind_adds (name : String) {storage : Storage} (h : Below n storage) :
    Adds f n (bind name storage) :=
  .update (fun _ => ⟨rfl, rfl⟩) fun _ _ hle hb =>
    ⟨below_cons ⟨trivial, h.mono hle⟩ hb.1, hb.2⟩

theorem bindLocal_adds (name : String) (value : Value) (t : TypeId) :
    Adds f n (bindLocal ctx name value t) := by
  refine (valueType_adds ctx t).andThen fun type => .get_andThen fun b hb => ?_
  subst hb
  refine (Adds.build ?_).bind fun slot n' _ hslot => bind_adds _ hslot
  refine (KeepsAdding.entryAlloca _ _).bind fun slot n' _ hslot => ?_
  exact (KeepsAdding.store _ _).andThen fun _ => .pure hslot

theorem bindParam_adds (index : Nat) (name : String) (t : TypeId) :
    Adds f n (bindParam ctx index name t) := by
  refine .get_andThen fun b hb => ?_
  subst hb
  refine (Adds.build (.setParamName _ _)).andThen fun _ => ?_
  exact Adds.getOutput.andThen fun o => bindLocal_adds ctx _ _ _

theorem loadLocal_adds (name : String) : Adds f n (loadLocal name) := by
  refine .get_bind fun b _ n' _ hb => ?_
  split
  · next value hlookup => exact .pure (below_lookup hb.1 hlookup)
  · next address type hlookup => exact .build (.load _ (below_lookup hb.1 hlookup) _)
  · exact .broken _

theorem receiver_adds : Adds f n receiver := by
  refine .get_bind fun b _ n' _ hb => ?_
  split
  · next value hvalue => exact .pure (hb.2.1 value hvalue)
  · exact .mismatch _

/-! ### Conversion -/

theorem allocate_adds (type : Ty) (onStack : Bool) (name : String) :
    Adds f n (allocate type onStack name) := by
  refine Adds.getOutput.andThen fun o => .ite ?_ ?_
  · refine .get_andThen fun b hb => ?_
    subst hb
    exact .build (.entryAlloca _ _)
  · refine (Adds.build (.call _ _ _)).bind fun result n' _ hresult => ?_
    split
    · next address => exact .pure (hresult address rfl)
    · exact .broken _

theorem boxDynamic_adds (value : Value) (t : TypeId) : Adds f n (boxDynamic ctx value t) := by
  refine (dynamicLayout_adds ctx t).andThen fun struct => (layout_adds ctx _).andThen fun header => ?_
  refine (runtimeType_adds ctx t).andThen fun record => ?_
  refine (allocate_adds _ _ _).bind fun box n' _ hbox => ?_
  refine (Adds.build ?_).andThen fun _ => .pure hbox
  refine (KeepsAdding.structField _ _ _ _).andThen fun _ => ?_
  refine (KeepsAdding.structField _ _ _ _).andThen fun _ => ?_
  refine (KeepsAdding.store _ _).andThen fun _ => ?_
  exact (KeepsAdding.structField _ _ _ _).andThen fun _ => .store _ _

theorem dynamicHolds_adds (box : Value) (t : TypeId) : Adds f n (dynamicHolds ctx box t) := by
  refine (layout_adds ctx _).andThen fun header => (runtimeType_adds ctx t).andThen fun record => ?_
  refine .build ((KeepsAdding.structField _ _ _ _).bind fun slot n' _ hslot => ?_)
  exact (KeepsAdding.load _ hslot _).andThen fun _ => .compareOf _ _ _ _ _

theorem unboxDynamic_adds (box : Value) (t : TypeId) : Adds f n (unboxDynamic ctx box t) := by
  refine (dynamicLayout_adds ctx t).andThen fun struct => (valueType_adds ctx t).andThen fun type => ?_
  exact .build ((KeepsAdding.structField _ _ _ _).bind fun slot n' _ hslot => .load _ hslot _)

theorem convert_adds {value : Value} (h : Below n value) (source wanted : TypeId) :
    Adds f n (convert ctx value source wanted) := by
  unfold convert
  split
  · exact .pure h
  · exact .build (.widen h _ _)
  · exact .pure h
  · exact boxDynamic_adds ctx _ _
  · exact .mismatch _

/-! ### Names and patterns -/

theorem lowerIdent_adds (htags : ctx.Tags) (node : NodeId) (name : String) :
    Adds f n (lowerIdent ctx node name) := by
  refine (target_adds ctx node).andThen fun found => ?_
  split
  · exact loadLocal_adds _
  · exact singleton_adds ctx htags _
  · exact .broken _

theorem ivarSlot_adds (name : String) : Adds f n (ivarSlot ctx name) := by
  refine .get_andThen fun b _ => ?_
  dsimp only
  split
  · split
    · split
      · refine (layout_adds ctx _).andThen fun struct => (valueType_adds ctx _).andThen fun type => ?_
        exact (Adds.build (.structField _ _ _ _)).bind fun slot _ _ hslot => .pure ⟨hslot, trivial⟩
      · exact .fail _
    · exact .mismatch _
  · exact .mismatch _

theorem lowerIvar_adds (name : String) : Adds f n (lowerIvar ctx name) :=
  (ivarSlot_adds ctx name).bind fun _ _ _ hslot => .build (.load _ hslot.1 _)

theorem tagMatches_adds (tag : Value) (t : TypeId) : Adds f n (tagMatches ctx tag t) :=
  (caseParts_adds ctx t).andThen fun _ => .build (.compareOf _ _ _ _ _)

theorem bindFields_adds (value : Value) (t : TypeId) (fields : List String) :
    Adds f n (bindFields ctx value t fields) := by
  refine (caseParts_adds ctx t).andThen fun parts => (layout_adds ctx t).andThen fun struct => ?_
  refine .forM ?_
  rintro ⟨⟨name, _, fieldType⟩, index⟩ -
  refine (valueType_adds ctx _).andThen fun type => (Adds.build ?_).bind
    fun loaded n' _ hloaded => bind_adds _ hloaded
  exact (KeepsAdding.structField _ _ _ _).bind fun slot n' _ hslot => .load _ hslot _

theorem bindPattern_adds {value : Value} (h : Below n value) (t : TypeId) (onDynamic : Bool)
    (binder : Option String) (fields : List String) :
    Adds f n (bindPattern ctx value t onDynamic binder fields) := by
  unfold bindPattern
  dsimp only
  split
  · split
    · exact (unboxDynamic_adds ctx _ _).bind fun _ _ _ hvalue => bind_adds _ hvalue
    · exact .done
  · split
    · exact (bind_adds _ h).andThen fun _ => .ite (bindFields_adds ctx value t fields) .done
    · exact .ite (bindFields_adds ctx value t fields) .done

end Lower

end Tags

end ClassLang
