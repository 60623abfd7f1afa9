import ClassLang.Proofs.Lowering.Sharing

/-!
# Requests

Each request is answered from the output if its key was answered before. Otherwise what is asked for is
made and remembered, after requests for what it is made of. `Request.answers` says so of all of them:
they keep the output consistent, and they never misuse the builder.
-/

namespace ClassLang

open IR (Build Builder StructId Ty Value)

/-! ## Steps that requests are made of -/

namespace IR.Builder

/-- A new struct that is given its body. -/
theorem defines (b : Builder) (name : String) (fields : List Ty) :
    ∃ id, ((Build.namedStruct name).run b).1 = .struct id ∧
      b.Defines id fields
        ((Build.setStructBody (.struct id) fields).run ((Build.namedStruct name).run b).2).2 := by
  refine ⟨b.module.structs.size, rfl, ?_⟩
  let b₁ := ((Build.namedStruct name).run b).2
  have hnew : b₁.module.structs = b.module.structs.push { name := (b.module.structNames.take name).1 } :=
    rfl
  have hbare : b₁.structHasBody (.struct b.module.structs.size) = false := by
    simp [structHasBody, hnew]
  have hrun : ((Build.setStructBody (.struct b.module.structs.size) fields).run b₁).2 =
      { b₁ with module := { b₁.module with
        structs := b₁.module.structs.modify b.module.structs.size
          fun s => { s with fields := some fields } } } := by
    show ((if b₁.structHasBody (.struct b.module.structs.size) then Build.misuse else
      _ : Build Unit).run b₁).2 = _
    rw [hbare]
    rfl
  rw [hrun]
  refine ⟨by simp [Structs.body?], ?_, fun id fields' hid => ?_, rfl, rfl⟩
  · rw [Structs.body?, Array.getElem?_modify, if_pos rfl, hnew, Array.getElem?_push_size]
    rfl
  · have hlt : id < b.module.structs.size := by
      by_contra hge
      simp [Structs.body?, Array.getElem?_eq_none (Nat.le_of_not_lt hge)] at hid
    simp only [Structs.body?, hnew, Array.getElem?_modify, Array.getElem?_push] at hid ⊢
    rw [if_neg (Nat.ne_of_gt hlt), if_neg (Nat.ne_of_lt hlt)]
    exact hid

end IR.Builder

namespace Emit

open Discipline (onSuccess onSuccess_run)

variable {α β : Type} {ctx : LoweringContext} {o : Output} {t u : TypeId}

/-- Nothing comes after a step that fails. -/
theorem fails_bind {step : Emit α} {next : α → Emit β} {Q : β → Output → Prop} {e : Halt}
    {o' : Output} (h : step o = .error e o') :
    (onSuccess Halt Output).KeepsAt o (step >>= next) Q :=
  .bind (P := fun _ _ => False) (.of_error h True.intro) fun _ _ _ _ h => h.elim

theorem resolve_of_known (h : ctx.pool.resolveStrict t = .ok u) (o : Output) :
    resolve ctx t o = .ok u o := by
  rw [resolve, h]
  rfl

theorem resolve_of_error {e : CompileError} (h : ctx.pool.resolveStrict t = .error e) (o : Output) :
    resolve ctx t o = .error (.error e) o := by
  rw [resolve, h]
  rfl

theorem resolve_gives (t : TypeId) (o : Output) :
    (onSuccess Halt Output).KeepsAt o (resolve ctx t) fun u o' =>
      ctx.pool.resolveStrict t = .ok u ∧ o' = o := by
  cases h : ctx.pool.resolveStrict t with
  | ok u => exact .of_ok (resolve_of_known h o) True.intro True.intro ⟨rfl, rfl⟩
  | error e => exact .of_error (resolve_of_error h o) True.intro

/-- Whatever comes after resolving a type, the type is known if all of it succeeds. -/
theorem resolve_then {next : TypeId → Emit α} (t : TypeId) (o : Output) :
    (onSuccess Halt Output).KeepsAt o (resolve ctx t >>= next) fun _ _ =>
      ∃ u, ctx.pool.resolveStrict t = .ok u :=
  .bind (resolve_gives t o) fun u o _ _ h =>
    (onSuccess_run (next u) o).weaken fun _ _ _ _ _ => ⟨u, h.1⟩

/-- What comes after resolving a known type. -/
theorem resolve_bind {next : TypeId → Emit α} {Q : α → Output → Prop}
    (h : ctx.pool.resolveStrict t = .ok u) (hnext : (onSuccess Halt Output).KeepsAt o (next u) Q) :
    (onSuccess Halt Output).KeepsAt o (resolve ctx t >>= next) Q :=
  .bind_read True.intro (resolve_of_known h o) hnext

/-- A type of values is found without a change. -/
theorem valueType_gives (t : TypeId) (o : Output) :
    (onSuccess Halt Output).KeepsAt o (valueType ctx t) fun type o' =>
      ctx.pool.ValueType t type ∧ o' = o := by
  refine .bind (resolve_gives t o) fun u o' _ _ ⟨hu, ho⟩ => ?_
  subst ho
  have hgiven : ∀ {type}, (ctx.pool.data u).valueType? = some type →
      (onSuccess Halt Output).KeepsAt o' (pure type) fun type o =>
        ctx.pool.ValueType t type ∧ o = o' :=
    fun htype => .pure True.intro ⟨⟨u, hu, htype⟩, rfl⟩
  cases hdata : ctx.pool.data u
  all_goals first | exact hgiven (by rw [hdata]; rfl) | exact .of_error rfl True.intro

/-- A loop over steps that change nothing. -/
theorem mapM_gives {items : List β} {step : β → Emit α} {R : β → α → Prop}
    (hstep : ∀ item o, (onSuccess Halt Output).KeepsAt o (step item) fun a o' => R item a ∧ o' = o)
    (o : Output) : (onSuccess Halt Output).KeepsAt o (items.mapM step) fun results o' =>
      List.Forall₂ R items results ∧ o' = o := by
  induction items with
  | nil => exact .pure True.intro ⟨.nil, rfl⟩
  | cons item items ih =>
      rw [List.mapM_cons]
      refine .bind (hstep item o) fun a o₁ _ _ ⟨ha, ho₁⟩ => ?_
      subst ho₁
      refine .bind ih fun results o₂ _ _ ⟨hresults, ho₂⟩ => ?_
      exact .pure True.intro ⟨.cons ha hresults, ho₂⟩

theorem mapM_resolve_of_known {ts us : List TypeId} (h : ctx.pool.Resolves ts us) (o : Output) :
    ts.mapM (resolve ctx) o = .ok us o := by
  induction h with
  | nil => rfl
  | cons hu _ ih =>
      rw [List.mapM_cons, bind_of_ok (resolve_of_known hu o), bind_of_ok ih]
      rfl

theorem mapM_resolve_bind {ts us : List TypeId} {next : List TypeId → Emit α}
    {Q : α → Output → Prop} (h : ctx.pool.Resolves ts us)
    (hnext : (onSuccess Halt Output).KeepsAt o (next us) Q) :
    (onSuccess Halt Output).KeepsAt o (ts.mapM (resolve ctx) >>= next) Q :=
  .bind_read True.intro (mapM_resolve_of_known h o) hnext

/-- What comes after defining a struct. -/
theorem defineStruct_bind {name : String} {fields : List Ty} {next : Ty → Emit α}
    {Q : α → Output → Prop}
    (hnext : ∀ id builder, o.builder.Defines id fields builder →
      (onSuccess Halt Output).KeepsAt { o with builder } (next (.struct id)) Q) :
    (onSuccess Halt Output).KeepsAt o (defineStruct name fields >>= next) Q := by
  obtain ⟨id, hid, hdefines⟩ := o.builder.defines name fields
  refine .bind (P := fun struct o' => ∃ builder, struct = .struct id ∧ o' = { o with builder } ∧
    o.builder.Defines id fields builder) ?_ fun struct o' _ _ ⟨builder, hstruct, ho', hdefines'⟩ => ?_
  · refine .of_ok rfl True.intro True.intro ⟨_, hid, rfl, ?_⟩
    rw [← hid] at hdefines
    exact hdefines
  · subst hstruct ho'
    exact hnext id builder hdefines'

end Emit

/-! ## Requests for structs -/

namespace Emit

open Discipline (onSuccess onSuccess_run)
open Output (Answers Consistent Learns)

variable {α : Type} {ctx : LoweringContext} {o : Output} {t u : TypeId}

/-- A struct that is defined at once. -/
theorem defineLayout_answers {name : String} {fields : List Ty} (ho : o.Consistent ctx.pool)
    (hnone : o.handle? (.layout u) = none) (hfields : (Key.layout u).Fields ctx.pool o fields)
    (hplain : ∀ params result captures, ctx.pool.data u ≠ .closure params result captures) :
    (onSuccess Halt Output).KeepsAt o (do
      let struct ← defineStruct name fields
      setLayout u struct
      pure struct) fun struct o' => o.Answers ctx.pool (.layout u) (.struct struct) o' ∧
        o.Learns (.layout u) (.struct struct) o' := by
  refine defineStruct_bind fun id builder hdefines => ?_
  have hlearns := Learns.layout o builder u (.struct id)
  refine .of_ok rfl True.intro True.intro ⟨ho.define hlearns hnone hdefines hfields ?_, hlearns⟩
  intro v params result captures heq
  cases heq
  exact hplain params result captures

theorem dataLayout_of_error {e : CompileError} (h : ctx.pool.resolveStrict t = .error e)
    (o : Output) : dataLayout ctx t o = .error (.error e) o := by
  simp only [dataLayout, bind, EStateM.bind, resolve_of_error h]

/-- Nothing but the struct of a data type is made. -/
theorem dataLayout_answers (hu : ctx.pool.resolveStrict t = .ok u) (ho : o.Consistent ctx.pool) :
    (onSuccess Halt Output).KeepsAt o (dataLayout ctx t) fun struct o' =>
      o.Answers ctx.pool (.layout u) (.struct struct) o' ∧
        ∀ other, (∀ v name cases methods, other = .layout v →
          ctx.pool.data v ≠ .data name cases methods) → o'.handle? other = o.handle? other := by
  refine resolve_bind hu (.bind_read True.intro (b := o) rfl ?_)
  split
  · next hknown =>
      exact .pure True.intro ⟨ho.known (by rw [Output.handle?, hknown]; rfl), fun _ _ => rfl⟩
  · next hnone hdata =>
      have hnone' : o.handle? (.layout u) = none := by rw [Output.handle?, hnone]; rfl
      refine (defineLayout_answers ho hnone' (.data hdata) (by simp [hdata])).weaken
        fun struct o' _ _ h => ⟨h.1, fun other hother => h.2.other ?_⟩
      rintro rfl
      exact hother u _ _ _ rfl hdata
  · exact .of_error rfl True.intro

/-- The parts of a closure that was laid out are known. -/
theorem closureLayout_resolves (params captures : List TypeId) (result : TypeId) :
    (onSuccess Halt Output).KeepsAt o (closureLayout ctx params result captures) fun _ _ =>
      ∃ shape : ClosureShape, ctx.pool.Resolves params shape.params ∧
        ctx.pool.resolveStrict result = .ok shape.result ∧
        ctx.pool.Resolves captures shape.captures := by
  refine .bind (mapM_gives resolve_gives o) fun params' o₁ _ _ ⟨hparams, _⟩ => ?_
  refine .bind (resolve_gives result o₁) fun result' o₂ _ _ ⟨hresult, _⟩ => ?_
  refine .bind (mapM_gives resolve_gives o₂) fun captures' o₃ _ _ ⟨hcaptures, _⟩ => ?_
  exact (onSuccess_run _ _).weaken fun _ _ _ _ _ =>
    ⟨⟨params', result', captures'⟩, hparams, hresult, hcaptures⟩

theorem closureLayout_answers {params captures : List TypeId} {result : TypeId}
    {shape : ClosureShape} (hparams : ctx.pool.Resolves params shape.params)
    (hresult : ctx.pool.resolveStrict result = .ok shape.result)
    (hcaptures : ctx.pool.Resolves captures shape.captures) (ho : o.Consistent ctx.pool) :
    (onSuccess Halt Output).KeepsAt o (closureLayout ctx params result captures) fun struct o' =>
      o.Answers ctx.pool (.closure shape) (.struct struct) o' := by
  refine mapM_resolve_bind hparams (resolve_bind hresult (mapM_resolve_bind hcaptures ?_))
  refine .bind_read True.intro (b := o) rfl ?_
  split
  · next _ t hknown => exact .pure True.intro (ho.known (by rw [Output.handle?, hknown]; rfl))
  · next hnone =>
      refine .bind (mapM_gives valueType_gives o) fun types o₁ _ _ h => ?_
      obtain ⟨htypes, rfl⟩ := h
      refine defineStruct_bind fun id builder hdefines => .of_ok rfl True.intro True.intro ?_
      exact ho.define (Learns.closure o₁ builder shape (.struct id))
        (by rw [Output.handle?, hnone]; rfl) hdefines (.closure htypes) (by simp)

/-- A class is remembered before its fields are known. -/
theorem classLayout_answers {name : String} {ivars : List (String × TypeId)}
    {methods : List Signature} (ho : o.Consistent ctx.pool) (hnone : o.handle? (.layout u) = none)
    (hdata : ctx.pool.data u = .reference name ivars methods) :
    (onSuccess Halt Output).KeepsAt o (do
      let struct ← build (Build.namedStruct name)
      setLayout u struct
      let fields ← ivars.mapM fun field => valueType ctx field.2
      build (Build.setStructBody struct fields)
      setLayout u struct
      pure struct) fun struct o' => o.Answers ctx.pool (.layout u) (.struct struct) o' := by
  let made := (Build.namedStruct name).run o.builder
  let o₁ : Output := { o with builder := made.2, layouts := (u, made.1) :: o.layouts }
  refine .of_later (do
    let fields ← ivars.mapM fun field => valueType ctx field.2
    build (Build.setStructBody made.1 fields)
    setLayout u made.1
    pure made.1) (t := o₁) rfl True.intro ?_
  have hvalues : ∀ (field : String × TypeId) o, (onSuccess Halt Output).KeepsAt o
      (valueType ctx field.2) fun type o' => ctx.pool.ValueType field.2 type ∧ o' = o :=
    fun field o => valueType_gives field.2 o
  refine .bind (mapM_gives hvalues o₁) fun fields o₂ _ _ ⟨hfields, ho₂⟩ => ?_
  subst ho₂
  obtain ⟨id, hid, hdefines⟩ := o.builder.defines name fields
  let builder := ((Build.setStructBody (.struct id) fields).run made.2).2
  let o₂ : Output := { o with builder, layouts := (u, .struct id) :: (u, .struct id) :: o.layouts }
  have hmade : made.1 = .struct id := hid
  have hlearns : o.Learns (.layout u) (.struct (.struct id)) o₂ :=
    (Learns.layout o made.2 u (.struct id)).again (Learns.layout _ builder u (.struct id))
  refine .of_ok (a := .struct id) (t := o₂) (by simp only [o₁, hmade]; rfl) True.intro True.intro ?_
  refine ho.define hlearns hnone hdefines (.class hdata (List.forall₂_map_left_iff.mpr hfields)) ?_
  intro v params result captures heq
  cases heq
  simp [hdata]

/-- A case begins with the struct of its data type. -/
theorem caseLayout_answers {name short : String} {tag : Nat} {owner : TypeId}
    {fields : List (String × TypeId)} (ho : o.Consistent ctx.pool)
    (hnone : o.handle? (.layout u) = none)
    (hdata : ctx.pool.data u = .variant name short tag owner fields) :
    (onSuccess Halt Output).KeepsAt o (do
      let envelope ← dataLayout ctx owner
      let fields ← fields.mapM fun field => valueType ctx field.2
      let struct ← defineStruct name (envelope :: fields)
      setLayout u struct
      pure struct) fun struct o' => o.Answers ctx.pool (.layout u) (.struct struct) o' := by
  cases howner : ctx.pool.resolveStrict owner with
  | error e => exact fails_bind (dataLayout_of_error howner o)
  | ok root =>
      refine .bind (dataLayout_answers howner ho) fun envelope o₁ _ _ ⟨henvelope, hothers⟩ => ?_
      have hvalues : ∀ (field : String × TypeId) o, (onSuccess Halt Output).KeepsAt o
          (valueType ctx field.2) fun type o' => ctx.pool.ValueType field.2 type ∧ o' = o :=
        fun field o => valueType_gives field.2 o
      refine .bind (mapM_gives hvalues o₁) fun types o₂ _ _ ⟨htypes, ho₂⟩ => ?_
      subst ho₂
      have hnone' : o₂.handle? (.layout u) = none := by
        rw [hothers (.layout u) fun v _ _ _ heq => ?_, hnone]
        cases heq
        simp [hdata]
      have hfields : (Key.layout u).Fields ctx.pool o₂ (envelope :: types) :=
        .case hdata howner henvelope.answer (List.forall₂_map_left_iff.mpr htypes)
      refine (defineLayout_answers henvelope.consistent hnone' hfields (by simp [hdata])).weaken
        fun struct o' _ _ h => henvelope.trans h.1 hnone' (Nat.le_refl _) ?_
      intro v _ _ _ hv
      refine hothers (.layout v) fun w _ _ _ heq => ?_
      cases heq
      simp [hv]

/-- A closure type takes the struct of its shape. -/
theorem closureType_answers {params captures : List TypeId} {result : TypeId} (hp : ctx.pool.Sound)
    (ho : o.Consistent ctx.pool) (hnone : o.handle? (.layout u) = none)
    (hdata : ctx.pool.data u = .closure params result captures) :
    (onSuccess Halt Output).KeepsAt o (do
      let struct ← closureLayout ctx params result captures
      setLayout u struct
      pure struct) fun struct o' => o.Answers ctx.pool (.layout u) (.struct struct) o' := by
  refine .bind (P := fun struct o' => ∃ shape, (Key.layout u).HasShape ctx.pool shape ∧
    o.Answers ctx.pool (.closure shape) (.struct struct) o') ?_ ?_
  · cases hrun : closureLayout ctx params result captures o with
    | error h o₁ => exact .of_error hrun True.intro
    | ok struct o₁ =>
        obtain ⟨-, -, shape, hparams, hresult, hcaptures⟩ :=
          (closureLayout_resolves params captures result).ok hrun
        exact .of_ok hrun True.intro True.intro ⟨shape, .type hdata hparams hresult hcaptures,
          ((closureLayout_answers hparams hresult hcaptures ho).ok hrun).2.2⟩
  · intro struct o₁ _ _ ⟨shape, hshape, hanswers⟩
    have hlearns := Learns.layout o₁ o₁.builder u struct
    have hnone' : o₁.handle? (.layout u) = none := by
      rw [hanswers.above (.layout u) Nat.zero_lt_one, hnone]
    refine .of_ok rfl True.intro True.intro (hanswers.trans
      (hanswers.consistent.share hp hlearns hnone' rfl hshape hanswers.answer) hnone'
      (Nat.zero_le _) ?_)
    intro v _ _ _ _
    exact hanswers.above (.layout v) Nat.zero_lt_one

theorem layout_answers (hp : ctx.pool.Sound) (hu : ctx.pool.resolveStrict t = .ok u)
    (ho : o.Consistent ctx.pool) :
    (onSuccess Halt Output).KeepsAt o (layout ctx t) fun struct o' =>
      o.Answers ctx.pool (.layout u) (.struct struct) o' := by
  refine resolve_bind hu (.bind_read True.intro (b := o) rfl ?_)
  split
  · next hknown => exact .pure True.intro (ho.known (by rw [Output.handle?, hknown]; rfl))
  · next hnone =>
      have hnone' : o.handle? (.layout u) = none := by rw [Output.handle?, hnone]; rfl
      dsimp only
      split
      · next hdata =>
          exact (defineLayout_answers ho hnone' (.string hdata) (by simp [hdata])).weaken
            fun _ _ _ _ h => h.1
      · next hdata =>
          exact (defineLayout_answers ho hnone' (.type hdata) (by simp [hdata])).weaken
            fun _ _ _ _ h => h.1
      · next hdata =>
          exact (defineLayout_answers ho hnone' (.dynamic hdata) (by simp [hdata])).weaken
            fun _ _ _ _ h => h.1
      · next name ivars methods hdata =>
          simp only [pure_bind]
          exact classLayout_answers ho hnone' hdata
      · next hdata =>
          exact (defineLayout_answers ho hnone' (.data hdata) (by simp [hdata])).weaken
            fun _ _ _ _ h => h.1
      · next name short tag owner fields hdata => exact caseLayout_answers ho hnone' hdata
      · next params result captures hdata => exact closureType_answers hp ho hnone' hdata
      · exact fails_bind rfl

/-- A struct for boxed values takes the struct of `Dynamic` as its first field. -/
theorem dynamicLayout_answers (hp : ctx.pool.Sound) (hu : ctx.pool.resolveStrict t = .ok u)
    (ho : o.Consistent ctx.pool) :
    (onSuccess Halt Output).KeepsAt o (dynamicLayout ctx t) fun struct o' =>
      o.Answers ctx.pool (.boxed u) (.struct struct) o' := by
  refine resolve_bind hu (.bind_read True.intro (b := o) rfl ?_)
  split
  · next hknown => exact .pure True.intro (ho.known (by rw [Output.handle?, hknown]; rfl))
  · next hnone =>
      have hdynamic := hp.resolveStrict_builtin (t := .dynamic) (by decide)
      refine .bind (layout_answers hp hdynamic ho) fun header o₁ _ _ hheader => ?_
      refine .bind (valueType_gives u o₁) fun value o₂ _ _ h => ?_
      obtain ⟨hvalue, ho₂⟩ := h
      subst ho₂
      refine defineStruct_bind fun id builder hdefines => .of_ok rfl True.intro True.intro ?_
      have hnone' : o₂.handle? (.boxed u) = none := by
        rw [hheader.above (.boxed u) (by decide : 1 < 3), Output.handle?, hnone]
        rfl
      have hanswers := hheader.consistent.define (Learns.boxed o₂ builder u (.struct id)) hnone'
        hdefines (.boxed hheader.answer hvalue) (by simp)
      exact hheader.trans hanswers hnone' (by decide : 1 ≤ 3)
        (hheader.classes_builtin hp (by decide))

end Emit

/-! ## Requests for records -/

namespace IR.Builder

variable {β : Type}

/-- What is added at the end of a step is a new constant. -/
theorem addsRecord (b : Builder) (first : Build β)
    (hglobals : b.module.globals.size ≤ (first.run b).2.module.globals.size)
    (hstructs : (first.run b).2.module.structs = b.module.structs)
    (herrors : (first.run b).2.errors = b.errors) (name : String) (type : Ty) (init : β → Value) :
    b.AddsRecord ((first >>= fun part => Build.addConstant name type (init part)).run b).1
      ((first >>= fun part => Build.addConstant name type (init part)).run b).2 where
  record := by
    refine ⟨(first.run b).2.module.globals.size, hglobals, ?_, rfl⟩
    show (first.run b).2.module.globals.size < ((first.run b).2.module.globals.push _).size
    rw [Array.size_push]
    exact Nat.lt_succ_self _
  structs := hstructs
  errors := herrors

end IR.Builder

namespace Emit

open Discipline (onSuccess onSuccess_run)
open Output (Answers Consistent Learns)

variable {α : Type} {ctx : LoweringContext} {o : Output} {t u : TypeId}

/-- The struct that a request was answered with is one. -/
theorem struct_of_answers {o' : Output} {key : Key} {struct : Ty}
    (h : o.Answers ctx.pool key (.struct struct) o') : ∃ id, struct = .struct id := by
  obtain ⟨id, _, hid, -⟩ := h.consistent.structs key struct h.answer
  exact ⟨id, hid⟩

/-- A text has a record of its length and its bytes, which stand in a constant of their own. -/
theorem stringLiteral_answers (hp : ctx.pool.Sound) (text : String) (ho : o.Consistent ctx.pool) :
    (onSuccess Halt Output).KeepsAt o (stringLiteral ctx text) fun record o' =>
      o.Answers ctx.pool (.text text) (.record record) o' := by
  refine .bind_read True.intro (b := o) rfl ?_
  split
  · next hknown => exact .pure True.intro (ho.known (by rw [Output.handle?, hknown]; rfl))
  · next hnone =>
      dsimp only
      split
      · exact fails_bind rfl
      · have hstring := hp.resolveStrict_builtin (t := .string) (by decide)
        refine .bind (layout_answers hp hstring ho) fun struct o₁ _ _ hstruct => ?_
        obtain ⟨id, rfl⟩ := struct_of_answers hstruct
        let data : Value := .const (.bytes (text.toUTF8.toList ++ [0]))
        let first : Build Value := do
          let chars ← Build.addConstant ".str" data.type data
          Build.constStruct (.struct id) [.const (.int .w32 text.utf8ByteSize), chars]
        have hsize : o₁.builder.module.globals.size ≤
            (first.run o₁.builder).2.module.globals.size := by
          show _ ≤ (o₁.builder.module.globals.push _).size
          rw [Array.size_push]
          exact Nat.le_succ _
        have hadds := IR.Builder.addsRecord o₁.builder first hsize rfl rfl ".string"
          (.struct id) fun init => init
        have hnone' : o₁.handle? (.text text) = none := by
          rw [hstruct.above (.text text) (by decide : 1 < 2), Output.handle?, hnone]
          rfl
        refine .of_ok rfl True.intro True.intro ?_
        exact hstruct.trans (hstruct.consistent.add (Learns.text o₁ _ text _) hnone' hadds)
          hnone' (by decide : 1 ≤ 2) (hstruct.classes_builtin hp (by decide))

/-- The record of a type holds the record of its name. -/
theorem runtimeType_answers (hp : ctx.pool.Sound) (hu : ctx.pool.resolveStrict t = .ok u)
    (ho : o.Consistent ctx.pool) :
    (onSuccess Halt Output).KeepsAt o (runtimeType ctx t) fun record o' =>
      o.Answers ctx.pool (.runtimeType u) (.record record) o' := by
  refine resolve_bind hu (.bind_read True.intro (b := o) rfl ?_)
  split
  · next hknown => exact .pure True.intro (ho.known (by rw [Output.handle?, hknown]; rfl))
  · next hnone =>
      refine .bind (stringLiteral_answers hp _ ho) fun name o₁ _ _ hname => ?_
      have htype := hp.resolveStrict_builtin (t := .type) (by decide)
      refine .bind (layout_answers hp htype hname.consistent) fun struct o₂ _ _ hstruct => ?_
      obtain ⟨id, rfl⟩ := struct_of_answers hstruct
      have hadds := IR.Builder.addsRecord o₂.builder
        (Build.constStruct (.struct id) [name]) (Nat.le_refl _) rfl rfl
        ("talon.Type." ++ ctx.pool.display u) (.struct id) fun init => init
      have hnone₁ : o₁.handle? (.runtimeType u) = none := by
        rw [hname.above (.runtimeType u) (by decide : 2 < 4), Output.handle?, hnone]
        rfl
      have hnone₂ : o₂.handle? (.runtimeType u) = none := by
        rw [hstruct.above (.runtimeType u) (by decide : 1 < 4), hnone₁]
      have hmade := hstruct.trans
        (hstruct.consistent.add (Learns.runtimeType o₂ _ u _) hnone₂ hadds) hnone₂
        (by decide : 1 ≤ 4) (hstruct.classes_builtin hp (by decide))
      refine .of_ok rfl True.intro True.intro (hname.trans hmade hnone₁ (by decide : 2 ≤ 4) ?_)
      intro v name ivars methods hv
      exact hname.classes v name ivars methods hv (by simp)

/-- The constant of a case holds its tag. -/
theorem singleton_answers (hp : ctx.pool.Sound) (hu : ctx.pool.resolveStrict t = .ok u)
    (ho : o.Consistent ctx.pool) :
    (onSuccess Halt Output).KeepsAt o (singleton ctx t) fun record o' =>
      o.Answers ctx.pool (.singleton u) (.record record) o' := by
  refine resolve_bind hu (.bind_read True.intro (b := o) rfl ?_)
  split
  · next hknown => exact .pure True.intro (ho.known (by rw [Output.handle?, hknown]; rfl))
  · next hnone =>
      have hu' := hp.resolveStrict_resolved hu
      cases hview : ctx.pool.view u with
      | variant name short tag owner fields =>
          have hparts : caseParts ctx u o = .ok ⟨name, short, tag, owner, fields⟩ o := by
            rw [caseParts, hview]
            rfl
          refine .bind_read True.intro hparts ?_
          refine .bind (layout_answers hp hu' ho) fun struct o₁ _ _ hstruct => ?_
          cases howner : ctx.pool.resolveStrict owner with
          | error e => exact fails_bind (dataLayout_of_error howner o₁)
          | ok root =>
              refine .bind (dataLayout_answers howner hstruct.consistent) fun envelope o₂ _ _ h => ?_
              obtain ⟨henvelope, hothers⟩ := h
              obtain ⟨id, rfl⟩ := struct_of_answers hstruct
              obtain ⟨envelopeId, rfl⟩ := struct_of_answers henvelope
              let first : Build Value := do
                let tag ← Build.constStruct (.struct envelopeId) [.const (.int .w32 tag)]
                Build.constStruct (.struct id) [tag]
              have hadds := IR.Builder.addsRecord o₂.builder first
                (Nat.le_refl _) rfl rfl (name ++ ".singleton") (.struct id) fun init => init
              have hnone₁ : o₁.handle? (.singleton u) = none := by
                rw [hstruct.above (.singleton u) (by decide : 1 < 5), Output.handle?, hnone]
                rfl
              have hnone₂ : o₂.handle? (.singleton u) = none := by
                rw [henvelope.above (.singleton u) (by decide : 1 < 5), hnone₁]
              have hmade := henvelope.trans
                (henvelope.consistent.add (Learns.singleton o₂ _ u _) hnone₂ hadds) hnone₂
                (by decide : 1 ≤ 5) fun v name ivars methods hv => hothers _ fun w _ _ _ heq => ?_
              · refine .of_ok rfl True.intro True.intro
                  (hstruct.trans hmade hnone₁ (by decide : 1 ≤ 5) ?_)
                intro v name ivars methods hv
                refine hstruct.classes v name ivars methods hv ?_
                rintro ⟨⟩
                obtain ⟨-, hresolve⟩ := hp.known_of_resolveStrict hu'
                rw [Pool.view, hresolve, hv] at hview
                cases hview
              · cases heq
                simp [hv]
      | _ =>
          exact fails_bind (by rw [caseParts, hview]; rfl)

/-! ## All requests -/

/-- What generating may ask for. -/
inductive Request where
  | layout (t : TypeId)
  /-- The struct that the cases of a data type begin with. -/
  | dataLayout (t : TypeId)
  | closureLayout (params : List TypeId) (result : TypeId) (captures : List TypeId)
  | dynamicLayout (payload : TypeId)
  | runtimeType (t : TypeId)
  | stringLiteral (text : String)
  | singleton (t : TypeId)

namespace Request

/-- Answer a request. -/
def run (ctx : LoweringContext) : Request → Emit Handle
  | layout t => return .struct (← Emit.layout ctx t)
  | dataLayout t => return .struct (← Emit.dataLayout ctx t)
  | closureLayout params result captures =>
    return .struct (← Emit.closureLayout ctx params result captures)
  | dynamicLayout payload => return .struct (← Emit.dynamicLayout ctx payload)
  | runtimeType t => return .record (← Emit.runtimeType ctx t)
  | stringLiteral text => return .record (← Emit.stringLiteral ctx text)
  | singleton t => return .record (← Emit.singleton ctx t)

/-- What decides how the request is answered. -/
inductive HasKey (p : Pool) : Request → Key → Prop
  | layout {t u : TypeId} (h : p.resolveStrict t = .ok u) : HasKey p (.layout t) (.layout u)
  | dataLayout {t u : TypeId} (h : p.resolveStrict t = .ok u) :
      HasKey p (.dataLayout t) (.layout u)
  | closureLayout {params captures : List TypeId} {result : TypeId} {shape : ClosureShape}
      (hparams : p.Resolves params shape.params) (hresult : p.resolveStrict result = .ok shape.result)
      (hcaptures : p.Resolves captures shape.captures) :
      HasKey p (.closureLayout params result captures) (.closure shape)
  | dynamicLayout {t u : TypeId} (h : p.resolveStrict t = .ok u) :
      HasKey p (.dynamicLayout t) (.boxed u)
  | runtimeType {t u : TypeId} (h : p.resolveStrict t = .ok u) :
      HasKey p (.runtimeType t) (.runtimeType u)
  | stringLiteral (text : String) : HasKey p (.stringLiteral text) (.text text)
  | singleton {t u : TypeId} (h : p.resolveStrict t = .ok u) :
      HasKey p (.singleton t) (.singleton u)

variable {request : Request} {key : Key} {handle : Handle} {o' : Output}

/-- A request that is answered leaves a consistent output, in which the answer is remembered. -/
theorem answers (hp : ctx.pool.Sound) (ho : o.Consistent ctx.pool)
    (hkey : request.HasKey ctx.pool key) (hrun : request.run ctx o = .ok handle o') :
    o.Answers ctx.pool key handle o' := by
  suffices hkeeps : (onSuccess Halt Output).KeepsAt o (request.run ctx) fun handle o' =>
      o.Answers ctx.pool key handle o' from (hkeeps.ok hrun).2.2
  clear hrun
  cases hkey with
  | layout hu => exact .bind (layout_answers hp hu ho) fun _ _ _ _ h => .pure True.intro h
  | dataLayout hu => exact .bind (dataLayout_answers hu ho) fun _ _ _ _ h => .pure True.intro h.1
  | closureLayout hparams hresult hcaptures =>
      exact .bind (closureLayout_answers hparams hresult hcaptures ho)
        fun _ _ _ _ h => .pure True.intro h
  | dynamicLayout hu =>
      exact .bind (dynamicLayout_answers hp hu ho) fun _ _ _ _ h => .pure True.intro h
  | runtimeType hu => exact .bind (runtimeType_answers hp hu ho) fun _ _ _ _ h => .pure True.intro h
  | stringLiteral text =>
      exact .bind (stringLiteral_answers hp text ho) fun _ _ _ _ h => .pure True.intro h
  | singleton hu => exact .bind (singleton_answers hp hu ho) fun _ _ _ _ h => .pure True.intro h

/-- What is remembered under the key of a request is its answer, and nothing is done for it. -/
theorem run_of_known (hkey : request.HasKey ctx.pool key) (hknown : o.handle? key = some handle) :
    request.run ctx o = .ok handle o := by
  cases hkey with
  | layout hu =>
      obtain ⟨struct, hstruct, rfl⟩ := Option.map_eq_some_iff.mp hknown
      rw [run, Emit.layout, bind_assoc, bind_of_ok (resolve_of_known hu o)]
      simp only [bind_assoc, get_bind_apply, hstruct]
      rfl
  | dataLayout hu =>
      obtain ⟨struct, hstruct, rfl⟩ := Option.map_eq_some_iff.mp hknown
      rw [run, Emit.dataLayout, bind_assoc, bind_of_ok (resolve_of_known hu o)]
      simp only [bind_assoc, get_bind_apply, hstruct]
      rfl
  | closureLayout hparams hresult hcaptures =>
      obtain ⟨struct, hstruct, rfl⟩ := Option.map_eq_some_iff.mp hknown
      rw [run, Emit.closureLayout, bind_assoc, bind_of_ok (mapM_resolve_of_known hparams o), bind_assoc,
        bind_of_ok (resolve_of_known hresult o), bind_assoc,
        bind_of_ok (mapM_resolve_of_known hcaptures o)]
      simp only [bind_assoc, get_bind_apply, hstruct]
      rfl
  | dynamicLayout hu =>
      obtain ⟨struct, hstruct, rfl⟩ := Option.map_eq_some_iff.mp hknown
      rw [run, Emit.dynamicLayout, bind_assoc, bind_of_ok (resolve_of_known hu o)]
      simp only [bind_assoc, get_bind_apply, hstruct]
      rfl
  | runtimeType hu =>
      obtain ⟨record, hrecord, rfl⟩ := Option.map_eq_some_iff.mp hknown
      rw [run, Emit.runtimeType, bind_assoc, bind_of_ok (resolve_of_known hu o)]
      simp only [bind_assoc, get_bind_apply, hrecord]
      rfl
  | stringLiteral text =>
      obtain ⟨record, hrecord, rfl⟩ := Option.map_eq_some_iff.mp hknown
      simp only [run, Emit.stringLiteral, bind_assoc, get_bind_apply, hrecord]
      rfl
  | singleton hu =>
      obtain ⟨record, hrecord, rfl⟩ := Option.map_eq_some_iff.mp hknown
      rw [run, Emit.singleton, bind_assoc, bind_of_ok (resolve_of_known hu o)]
      simp only [bind_assoc, get_bind_apply, hrecord]
      rfl

/-- A request that is answered has a key. -/
theorem exists_key (hrun : request.run ctx o = .ok handle o') :
    ∃ key, request.HasKey ctx.pool key := by
  suffices hkeeps : (onSuccess Halt Output).KeepsAt o (request.run ctx) fun _ _ =>
      ∃ key, request.HasKey ctx.pool key from (hkeeps.ok hrun).2.2
  clear hrun
  cases request with
  | layout t =>
      exact .bind (resolve_then t o) fun _ _ _ _ ⟨u, hu⟩ => .pure True.intro ⟨_, .layout hu⟩
  | dataLayout t =>
      exact .bind (resolve_then t o) fun _ _ _ _ ⟨u, hu⟩ => .pure True.intro ⟨_, .dataLayout hu⟩
  | closureLayout params result captures =>
      exact .bind (closureLayout_resolves params captures result)
        fun _ _ _ _ ⟨shape, hparams, hresult, hcaptures⟩ =>
          .pure True.intro ⟨_, .closureLayout hparams hresult hcaptures⟩
  | dynamicLayout t =>
      exact .bind (resolve_then t o) fun _ _ _ _ ⟨u, hu⟩ => .pure True.intro ⟨_, .dynamicLayout hu⟩
  | runtimeType t =>
      exact .bind (resolve_then t o) fun _ _ _ _ ⟨u, hu⟩ => .pure True.intro ⟨_, .runtimeType hu⟩
  | stringLiteral text => exact (onSuccess_run _ _).weaken fun _ _ _ _ _ => ⟨_, .stringLiteral text⟩
  | singleton t =>
      exact .bind (resolve_then t o) fun _ _ _ _ ⟨u, hu⟩ => .pure True.intro ⟨_, .singleton hu⟩

end Request

end Emit

end ClassLang
