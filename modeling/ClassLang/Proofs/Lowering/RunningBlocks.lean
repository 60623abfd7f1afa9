import ClassLang.Proofs.Lowering.RunningLocals

/-!
# Running from block to block

A block is `Spare` if it was made and there is no code in it yet. Branches and loops make spare blocks,
lead to them from the current block, and go on building in them; the machine that was led to a spare
block is where building goes on from there.
-/

namespace ClassLang

open Execution (Context State)
open IR (BlockRef Build Builder FunctionId HasOperands KeepsAdding Op Ty Value)
open IR.HasOperands (Below)

variable {η : Type} {E : Context η} {F : Output}

/-! ## Going to a block -/

namespace Activation

variable {T : Activation η} {f : FunctionId} {c j k : Nat} {o : Output} {l : Locals} {s : State η}
  {op : Op}

/-- A block other than the entry is run from its beginning. -/
theorem Holds.goto (h : T.Holds E l s) (hT : T.Sound E F) (hk : k ≠ 0) (g : FunctionId)
    (code : List IR.Instruction) :
    T.Live E l k 0 ⟨E.goto { s.frame with code } ⟨g, k⟩, s.callers, s.world⟩ where
  toHolds := h.moved hT rfl rfl rfl rfl rfl (.refl _) fun _ _ => rfl
  block := rfl
  code := by
    rw [List.drop_zero, hT.shaped.code_eq hk]
    show ((E.module.function s.frame.function).block k).instructions = _
    rw [h.function]
    rfl

theorem keeps_goto (n : Nat) (fr : Execution.Frame) (code : List IR.Instruction) (target : BlockRef) :
    Execution.Frame.Keeps n fr (E.goto { fr with code } target) :=
  ⟨rfl, fun _ _ => rfl⟩

/-- A machine that has come to a block without code is where building goes on from there. -/
theorem Live.here (h : T.Live E l k 0 s) (hat : o.builder.At T.body.function k)
    (hcode : ((o.builder.module.function T.body.function).block k).code = []) : T.Here E o l s := by
  obtain rfl := h.block
  refine ⟨hat, ?_, ?_⟩
  · rw [IR.Block.open_iff, hcode]
    simp
  · rw [hcode]
    exact h

/-- Where building goes on the block has not ended. -/
theorem Here.isTerminated (h : T.Here E o l s) : o.builder.isTerminated = false := by
  rw [h.at_.isTerminated, h.isOpen.isTerminated]

/-- What ends the block is executed next. -/
theorem Here.step_terminate (hhere : T.Here E o l s) (hf : T.body.function = f)
    (hat : o.builder.At f c) (hop : op.isAlloca = false) :
    let r := (Build.terminate op).run o.builder
    (r.2.module.function f).Grows (T.code E) → s.frame.block = c ∧ ∃ id rest,
      E.step? s = E.execute? { s.frame with code := rest } s.callers s.world id op := by
  intro r hgrows
  have hr : r.2 = ((Build.insert "" op).run o.builder).2 := by
    show ((if o.builder.isTerminated then Build.misuse else _ : Build Unit).run o.builder).2 = _
    rw [hhere.isTerminated]
    rfl
  rw [hr] at hgrows
  obtain ⟨i, hi, -, -, hc, -, -, -, hnext⟩ := hhere.code_insert "" hf hat hop hgrows
  exact ⟨hc, i.id, _, hi ▸ Context.step?_cons hnext⟩

/-- A jump leads to its target. -/
theorem Here.jump (hhere : T.Here E o l s) (hT : T.Sound E F) (hf : T.body.function = f)
    (hat : o.builder.At f c) (hk : k ≠ 0) :
    let r := (Build.jump ⟨f, k⟩).run o.builder
    (r.2.module.function f).Grows (T.code E) → ∃ t, E.Reaches s t ∧ T.Live E l k 0 t ∧
      t.frame.previous = some c ∧ ∀ n, Execution.Frame.Keeps n s.frame t.frame := by
  intro r hgrows
  obtain ⟨hc, id, rest, hstep⟩ := hhere.step_terminate hf hat rfl hgrows
  exact ⟨_, .single hstep, hhere.live.goto hT hk f rest, congrArg some hc,
    fun n => keeps_goto n _ _ _⟩

/-- A branch leads to the target that the condition chooses. -/
theorem Here.branch (hhere : T.Here E o l s) (hT : T.Sound E F) (hf : T.body.function = f)
    (hat : o.builder.At f c) {cond : Value} {p : Bool} (hcond : cond.Denotes (.bool p) s.frame)
    (hj : j ≠ 0) (hk : k ≠ 0) :
    let r := (Build.branch cond ⟨f, j⟩ ⟨f, k⟩).run o.builder
    (r.2.module.function f).Grows (T.code E) → ∃ t, E.Reaches s t ∧
      T.Live E l (if p then j else k) 0 t ∧ ∀ n, Execution.Frame.Keeps n s.frame t.frame := by
  intro r hgrows
  have hint : cond.isInt = true := by
    rw [Value.isInt, hcond.type]
    rfl
  have hr : r.2 = ((Build.terminate (.branch cond ⟨f, j⟩ ⟨f, k⟩)).run o.builder).2 := by
    show ((if o.builder.isTerminated then Build.misuse else if cond.isInt then _ else _ :
      Build Unit).run o.builder).2 = _
    rw [hhere.isTerminated, hint]
    rfl
  rw [hr] at hgrows
  obtain ⟨-, id, rest, hstep⟩ := hhere.step_terminate hf hat rfl hgrows
  have hgoto : E.step? s = some (.running
      ⟨E.goto { s.frame with code := rest } ⟨f, if p then j else k⟩, s.callers, s.world⟩) := by
    rw [hstep, Context.execute?, E.eval?_code, hcond.eval?]
    cases p <;> rfl
  refine ⟨_, .single hgoto, hhere.live.goto hT ?_ f rest, fun n => keeps_goto n _ _ _⟩
  cases p
  · exact hk
  · exact hj

end Activation

/-! ## Spare blocks -/

namespace Lower

variable {K : ScalarTypes} {f : FunctionId} {names : List String} {n c c' j k : Nat} {b b' : Body}
  {o o' o₀ : Output} {b₀ : Body} {c₀ : Nat}

/-- While building goes on in block `c`, there is no code in block `k` yet. -/
structure Spare (f : FunctionId) (c k : Nat) (o : Output) : Prop where
  ne_entry : k ≠ 0
  lt : k < (o.builder.module.function f).blocks.size
  ne : k ≠ c
  code : ((o.builder.module.function f).block k).code = []

/-- A block is spare until building goes on in it. -/
theorem Spare.goes (h : Spare f c k o) (hgoes : Goes K f names c b o c' b' o') : Spare f c' k o' where
  ne_entry := h.ne_entry
  lt := Nat.lt_of_lt_of_le h.lt (hgoes.proceeds.grows.functions f).blocks
  ne := by
    rcases hgoes.proceeds.current with rfl | hnew
    · exact h.ne
    · exact Nat.ne_of_lt (Nat.lt_of_lt_of_le h.lt hnew)
  code := (hgoes.proceeds.rest k h.lt h.ne).trans h.code

/-- A new block. -/
theorem block_ok [CaseTags] (hready : Ready K f c b o) {label : String} {ref : BlockRef}
    (h : (block label).run b o = .ok (ref, b') o') :
    b' = b ∧ Goes K f [] c b o c b o' ∧
      ∃ k, ref = ⟨f, k⟩ ∧ (o.builder.module.function f).blocks.size ≤ k ∧ Spare f c k o' ∧
        ∀ k, ((o'.builder.module.function f).block k).code =
          ((o.builder.module.function f).block k).code := by
  have hf := hready.function
  subst hf
  obtain ⟨href, hadds, hsize, hcode⟩ := o.builder.appendBlock_adds hready.at_ label
  have hrest : ∀ k, ((((Build.appendBlock b.function label).run o.builder).2.module.function
      b.function).block k).code = ((o.builder.module.function b.function).block k).code := by
    intro k
    rw [IR.Block.code, (o.builder.appendBlock_run hready.at_.function_lt label).2.1.instructions,
      IR.Block.code]
  cases h
  refine ⟨rfl, .of_adds hready ⟨.of_build o hadds.proceeds.grows.toEnlarges, hadds⟩, _, href,
    Nat.le_refl _, ⟨?_, ?_, ?_, hcode⟩, hrest⟩
  · exact Nat.ne_of_gt (Nat.zero_lt_of_lt hready.at_.block_lt)
  · exact hsize ▸ Nat.lt_succ_self _
  · exact Nat.ne_of_gt hready.at_.block_lt

/-- Building goes on in another block. -/
theorem Ready.positionAtEnd (h : Ready K f c b o)
    (hk : k < (o.builder.module.function f).blocks.size) :
    Ready K f k b { o with builder := ((Build.positionAtEnd ⟨f, k⟩).run o.builder).2 } where
  function := h.function
  at_ := ⟨h.at_.function_lt, hk, rfl, rfl⟩
  shaped := ⟨⟨h.shaped.builder.functions, h.shaped.builder.declared⟩, h.shaped.constants⟩
  below := h.below
  walk := h.walk
  result := h.result
  regular := h.regular
  locals := h.locals

/-- Building goes on in a spare block that was made on the way. -/
theorem Goes.positionAtEnd (h : Goes K f names c₀ b₀ o₀ c b o) (hk : Spare f c k o)
    (hnew : (o₀.builder.module.function f).blocks.size ≤ k) {r : Unit}
    (hrun : (build (Build.positionAtEnd ⟨f, k⟩)).run b o = .ok (r, b') o') :
    Goes K f names c₀ b₀ o₀ k b' o' ∧ b.Leads [] o b' o' ∧
      o'.builder.module = o.builder.module := by
  obtain ⟨rfl, -, rfl⟩ := build_ok hrun
  have hgrows : o.builder.Grows ((Build.positionAtEnd ⟨f, k⟩).run o.builder).2 :=
    .of_module rfl rfl rfl
  have hleads : b'.Leads [] o b' { o with
      builder := ((Build.positionAtEnd ⟨f, k⟩).run o.builder).2 } :=
    .of_grows b' ⟨.of_build o _, hgrows⟩
  refine ⟨⟨h.ready.positionAtEnd hk.lt, ?_, ?_⟩, hleads, rfl⟩
  · exact ⟨⟨h.proceeds.grows.trans hgrows, fun hb => ⟨(h.proceeds.shaped hb).functions,
      (h.proceeds.shaped hb).declared⟩, h.proceeds.others⟩, .inr hnew, h.proceeds.rest⟩
  · exact (h.leads.trans hleads).mono (by simp)

/-- The other spare blocks stay spare. -/
theorem Spare.positioned (h : Spare f c j o) (hne : j ≠ k)
    (hmodule : o'.builder.module = o.builder.module) : Spare f k j o' :=
  ⟨h.ne_entry, hmodule ▸ h.lt, hne, hmodule ▸ h.code⟩

/-- A machine that was led to a spare block is where building goes on from there. -/
theorem Spare.here (h : Spare f c k o) {T : Activation η} {l : Locals} {s : State η}
    (hlive : T.Live E l k 0 s) (hf : T.body.function = f)
    (hmodule : o'.builder.module = o.builder.module) (hready : Ready K f k b o') : T.Here E o' l s := by
  subst hf
  exact hlive.here hready.at_ (hmodule ▸ h.code)

/-- Moving a block changes nothing that runs. -/
theorem moveBlockToEnd_ok [CaseTags] (hready : Ready K f c b o) (hk : k ≠ 0) {r : Unit}
    (hrun : (build (Build.moveBlockToEnd ⟨f, k⟩)).run b o = .ok (r, b') o') :
    Goes K f [] c b o c b' o' := by
  obtain ⟨rfl, -, rfl⟩ := build_ok hrun
  have hadds := (o.builder.moveBlockToEnd_adds hready.at_ hk).1
  exact .of_adds hready ⟨.of_build o hadds.proceeds.grows.toEnlarges, hadds⟩

/-- Code that is added to the current block. -/
theorem Goes.build [CaseTags] (hready : Ready K f c b o) {step : Build Unit} {r : Unit}
    (hadds : KeepsAdding f 0 step) (hrun : (Lower.build step).run b o = .ok (r, b') o') :
    Goes K f [] c b o c b' o' := by
  obtain ⟨rfl, -, -⟩ := build_ok hrun
  exact .of_adds hready (Adds.build hadds b' c o hready.function hready.at_ hready.shaped
    (Nat.zero_le _) hready.below r b' o' hrun).2.1

/-- Building that adds no code does not change what runs next. -/
theorem Goes.here (h : Goes K f names c b o c b' o') (hready : Ready K f c b o)
    (hcode : ∀ k, ((o'.builder.module.function f).block k).code =
      ((o.builder.module.function f).block k).code) {T : Activation η} {l : Locals} {s : State η}
    (hf : T.body.function = f) (hhere : T.Here E o l s) : T.Here E o' l s := by
  subst hf
  exact hhere.of_code (fun c' hat => hready.at_.unique hat ▸ h.ready.at_) hcode

/-- A jump leads the machine to its target. -/
theorem jump_ok [CaseTags] (hready : Ready K f c b o) (hk : k ≠ 0) {r : Unit}
    (hrun : (build (Build.jump ⟨f, k⟩)).run b o = .ok (r, b') o') :
    Goes K f [] c b o c b' o' ∧ ∀ T : Activation η, T.Sound E F → T.Includes F b' o' →
      ∀ l s, T.Here E o l s → ∃ t, E.Reaches s t ∧ T.Live E l k 0 t ∧
        ∀ n, Execution.Frame.Keeps n s.frame t.frame := by
  have hgoes := Goes.build hready (.jump ⟨f, k⟩) hrun
  obtain ⟨rfl, -, rfl⟩ := build_ok hrun
  refine ⟨hgoes, fun T hT hincl l s hhere => ?_⟩
  have hf := hincl.function.trans hready.function
  obtain ⟨t, hreaches, hlive, -, hkeeps⟩ := hhere.jump hT hf hready.at_ hk (hf ▸ hincl.code hT)
  exact ⟨t, hreaches, hlive, hkeeps⟩

/-! ## Branches -/

/-- The block where the branches meet is spare, if there is one. -/
def Merges (f : FunctionId) (m c : Nat) (o : Output) (merge : Option BlockRef) : Prop :=
  ∀ ref, merge = some ref → ∃ k, ref = ⟨f, k⟩ ∧ m ≤ k ∧ Spare f c k o

theorem Merges.of_none {m : Nat} : Merges f m c o none := fun _ heq => nomatch heq

theorem terminated_ok {r : Bool} (h : terminated.run b o = .ok (r, b') o') :
    b' = b ∧ o' = o ∧ r = o.builder.isTerminated := by
  cases h
  exact ⟨rfl, rfl, rfl⟩

/-- Joining leads the machine to the block where the branches meet, which is made on first use. -/
theorem joinAt_ok [CaseTags] (hready : Ready K f c b o) {m : Nat}
    (hm : m ≤ (o.builder.module.function f).blocks.size) {merge merge' : Option BlockRef}
    (hmerge : Merges f m c o merge) (hrun : (joinAt merge).run b o = .ok (merge', b') o') :
    Goes K f [] c b o c b' o' ∧ Merges f m c o' merge' ∧ (∀ ref, merge = some ref → merge' = merge) ∧
      ∀ T : Activation η, T.Sound E F → T.Includes F b' o' → ∀ l s, T.Here E o l s →
        ∃ k t, merge' = some ⟨f, k⟩ ∧ E.Reaches s t ∧ T.Live E l k 0 t ∧
          ∀ n, Execution.Frame.Keeps n s.frame t.frame := by
  obtain ⟨ended, b₁, o₁, hended, hrest⟩ := bind_ok hrun
  obtain ⟨rfl, rfl, rfl⟩ := terminated_ok hended
  cases hterm : o₁.builder.isTerminated with
  | true =>
      rw [hterm] at hrest
      cases hrest
      refine ⟨.refl hready, hmerge, fun _ _ => rfl, fun T _ _ l s hhere => ?_⟩
      cases hterm.symm.trans hhere.isTerminated
  | false =>
      rw [hterm] at hrest
      cases merge with
      | some ref =>
          obtain ⟨k, rfl, hk, hspare⟩ := hmerge ref rfl
          obtain ⟨_, _, _, ⟨⟩, hrest⟩ := bind_ok hrest
          obtain ⟨_, b₂, o₂, hjump, hrest⟩ := bind_ok hrest
          cases hrest
          obtain ⟨hgoes, hruns⟩ := jump_ok hready hspare.ne_entry hjump
          refine ⟨hgoes, ?_, fun _ _ => rfl, fun T hT hincl l s hhere => ?_⟩
          · rintro _ ⟨⟩
            exact ⟨k, rfl, hk, hspare.goes hgoes⟩
          · obtain ⟨t, ht⟩ := hruns T hT hincl l s hhere
            exact ⟨k, t, rfl, ht⟩
      | none =>
          obtain ⟨ref, b₂, o₂, hblock, hrest⟩ := bind_ok hrest
          obtain ⟨rfl, hgoes₂, k, rfl, hk, hspare, hcode⟩ := block_ok hready hblock
          obtain ⟨_, b₃, o₃, hjump, hrest⟩ := bind_ok hrest
          cases hrest
          obtain ⟨hgoes, hruns⟩ := jump_ok hgoes₂.ready hspare.ne_entry hjump
          refine ⟨hgoes₂.trans hgoes, ?_, (fun _ heq => nomatch heq), fun T hT hincl l s hhere => ?_⟩
          · rintro _ ⟨⟩
            exact ⟨k, rfl, Nat.le_trans hm hk, hspare.goes hgoes⟩
          · have hf := hincl.function.trans (hgoes.leads.function.trans hready.function)
            obtain ⟨t, ht⟩ := hruns T hT hincl l s (hgoes₂.here hready hcode hf hhere)
            exact ⟨k, t, rfl, ht⟩

/-- The current block ends with a branch, and building goes on in another one. -/
theorem branch_ok [CaseTags] (h : Goes K f names c₀ b₀ o₀ c b o) {cond : Value}
    (hj : Spare f c j o) (hk : Spare f c k o) {i : Nat} (hi : Spare f c i o)
    (hnew : (o₀.builder.module.function f).blocks.size ≤ i) {r : Unit}
    (hrun : (build do
      Build.branch cond ⟨f, j⟩ ⟨f, k⟩
      Build.positionAtEnd ⟨f, i⟩).run b o = .ok (r, b') o') :
    Goes K f names c₀ b₀ o₀ i b' o' ∧ b.Leads [] o b' o' ∧
      (∀ j, j ≠ i → Spare f c j o → Spare f i j o') ∧
      ∀ T : Activation η, T.Sound E F → T.Includes F b' o' → ∀ l s p, T.Here E o l s →
        cond.Denotes (.bool p) s.frame → ∃ t, E.Reaches s t ∧
          T.Live E l (if p then j else k) 0 t ∧ (∀ n, Execution.Frame.Keeps n s.frame t.frame) ∧
          ((if p then j else k) = i → T.Here E o' l t) := by
  rw [build_bind] at hrun
  obtain ⟨_, b₁, o₁, hbranch, hposition⟩ := bind_ok hrun
  have hgoes₁ := Goes.build h.ready (.branch cond ⟨f, j⟩ ⟨f, k⟩) hbranch
  have hi₁ := hi.goes hgoes₁
  obtain ⟨hgoes, hleads, hmodule⟩ := ((h.trans hgoes₁).positionAtEnd hi₁ hnew hposition)
  obtain ⟨rfl, -, rfl⟩ := build_ok hbranch
  refine ⟨{ hgoes with leads := hgoes.leads.mono (by simp) }, (hgoes₁.leads.trans hleads),
    fun j' hne hj' => (hj'.goes hgoes₁).positioned hne hmodule, fun T hT hincl l s p hhere hcond => ?_⟩
  have hf : T.body.function = f := hincl.function.trans hgoes.ready.function
  obtain ⟨t, hreaches, hlive, hkeeps⟩ := hhere.branch hT hf h.ready.at_ hcond hj.ne_entry hk.ne_entry
    (hf ▸ (hincl.before hleads).code hT)
  exact ⟨t, hreaches, hlive, hkeeps, fun heq => hi₁.here (heq ▸ hlive) hf hmodule hgoes.ready⟩

/-- Building goes on in a spare block that is moved to the end. -/
theorem moveTo_ok [CaseTags] (h : Goes K f names c₀ b₀ o₀ c b o) (hk : Spare f c k o)
    (hnew : (o₀.builder.module.function f).blocks.size ≤ k) {r : Unit}
    (hrun : (build do
      Build.moveBlockToEnd ⟨f, k⟩
      Build.positionAtEnd ⟨f, k⟩).run b o = .ok (r, b') o') :
    Goes K f names c₀ b₀ o₀ k b' o' ∧ b.Leads [] o b' o' ∧
      ∀ (T : Activation η) l s, T.body.function = f → T.Live E l k 0 s → T.Here E o' l s := by
  rw [build_bind] at hrun
  obtain ⟨_, b₁, o₁, hmove, hposition⟩ := bind_ok hrun
  have hgoes₁ := moveBlockToEnd_ok h.ready hk.ne_entry hmove
  have hk₁ := hk.goes hgoes₁
  obtain ⟨hgoes, hleads, hmodule⟩ := (h.trans hgoes₁).positionAtEnd hk₁ hnew hposition
  exact ⟨{ hgoes with leads := hgoes.leads.mono (by simp) }, hgoes₁.leads.trans hleads,
    fun T l s hf hlive => hk₁.here hlive hf hmodule hgoes.ready⟩

/-- Building goes on where the branches meet, if they do. -/
theorem meet_ok [CaseTags] (h : Goes K f names c₀ b₀ o₀ c b o) {merge : Option BlockRef}
    (hmerge : Merges f (o₀.builder.module.function f).blocks.size c o merge) {r : Unit}
    (hrun : (match merge with
      | some merge => build do
          Build.moveBlockToEnd merge
          Build.positionAtEnd merge
      | none => pure ()).run b o = .ok (r, b') o') :
    (∃ c', Goes K f names c₀ b₀ o₀ c' b' o') ∧ b.Leads [] o b' o' ∧
      ∀ (T : Activation η) l s k, merge = some ⟨f, k⟩ → T.body.function = f → T.Live E l k 0 s →
        T.Here E o' l s := by
  cases merge with
  | none =>
      cases hrun
      exact ⟨⟨c, h⟩, .refl b o, fun _ _ _ _ heq => nomatch heq⟩
  | some ref =>
      obtain ⟨k, rfl, hnew, hk⟩ := hmerge ref rfl
      obtain ⟨hgoes, hleads, hruns⟩ := moveTo_ok h hk hnew hrun
      refine ⟨⟨k, hgoes⟩, hleads, fun T l s k' heq hf hlive => ?_⟩
      cases heq
      exact hruns T l s hf hlive

section Branches

variable {ctx : LoweringContext} {lower : NodeId → Lower (Option Value)} {cond yes : NodeId}

theorem lowerBranch_none : lowerBranch ctx lower cond yes none = (do
    let value ← condition ctx lower cond
    let yesBlock ← block "if.then"
    let mergeBlock ← block "if.end"
    build do
      Build.branch value yesBlock mergeBlock
      Build.positionAtEnd yesBlock
    let _ ← lower yes
    let merge ← joinAt (some mergeBlock)
    match merge with
    | some merge => build do
        Build.moveBlockToEnd merge
        Build.positionAtEnd merge
    | none => pure ()) := by
  rfl

theorem lowerBranch_some (no : NodeId) : lowerBranch ctx lower cond yes (some no) = (do
    let value ← condition ctx lower cond
    let yesBlock ← block "if.then"
    let noBlock ← block "if.else"
    build do
      Build.branch value yesBlock noBlock
      Build.positionAtEnd yesBlock
    let _ ← lower yes
    let merge ← joinAt none
    build (Build.positionAtEnd noBlock)
    let _ ← lower no
    let merge ← joinAt merge
    match merge with
    | some merge => build do
        Build.moveBlockToEnd merge
        Build.positionAtEnd merge
    | none => pure ()) := by
  rfl

variable {α β γ : Type} {xc : Eval Bool} {xy : Eval α} {xn : Eval β} {names₁ names₂ : List String}
  {δ : Type}

/-- The condition is evaluated, and the machine is led to one of two new blocks; building goes on in
the first one. -/
theorem fork_ok [CaseTags] (hcond : Simulates E F K f names n (fun _ => True) xc
      (condition ctx lower cond) fun p value fr => value.Denotes (.bool p) fr)
    (hready : Ready K f c b o) (hn : n ≤ o.builder.next f) {first second : String}
    {next : BlockRef → BlockRef → Lower δ} {r : δ}
    (hrun : (do
      let value ← condition ctx lower cond
      let yesBlock ← block first
      let noBlock ← block second
      build do
        Build.branch value yesBlock noBlock
        Build.positionAtEnd yesBlock
      next yesBlock noBlock).run b o = .ok (r, b') o') :
    ∃ j k b₁ o₁, (next ⟨f, j⟩ ⟨f, k⟩).run b₁ o₁ = .ok (r, b') o' ∧ Goes K f names c b o j b₁ o₁ ∧
      (o.builder.module.function f).blocks.size ≤ k ∧ Spare f j k o₁ ∧
      ∀ T : Activation η, T.Sound E F → T.types = K → T.Includes F b₁ o₁ → ∀ l s, T.Here E o l s →
        T.Outcome E s xc l fun p l' t => T.Live E l' (if p then j else k) 0 t ∧
          (p = true → T.Here E o₁ l' t) ∧
          Execution.Frame.Keeps (o.builder.next f) s.frame t.frame := by
  obtain ⟨value, b₁, o₁, hrunc, hrun⟩ := bind_ok hrun
  obtain ⟨⟨c₁, hgoes₁⟩, -⟩ := hcond.advances b c o hready hn _ _ _ hrunc
  obtain ⟨_, b₂, o₂, hrunj, hrun⟩ := bind_ok hrun
  obtain ⟨rfl, hgoes₂, j, rfl, hj, hspare_j, hcode₂⟩ := block_ok hgoes₁.ready hrunj
  obtain ⟨_, b₃, o₃, hrunk, hrun⟩ := bind_ok hrun
  obtain ⟨rfl, hgoes₃, k, rfl, hk, hspare_k, hcode₃⟩ := block_ok hgoes₂.ready hrunk
  obtain ⟨_, b₄, o₄, hrunb, hrun⟩ := bind_ok hrun
  have hsize₁ := (hgoes₁.proceeds.grows.functions f).blocks
  have hsize₂ := (hgoes₂.proceeds.grows.functions f).blocks
  have hne : k ≠ j := Nat.ne_of_gt (Nat.lt_of_lt_of_le hspare_j.lt hk)
  obtain ⟨hgoes₄, hleads₄, hspares, hbranch⟩ := branch_ok (E := E) (F := F)
    ((hgoes₁.trans hgoes₂).trans hgoes₃) (hspare_j.goes hgoes₃) hspare_k (hspare_j.goes hgoes₃)
    (Nat.le_trans hsize₁ hj) hrunb
  refine ⟨j, k, b₄, o₄, hrun, { hgoes₄ with leads := hgoes₄.leads.mono (by simp) },
    Nat.le_trans hsize₁ (Nat.le_trans hsize₂ hk), hspares k hne hspare_k,
    fun T hT hK hincl l s hhere => ?_⟩
  have hincl₃ := hincl.before hleads₄
  have hincl₁ := (hincl₃.before hgoes₃.leads).before hgoes₂.leads
  have hf : T.body.function = f := hincl.function.trans hgoes₄.ready.function
  refine ((hcond.runs b c o hready hn _ _ _ hrunc T hT hK hincl₁ l s hhere trivial).through ?_)
  rintro p l₁ s₁ ⟨hhere₁, hkeeps₁, hvalue⟩
  rw [hready.function] at hkeeps₁
  have hhere₃ := hgoes₃.here hgoes₂.ready hcode₃ hf (hgoes₂.here hgoes₁.ready hcode₂ hf hhere₁)
  obtain ⟨t, hreaches, hlive, hkeeps₄, hhere₄⟩ := hbranch T hT hincl l₁ s₁ p hhere₃ hvalue
  refine ⟨t, hreaches, hlive, ?_, hkeeps₁.trans (hkeeps₄ _)⟩
  rintro rfl
  exact hhere₄ rfl

/-- A branch without an alternative. -/
theorem Simulates.branchOnly [CaseTags]
    (hcond : Simulates E F K f names n (fun _ => True) xc (condition ctx lower cond)
      fun p value fr => value.Denotes (.bool p) fr)
    (hyes : Simulates E F K f names₁ n (fun _ => True) xy (lower yes) fun _ _ _ => True) (a : γ) :
    Simulates E F K f (names ++ names₁) n (fun _ => True)
      (xc >>= fun p => if p then xy >>= fun _ => Pure.pure a else Pure.pure a)
      (lowerBranch ctx lower cond yes none) fun r _ _ => r = a := by
  rw [lowerBranch_none]
  refine .of_run fun b c o hready hn r b' o' hrun => ?_
  obtain ⟨j, k, b₁, o₁, hrun, hgoes₁, hk, hspare, hfork⟩ := fork_ok (F := F) hcond hready hn hrun
  have hn₁ := Nat.le_trans hn hgoes₁.next_le
  obtain ⟨_, b₂, o₂, hruny, hrun⟩ := bind_ok hrun
  obtain ⟨⟨c₂, hgoes₂⟩, -⟩ := hyes.advances b₁ j o₁ hgoes₁.ready hn₁ _ _ _ hruny
  obtain ⟨merge, b₃, o₃, hrunm, hrun⟩ := bind_ok hrun
  have hsize₂ := ((hgoes₁.trans hgoes₂).proceeds.grows.functions f).blocks
  obtain ⟨hgoes₃, hmerges, hsame, hjoin⟩ := joinAt_ok (E := E) (F := F) hgoes₂.ready hsize₂
    (fun ref heq => ⟨k, (Option.some.inj heq).symm, hk, hspare.goes hgoes₂⟩) hrunm
  obtain rfl := hsame _ rfl
  obtain ⟨⟨c', hgoes⟩, hleads, hmeet⟩ :=
    meet_ok (E := E) ((hgoes₁.trans hgoes₂).trans hgoes₃) hmerges hrun
  refine ⟨⟨⟨c', { hgoes with leads := hgoes.leads.mono (by simp) }⟩, trivial⟩,
    fun T hT hK hincl l s hhere _ => ?_⟩
  have hincl₃ := hincl.before hleads
  have hincl₂ := hincl₃.before hgoes₃.leads
  have hf : T.body.function = f := hincl.function.trans hgoes.ready.function
  refine (hfork T hT hK (hincl₂.before hgoes₂.leads) l s hhere).bind ?_
  rintro p l₁ s₁ ⟨hlive, hhere₁, hkeeps₁⟩
  cases p with
  | false => exact .pure ⟨hmeet T l₁ s₁ k rfl hf hlive, hkeeps₁, rfl⟩
  | true =>
      refine (hyes.runs b₁ j o₁ hgoes₁.ready hn₁ _ _ _ hruny T hT hK hincl₂ l₁ s₁ (hhere₁ rfl)
        trivial).bind ?_
      rintro y l₂ s₂ ⟨hhere₂, hkeeps₂, -⟩
      rw [hgoes₁.ready.function] at hkeeps₂
      obtain ⟨k', u, heq, hreaches, hlive', hkeeps₃⟩ := hjoin T hT hincl₃ l₂ s₂ hhere₂
      refine .of_reaches hreaches (.pure ⟨hmeet T l₂ u k' heq hf hlive', ?_, rfl⟩)
      exact (hkeeps₁.trans (hkeeps₂.mono hgoes₁.next_le)).trans (hkeeps₃ _)

/-- A branch with an alternative. -/
theorem Simulates.branchElse [CaseTags]
    (hcond : Simulates E F K f names n (fun _ => True) xc (condition ctx lower cond)
      fun p value fr => value.Denotes (.bool p) fr)
    (hyes : Simulates E F K f names₁ n (fun _ => True) xy (lower yes) fun _ _ _ => True) {no : NodeId}
    (hno : Simulates E F K f names₂ n (fun _ => True) xn (lower no) fun _ _ _ => True) (a : γ) :
    Simulates E F K f (names ++ names₁ ++ names₂) n (fun _ => True)
      (xc >>= fun p => if p then xy >>= fun _ => Pure.pure a else xn >>= fun _ => Pure.pure a)
      (lowerBranch ctx lower cond yes (some no)) fun r _ _ => r = a := by
  rw [lowerBranch_some]
  refine .of_run fun b c o hready hn r b' o' hrun => ?_
  obtain ⟨j, k, b₁, o₁, hrun, hgoes₁, hk, hspare, hfork⟩ := fork_ok (F := F) hcond hready hn hrun
  have hn₁ := Nat.le_trans hn hgoes₁.next_le
  obtain ⟨_, b₂, o₂, hruny, hrun⟩ := bind_ok hrun
  obtain ⟨⟨c₂, hgoes₂⟩, -⟩ := hyes.advances b₁ j o₁ hgoes₁.ready hn₁ _ _ _ hruny
  obtain ⟨merge, b₃, o₃, hrunm, hrun⟩ := bind_ok hrun
  have hspare₂ := hspare.goes hgoes₂
  have hsize₂ := ((hgoes₁.trans hgoes₂).proceeds.grows.functions f).blocks
  obtain ⟨hgoes₃, hmerges₃, -, hjoin₃⟩ := joinAt_ok (E := E) (F := F) hgoes₂.ready hspare₂.lt
    .of_none hrunm
  have hspare₃ := hspare₂.goes hgoes₃
  obtain ⟨_, b₄, o₄, hrunp, hrun⟩ := bind_ok hrun
  obtain ⟨hgoes₄, hleads₄, hmodule⟩ :=
    ((hgoes₁.trans hgoes₂).trans hgoes₃).positionAtEnd hspare₃ hk hrunp
  have hn₄ := Nat.le_trans hn hgoes₄.next_le
  obtain ⟨_, b₅, o₅, hrunn, hrun⟩ := bind_ok hrun
  obtain ⟨⟨c₅, hgoes₅⟩, -⟩ := hno.advances b₄ k o₄ hgoes₄.ready hn₄ _ _ _ hrunn
  obtain ⟨merge', b₆, o₆, hrunm', hrun⟩ := bind_ok hrun
  -- the place where the branches meet, if the first one leads there, is not where the second one begins
  have hmerges₅ : Merges f (o.builder.module.function f).blocks.size c₅ o₅ merge := by
    intro ref heq
    obtain ⟨i, rfl, hi, hspare_i⟩ := hmerges₃ ref heq
    exact ⟨i, rfl, Nat.le_trans hk (Nat.le_of_succ_le hi),
      (hspare_i.positioned (Nat.ne_of_gt hi) hmodule).goes hgoes₅⟩
  have hsize₅ := ((hgoes₄.trans hgoes₅).proceeds.grows.functions f).blocks
  obtain ⟨hgoes₆, hmerges₆, hsame, hjoin₆⟩ :=
    joinAt_ok (E := E) (F := F) hgoes₅.ready hsize₅ hmerges₅ hrunm'
  obtain ⟨⟨c', hgoes⟩, hleads, hmeet⟩ :=
    meet_ok (E := E) ((hgoes₄.trans hgoes₅).trans hgoes₆) hmerges₆ hrun
  refine ⟨⟨⟨c', { hgoes with leads := hgoes.leads.mono (by simp) }⟩, trivial⟩,
    fun T hT hK hincl l s hhere _ => ?_⟩
  have hincl₆ := hincl.before hleads
  have hincl₅ := hincl₆.before hgoes₆.leads
  have hincl₄ := hincl₅.before hgoes₅.leads
  have hincl₃ := hincl₄.before hleads₄
  have hincl₂ := hincl₃.before hgoes₃.leads
  have hf : T.body.function = f := hincl.function.trans hgoes.ready.function
  refine (hfork T hT hK (hincl₂.before hgoes₂.leads) l s hhere).bind ?_
  rintro p l₁ s₁ ⟨hlive, hhere₁, hkeeps₁⟩
  cases p with
  | false =>
      have hhere₄ := hspare₃.here hlive hf hmodule hgoes₄.ready
      refine (hno.runs b₄ k o₄ hgoes₄.ready hn₄ _ _ _ hrunn T hT hK hincl₅ l₁ s₁ hhere₄ trivial).bind ?_
      rintro y l₂ s₂ ⟨hhere₂, hkeeps₂, -⟩
      rw [hgoes₄.ready.function] at hkeeps₂
      obtain ⟨k', u, heq, hreaches, hlive', hkeeps₃⟩ := hjoin₆ T hT hincl₆ l₂ s₂ hhere₂
      refine .of_reaches hreaches (.pure ⟨hmeet T l₂ u k' heq hf hlive', ?_, rfl⟩)
      exact (hkeeps₁.trans (hkeeps₂.mono hgoes₄.next_le)).trans (hkeeps₃ _)
  | true =>
      refine (hyes.runs b₁ j o₁ hgoes₁.ready hn₁ _ _ _ hruny T hT hK hincl₂ l₁ s₁ (hhere₁ rfl)
        trivial).bind ?_
      rintro y l₂ s₂ ⟨hhere₂, hkeeps₂, -⟩
      rw [hgoes₁.ready.function] at hkeeps₂
      obtain ⟨k', u, heq, hreaches, hlive', hkeeps₃⟩ := hjoin₃ T hT hincl₃ l₂ s₂ hhere₂
      refine .of_reaches hreaches (.pure ⟨hmeet T l₂ u k' ((hsame _ heq).trans heq) hf hlive', ?_, rfl⟩)
      exact (hkeeps₁.trans (hkeeps₂.mono hgoes₁.next_le)).trans (hkeeps₃ _)

/-! ## Loops -/

/-- The machine is led back to a block, unless the current one has ended. -/
theorem jumpBack_ok [CaseTags] (hready : Ready K f c b o) (hk : k ≠ 0) {next : Lower δ} {r : δ}
    (hrun : (do
      if !(← terminated) then build (Build.jump ⟨f, k⟩)
      next).run b o = .ok (r, b') o') :
    ∃ b₁ o₁, next.run b₁ o₁ = .ok (r, b') o' ∧ Goes K f [] c b o c b₁ o₁ ∧
      ∀ T : Activation η, T.Sound E F → T.Includes F b₁ o₁ → ∀ l s, T.Here E o l s →
        ∃ t, E.Reaches s t ∧ T.Live E l k 0 t ∧ ∀ n, Execution.Frame.Keeps n s.frame t.frame := by
  obtain ⟨ended, b₁, o₁, hended, hrun⟩ := bind_ok hrun
  obtain ⟨rfl, rfl, rfl⟩ := terminated_ok hended
  cases hterm : o₁.builder.isTerminated with
  | true =>
      rw [hterm] at hrun
      refine ⟨b₁, o₁, hrun, .refl hready, fun T _ _ l s hhere => ?_⟩
      cases hterm.symm.trans hhere.isTerminated
  | false =>
      rw [hterm] at hrun
      obtain ⟨_, b₂, o₂, hjump, hrun⟩ := bind_ok hrun
      obtain ⟨hgoes, hruns⟩ := jump_ok hready hk hjump
      exact ⟨b₂, o₂, hrun, hgoes, hruns⟩

/-- The current block ends with a jump, and building goes on in the block that it leads to. -/
theorem enter_ok [CaseTags] (h : Goes K f names c₀ b₀ o₀ c b o) (hk : Spare f c k o)
    (hnew : (o₀.builder.module.function f).blocks.size ≤ k) {r : Unit}
    (hrun : (build do
      Build.jump ⟨f, k⟩
      Build.positionAtEnd ⟨f, k⟩).run b o = .ok (r, b') o') :
    Goes K f names c₀ b₀ o₀ k b' o' ∧ b.Leads [] o b' o' ∧
      (∀ j, j ≠ k → Spare f c j o → Spare f k j o') ∧
      (∀ T : Activation η, T.Sound E F → T.Includes F b' o' → ∀ l s, T.Here E o l s →
        ∃ t, E.Reaches s t ∧ T.Live E l k 0 t ∧ ∀ n, Execution.Frame.Keeps n s.frame t.frame) ∧
      ∀ (T : Activation η) l s, T.body.function = f → T.Live E l k 0 s → T.Here E o' l s := by
  rw [build_bind] at hrun
  obtain ⟨_, b₁, o₁, hjump, hposition⟩ := bind_ok hrun
  obtain ⟨hgoes₁, hruns⟩ := jump_ok (E := E) (F := F) h.ready hk.ne_entry hjump
  have hk₁ := hk.goes hgoes₁
  obtain ⟨hgoes, hleads, hmodule⟩ := (h.trans hgoes₁).positionAtEnd hk₁ hnew hposition
  exact ⟨{ hgoes with leads := hgoes.leads.mono (by simp) }, hgoes₁.leads.trans hleads,
    fun j hne hj => (hj.goes hgoes₁).positioned hne hmodule,
    fun T hT hincl => hruns T hT (hincl.before hleads),
    fun T l s hf hlive => hk₁.here hlive hf hmodule hgoes.ready⟩

/-- A loop, which is evaluated in a number of turns. -/
theorem Simulates.loop [CaseTags] {body : NodeId} {xc : Nat → Eval Bool} {xb : Nat → Eval α}
    {x : Nat → Eval γ} {a : γ} {m : Nat} (hzero : x 0 = Eval.undefined)
    (hsucc : ∀ i, x (i + 1) = xc i >>= fun p => if p then xb i >>= fun _ => x i else Pure.pure a)
    (hcond : ∀ i ≤ m, Simulates E F K f names n (fun _ => True) (xc i) (condition ctx lower cond)
      fun p value fr => value.Denotes (.bool p) fr)
    (hbody : ∀ i ≤ m, Simulates E F K f names₁ n (fun _ => True) (xb i) (lower body)
      fun _ _ _ => True) :
    Simulates E F K f (names ++ names₁) n (fun _ => True) (x m) (lowerLoop ctx lower cond body)
      fun r _ _ => r = a := by
  refine .of_run fun b c o hready hn r b' o' hrun => ?_
  obtain ⟨_, b₁, o₁, hrun₁, hrun⟩ := bind_ok hrun
  obtain ⟨rfl, hgoes₁, i, rfl, hi, hspare_i, hcode₁⟩ := block_ok hready hrun₁
  obtain ⟨_, b₂, o₂, hrun₂, hrun⟩ := bind_ok hrun
  obtain ⟨rfl, hgoes₂, j, rfl, hj, hspare_j, hcode₂⟩ := block_ok hgoes₁.ready hrun₂
  obtain ⟨_, b₃, o₃, hrun₃, hrun⟩ := bind_ok hrun
  obtain ⟨rfl, hgoes₃, k, rfl, hk, hspare_k, hcode₃⟩ := block_ok hgoes₂.ready hrun₃
  have hij : i < j := Nat.lt_of_lt_of_le hspare_i.lt hj
  have hjk : j < k := Nat.lt_of_lt_of_le hspare_j.lt hk
  have hnew_j := Nat.le_trans hi (Nat.le_of_lt hij)
  have hnew_k := Nat.le_trans hnew_j (Nat.le_of_lt hjk)
  obtain ⟨_, b₄, o₄, hrun₄, hrun⟩ := bind_ok hrun
  obtain ⟨hgoes₄, hleads₄, hspares₄, henter, hhere₄⟩ := enter_ok (E := E) (F := F)
    ((hgoes₁.trans hgoes₂).trans hgoes₃) ((hspare_i.goes hgoes₂).goes hgoes₃) hi hrun₄
  have hspare_j₄ := hspares₄ j (Nat.ne_of_gt hij) (hspare_j.goes hgoes₃)
  have hspare_k₄ := hspares₄ k (Nat.ne_of_gt (Nat.lt_trans hij hjk)) hspare_k
  have hn₄ := Nat.le_trans hn hgoes₄.next_le
  obtain ⟨value, b₅, o₅, hrun₅, hrun⟩ := bind_ok hrun
  obtain ⟨⟨c₅, hgoes₅⟩, -⟩ :=
    (hcond 0 (Nat.zero_le m)).advances b₄ i o₄ hgoes₄.ready hn₄ _ _ _ hrun₅
  obtain ⟨_, b₆, o₆, hrun₆, hrun⟩ := bind_ok hrun
  have hspare_j₅ := hspare_j₄.goes hgoes₅
  obtain ⟨hgoes₆, hleads₆, hspares₆, hbranch⟩ := branch_ok (E := E) (F := F)
    (hgoes₄.trans hgoes₅) hspare_j₅ (hspare_k₄.goes hgoes₅) hspare_j₅ hnew_j hrun₆
  have hspare_k₆ := hspares₆ k (Nat.ne_of_gt hjk) (hspare_k₄.goes hgoes₅)
  have hn₆ := Nat.le_trans hn hgoes₆.next_le
  obtain ⟨_, b₇, o₇, hrun₇, hrun⟩ := bind_ok hrun
  obtain ⟨⟨c₇, hgoes₇⟩, -⟩ :=
    (hbody 0 (Nat.zero_le m)).advances b₆ j o₆ hgoes₆.ready hn₆ _ _ _ hrun₇
  obtain ⟨b₈, o₈, hrun₈, hgoes₈, hback⟩ :=
    jumpBack_ok (E := E) (F := F) hgoes₇.ready hspare_i.ne_entry hrun
  obtain ⟨hgoes, hleads, hend⟩ := moveTo_ok (E := E) ((hgoes₆.trans hgoes₇).trans hgoes₈)
    ((hspare_k₆.goes hgoes₇).goes hgoes₈) hnew_k hrun₈
  refine ⟨⟨⟨k, { hgoes with leads := hgoes.leads.mono (by simp) }⟩, trivial⟩,
    fun T hT hK hincl l s hhere _ => ?_⟩
  have hincl₈ := hincl.before hleads
  have hincl₇ := hincl₈.before hgoes₈.leads
  have hincl₆ := hincl₇.before hgoes₇.leads
  have hincl₅ := hincl₆.before hleads₆
  have hincl₄ := hincl₅.before hgoes₅.leads
  have hf : T.body.function = f := hincl.function.trans hgoes.ready.function
  -- from the beginning of the condition the turns that are left are run
  have hturns : ∀ turns ≤ m, ∀ l s, T.Live E l i 0 s → T.Outcome E s (x turns) l fun r l' t =>
      T.Here E o' l' t ∧ Execution.Frame.Keeps (o.builder.next f) s.frame t.frame ∧ r = a := by
    intro turns
    induction turns with
    | zero =>
        intro _ l s _
        rw [hzero]
        exact .undefined
    | succ turns ih =>
        intro hle l s hlive
        have hle' := Nat.le_of_succ_le hle
        rw [hsucc]
        refine ((hcond turns hle').runs b₄ i o₄ hgoes₄.ready hn₄ _ _ _ hrun₅ T hT hK hincl₅ l s
          (hhere₄ T l s hf hlive) trivial).bind ?_
        rintro p l₁ s₁ ⟨hhere₁, hkeeps₁, hvalue⟩
        rw [hgoes₄.ready.function] at hkeeps₁
        obtain ⟨t, hreaches, hlive₁, hkeeps₂, hhere₂⟩ := hbranch T hT hincl₆ l₁ s₁ p hhere₁ hvalue
        have hkeeps := (hkeeps₁.mono hgoes₄.next_le).trans (hkeeps₂ _)
        refine .of_reaches hreaches ?_
        cases p with
        | false => exact .pure ⟨hend T l₁ t hf hlive₁, hkeeps, rfl⟩
        | true =>
            refine ((hbody turns hle').runs b₆ j o₆ hgoes₆.ready hn₆ _ _ _ hrun₇ T hT hK hincl₇ l₁ t
              (hhere₂ rfl) trivial).bind ?_
            rintro y l₂ s₂ ⟨hhere₃, hkeeps₃, -⟩
            rw [hgoes₆.ready.function] at hkeeps₃
            obtain ⟨u, hreaches', hlive₂, hkeeps₄⟩ := hback T hT hincl₈ l₂ s₂ hhere₃
            refine .of_reaches hreaches' ((ih hle' l₂ u hlive₂).mono ?_)
            rintro r l₃ s₃ ⟨hhere', hkeeps₅, hr⟩
            exact ⟨hhere', (hkeeps.trans ((hkeeps₃.mono hgoes₆.next_le).trans (hkeeps₄ _))).trans
              hkeeps₅, hr⟩
  have hhere₃ := hgoes₃.here hgoes₂.ready hcode₃ hf
    (hgoes₂.here hgoes₁.ready hcode₂ hf (hgoes₁.here hready hcode₁ hf hhere))
  obtain ⟨t, hreaches, hlive, hkeeps⟩ := henter T hT hincl₄ l s hhere₃
  refine .of_reaches hreaches ((hturns m (Nat.le_refl m) l t hlive).mono ?_)
  rintro r l' u ⟨hhere', hkeeps', hr⟩
  exact ⟨hhere', (hkeeps _).trans hkeeps', hr⟩

end Branches

/-! ## Returning -/

/-- Once a block is to be ended there is a terminator in it. -/
theorem terminate_ends {builder : Builder} (hat : builder.At f c) (op : Op)
    (hop : op.isAlloca = false) (hends : op.isTerminator = true) :
    ∃ i ∈ ((((Build.terminate op).run builder).2.module.function f).block c).code,
      i.op.isTerminator = true := by
  cases hterm : builder.isTerminated with
  | true =>
      have hmodule : ((Build.terminate op).run builder).2.module = builder.module := by
        show ((if builder.isTerminated then Build.misuse else _ : Build Unit).run builder).2.module = _
        rw [hterm]
        rfl
      rw [hmodule]
      by_contra hnone
      have hopen : ((builder.module.function f).block c).Open :=
        IR.Block.open_iff.mpr fun i hi => by
          simpa using fun hi' => hnone ⟨i, hi, hi'⟩
      rw [hat.isTerminated, hopen.isTerminated] at hterm
      cases hterm
  | false =>
      have hr : ((Build.terminate op).run builder).2 = ((Build.insert "" op).run builder).2 := by
        show ((if builder.isTerminated then Build.misuse else _ : Build Unit).run builder).2 = _
        rw [hterm]
        rfl
      obtain ⟨-, i, hi, -, -, hinserts⟩ := IR.insert_adds hat "" hop
      rw [hr, hinserts.code_self, IR.codeOf_plain (hi ▸ hop)]
      exact ⟨i, by simp, hi ▸ hends⟩

section Returning

variable {ctx : LoweringContext}

/-- A value is converted, and its site is remembered before control goes to the exit block. -/
theorem returnValue_ok (hready : Ready K f c b o) {value : Value} {t : TypeId} {r : Unit}
    (hrun : (returnValue ctx value t).run b o = .ok (r, b') o') :
    ∃ value' o₁, (convert ctx value t K.result.id).run b o = .ok (value', b) o₁ ∧
      (o₁.builder.At f c → b' = { b with returnSites := b.returnSites ++ [(value', ⟨f, c⟩)] } ∧
        o' = { o₁ with builder := ((Build.jump b.exit).run o₁.builder).2 }) := by
  have hrun' : (convert ctx value t b.result >>= fun value => do
      match (← getThe Output).builder.currentBlock with
      | some block => modify fun b => { b with returnSites := b.returnSites ++ [(value, block)] }
      | none => pure ()
      returnVoid).run b o = .ok (r, b') o' := hrun
  rw [hready.result] at hrun'
  obtain ⟨value', b₁, o₁, hconvert, hrest⟩ := bind_ok hrun'
  obtain rfl := convert_keepsBody ctx _ _ _ _ _ _ _ _ hconvert
  refine ⟨value', o₁, hconvert, fun hat => ?_⟩
  obtain ⟨_, _, _, ⟨⟩, hrest⟩ := bind_ok hrest
  rw [hat.block] at hrest
  cases hrest
  exact ⟨rfl, rfl⟩

/-- The current block ends with a jump to the exit block, and becomes a return site. -/
theorem Goes.returned [CaseTags] (hready : Ready K f c b o) {value : Value}
    (hvalue : Below (o.builder.next f) value) :
    Goes K f [] c b o c { b with returnSites := b.returnSites ++ [(value, ⟨f, c⟩)] }
      { o with builder := ((Build.jump b.exit).run o.builder).2 } := by
  have hjump := (Adds.build (.jump b.exit) b c o hready.function hready.at_ hready.shaped
    (Nat.zero_le _) hready.below ⟨⟩ b _ rfl).2.1
  have hregular := hready.regular.mono (hjump.grows.builder.functions f)
  have hends := terminate_ends hready.at_ (.jump b.exit) rfl rfl
  have hbelow := hready.below.mono hjump.builder.next_le
  refine ⟨⟨⟨hready.function, hjump.builder.at_, hjump.shaped hready.shaped, hbelow.1, hbelow.2.1, ?_⟩,
    hready.walk, hready.result, ⟨hregular.slots, hregular.apart, ?_⟩, hready.locals⟩,
    hjump.builder.proceeds, rfl, rfl, ⟨[], rfl, .slnil⟩, List.prefix_append _ _, hjump.grows⟩
  · intro site hsite
    rcases List.mem_append.mp hsite with hsite | hsite
    · exact hbelow.2.2 site hsite
    · rw [List.mem_singleton.mp hsite]
      exact ⟨hvalue.mono hjump.builder.next_le, trivial⟩
  · intro site hsite
    rcases List.mem_append.mp hsite with hsite | hsite
    · exact hregular.sites site hsite
    · rw [List.mem_singleton.mp hsite]
      exact hends

/-- Returning a value comes to the same place. -/
theorem returnValue_advances [CaseTags] {value : Value} (hbelow : Below n value) (t : TypeId) :
    Advances K f [] n (returnValue ctx value t) := by
  intro b c o hready hn r b' o' hrun
  obtain ⟨value', o₁, hconvert, hrest⟩ := returnValue_ok hready hrun
  obtain ⟨-, hadds₁, -, hvalue'⟩ := convert_adds ctx hbelow t K.result.id b c o hready.function
    hready.at_ hready.shaped hn hready.below value' b o₁ hconvert
  have hgoes₁ := Goes.of_adds hready hadds₁
  obtain ⟨rfl, rfl⟩ := hrest hgoes₁.ready.at_
  exact ⟨⟨c, hgoes₁.trans (.returned hgoes₁.ready hvalue')⟩, trivial⟩

/-- The site that is remembered is the first one of its block. -/
theorem find_site {sites sites' : List (Value × BlockRef)} {value : Value} {g : IR.Function}
    (hsites : ∀ site ∈ sites, ∃ i ∈ (g.block site.2.block).code, i.op.isTerminator = true)
    (hopen : (g.block c).Open) (hfront : sites ++ [(value, ⟨f, c⟩)] <+: sites') :
    sites'.find? (fun site => site.2.block == c) = some (value, ⟨f, c⟩) := by
  obtain ⟨rest, rfl⟩ := hfront
  have hnone : sites.find? (fun site => site.2.block == c) = none := by
    refine List.find?_eq_none.mpr fun site hsite heq => ?_
    obtain ⟨i, hi, hends⟩ := hsites site hsite
    rw [beq_iff_eq.mp heq] at hi
    rw [IR.Block.open_iff.mp hopen i hi] at hends
    cases hends
  rw [List.append_assoc, List.find?_append, hnone]
  simp

/-- Returning a value leaves the body. -/
theorem Simulates.returnValue [CaseTags] (hpool : ctx.pool.HasScalars) {P : Execution.Frame → Prop}
    {α : Type} {v : Scalar} {value : Value} {σ : ScalarType} (hbelow : Below n value)
    (haccepts : K.result.accepts σ = true) (h : ∀ fr, P fr → v.type = σ ∧ value.Denotes v fr)
    (Q : α → Unit → Execution.Frame → Prop) :
    Simulates E F K f [] n P (Eval.leave v : Eval α) (returnValue ctx value σ.id) Q := by
  refine ⟨returnValue_advances hbelow σ.id, fun b c o hready hn r b' o' hrun T hT hK hincl l s hhere
    hPs => ⟨fun _ _ => nofun, ?_⟩⟩
  rintro _ _ ⟨⟩
  have hf := hready.function
  obtain ⟨value', o₁, hconvert, hrest⟩ := returnValue_ok hready hrun
  obtain ⟨-, hadds₁, -, hvalue'⟩ := convert_adds ctx hbelow σ.id K.result.id b c o hf hready.at_
    hready.shaped hn hready.below value' b o₁ hconvert
  have hready₁ := (Goes.of_adds hready hadds₁).ready
  obtain ⟨rfl, rfl⟩ := hrest hready₁.at_
  have hincl₁ := hincl.before (Goes.returned hready₁ hvalue').leads
  obtain ⟨htype, -⟩ := h s.frame hPs
  obtain ⟨v', hv'⟩ := Option.isSome_iff_exists.mp (Scalar.passTo_isSome (htype ▸ haccepts))
  have hconverts := (Simulates.convert (E := E) (F := F) (K := K) (f := f) hpool hbelow K.result
    h).runs b c o hready hn value' b o₁ hconvert T hT hK hincl₁ l s hhere hPs
  obtain ⟨t, hreaches, hhere₁, -, -, hdenotes⟩ := hconverts.1 v' l (by rw [hv']; rfl)
  have hfT : T.body.function = f := hincl.function.trans hf
  have hexit : b.exit = ⟨f, 1⟩ := by
    rw [← hfT, ← hT.exit]
    exact hincl.exit.symm
  rw [hexit] at hincl
  obtain ⟨u, hreaches', hlive, hprevious, hkeeps⟩ := hhere₁.jump hT hfT hready₁.at_ Nat.one_ne_zero
    (hfT ▸ hincl.code hT)
  have hopen : ((o₁.builder.module.function f).block c).Open := by
    rw [← hready₁.at_.unique hhere₁.at_, ← hfT]
    exact hhere₁.isOpen
  refine ⟨u, hreaches.trans hreaches', ⟨l, hlive.toHolds⟩, hlive.block, ?_, c, value', ⟨f, c⟩, v',
    hprevious, find_site hready₁.regular.sites hopen hincl.sites, hK ▸ hv', hdenotes.type, ?_⟩
  · rw [hlive.code, List.drop_zero, hT.shaped.code_eq Nat.one_ne_zero]
  · exact ((hkeeps _).datum?_eq hvalue').trans hdenotes.datum

end Returning

end Lower

end ClassLang
