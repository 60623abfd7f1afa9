import ClassLang.IR.Script
import ClassLang.Proofs.Lowering.StraightCode

/-!
# The insertion point

A builder knows its place twice: as the block that is current, and as the cursor where the next
instruction goes. Making a stack slot moves the cursor alone, to the front of the entry block of the
function that gets the slot, and back; everything else that moves the cursor moves both. So while a
block is current, the cursor is at its end: `Builder.Steady`. The order of the blocks of a function
is kept apart from the blocks, so moving a block touches no instruction.

`Script.Reached` are the states that commands lead to in any order, and
`Script.insertion_point_never_drifts` says of all of them where the next instruction, the next stack
slot and a moved block go.
-/

namespace ClassLang.IR

/-! ## Places -/

namespace Builder

variable {b b' b'' : Builder} {block : BlockRef}

/-- The block is one of the module. -/
def HasBlock (b : Builder) (block : BlockRef) : Prop :=
  block.block < (b.module.function block.function).blocks.size

theorem HasBlock.function_lt (h : b.HasBlock block) :
    block.function < b.module.functions.size := by
  by_contra hge
  have hbody := Module.hasBody_of_le (Nat.le_of_not_lt hge)
  rw [HasBlock] at h
  simp only [Function.hasBody, Array.isEmpty, Bool.not_eq_false', decide_eq_true_eq] at hbody
  omega

/-- The cursor is at the end of the current block, which is one of the module, and every block
stands in the layout of its function once. -/
structure Steady (b : Builder) : Prop where
  cursor : ∀ block, b.currentBlock = some block → b.cursor = some (.atEnd block)
  current : ∀ block, b.currentBlock = some block → b.HasBlock block
  layout : ∀ f, (b.module.function f).layout.Perm (List.range (b.module.function f).blocks.size)

theorem Steady.at_ (h : b.Steady) (hblock : b.currentBlock = some block) :
    b.At block.function block.block :=
  ⟨(h.current block hblock).function_lt, h.current block hblock, h.cursor block hblock, hblock⟩

/-- A builder without a current block is steady. -/
theorem Steady.of_none (hblock : b.currentBlock = none)
    (hlayout : ∀ f, (b.module.function f).layout.Perm
      (List.range (b.module.function f).blocks.size)) : b.Steady where
  cursor block hcurrent := by
    rw [hblock] at hcurrent
    cases hcurrent
  current block hcurrent := by
    rw [hblock] at hcurrent
    cases hcurrent
  layout := hlayout

/-- Neither the place nor the blocks of functions and their order have changed. -/
structure Stays (b b' : Builder) : Prop where
  cursor : b'.cursor = b.cursor
  current : b'.currentBlock = b.currentBlock
  blocks : ∀ f, (b'.module.function f).blocks.size = (b.module.function f).blocks.size
  layout : ∀ f, (b'.module.function f).layout = (b.module.function f).layout

namespace Stays

theorem refl (b : Builder) : b.Stays b := ⟨rfl, rfl, fun _ => rfl, fun _ => rfl⟩

theorem trans (h : b.Stays b') (h' : b'.Stays b'') : b.Stays b'' where
  cursor := h'.cursor.trans h.cursor
  current := h'.current.trans h.current
  blocks f := (h'.blocks f).trans (h.blocks f)
  layout f := (h'.layout f).trans (h.layout f)

theorem hasBlock (h : b.Stays b') (hblock : b.HasBlock block) : b'.HasBlock block := by
  rw [HasBlock, h.blocks]
  exact hblock

theorem steady (h : b.Stays b') (hb : b.Steady) : b'.Steady where
  cursor block hblock := by
    rw [h.cursor]
    exact hb.cursor block (h.current ▸ hblock)
  current block hblock := h.hasBlock (hb.current block (h.current ▸ hblock))
  layout f := by
    rw [h.layout, h.blocks]
    exact hb.layout f

/-- A change of one function that keeps its blocks and their order. -/
theorem modifyFunction (f : FunctionId) {change : Function → Function}
    (hblocks : ∀ g, (change g).blocks.size = g.blocks.size)
    (hlayout : ∀ g, (change g).layout = g.layout) :
    b.Stays { b with module := b.module.modifyFunction f change } := by
  have hcases : ∀ g, (b.module.modifyFunction f change).function g = b.module.function g ∨
      (b.module.modifyFunction f change).function g = change (b.module.function g) := by
    intro g
    by_cases hg : g = f
    · subst hg
      by_cases hlt : g < b.module.functions.size
      · exact .inr (Module.function_modifyFunction_self _ _ hlt)
      · left
        simp [Module.function, Module.modifyFunction, hlt]
    · exact .inl (Module.function_modifyFunction_of_ne _ _ hg)
  refine ⟨rfl, rfl, fun g => ?_, fun g => ?_⟩
  · rcases hcases g with h | h <;> simp only [h, hblocks]
  · rcases hcases g with h | h <;> simp only [h, hlayout]

end Stays

theorem withInstruction_stays (b : Builder) (cursor : Cursor) (names : NameTable)
    (new : Instruction) : b.Stays (b.withInstruction cursor names new) :=
  .modifyFunction _ (fun _ => Function.size_blocks_modifyBlock ..) fun _ => rfl

/-- The instructions of one block are the given ones now, and nothing else has changed in any
block. -/
structure Refills (block : BlockRef) (instructions : List Instruction) (b b' : Builder) : Prop
    extends b.Stays b' where
  self : (b'.module.block block).instructions = instructions
  rest : ∀ other, other ≠ block → b'.module.block other = b.module.block other

theorem withInstruction_refills {cursor : Cursor} (href : cursor.ref = block)
    (h : b.HasBlock block) (names : NameTable) (new : Instruction) :
    b.Refills block (cursor.place new (b.module.block block).instructions)
      (b.withInstruction cursor names new) where
  toStays := b.withInstruction_stays cursor names new
  self := by
    rw [Module.block, block_withInstruction href h.function_lt h]
    rfl
  rest other hne := by
    rw [Module.block, Module.block]
    by_cases hf : other.function = block.function
    · have hk : other.block ≠ block.block := fun hk => hne (by
        cases other
        simp_all)
      rw [hf, block_withInstruction_of_ne href h.function_lt hk]
    · have hf' : other.function ≠ cursor.ref.function := by
        rw [href]
        exact hf
      rw [function_withInstruction_of_ne hf']

/-- While a block is current, the next instruction is put behind the others of that block. -/
theorem Steady.insert (h : b.Steady) (hblock : b.currentBlock = some block) (name : String)
    (op : Op) : ∃ new, new.op = op ∧
      b.Refills block ((b.module.block block).instructions ++ [new])
        ((Build.insert name op).run b).2 := by
  obtain ⟨names, new, hop, -, hrun⟩ := insert_run (h.cursor block hblock) name op
  have href : (Cursor.atEnd block).ref = block := rfl
  refine ⟨new, hop, ?_⟩
  rw [hrun]
  exact withInstruction_refills href (h.current block hblock) names new

/-- While a block is current, a stack slot is put in front of the other instructions of the entry
block of its function, if the function has blocks. -/
theorem Steady.entryAlloca (h : b.Steady) (hblock : b.currentBlock = some block) {f : FunctionId}
    (hbody : (b.module.function f).hasBody = true) (name : String) (type : Ty) :
    ∃ entry slot, (b.module.function f).entryBlock? = some entry ∧ slot.op = .alloca type ∧
      ((Build.entryAlloca f name type).run b).1 = .result f slot.id .ptr ∧
      b.Refills ⟨f, entry⟩ (slot :: (b.module.block ⟨f, entry⟩).instructions)
        ((Build.entryAlloca f name type).run b).2 := by
  have hsize : 0 < (b.module.function f).blocks.size := by
    simp only [Function.hasBody, Array.isEmpty, Bool.not_eq_true', decide_eq_false_iff_not] at hbody
    omega
  obtain ⟨entry, rest, hlayout⟩ : ∃ entry rest, (b.module.function f).layout = entry :: rest := by
    refine List.exists_cons_of_length_pos ?_
    rw [(h.layout f).length_eq, List.length_range]
    exact hsize
  have hentry : (b.module.function f).entryBlock? = some entry := by
    rw [Function.entryBlock?, hlayout, List.head?_cons]
  have hhas : b.HasBlock ⟨f, entry⟩ := by
    have hmem := (h.layout f).mem_iff.mp (by rw [hlayout]; exact List.mem_cons_self)
    exact List.mem_range.mp hmem
  obtain ⟨cursor, names, slot, href, hplace, hop, -, hrun⟩ :=
    entryAlloca_run (h.cursor block hblock) hblock hentry name type
  refine ⟨entry, slot, hentry, hop, by rw [hrun], ?_⟩
  have hrefills := withInstruction_refills href hhas names slot
  rw [Module.block, hplace] at hrefills
  rwa [hrun, Module.block]

/-- Moving a block to the end changes the order of the blocks of its function, and nothing else. -/
theorem Steady.moveBlockToEnd (h : b.Steady) (hblock : b.HasBlock block) :
    let b' := ((Build.moveBlockToEnd block).run b).2
    (∀ other, b'.module.block other = b.module.block other) ∧
      (∀ f, f ≠ block.function → b'.module.function f = b.module.function f) ∧
      (b'.module.function block.function).layout =
        (b.module.function block.function).layout.erase block.block ++ [block.block] ∧
      (∀ f, (b'.module.function f).layout.Perm (b.module.function f).layout) ∧
      (∀ f, (b'.module.function f).blocks.size = (b.module.function f).blocks.size) ∧
      b'.cursor = b.cursor ∧ b'.currentBlock = b.currentBlock := by
  intro b'
  have hself : b'.module.function block.function =
      { b.module.function block.function with
        layout := (b.module.function block.function).layout.erase block.block ++ [block.block] } :=
    Module.function_modifyFunction_self _ _ hblock.function_lt
  have hothers : ∀ f, f ≠ block.function → b'.module.function f = b.module.function f :=
    fun f hf => Module.function_modifyFunction_of_ne _ _ hf
  have hmem : block.block ∈ (b.module.function block.function).layout :=
    (h.layout _).mem_iff.mpr (List.mem_range.mpr hblock)
  refine ⟨fun other => ?_, hothers, by rw [hself], fun f => ?_, fun f => ?_, rfl, rfl⟩
  · by_cases hf : other.function = block.function
    · rw [Module.block, hf, hself, Module.block, hf]
      rfl
    · rw [Module.block, hothers _ hf, Module.block]
  · by_cases hf : f = block.function
    · subst hf
      rw [hself]
      exact (List.perm_append_singleton _ _).trans (List.perm_cons_erase hmem).symm
    · rw [hothers f hf]
  · by_cases hf : f = block.function
    · rw [hf, hself]
    · rw [hothers f hf]

end Builder

/-! ## Steps that keep the place -/

variable {α β : Type}

/-- The step keeps the place and the blocks. -/
def KeepsPlace (step : Build α) : Prop :=
  ∀ b : Builder, b.Stays (step.run b).2

namespace KeepsPlace

theorem pure (a : α) : KeepsPlace (Pure.pure a : Build α) := fun b => .refl b

theorem bind {step : Build α} {next : α → Build β} (h : KeepsPlace step)
    (hnext : ∀ a, KeepsPlace (next a)) : KeepsPlace (step >>= next) :=
  fun b => (h b).trans (hnext _ _)

theorem read {next : Builder → Build α} (h : ∀ b, KeepsPlace (next b)) :
    KeepsPlace (get >>= next) :=
  fun b => h b b

theorem ite {p : Prop} [Decidable p] {yes no : Build α} (hyes : KeepsPlace yes)
    (hno : KeepsPlace no) : KeepsPlace (if p then yes else no) := by
  split
  · exact hyes
  · exact hno

/-- A step that touches no function. -/
theorem of_quiet {step : Build α} (h : KeepsQuiet step) : KeepsPlace step := by
  intro b
  have hfunction : ∀ f, (step.run b).2.module.function f = b.module.function f := fun f => by
    rw [Module.function, (h b).functions, Module.function]
  exact ⟨(h b).cursor, (h b).block, fun f => by rw [hfunction], fun f => by rw [hfunction]⟩

theorem misuse : KeepsPlace Build.misuse := of_quiet .misuse

/-- A misuse that is answered by a harmless value. -/
theorem refuse (a : α) : KeepsPlace (do Build.misuse; Pure.pure a) :=
  misuse.bind fun _ => pure a

/-- A new function has neither blocks nor a layout, as one that does not exist. -/
theorem declareFunction (name : String) (type : FnType) :
    KeepsPlace (Build.declareFunction name type) := by
  intro b
  rw [Build.run_declareFunction]
  split
  · exact .refl b
  · refine ⟨rfl, rfl, fun f => ?_, fun f => ?_⟩
    all_goals
      simp only [Module.function, Array.getD_eq_getD_getElem?, Array.getElem?_push]
      split
      · next hf =>
          subst hf
          simp [Function.declared, default]
      · rfl

theorem setParamName (function : FunctionId) (index : Nat) (name : String) :
    KeepsPlace (Build.setParamName function index name) := by
  intro b
  refine .modifyFunction function (fun g => ?_) fun g => ?_
  all_goals
    split
    · rfl
    · split <;> rfl

theorem setCurrentFunction (function : FunctionId) :
    KeepsPlace (Build.setCurrentFunction function) :=
  fun _ => ⟨rfl, rfl, fun _ => rfl, fun _ => rfl⟩

/-- Wherever an instruction goes, the place stays. -/
theorem insert (name : String) (op : Op) : KeepsPlace (Build.insert name op) := by
  intro b
  cases hcursor : b.cursor with
  | none =>
      have hrun : (Build.insert name op).run b =
          (.const (.poison (op.resultType?.getD .ptr)), b) := by
        obtain ⟨module, _, function, block, declared, errors⟩ := b
        obtain rfl : _ = none := hcursor
        rfl
      rw [hrun]
      exact .refl b
  | some cursor =>
      obtain ⟨names, new, -, -, hrun⟩ := insert_run hcursor name op
      rw [hrun]
      exact b.withInstruction_stays cursor names new

theorem load (type : Ty) (address : Value) (name : String) :
    KeepsPlace (Build.load type address name) :=
  ite (insert _ _) (refuse _)

theorem store (value address : Value) : KeepsPlace (Build.store value address) :=
  ite ((insert _ _).bind fun _ => pure _) misuse

theorem structField (type : Ty) (base : Value) (index : Nat) (name : String) :
    KeepsPlace (Build.structField type base index name) := by
  unfold Build.structField
  dsimp only
  split
  · refine read fun b => ite ?_ (refuse _)
    split
    · exact pure _
    · exact insert _ _
  · exact refuse _

theorem binary (op : IntOp) (lhs rhs : Value) (name : String) :
    KeepsPlace (Build.binary op lhs rhs name) := by
  refine ite ?_ (refuse _)
  split
  · split
    · exact pure _
    · exact insert _ _
  · exact insert _ _

theorem not (value : Value) (name : String) : KeepsPlace (Build.not value name) := by
  unfold Build.not
  split
  · exact binary _ _ _ _
  · exact refuse _

theorem compareOf (wanted : Value → Bool) (p : Predicate) (lhs rhs : Value) (name : String) :
    KeepsPlace (Build.compareOf wanted p lhs rhs name) := by
  refine ite ?_ (refuse _)
  split
  · split
    · exact pure _
    · exact insert _ _
  · exact insert _ _

theorem widen (value : Value) (type : Ty) (name : String) :
    KeepsPlace (Build.widen value type name) := by
  refine ite (ite (pure _) ?_) (refuse _)
  split
  · split
    · exact pure _
    · exact insert _ _
  · exact insert _ _

theorem call (function : FunctionId) (args : List Value) (name : String) :
    KeepsPlace (Build.call function args name) :=
  read fun _ => (insert _ _).bind fun _ => pure _

theorem callIndirect (type : FnType) (target : Value) (args : List Value) (name : String) :
    KeepsPlace (Build.callIndirect type target args name) :=
  ite ((insert _ _).bind fun _ => pure _) (refuse _)

theorem phi (type : Ty) (incoming : List (Value × BlockRef)) (name : String) :
    KeepsPlace (Build.phi type incoming name) := by
  unfold Build.phi
  split
  · exact pure _
  · exact pure _
  · exact (insert _ _).bind fun _ => pure _

theorem terminate (op : Op) : KeepsPlace (Build.terminate op) :=
  read fun _ => ite misuse ((insert _ _).bind fun _ => pure _)

theorem branch (cond : Value) (yes no : BlockRef) : KeepsPlace (Build.branch cond yes no) :=
  read fun _ => ite misuse (ite (terminate _) (misuse.bind fun _ => terminate _))

end KeepsPlace

/-! ## Steps that change the place -/

namespace Builder

variable {b b' : Builder} {block : BlockRef}

/-- A steady builder was reached, and no block is forgotten. -/
structure Leads (b b' : Builder) : Prop where
  steady : b'.Steady
  kept : ∀ block, b.HasBlock block → b'.HasBlock block

theorem Stays.leads (h : b.Stays b') (hb : b.Steady) : b.Leads b' :=
  ⟨h.steady hb, fun _ => h.hasBlock⟩

namespace Steady

/-- A new block stands at the end of its function. -/
theorem leads_appendBlock (h : b.Steady) {f : FunctionId} (hf : f < b.module.functions.size)
    (label : String) :
    let r := (Build.appendBlock f label).run b
    b.Leads r.2 ∧ r.2.HasBlock r.1 := by
  intro r
  obtain ⟨href, hr, hcursor, hcurrent, hsize, hlayout⟩ := b.appendBlock_run hf label
  have hkept : ∀ block, b.HasBlock block → r.2.HasBlock block := by
    intro block hblock
    by_cases hg : block.function = f
    · rw [HasBlock, hg] at hblock ⊢
      exact Nat.lt_of_lt_of_le hblock hr.blocks
    · rwa [HasBlock, hr.others _ hg]
  refine ⟨⟨⟨fun block hblock => ?_, fun block hblock => ?_, fun g => ?_⟩, hkept⟩, ?_⟩
  · rw [hcursor]
    exact h.cursor block (hcurrent ▸ hblock)
  · exact hkept block (h.current block (hcurrent ▸ hblock))
  · by_cases hg : g = f
    · subst hg
      rw [hlayout, hsize, List.range_succ]
      exact (h.layout g).append_right _
    · rw [hr.others g hg]
      exact h.layout g
  · rw [HasBlock, href, hsize]
    exact Nat.lt_succ_self _

/-- A moved block still stands in the layout once. -/
theorem leads_moveBlockToEnd (h : b.Steady) (hblock : b.HasBlock block) :
    b.Leads ((Build.moveBlockToEnd block).run b).2 := by
  obtain ⟨-, -, -, hperm, hsize, hcursor, hcurrent⟩ := h.moveBlockToEnd hblock
  have hkept : ∀ other, b.HasBlock other →
      ((Build.moveBlockToEnd block).run b).2.HasBlock other := by
    intro other hother
    rwa [HasBlock, hsize]
  refine ⟨⟨fun current hc => ?_, fun current hc => ?_, fun f => ?_⟩, hkept⟩
  · rw [hcursor]
    exact h.cursor current (hcurrent ▸ hc)
  · exact hkept current (h.current current (hcurrent ▸ hc))
  · rw [hsize]
    exact (hperm f).trans (h.layout f)

/-- Making a stack slot brings the cursor back to the current block. If no block is current, the
cursor stays at the slot, and still no block is current. -/
theorem leads_entryAlloca (h : b.Steady) (f : FunctionId) (name : String) (type : Ty) :
    b.Leads ((Build.entryAlloca f name type).run b).2 := by
  cases hentry : (b.module.function f).entryBlock? with
  | none =>
      have hrun : (Build.entryAlloca f name type).run b =
          ((do Build.misuse; pure (.const .null) : Build Value).run b) := by
        simp only [Build.entryAlloca, StateT.run_bind, StateT.run_get, pure_bind, hentry]
      rw [hrun]
      exact (KeepsPlace.refuse _ b).leads h
  | some entry =>
      cases hblock : b.currentBlock with
      | some current =>
          obtain ⟨cursor, names, slot, -, -, -, -, hrun⟩ :=
            entryAlloca_run (h.cursor current hblock) hblock hentry name type
          rw [hrun]
          exact (b.withInstruction_stays cursor names slot).leads h
      | none =>
          obtain ⟨module, cursor, function, current, declared, errors⟩ := b
          obtain rfl : current = none := hblock
          obtain ⟨slotCursor, hrun⟩ : ∃ slotCursor : Cursor,
              ((Build.entryAlloca f name type).run
                ⟨module, cursor, function, none, declared, errors⟩).2 =
              ((Build.insert name (.alloca type)).run
                ⟨module, some slotCursor, function, none, declared, errors⟩).2 := by
            cases his : ((module.function f).block entry).instructions with
            | nil =>
                refine ⟨.atEnd ⟨f, entry⟩, ?_⟩
                simp only [Build.entryAlloca, StateT.run_bind, StateT.run_get, pure_bind, hentry,
                  his]
                rfl
            | cons first rest =>
                refine ⟨.before ⟨f, entry⟩ first.id, ?_⟩
                simp only [Build.entryAlloca, StateT.run_bind, StateT.run_get, pure_bind, hentry,
                  his]
                rfl
          have hmoved : (⟨module, some slotCursor, function, none, declared, errors⟩ :
              Builder).Steady := .of_none rfl h.layout
          have hleads := (KeepsPlace.insert name (.alloca type) _).leads hmoved
          rw [hrun]
          exact ⟨hleads.steady, hleads.kept⟩

/-- Going on at the end of a block. -/
theorem leads_positionAtEnd (h : b.Steady) (hblock : b.HasBlock block) :
    b.Leads ((Build.positionAtEnd block).run b).2 := by
  refine ⟨⟨fun current hcurrent => ?_, fun current hcurrent => ?_, h.layout⟩, fun _ => id⟩
  all_goals obtain rfl : block = current := Option.some.inj hcurrent
  · rfl
  · exact hblock

/-- Coming back to a position, whose block exists. -/
theorem leads_restore (h : b.Steady) (p : Position)
    (hblock : ∀ block, p.block = some block → b.HasBlock block) :
    b.Leads ((Build.restore p).run b).2 := by
  obtain ⟨function, block⟩ := p
  cases block with
  | none => exact ⟨.of_none rfl h.layout, fun _ => id⟩
  | some block =>
      have hmoved : ({ b with currentFunction := function } : Builder).Steady :=
        ⟨h.cursor, h.current, h.layout⟩
      have hleads := hmoved.leads_positionAtEnd (hblock block rfl)
      exact ⟨hleads.steady, hleads.kept⟩

end Steady

end Builder

/-! ## Commands in any order -/

/-- What a command builds on was handed out: its block, or the function that gets a block. -/
def Command.Refers (s : Script) : Command → Prop
  | .positionAtEnd block | .moveBlockToEnd block => block < s.blocks.size
  | .appendBlock function _ => function < s.builder.module.functions.size
  | _ => True

instance (s : Script) (c : Command) : Decidable (c.Refers s) := by
  unfold Command.Refers
  split <;> infer_instance

namespace Script

variable {name : String} {s s' : Script}

/-- The states that commands lead to. Saved positions may be used in any order, and more than
once. -/
inductive Reached (name : String) : Script → Prop
  | start : Reached name (.ofName name)
  | command {s : Script} (h : Reached name s) (c : Command) (hc : c.Refers s) :
      Reached name (s.run c).2
  | reuse {s : Script} (h : Reached name s) (saved : List (Position × Option Nat))
      (hsaved : ∀ p ∈ saved, p ∈ s.saved) : Reached name { s with saved }

/-- The builder is steady, and all blocks that were handed out or saved exist. -/
structure Steady (s : Script) : Prop where
  builder : s.builder.Steady
  blocks : ∀ block ∈ s.blocks, s.builder.HasBlock block
  saved : ∀ p ∈ s.saved, ∀ block, p.1.block = some block → s.builder.HasBlock block

/-- A command that hands out no block and saves no position. -/
theorem Steady.of_leads (h : s.Steady) (hbuilder : s.builder.Leads s'.builder)
    (hblocks : s'.blocks = s.blocks) (hsaved : ∀ p ∈ s'.saved, p ∈ s.saved) : s'.Steady where
  builder := hbuilder.steady
  blocks block hblock := hbuilder.kept block (h.blocks block (hblocks ▸ hblock))
  saved p hp block hblock := hbuilder.kept block (h.saved p (hsaved p hp) block hblock)

/-- Blocks and saved positions are as before, and the builder has kept its place. -/
structure Stays (s s' : Script) : Prop where
  builder : s.builder.Stays s'.builder
  blocks : s'.blocks = s.blocks
  saved : s'.saved = s.saved

namespace Stays

theorem steady (h : s.Stays s') (hs : s.Steady) : s'.Steady :=
  hs.of_leads (h.builder.leads hs.builder) h.blocks fun _ hp => h.saved ▸ hp

theorem giveType (s : Script) (t : Ty) : s.Stays (s.giveType t).2 := ⟨.refl _, rfl, rfl⟩

theorem giveValue (s : Script) (v : Value) : s.Stays (s.giveValue v).2 := ⟨.refl _, rfl, rfl⟩

theorem act {step : Build Unit} (h : KeepsPlace step) (s : Script) : s.Stays (s.act step).2 :=
  ⟨h s.builder, rfl, rfl⟩

theorem buildValue {step : Build Value} (h : KeepsPlace step) (s : Script) :
    s.Stays (s.buildValue step).2 :=
  ⟨h s.builder, rfl, rfl⟩

theorem buildValue? {step : Build (Option Value)} (h : KeepsPlace step) (s : Script) :
    s.Stays (s.buildValue? step).2 := by
  show s.Stays (Script.giveValue? _ (step.run s.builder).1).2
  cases (step.run s.builder).1 <;> exact ⟨h s.builder, rfl, rfl⟩

theorem buildUnless (refused : Bool) (operand : Nat) {step : Build Value} (h : KeepsPlace step)
    (s : Script) : s.Stays (s.buildUnless refused operand step).2 := by
  unfold Script.buildUnless
  cases refused <;> exact ⟨h s.builder, rfl, rfl⟩

end Stays

theorem Steady.hasBlock (h : s.Steady) {block : Nat} (hlt : block < s.blocks.size) :
    s.builder.HasBlock (s.block block) := by
  refine h.blocks _ ?_
  simp [Script.block, Array.getD_eq_getD_getElem?, hlt]

/-- Every command leads from steady states to steady states. -/
theorem Steady.run (h : s.Steady) (c : Command) (hc : c.Refers s) : (s.run c).2.Steady := by
  cases c with
  | appendBlock function label =>
      obtain ⟨hleads, hnew⟩ := h.builder.leads_appendBlock hc label
      refine ⟨hleads.steady, fun block hblock => ?_, fun p hp block hblock =>
        hleads.kept block (h.saved p hp block hblock)⟩
      rcases Array.mem_push.mp hblock with hold | rfl
      · exact hleads.kept block (h.blocks block hold)
      · exact hnew
  | alloca function name type =>
      exact h.of_leads (h.builder.leads_entryAlloca function name (s.type type)) rfl fun _ => id
  | positionAtEnd block =>
      exact h.of_leads (h.builder.leads_positionAtEnd (h.hasBlock hc)) rfl fun _ => id
  | moveBlockToEnd block =>
      exact h.of_leads (h.builder.leads_moveBlockToEnd (h.hasBlock hc)) rfl fun _ => id
  | save =>
      refine ⟨h.builder, h.blocks, fun p hp block hblock => ?_⟩
      rcases List.mem_cons.mp hp with rfl | hp
      · exact h.builder.current block hblock
      · exact h.saved p hp block hblock
  | restore =>
      simp only [Script.run]
      split
      · exact h
      · next position currentBlock saved hsaved =>
          have hposition := h.saved (position, currentBlock) (by rw [hsaved]; simp)
          refine h.of_leads (h.builder.leads_restore position hposition) rfl fun p hp => ?_
          rw [hsaved]
          exact List.mem_cons_of_mem _ hp
  | namedStruct name => exact Stays.steady ⟨KeepsPlace.of_quiet (.namedStruct name) _, rfl, rfl⟩ h
  | declareFunction name sig =>
      exact Stays.steady ⟨KeepsPlace.declareFunction name _ _, rfl, rfl⟩ h
  | getFunction name =>
      simp only [Script.run]
      split <;> exact h
  | structName type =>
      simp only [Script.run]
      split <;> exact h
  | phi type incoming name =>
      simp only [Script.run]
      split
      · exact h
      · exact (Stays.buildValue? (.phi _ _ _) s).steady h
  | intType width => exact (Stays.giveType s _).steady h
  | ptrType => exact (Stays.giveType s _).steady h
  | typeOf value => exact (Stays.giveType s _).steady h
  | constInt width value => exact (Stays.giveValue s _).steady h
  | constNull => exact (Stays.giveValue s _).steady h
  | constString text => exact (Stays.giveValue s _).steady h
  | constStruct type fields =>
      exact (Stays.buildValue (.of_quiet (.constStruct _ _)) s).steady h
  | functionValue function => exact (Stays.giveValue s _).steady h
  | getParam function index => exact (Stays.giveValue s _).steady h
  | addConstant name type init =>
      exact (Stays.buildValue (.of_quiet (.addConstant _ _ _)) s).steady h
  | binary op lhs rhs name => exact (Stays.buildValue (.binary _ _ _ _) s).steady h
  | not value name => exact (Stays.buildValue (.not _ _) s).steady h
  | compare p lhs rhs name => exact (Stays.buildValue (.compareOf _ _ _ _ _) s).steady h
  | comparePtr p lhs rhs name => exact (Stays.buildValue (.compareOf _ _ _ _ _) s).steady h
  | widen value type name => exact (Stays.buildUnless _ _ (.widen _ _ _) s).steady h
  | cast value type name => exact (Stays.giveValue s _).steady h
  | load type address name => exact (Stays.buildUnless _ _ (.load _ _ _) s).steady h
  | structField type base index name =>
      exact (Stays.buildValue (.structField _ _ _ _) s).steady h
  | call function args name => exact (Stays.buildValue? (.call _ _ _) s).steady h
  | callIndirect sig target args name =>
      exact (Stays.buildValue? (.callIndirect _ _ _ _) s).steady h
  | setStructBody type fields => exact (Stays.act (.of_quiet (.setStructBody _ _)) s).steady h
  | setParamName function index name => exact (Stays.act (.setParamName _ _ _) s).steady h
  | setCurrentFunction function => exact (Stays.act (.setCurrentFunction _) s).steady h
  | store value address => exact (Stays.act (.store _ _) s).steady h
  | jump block => exact (Stays.act (.terminate _) s).steady h
  | branch cond yes no => exact (Stays.act (.branch _ _ _) s).steady h
  | ret value => exact (Stays.act (.terminate _) s).steady h
  | retVoid => exact (Stays.act (.terminate _) s).steady h
  | unreachable => exact (Stays.act (.terminate _) s).steady h
  | structHasBody _ | signatureMatches _ _ | hasBody _ | terminated | verify | functionName _
  | sizeOf _ | hostSize | current | blockLabels _ | errors | print => exact h

/-- Every state that commands lead to is steady. -/
theorem Reached.steady (h : Reached name s) : s.Steady := by
  induction h with
  | start =>
      refine ⟨.of_none rfl fun f => ?_, by simp [Script.ofName], by simp [Script.ofName]⟩
      simp [Script.ofName, Builder.ofName, Module.function, default]
  | command _ c hc ih => exact ih.run c hc
  | reuse _ saved hsaved ih =>
      exact ⟨ih.builder, ih.blocks, fun p hp => ih.saved p (hsaved p hp)⟩

/-- The insertion point never drifts, whatever commands were run, in whatever order, across whatever
functions. Let a block be current. Then the cursor is at its end; the next instruction is put behind
all others of that block and changes no other block; and a stack slot for any function that has
blocks is put in front of all other instructions of the function's entry block, be it the current
block or not, ended or not, changes no other block, and leaves the cursor where it was. For a function
without blocks nothing changes but that a misuse is counted. Whether a block is current or not, moving
a block to the end makes it the last one of its function, permutes the blocks of that function, leaves
the order of the others, and changes neither the contents of any block nor the place. -/
theorem insertion_point_never_drifts (h : Reached name s) :
    (∀ block, s.builder.currentBlock = some block →
      s.builder.cursor = some (.atEnd block) ∧
        (∀ (label : String) (op : Op), ∃ new, new.op = op ∧
          s.builder.Refills block ((s.builder.module.block block).instructions ++ [new])
            ((Build.insert label op).run s.builder).2) ∧
        ∀ (f : FunctionId) (label : String) (type : Ty),
          ((s.builder.module.function f).hasBody = true → ∃ entry slot,
            (s.builder.module.function f).entryBlock? = some entry ∧ slot.op = .alloca type ∧
            ((Build.entryAlloca f label type).run s.builder).1 = .result f slot.id .ptr ∧
            s.builder.Refills ⟨f, entry⟩
              (slot :: (s.builder.module.block ⟨f, entry⟩).instructions)
              ((Build.entryAlloca f label type).run s.builder).2) ∧
          ((s.builder.module.function f).hasBody = false →
            ((Build.entryAlloca f label type).run s.builder).2 =
              { s.builder with errors := s.builder.errors + 1 })) ∧
      ∀ block, s.builder.HasBlock block →
        let b' := ((Build.moveBlockToEnd block).run s.builder).2
        (∀ other, b'.module.block other = s.builder.module.block other) ∧
          (∀ f, f ≠ block.function → b'.module.function f = s.builder.module.function f) ∧
          (b'.module.function block.function).layout =
            (s.builder.module.function block.function).layout.erase block.block ++
              [block.block] ∧
          (∀ f, (b'.module.function f).layout.Perm (s.builder.module.function f).layout) ∧
          (∀ f, (b'.module.function f).blocks.size =
            (s.builder.module.function f).blocks.size) ∧
          b'.cursor = s.builder.cursor ∧ b'.currentBlock = s.builder.currentBlock := by
  have hb := h.steady.builder
  refine ⟨fun block hblock => ⟨hb.cursor block hblock, fun label op => hb.insert hblock label op,
    fun f label type => ⟨fun hbody => hb.entryAlloca hblock hbody label type, fun hbody => ?_⟩⟩,
    fun block hblock => hb.moveBlockToEnd hblock⟩
  have hentry : (s.builder.module.function f).entryBlock? = none := by
    have hlayout := (hb.layout f).length_eq
    simp only [Function.hasBody, Array.isEmpty, Bool.not_eq_false', decide_eq_true_eq] at hbody
    rw [hbody] at hlayout
    rw [Function.entryBlock?, List.head?_eq_none_iff]
    exact List.length_eq_zero_iff.mp (by simpa using hlayout)
  simp only [Build.entryAlloca, StateT.run_bind, StateT.run_get, pure_bind, hentry]
  rfl

/-- A function is ended, and from it the body of a lambda is begun. -/
def lambdaBegun : Script :=
  let signature : ScriptSignature := { params := [], result := none, varargs := false }
  let commands : List Command :=
    [.intType .w32, .declareFunction "main" signature, .appendBlock 0 "entry", .positionAtEnd 0,
      .retVoid, .declareFunction "lambda" signature, .appendBlock 1 "entry", .save,
      .positionAtEnd 1]
  commands.foldl (fun s c => (s.run c).2) (.ofName "unit")

theorem reached_lambdaBegun : Reached "unit" lambdaBegun := by
  iterate 9 refine .command ?_ _ (by decide)
  exact .start

/-- In the body of the lambda, a stack slot for the ended function goes in front of its end, and the
lambda goes on where it was. -/
theorem insertion_point_never_drifts_lambda :
    Reached "unit" lambdaBegun ∧ lambdaBegun.builder.currentBlock = some ⟨1, 0⟩ ∧
      lambdaBegun.builder.cursor = some (.atEnd ⟨1, 0⟩) ∧
      ∃ slot ret : Instruction, slot.op = .alloca .ptr ∧ ret.op = .ret none ∧
        (lambdaBegun.builder.module.block ⟨0, 0⟩).instructions = [ret] ∧
        let b := ((Build.entryAlloca 0 "x" .ptr).run lambdaBegun.builder).2
        (b.module.block ⟨0, 0⟩).instructions = [slot, ret] ∧
          b.cursor = some (.atEnd ⟨1, 0⟩) := by
  have hblock : lambdaBegun.builder.currentBlock = some ⟨1, 0⟩ := by decide
  have hended : (lambdaBegun.builder.module.block ⟨0, 0⟩).instructions =
      [{ id := 0, name := "", op := .ret none }] := rfl
  obtain ⟨hcursor, -, hslot⟩ := (insertion_point_never_drifts reached_lambdaBegun).1 _ hblock
  obtain ⟨entry, slot, hentry, hop, -, hrefills⟩ := (hslot 0 "x" .ptr).1 (by decide)
  obtain rfl : 0 = entry := by
    have hfirst : (lambdaBegun.builder.module.function 0).entryBlock? = some 0 := by decide
    exact Option.some.inj (hfirst.symm.trans hentry)
  refine ⟨reached_lambdaBegun, hblock, hcursor, slot, _, hop, rfl, hended, ?_,
    hrefills.cursor.trans hcursor⟩
  rw [hrefills.self, hended]

end Script

end ClassLang.IR
