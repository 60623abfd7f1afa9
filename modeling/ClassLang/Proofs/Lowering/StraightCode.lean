import Mathlib.Data.List.Basic
import ClassLang.IR.Builder
import ClassLang.IR.Check

/-!
# Straight code

Most steps of building stay in one block: they put instructions that end nothing behind the current
block and stack slots in front of the entry block. `Builder.Straight` is the relation between the
builders before and after such steps, and `KeepsStraight` says that a step is of this kind. An open
block stays open under them, a block that has ended keeps its only terminator, and all blocks keep
their successors.
-/

namespace ClassLang.IR

/-! ## Blocks -/

/-- Whether an operation leaves its function, or marks a place that is never reached. -/
def Op.leaves : Op → Bool
  | ret _ | unreachable => true
  | _ => false

namespace Block

variable {b b' : Block}

/-- Nothing in the block ends it. -/
def Open (b : Block) : Prop :=
  ∀ i ∈ b.instructions, i.op.isTerminator = false

theorem Open.of_nil (h : b.instructions = []) : b.Open := by simp [Open, h]

theorem Open.terminator? (h : b.Open) : b.terminator? = none := by
  unfold Block.terminator?
  split
  · next i hi => simp [h i (List.mem_of_getLast? hi)]
  · rfl

theorem Open.isTerminated (h : b.Open) : b.isTerminated = false := by
  simp [Block.isTerminated, h.terminator?]

theorem Open.successors (h : b.Open) : b.successors = [] := by
  simp [Block.successors, h.terminator?]

/-- The operation at the end of a block, if it is a terminator. -/
theorem terminator?_append {is : List Instruction} {i : Instruction}
    (h : b.instructions = is ++ [i]) :
    b.terminator? = if i.op.isTerminator then some i.op else none := by
  simp [Block.terminator?, h]

/-- An open block that gets a terminator ends once. -/
theorem Open.endsOnce {i : Instruction} (h : b.Open) (hi : i.op.isTerminator = true)
    (happend : b'.instructions = b.instructions ++ [i]) : b'.endsOnce = true := by
  have hplain : b.instructions.all (!·.op.isTerminator) = true := by
    simpa [List.all_eq_true, Open] using h
  simp [Block.endsOnce, Block.isTerminated, terminator?_append happend, hi, happend, hplain]

theorem isTerminated_of_endsOnce (h : b.endsOnce = true) : b.isTerminated = true := by
  simp only [endsOnce, Bool.and_eq_true] at h
  exact h.1

/-- The block got further instructions, none of which ends it: in front only if `front`, behind only
if `back`. -/
def Grows (front back : Prop) (b b' : Block) : Prop :=
  ∃ before after, b'.instructions = before ++ b.instructions ++ after ∧
    (∀ i ∈ before ++ after, i.op.isTerminator = false) ∧
    (before ≠ [] → front) ∧ (after ≠ [] → back)

namespace Grows

variable {front back : Prop} {b'' : Block}

theorem refl (front back : Prop) (b : Block) : Grows front back b b :=
  ⟨[], [], by simp⟩

theorem of_eq (h : b' = b) : Grows front back b b' :=
  h ▸ refl front back b

theorem trans (h : Grows front back b b') (h' : Grows front back b' b'') :
    Grows front back b b'' := by
  obtain ⟨before, after, heq, hplain, hfront, hback⟩ := h
  obtain ⟨before', after', heq', hplain', hfront', hback'⟩ := h'
  refine ⟨before' ++ before, after ++ after', by simp [heq, heq'], fun i hi => ?_, ?_, ?_⟩
  · simp only [List.mem_append] at hi hplain hplain'
    rcases hi with (hi | hi) | (hi | hi)
    · exact hplain' i (.inl hi)
    · exact hplain i (.inl hi)
    · exact hplain i (.inr hi)
    · exact hplain' i (.inr hi)
  · intro hne
    by_cases hbefore : before = []
    · exact hfront' (by simpa [hbefore] using hne)
    · exact hfront hbefore
  · intro hne
    by_cases hafter : after = []
    · exact hback' (by simpa [hafter] using hne)
    · exact hback hafter

/-- A block that gets nothing keeps its instructions. -/
theorem instructions_eq (h : Grows front back b b') (hfront : ¬ front) (hback : ¬ back) :
    b'.instructions = b.instructions := by
  obtain ⟨before, after, heq, -, hf, hb⟩ := h
  have hbefore : before = [] := Classical.byContradiction fun hne => hfront (hf hne)
  have hafter : after = [] := Classical.byContradiction fun hne => hback (hb hne)
  simpa [hbefore, hafter] using heq

/-- An open block stays open. -/
theorem isOpen (h : Grows front back b b') (hopen : b.Open) : b'.Open := by
  obtain ⟨before, after, heq, hplain, -, -⟩ := h
  intro i hi
  simp only [heq, List.mem_append] at hi hplain
  rcases hi with (hi | hi) | hi
  · exact hplain i (.inl hi)
  · exact hopen i hi
  · exact hplain i (.inr hi)

/-- The terminator stays, if only open blocks get something behind. -/
theorem terminator?_eq (h : Grows front back b b') (hback : back → b.Open) :
    b'.terminator? = b.terminator? := by
  by_cases hopen : b.Open
  · rw [hopen.terminator?, (h.isOpen hopen).terminator?]
  · obtain ⟨before, after, heq, hplain, -, hb⟩ := h
    have hafter : after = [] := Classical.byContradiction fun hne => hopen (hback (hb hne))
    have hne : b.instructions ≠ [] := fun hnil => hopen (Open.of_nil hnil)
    have hlast : b'.instructions.getLast? = b.instructions.getLast? := by
      rw [heq, hafter, List.append_nil, List.getLast?_append_of_ne_nil before hne]
    simp [Block.terminator?, hlast]

theorem successors_eq (h : Grows front back b b') (hback : back → b.Open) :
    b'.successors = b.successors := by
  simp [Block.successors, h.terminator?_eq hback]

/-- A block that ended once still does. -/
theorem endsOnce (h : Grows front back b b') (hback : ¬ back) (hends : b.endsOnce = true) :
    b'.endsOnce = true := by
  have hterminated := h.terminator?_eq fun hb => absurd hb hback
  obtain ⟨before, after, heq, hplain, -, hb⟩ := h
  have hafter : after = [] := Classical.byContradiction fun hne => hback (hb hne)
  have hne : b.instructions ≠ [] := by
    intro hnil
    simp [Block.endsOnce, Block.isTerminated, Block.terminator?, hnil] at hends
  have hbefore : before.all (!·.op.isTerminator) = true := by
    simp only [List.all_eq_true]
    exact fun i hi => by simp [hplain i (List.mem_append_left _ hi)]
  simp only [Block.endsOnce, Block.isTerminated, Bool.and_eq_true] at hends ⊢
  refine ⟨by rw [hterminated]; exact hends.1, ?_⟩
  rw [heq, hafter, List.append_nil, List.dropLast_append_of_ne_nil hne, List.all_append, hbefore]
  exact hends.2

/-- What holds of all instructions that end nothing holds of the new ones. -/
theorem forall_mem {P : Instruction → Prop} (h : Grows front back b b')
    (hplain : ∀ i, i.op.isTerminator = false → P i) (hb : ∀ i ∈ b.instructions, P i) :
    ∀ i ∈ b'.instructions, P i := by
  obtain ⟨before, after, heq, hnew, -, -⟩ := h
  intro i hi
  simp only [heq, List.mem_append] at hi hnew
  rcases hi with (hi | hi) | hi
  · exact hplain i (hnew i (.inl hi))
  · exact hb i hi
  · exact hplain i (hnew i (.inr hi))

end Grows

end Block

/-! ## Functions of a module -/

namespace Function

variable (f : Function) (change : Block → Block)

/-- A block that was changed. -/
theorem block_modifyBlock_self {k : Nat} (h : k < f.blocks.size) :
    (f.modifyBlock k change).block k = change (f.block k) := by
  simp only [block, modifyBlock, Array.getD_eq_getD_getElem?, Array.getElem?_modify]
  simp [h]

theorem block_modifyBlock_of_le {k : Nat} (h : f.blocks.size ≤ k) :
    (f.modifyBlock k change).block k = f.block k := by
  simp only [block, modifyBlock, Array.getD_eq_getD_getElem?, Array.getElem?_modify]
  simp [h]

theorem block_modifyBlock_of_ne {k k' : Nat} (h : k' ≠ k) :
    (f.modifyBlock k change).block k' = f.block k' := by
  simp [block, modifyBlock, Array.getD_eq_getD_getElem?, Array.getElem?_modify, Ne.symm h]

@[simp] theorem size_blocks_modifyBlock (k : Nat) :
    (f.modifyBlock k change).blocks.size = f.blocks.size := by
  simp [modifyBlock]

@[simp] theorem layout_modifyBlock (k : Nat) : (f.modifyBlock k change).layout = f.layout := rfl

/-- There is nothing in a block that does not exist. -/
theorem block_of_le {f : Function} {k : Nat} (h : f.blocks.size ≤ k) :
    (f.block k).instructions = [] := by
  have hdefault : f.block k = default := by
    simp [block, Array.getD_eq_getD_getElem?, Array.getElem?_eq_none h]
  rw [hdefault]
  rfl

end Function

namespace Module

variable (m : Module) (change : Function → Function)

@[simp] theorem size_modifyFunction (id : FunctionId) :
    (m.modifyFunction id change).functions.size = m.functions.size := by
  simp [modifyFunction]

theorem function_modifyFunction_self {id : FunctionId} (h : id < m.functions.size) :
    (m.modifyFunction id change).function id = change (m.function id) := by
  simp only [function, modifyFunction, Array.getD_eq_getD_getElem?, Array.getElem?_modify]
  simp [h]

theorem function_modifyFunction_of_ne {id other : FunctionId} (h : other ≠ id) :
    (m.modifyFunction id change).function other = m.function other := by
  simp [function, modifyFunction, Array.getD_eq_getD_getElem?, Array.getElem?_modify, Ne.symm h]

/-- A function that does not exist has no body. -/
theorem hasBody_of_le {m : Module} {id : FunctionId} (h : m.functions.size ≤ id) :
    (m.function id).hasBody = false := by
  have hdefault : m.function id = default := by
    simp [function, Array.getD_eq_getD_getElem?, Array.getElem?_eq_none h]
  rw [hdefault]
  rfl

theorem lt_of_hasBody {m : Module} {id : FunctionId} (h : (m.function id).hasBody = true) :
    id < m.functions.size := by
  by_contra hge
  rw [hasBody_of_le (Nat.le_of_not_lt hge)] at h
  cases h

end Module

/-! ## Builders -/

namespace Builder

variable {b b' b'' : Builder} {f : FunctionId} {c : Nat}

/-- Declared functions exist, and a function without blocks has no layout. -/
structure Sane (b : Builder) : Prop where
  declared : ∀ name id, b.function? name = some id → id < b.module.functions.size
  layout : ∀ id, (b.module.function id).hasBody = false → (b.module.function id).layout = []

/-- A function that has a body may change. -/
theorem Sane.of_others (h : b.Sane) (hdeclared : b'.declared = b.declared)
    (hsize : b'.module.functions.size = b.module.functions.size)
    (hothers : ∀ g, g ≠ f → b'.module.function g = b.module.function g)
    (hbody : 0 < (b'.module.function f).blocks.size) : b'.Sane where
  declared name id hid := by
    rw [hsize]
    exact h.declared name id (by simpa [Builder.function?, hdeclared] using hid)
  layout id hid := by
    by_cases heq : id = f
    · subst heq
      simp only [Function.hasBody, Array.isEmpty, Bool.not_eq_false', decide_eq_true_eq] at hid
      omega
    · rw [hothers id heq] at hid ⊢
      exact h.layout id hid

/-- Building goes on at the end of block `c` of function `f`. -/
structure At (b : Builder) (f : FunctionId) (c : Nat) : Prop where
  function_lt : f < b.module.functions.size
  block_lt : c < (b.module.function f).blocks.size
  cursor : b.cursor = some (.atEnd ⟨f, c⟩)
  block : b.currentBlock = some ⟨f, c⟩

theorem At.hasBody (h : b.At f c) : (b.module.function f).hasBody = true := by
  have hlt := h.block_lt
  simp only [Function.hasBody, Array.isEmpty, Bool.not_eq_true', decide_eq_false_iff_not]
  omega

/-- Whether the current block has ended. -/
theorem At.isTerminated (h : b.At f c) :
    b.isTerminated = ((b.module.function f).block c).isTerminated := by
  simp [Builder.isTerminated, h.block, Module.block]

/-- Neither the functions nor the place of building have changed. -/
structure Quiet (b b' : Builder) : Prop where
  functions : b'.module.functions = b.module.functions
  declared : b'.declared = b.declared
  cursor : b'.cursor = b.cursor
  block : b'.currentBlock = b.currentBlock

/-- Building is where it was, and nothing has changed but what the blocks of function `f` hold. -/
structure InPlace (f : FunctionId) (b b' : Builder) : Prop where
  declared : b'.declared = b.declared
  cursor : b'.cursor = b.cursor
  block : b'.currentBlock = b.currentBlock
  size : b'.module.functions.size = b.module.functions.size
  others : ∀ g, g ≠ f → b'.module.function g = b.module.function g
  blocks : (b'.module.function f).blocks.size = (b.module.function f).blocks.size
  layout : (b'.module.function f).layout = (b.module.function f).layout

namespace InPlace

theorem refl (f : FunctionId) (b : Builder) : InPlace f b b :=
  ⟨rfl, rfl, rfl, rfl, fun _ _ => rfl, rfl, rfl⟩

theorem trans (h : InPlace f b b') (h' : InPlace f b' b'') : InPlace f b b'' where
  declared := h'.declared.trans h.declared
  cursor := h'.cursor.trans h.cursor
  block := h'.block.trans h.block
  size := h'.size.trans h.size
  others g hg := (h'.others g hg).trans (h.others g hg)
  blocks := h'.blocks.trans h.blocks
  layout := h'.layout.trans h.layout

/-- Building goes on in the same place. -/
theorem at_ (h : InPlace f b b') (hat : b.At f c) : b'.At f c where
  function_lt := by rw [h.size]; exact hat.function_lt
  block_lt := by rw [h.blocks]; exact hat.block_lt
  cursor := h.cursor.trans hat.cursor
  block := h.block.trans hat.block

theorem sane (h : InPlace f b b') (hsane : b.Sane) : b'.Sane where
  declared name id hid := by
    rw [h.size]
    exact hsane.declared name id (by simpa [Builder.function?, h.declared] using hid)
  layout id hbody := by
    by_cases hid : id = f
    · subst hid
      rw [h.layout]
      refine hsane.layout id ?_
      simpa [Function.hasBody, Array.isEmpty, h.blocks] using hbody
    · rw [h.others id hid] at hbody ⊢
      exact hsane.layout id hbody

end InPlace

/-- Between the builders, instructions that end nothing were put behind block `c` of function `f`
and in front of its entry block. -/
structure Straight (f : FunctionId) (c : Nat) (b b' : Builder) : Prop extends InPlace f b b' where
  grows : ∀ k, Block.Grows ((b.module.function f).entryBlock? = some k) (k = c)
    ((b.module.function f).block k) ((b'.module.function f).block k)

namespace Straight

theorem refl (f : FunctionId) (c : Nat) (b : Builder) : Straight f c b b :=
  ⟨.refl f b, fun _ => .refl _ _ _⟩

theorem trans (h : Straight f c b b') (h' : Straight f c b' b'') : Straight f c b b'' := by
  refine ⟨h.toInPlace.trans h'.toInPlace, fun k => ?_⟩
  have hgrows := h'.grows k
  rw [Function.entryBlock?, h.layout] at hgrows
  exact (h.grows k).trans hgrows

end Straight

theorem Quiet.straight (h : Quiet b b') (f : FunctionId) (c : Nat) : Straight f c b b' := by
  have hfunction : ∀ g, b'.module.function g = b.module.function g := fun g => by
    simp [Module.function, h.functions]
  exact ⟨⟨h.declared, h.cursor, h.block, by rw [h.functions], fun g _ => hfunction g,
    by rw [hfunction], by rw [hfunction]⟩, fun k => by rw [hfunction]; exact .refl _ _ _⟩

theorem Quiet.refl (b : Builder) : Quiet b b := ⟨rfl, rfl, rfl, rfl⟩

theorem Quiet.trans (h : Quiet b b') (h' : Quiet b' b'') : Quiet b b'' :=
  ⟨h'.functions.trans h.functions, h'.declared.trans h.declared, h'.cursor.trans h.cursor,
    h'.block.trans h.block⟩

end Builder

/-! ## Steps that touch no function -/

variable {α β : Type}

/-- The step leaves functions and place alone. -/
def KeepsQuiet (step : Build α) : Prop :=
  ∀ b : Builder, b.Quiet (step.run b).2

namespace KeepsQuiet

theorem pure (a : α) : KeepsQuiet (Pure.pure a : Build α) := fun b => .refl b

theorem bind {step : Build α} {next : α → Build β} (h : KeepsQuiet step)
    (hnext : ∀ a, KeepsQuiet (next a)) : KeepsQuiet (step >>= next) :=
  fun b => (h b).trans (hnext _ _)

theorem misuse : KeepsQuiet Build.misuse := fun _ => ⟨rfl, rfl, rfl, rfl⟩

theorem namedStruct (name : String) : KeepsQuiet (Build.namedStruct name) :=
  fun _ => ⟨rfl, rfl, rfl, rfl⟩

theorem setStructBody (t : Ty) (fields : List Ty) : KeepsQuiet (Build.setStructBody t fields) := by
  intro b
  show b.Quiet ((if b.structHasBody t then Build.misuse else _ : Build Unit).run b).2
  split
  · exact misuse b
  · split
    · exact ⟨rfl, rfl, rfl, rfl⟩
    · exact misuse b

theorem constStruct (t : Ty) (fields : List Value) : KeepsQuiet (Build.constStruct t fields) := by
  unfold Build.constStruct
  split
  · exact pure _
  · exact misuse.bind fun _ => pure _

theorem addConstant (name : String) (type : Ty) (init : Value) :
    KeepsQuiet (Build.addConstant name type init) :=
  fun _ => ⟨rfl, rfl, rfl, rfl⟩

end KeepsQuiet

/-! ## Inserting -/

namespace Cursor

/-- The block that the next instruction goes to. -/
def ref : Cursor → BlockRef
  | atEnd ref => ref
  | before ref _ => ref

/-- Put an instruction in its place among those of the block. -/
def place (new : Instruction) : Cursor → List Instruction → List Instruction
  | atEnd _, is => is ++ [new]
  | before _ id, is => Build.insertBefore new id is

end Cursor

/-- The builder after an instruction was put into a block. -/
def Builder.withInstruction (b : Builder) (cursor : Cursor) (names : NameTable)
    (new : Instruction) : Builder :=
  { b with module := b.module.modifyFunction cursor.ref.function fun f =>
      Function.modifyBlock { f with names, nextId := new.id + 1 } cursor.ref.block fun block =>
        { block with instructions := cursor.place new block.instructions } }

/-- What inserting an instruction does. -/
theorem insert_run {b : Builder} {cursor : Cursor} (h : b.cursor = some cursor) (name : String)
    (op : Op) : ∃ names new, new.op = op ∧
      new.id = (b.module.function cursor.ref.function).nextId ∧
      (Build.insert name op).run b =
        (.result cursor.ref.function new.id (op.resultType?.getD .ptr),
          b.withInstruction cursor names new) := by
  obtain ⟨module, _, _, _, _, _⟩ := b
  obtain rfl : _ = some cursor := h
  let f := module.function cursor.ref.function
  let named := if op.resultType?.isSome then f.names.take name else ("", f.names)
  refine ⟨named.2, ⟨f.nextId, named.1, op⟩, rfl, rfl, ?_⟩
  cases cursor <;> rfl

/-- What making a stack slot does while a block is current: it is put in front of the instructions of
the entry block of function `f`, which may be another function than that of the current block. -/
theorem Builder.entryAlloca_run {b : Builder} {current : BlockRef}
    (hcursor : b.cursor = some (.atEnd current)) (hblock : b.currentBlock = some current)
    {f : FunctionId} {entry : Nat} (hentry : (b.module.function f).entryBlock? = some entry)
    (name : String) (type : Ty) :
    ∃ cursor names new, cursor.ref = ⟨f, entry⟩ ∧
      cursor.place new ((b.module.function f).block entry).instructions =
        new :: ((b.module.function f).block entry).instructions ∧
      new.op = .alloca type ∧ new.id = (b.module.function f).nextId ∧
      (Build.entryAlloca f name type).run b =
        (.result f new.id .ptr, b.withInstruction cursor names new) := by
  obtain ⟨module, _, function, _, declared, errors⟩ := b
  obtain rfl : _ = some (Cursor.atEnd current) := hcursor
  obtain rfl : _ = some current := hblock
  -- the slot goes in front of the first instruction, or into the empty block
  obtain ⟨cursor, href, hplace, hcode⟩ : ∃ cursor : Cursor, cursor.ref = ⟨f, entry⟩ ∧
      (∀ new, cursor.place new ((module.function f).block entry).instructions =
        new :: ((module.function f).block entry).instructions) ∧
      (Build.entryAlloca f name type).run
          ⟨module, some (.atEnd current), function, some current, declared, errors⟩ =
        let r := (Build.insert name (.alloca type)).run
          ⟨module, some cursor, function, some current, declared, errors⟩
        (r.1, { r.2 with cursor := some (.atEnd current) }) := by
    cases his : ((module.function f).block entry).instructions with
    | nil =>
        refine ⟨.atEnd ⟨f, entry⟩, rfl, fun new => rfl, ?_⟩
        simp only [Build.entryAlloca, StateT.run_bind, StateT.run_get, pure_bind, hentry, his]
        rfl
    | cons first rest =>
        refine ⟨.before ⟨f, entry⟩ first.id, rfl, fun new => ?_, ?_⟩
        · simp [Cursor.place, Build.insertBefore]
        · simp only [Build.entryAlloca, StateT.run_bind, StateT.run_get, pure_bind, hentry, his]
          rfl
  obtain ⟨names, new, hnew, hid, hrun⟩ :=
    insert_run (b := ⟨module, some cursor, function, some current, declared, errors⟩) rfl name
      (.alloca type)
  refine ⟨cursor, names, new, href, hplace new, hnew, by rw [hid, href], ?_⟩
  rw [hcode, hrun, href]
  rfl

namespace Builder

variable {b : Builder} {cursor : Cursor} {names : NameTable} {new : Instruction}

theorem function_withInstruction_of_ne {g : FunctionId} (h : g ≠ cursor.ref.function) :
    (b.withInstruction cursor names new).module.function g = b.module.function g :=
  Module.function_modifyFunction_of_ne _ _ h

@[simp] theorem size_withInstruction :
    (b.withInstruction cursor names new).module.functions.size = b.module.functions.size := by
  simp [withInstruction]

variable {f : FunctionId} {k : Nat} (href : cursor.ref = ⟨f, k⟩)
  (hf : f < b.module.functions.size)

include href hf

/-- The function that an instruction was put into. -/
theorem function_withInstruction :
    (b.withInstruction cursor names new).module.function f =
      Function.modifyBlock { b.module.function f with names, nextId := new.id + 1 } k fun block =>
        { block with instructions := cursor.place new block.instructions } := by
  rw [withInstruction, href]
  exact Module.function_modifyFunction_self _ _ hf

theorem size_blocks_withInstruction :
    ((b.withInstruction cursor names new).module.function f).blocks.size =
      (b.module.function f).blocks.size := by
  simp [function_withInstruction href hf]

theorem layout_withInstruction :
    ((b.withInstruction cursor names new).module.function f).layout =
      (b.module.function f).layout := by
  simp [function_withInstruction href hf]

theorem block_withInstruction (hk : k < (b.module.function f).blocks.size) :
    ((b.withInstruction cursor names new).module.function f).block k =
      { (b.module.function f).block k with
        instructions := cursor.place new ((b.module.function f).block k).instructions } := by
  rw [function_withInstruction href hf]
  exact Function.block_modifyBlock_self _ _ hk

theorem block_withInstruction_of_ne {k' : Nat} (hne : k' ≠ k) :
    ((b.withInstruction cursor names new).module.function f).block k' =
      (b.module.function f).block k' := by
  rw [function_withInstruction href hf]
  exact Function.block_modifyBlock_of_ne _ _ hne

/-- Putting an instruction that ends nothing behind the current or in front of the entry block. -/
theorem withInstruction_straight {c : Nat}
    (hgrows : Block.Grows ((b.module.function f).entryBlock? = some k) (k = c)
      ((b.module.function f).block k) { (b.module.function f).block k with
        instructions := cursor.place new ((b.module.function f).block k).instructions }) :
    Straight f c b (b.withInstruction cursor names new) where
  declared := rfl
  cursor := rfl
  block := rfl
  size := size_withInstruction
  others g hg := function_withInstruction_of_ne (by simpa [href] using hg)
  blocks := size_blocks_withInstruction href hf
  layout := layout_withInstruction href hf
  grows k' := by
    by_cases hk' : k' = k
    · subst hk'
      by_cases hk : k' < (b.module.function f).blocks.size
      · rw [block_withInstruction href hf hk]
        exact hgrows
      · rw [function_withInstruction href hf]
        exact .of_eq (Function.block_modifyBlock_of_le _ _ (Nat.le_of_not_lt hk))
    · exact .of_eq (block_withInstruction_of_ne href hf hk')

end Builder

/-! ## Blocks that are added and moved -/

namespace Builder

/-- Function `f` may have got blocks and another layout; no block has got instructions. -/
structure Rearranges (f : FunctionId) (b b' : Builder) : Prop where
  declared : b'.declared = b.declared
  size : b'.module.functions.size = b.module.functions.size
  others : ∀ g, g ≠ f → b'.module.function g = b.module.function g
  blocks : (b.module.function f).blocks.size ≤ (b'.module.function f).blocks.size
  instructions : ∀ k, ((b'.module.function f).block k).instructions =
    ((b.module.function f).block k).instructions

namespace Rearranges

variable {b b' : Builder} {f : FunctionId} {k : Nat}

theorem isOpen (h : Rearranges f b b') (hopen : ((b.module.function f).block k).Open) :
    ((b'.module.function f).block k).Open := by
  rw [Block.Open, h.instructions]
  exact hopen

theorem endsOnce (h : Rearranges f b b')
    (hends : ((b.module.function f).block k).endsOnce = true) :
    ((b'.module.function f).block k).endsOnce = true := by
  simpa only [Block.endsOnce, Block.isTerminated, Block.terminator?, h.instructions] using hends

theorem sane (h : Rearranges f b b') (hsane : b.Sane)
    (hbody : 0 < (b.module.function f).blocks.size) : b'.Sane :=
  hsane.of_others h.declared h.size h.others (Nat.lt_of_lt_of_le hbody h.blocks)

end Rearranges

variable (b : Builder)

/-- A new block is empty and the last one. -/
theorem appendBlock_run {f : FunctionId} (hf : f < b.module.functions.size) (label : String) :
    let r := (Build.appendBlock f label).run b
    r.1 = ⟨f, (b.module.function f).blocks.size⟩ ∧ b.Rearranges f r.2 ∧
      r.2.cursor = b.cursor ∧ r.2.currentBlock = b.currentBlock ∧
      (r.2.module.function f).blocks.size = (b.module.function f).blocks.size + 1 ∧
      (r.2.module.function f).layout =
        (b.module.function f).layout ++ [(b.module.function f).blocks.size] := by
  intro r
  have hself : r.2.module.function f = { b.module.function f with
      names := ((b.module.function f).names.take label).2
      blocks := (b.module.function f).blocks.push
        { label := ((b.module.function f).names.take label).1 }
      layout := (b.module.function f).layout ++ [(b.module.function f).blocks.size] } :=
    Module.function_modifyFunction_self _ _ hf
  refine ⟨rfl, ⟨rfl, Module.size_modifyFunction _ _ _,
    fun g hg => Module.function_modifyFunction_of_ne _ _ hg, ?_, fun k => ?_⟩, rfl, rfl, ?_, ?_⟩
  · simp [hself]
  · rw [hself]
    simp only [Function.block, Array.getD_eq_getD_getElem?, Array.getElem?_push]
    split
    · next hk => simp [hk, default]
    · rfl
  · simp [hself]
  · simp [hself]

/-- A block that is moved keeps its instructions. -/
theorem moveBlockToEnd_run {f : FunctionId} (hf : f < b.module.functions.size) (k : Nat) :
    let r := (Build.moveBlockToEnd ⟨f, k⟩).run b
    b.Rearranges f r.2 ∧ r.2.cursor = b.cursor ∧ r.2.currentBlock = b.currentBlock ∧
      (r.2.module.function f).blocks.size = (b.module.function f).blocks.size ∧
      (r.2.module.function f).layout = (b.module.function f).layout.erase k ++ [k] := by
  intro r
  have hself : r.2.module.function f = { b.module.function f with
      layout := (b.module.function f).layout.erase k ++ [k] } :=
    Module.function_modifyFunction_self _ _ hf
  refine ⟨⟨rfl, Module.size_modifyFunction _ _ _,
    fun g hg => Module.function_modifyFunction_of_ne _ _ hg, ?_, fun k => ?_⟩, rfl, rfl, ?_, ?_⟩
  · simp [hself]
  · rw [hself]
    rfl
  · simp [hself]
  · simp [hself]

end Builder

/-! ## Blocks that go on -/

/-- Block `k` of function `f` got instructions at its end, and nothing else has changed. -/
structure Builder.Extends (f : FunctionId) (k : Nat) (added : List Instruction) (b b' : Builder) :
    Prop extends Builder.InPlace f b b' where
  self : ((b'.module.function f).block k).instructions =
    ((b.module.function f).block k).instructions ++ added
  rest : ∀ j, j ≠ k → (b'.module.function f).block j = (b.module.function f).block j

namespace Builder.Extends

variable {b b' b'' : Builder} {f : FunctionId} {k : Nat} {added added' : List Instruction}

theorem trans (h : Extends f k added b b') (h' : Extends f k added' b' b'') :
    Extends f k (added ++ added') b b'' where
  toInPlace := h.toInPlace.trans h'.toInPlace
  self := by rw [h'.self, h.self, List.append_assoc]
  rest j hj := (h'.rest j hj).trans (h.rest j hj)

end Builder.Extends

/-- Inserting an instruction into the current block. -/
theorem insert_extends {b : Builder} {f : FunctionId} {c : Nat} (hat : b.At f c) (name : String)
    (op : Op) : ∃ i, i.op = op ∧
      ((Build.insert name op).run b).1 = .result f i.id (op.resultType?.getD .ptr) ∧
      b.Extends f c [i] ((Build.insert name op).run b).2 := by
  obtain ⟨names, i, hi, -, hrun⟩ := insert_run hat.cursor name op
  have href : (Cursor.atEnd ⟨f, c⟩).ref = ⟨f, c⟩ := rfl
  refine ⟨i, hi, by rw [hrun]; rfl, ?_⟩
  rw [hrun]
  exact {
    declared := rfl
    cursor := rfl
    block := rfl
    size := Builder.size_withInstruction
    others := fun g hg => Builder.function_withInstruction_of_ne hg
    blocks := Builder.size_blocks_withInstruction href hat.function_lt
    layout := Builder.layout_withInstruction href hat.function_lt
    self := by
      rw [Builder.block_withInstruction href hat.function_lt hat.block_lt]
      rfl
    rest := fun j hj => Builder.block_withInstruction_of_ne href hat.function_lt hj }

/-- Ending the current block, which is open. -/
theorem terminate_extends {b : Builder} {f : FunctionId} {c : Nat} (hat : b.At f c)
    (hopen : ((b.module.function f).block c).Open) (op : Op) :
    ∃ i, i.op = op ∧ b.Extends f c [i] ((Build.terminate op).run b).2 := by
  obtain ⟨i, hi, -, hextends⟩ := insert_extends hat "" op
  refine ⟨i, hi, ?_⟩
  have hended : b.isTerminated = false := by rw [hat.isTerminated, hopen.isTerminated]
  show b.Extends f c [i] ((if b.isTerminated then Build.misuse else _ : Build Unit).run b).2
  rw [hended]
  exact hextends

/-! ## Steps of straight code -/

/-- The step adds straight code to function `f`, wherever in it building goes on. -/
def KeepsStraight (f : FunctionId) (step : Build α) : Prop :=
  ∀ (c : Nat) (b : Builder), b.At f c → b.Straight f c (step.run b).2

theorem KeepsQuiet.straight {step : Build α} (h : KeepsQuiet step) (f : FunctionId) :
    KeepsStraight f step :=
  fun c b _ => (h b).straight f c

namespace KeepsStraight

variable {f : FunctionId}

theorem pure (a : α) : KeepsStraight f (Pure.pure a : Build α) :=
  (KeepsQuiet.pure a).straight f

theorem bind {step : Build α} {next : α → Build β} (h : KeepsStraight f step)
    (hnext : ∀ a, KeepsStraight f (next a)) : KeepsStraight f (step >>= next) := by
  intro c b hat
  have hfirst := h c b hat
  exact hfirst.trans (hnext _ c _ (hfirst.at_ hat))

theorem read {next : Builder → Build α} (h : ∀ b, KeepsStraight f (next b)) :
    KeepsStraight f (get >>= next) :=
  fun c b hat => h b c b hat

theorem ite {p : Prop} [Decidable p] {yes no : Build α} (hyes : KeepsStraight f yes)
    (hno : KeepsStraight f no) : KeepsStraight f (if p then yes else no) := by
  split
  · exact hyes
  · exact hno

theorem forM {items : List β} {body : β → Build PUnit} (h : ∀ item, KeepsStraight f (body item)) :
    KeepsStraight f (items.forM body) := by
  induction items with
  | nil => exact pure _
  | cons item items ih => exact (h item).bind fun _ => ih

theorem misuse : KeepsStraight f Build.misuse := KeepsQuiet.misuse.straight f

/-- A misuse that is answered by a harmless value. -/
theorem refuse (a : α) : KeepsStraight f (do Build.misuse; Pure.pure a) :=
  misuse.bind fun _ => pure a

/-- Inserting an instruction that ends nothing. -/
theorem insert (name : String) {op : Op} (hop : op.isTerminator = false) :
    KeepsStraight f (Build.insert name op) := by
  intro c b hat
  obtain ⟨i, hi, -, hextends⟩ := insert_extends hat name op
  refine ⟨hextends.toInPlace, fun k => ?_⟩
  by_cases hk : k = c
  · subst hk
    exact ⟨[], [i], by simp [hextends.self], by simp [hi, hop], by simp, fun _ => rfl⟩
  · exact .of_eq (hextends.rest k hk)

/-- A name of a parameter is not part of any block. -/
theorem setParamName (index : Nat) (name : String) :
    KeepsStraight f (Build.setParamName f index name) := by
  intro c b hat
  have hself : ∀ change : Function → Function,
      (b.module.modifyFunction f change).function f = change (b.module.function f) :=
    fun change => Module.function_modifyFunction_self _ change hat.function_lt
  refine ⟨⟨rfl, rfl, rfl, Module.size_modifyFunction _ _ _,
    fun g hg => Module.function_modifyFunction_of_ne _ _ hg, ?_, ?_⟩, fun k => .of_eq ?_⟩
  all_goals
    show _ = _
    simp only [Build.setParamName, Build.modifyModule, modify, modifyGet, MonadStateOf.modifyGet,
      StateT.modifyGet, StateT.run, Pure.pure, hself]
    split
    · rfl
    · split <;> rfl

/-- A stack slot at the start of the entry block. -/
theorem entryAlloca (name : String) (type : Ty) :
    KeepsStraight f (Build.entryAlloca f name type) := by
  intro c b hat
  cases hentry : (b.module.function f).entryBlock? with
  | none =>
      have hrun : (Build.entryAlloca f name type).run b =
          ((do Build.misuse; Pure.pure (.const .null) : Build Value).run b) := by
        simp only [Build.entryAlloca, StateT.run_bind, StateT.run_get, pure_bind, hentry]
      rw [hrun]
      exact refuse _ c b hat
  | some entry =>
      obtain ⟨cursor, names, new, href, hplace, hnew, -, hrun⟩ :=
        Builder.entryAlloca_run hat.cursor hat.block hentry name type
      rw [hrun]
      exact Builder.withInstruction_straight href hat.function_lt
        ⟨[new], [], by simp [hplace], by simp [hnew, Op.isTerminator], fun _ => hentry, by simp⟩

theorem load (type : Ty) (address : Value) (name : String) :
    KeepsStraight f (Build.load type address name) :=
  ite (insert _ rfl) (refuse _)

theorem store (value address : Value) : KeepsStraight f (Build.store value address) :=
  ite ((insert _ rfl).bind fun _ => pure _) misuse

theorem structField (type : Ty) (base : Value) (index : Nat) (name : String) :
    KeepsStraight f (Build.structField type base index name) := by
  unfold Build.structField
  dsimp only
  split
  · refine read fun b => ite ?_ (refuse _)
    split
    · exact pure _
    · exact insert _ rfl
  · exact refuse _

theorem binary (op : IntOp) (lhs rhs : Value) (name : String) :
    KeepsStraight f (Build.binary op lhs rhs name) := by
  refine ite ?_ (refuse _)
  split
  · split
    · exact pure _
    · exact insert _ rfl
  · exact insert _ rfl

theorem not (value : Value) (name : String) : KeepsStraight f (Build.not value name) := by
  unfold Build.not
  split
  · exact binary _ _ _ _
  · exact refuse _

theorem compareOf (wanted : Value → Bool) (p : Predicate) (lhs rhs : Value) (name : String) :
    KeepsStraight f (Build.compareOf wanted p lhs rhs name) := by
  refine ite ?_ (refuse _)
  split
  · split
    · exact pure _
    · exact insert _ rfl
  · exact insert _ rfl

theorem widen (value : Value) (type : Ty) (name : String) :
    KeepsStraight f (Build.widen value type name) := by
  refine ite (ite (pure _) ?_) (refuse _)
  split
  · split
    · exact pure _
    · exact insert _ rfl
  · exact insert _ rfl

theorem call (function : FunctionId) (args : List Value) (name : String) :
    KeepsStraight f (Build.call function args name) :=
  read fun _ => (insert _ rfl).bind fun _ => pure _

theorem callIndirect (type : FnType) (target : Value) (args : List Value) (name : String) :
    KeepsStraight f (Build.callIndirect type target args name) :=
  ite ((insert _ rfl).bind fun _ => pure _) (refuse _)

end KeepsStraight

end ClassLang.IR
