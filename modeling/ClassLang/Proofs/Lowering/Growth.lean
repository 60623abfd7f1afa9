import ClassLang.Proofs.Lowering.InitializationSteps

/-!
# Code that only grows

A block of a function is its stack slots, which stand in front of the entry block, and its code. While
a function is built, code is put behind the current block and slots in front of the entry, so what a
block has by now is a beginning of the code that it has in the end. `Builder.Grows` says so of all
blocks, and that structs, globals and numbers of instructions are not taken back. `Builder.Proceeds`
says in addition that only the current block and new ones have got code.
-/

namespace ClassLang.IR

/-! ## Slots and code -/

/-- The instructions that make stack slots. -/
def slotsOf (is : List Instruction) : List Instruction :=
  is.filter (·.op.isAlloca)

/-- The instructions that do not make stack slots. -/
def codeOf (is : List Instruction) : List Instruction :=
  is.filter (!·.op.isAlloca)

@[simp] theorem slotsOf_append (is is' : List Instruction) :
    slotsOf (is ++ is') = slotsOf is ++ slotsOf is' :=
  List.filter_append ..

@[simp] theorem codeOf_append (is is' : List Instruction) :
    codeOf (is ++ is') = codeOf is ++ codeOf is' :=
  List.filter_append ..

theorem slotsOf_slot {i : Instruction} (h : i.op.isAlloca = true) : slotsOf [i] = [i] := by
  simp [slotsOf, h]

theorem codeOf_slot {i : Instruction} (h : i.op.isAlloca = true) : codeOf [i] = [] := by
  simp [codeOf, h]

theorem slotsOf_plain {i : Instruction} (h : i.op.isAlloca = false) : slotsOf [i] = [] := by
  simp [slotsOf, h]

theorem codeOf_plain {i : Instruction} (h : i.op.isAlloca = false) : codeOf [i] = [i] := by
  simp [codeOf, h]

namespace Block

/-- The instructions of the block that make stack slots. -/
def slots (b : Block) : List Instruction :=
  slotsOf b.instructions

/-- What the block does once the stack slots are made. -/
def code (b : Block) : List Instruction :=
  codeOf b.instructions

theorem mem_of_mem_slots {b : Block} {i : Instruction} (h : i ∈ b.slots) : i ∈ b.instructions :=
  List.mem_of_mem_filter h

theorem mem_of_mem_code {b : Block} {i : Instruction} (h : i ∈ b.code) : i ∈ b.instructions :=
  List.mem_of_mem_filter h

end Block

/-! ## Functions -/

namespace Function

variable {f f' f'' : Function} {k : Nat} {front back : List Instruction}

/-- The function has got further blocks, code and slots. -/
structure Grows (f f' : Function) : Prop where
  blocks : f.blocks.size ≤ f'.blocks.size
  next : f.nextId ≤ f'.nextId
  code : ∀ k, (f.block k).code <+: (f'.block k).code
  slots : ∀ i ∈ (f.block 0).slots, i ∈ (f'.block 0).slots

namespace Grows

theorem refl (f : Function) : f.Grows f :=
  ⟨Nat.le_refl _, Nat.le_refl _, fun _ => List.prefix_refl _, fun _ h => h⟩

theorem trans (h : f.Grows f') (h' : f'.Grows f'') : f.Grows f'' where
  blocks := Nat.le_trans h.blocks h'.blocks
  next := Nat.le_trans h.next h'.next
  code k := (h.code k).trans (h'.code k)
  slots i hi := h'.slots i (h.slots i hi)

/-- A change that leaves the instructions alone. -/
theorem of_instructions (hblocks : f.blocks.size ≤ f'.blocks.size) (hnext : f.nextId ≤ f'.nextId)
    (h : ∀ k, (f'.block k).instructions = (f.block k).instructions) : f.Grows f' where
  blocks := hblocks
  next := hnext
  code k := by
    have hsame : (f'.block k).code = (f.block k).code := by rw [Block.code, Block.code, h]
    exact hsame ▸ List.prefix_refl _
  slots := by
    rw [Block.slots, Block.slots, h]
    exact fun _ => id

/-- A function that is not there yet. -/
theorem of_default (f : Function) : Function.Grows default f where
  blocks := Nat.zero_le _
  next := Nat.zero_le _
  code k := by
    rw [Block.code, block_of_le (Nat.zero_le k)]
    exact List.nil_prefix
  slots := by
    rw [Block.slots, block_of_le (Nat.zero_le 0)]
    simp [slotsOf]

end Grows

/-- Slots stand in front of the entry block, which is block 0. Numbers of instructions were given
out, those of slots once. -/
structure Shaped (f : Function) : Prop where
  entry : f.blocks.size = 0 ∧ f.layout = [] ∨ 0 < f.blocks.size ∧ f.entryBlock? = some 0
  front : (f.block 0).instructions = (f.block 0).slots ++ (f.block 0).code
  slots : ∀ k, k ≠ 0 → (f.block k).slots = []
  ids : ∀ k, ∀ i ∈ (f.block k).instructions, i.id < f.nextId
  nodup : ((f.block 0).slots.map (·.id)).Nodup
  apart : ∀ k, ∀ i ∈ (f.block k).code, ∀ slot ∈ (f.block 0).slots, i.id ≠ slot.id

namespace Shaped

theorem entryBlock?_eq (h : f.Shaped) (hsize : 0 < f.blocks.size) : f.entryBlock? = some 0 :=
  h.entry.elim (fun hzero => absurd hzero.1 (Nat.ne_of_gt hsize)) And.right

/-- A block other than the entry has nothing but code. -/
theorem code_eq (h : f.Shaped) (hk : k ≠ 0) : (f.block k).code = (f.block k).instructions := by
  have hslots := h.slots k hk
  rw [Block.slots, slotsOf, List.filter_eq_nil_iff] at hslots
  rw [Block.code, codeOf, List.filter_eq_self]
  intro i hi
  simpa using hslots i hi

/-- A change that leaves instructions and numbers alone. -/
theorem of_instructions (h : f.Shaped)
    (hentry : f'.blocks.size = 0 ∧ f'.layout = [] ∨ 0 < f'.blocks.size ∧ f'.entryBlock? = some 0)
    (hnext : f'.nextId = f.nextId)
    (hsame : ∀ k, (f'.block k).instructions = (f.block k).instructions) : f'.Shaped where
  entry := hentry
  front := by
    simpa only [Block.slots, Block.code, hsame] using h.front
  slots k hk := by
    simpa only [Block.slots, hsame] using h.slots k hk
  ids k := by
    rw [hsame, hnext]
    exact h.ids k
  nodup := by
    simpa only [Block.slots, hsame] using h.nodup
  apart k := by
    simpa only [Block.slots, Block.code, hsame] using h.apart k

/-- There is nothing wrong with a function without blocks. -/
theorem of_no_blocks (hblocks : f.blocks.size = 0) (hlayout : f.layout = []) : f.Shaped := by
  have hempty : ∀ k, (f.block k).instructions = [] := fun k => block_of_le (by omega)
  refine ⟨.inl ⟨hblocks, hlayout⟩, ?_, fun k _ => ?_, fun k => by simp [hempty], ?_, fun k => ?_⟩ <;>
    simp [Block.slots, Block.code, hempty, slotsOf, codeOf]

end Shaped

namespace Inserts

theorem slots_self (h : f.Inserts k front back f') :
    (f'.block k).slots = slotsOf front ++ (f.block k).slots ++ slotsOf back := by
  simp [Block.slots, h.self]

theorem code_self (h : f.Inserts k front back f') :
    (f'.block k).code = codeOf front ++ (f.block k).code ++ codeOf back := by
  simp [Block.code, h.self]

theorem code_rest (h : f.Inserts k front back f') {j : Nat} (hj : j ≠ k) :
    (f'.block j).code = (f.block j).code := by
  rw [Block.code, h.rest j hj, Block.code]

theorem slots_rest (h : f.Inserts k front back f') {j : Nat} (hj : j ≠ k) :
    (f'.block j).slots = (f.block j).slots := by
  rw [Block.slots, h.rest j hj, Block.slots]

/-- What is put in front makes slots, so code is only added behind. -/
theorem grows (h : f.Inserts k front back f') (hfront : codeOf front = []) : f.Grows f' where
  blocks := Nat.le_of_eq h.blocks.symm
  next := h.next ▸ Nat.le_succ _
  code j := by
    by_cases hj : j = k
    · subst hj
      rw [h.code_self, hfront, List.nil_append]
      exact List.prefix_append _ _
    · exact (h.code_rest hj).symm ▸ List.prefix_refl _
  slots := by
    by_cases hzero : 0 = k
    · subst hzero
      rw [h.slots_self]
      exact fun i hi => List.mem_append_left _ (List.mem_append_right _ hi)
    · rw [h.slots_rest hzero]
      exact fun _ => id

theorem ids_lt (h : f.Inserts k front back f') (hf : f.Shaped) (j : Nat) :
    ∀ i ∈ (f'.block j).instructions, i.id < f'.nextId := by
  intro i hi
  rw [h.next]
  rcases h.mem hi with hi | hi
  · exact Nat.lt_succ_of_lt (hf.ids j i hi)
  · exact h.ids i hi ▸ Nat.lt_succ_self _

theorem entry_iff (h : f.Inserts k front back f') (hf : f.Shaped) :
    f'.blocks.size = 0 ∧ f'.layout = [] ∨ 0 < f'.blocks.size ∧ f'.entryBlock? = some 0 := by
  rw [h.blocks, entryBlock?, h.layout]
  exact hf.entry

/-- Code behind a block. -/
theorem shaped_back {i : Instruction} (h : f.Inserts k [] [i] f') (hi : i.op.isAlloca = false)
    (hf : f.Shaped) : f'.Shaped := by
  have hslots : ∀ j, (f'.block j).slots = (f.block j).slots := by
    intro j
    by_cases hj : j = k
    · subst hj
      rw [h.slots_self, slotsOf_plain hi, List.append_nil]
      rfl
    · exact h.slots_rest hj
  refine ⟨h.entry_iff hf, ?_, fun j hj => (hslots j).trans (hf.slots j hj), h.ids_lt hf, ?_,
    fun j code hcode slot hslot => ?_⟩
  · rw [hslots]
    by_cases hzero : 0 = k
    · subst hzero
      rw [h.code_self, h.self, codeOf_plain hi, hf.front]
      simp [codeOf, slotsOf, Block.slots, Block.code]
    · rw [h.rest 0 hzero, h.code_rest hzero]
      exact hf.front
  · rw [hslots]
    exact hf.nodup
  · rw [hslots] at hslot
    have hlt := hf.ids 0 slot (Block.mem_of_mem_slots hslot)
    by_cases hj : j = k
    · subst hj
      rw [h.code_self, codeOf_plain hi] at hcode
      rcases List.mem_append.mp hcode with hcode | hcode
      · exact hf.apart j code (by simpa [codeOf] using hcode) slot hslot
      · rw [List.mem_singleton.mp hcode, h.ids i (by simp)]
        exact Nat.ne_of_gt hlt
    · rw [h.code_rest hj] at hcode
      exact hf.apart j code hcode slot hslot

/-- A slot in front of the entry. -/
theorem shaped_front {i : Instruction} (h : f.Inserts 0 [i] [] f') (hi : i.op.isAlloca = true)
    (hf : f.Shaped) : f'.Shaped := by
  have hslots : (f'.block 0).slots = i :: (f.block 0).slots := by
    rw [h.slots_self, slotsOf_slot hi]
    simp [slotsOf]
  have hcode : ∀ j, (f'.block j).code = (f.block j).code := by
    intro j
    by_cases hj : j = 0
    · subst hj
      rw [h.code_self, codeOf_slot hi]
      simp [codeOf]
    · exact h.code_rest hj
  refine ⟨h.entry_iff hf, ?_, fun j hj => (h.slots_rest hj).trans (hf.slots j hj), h.ids_lt hf, ?_,
    fun j code hmem slot hslot => ?_⟩
  · rw [hslots, h.code_self, h.self, codeOf_slot hi, hf.front]
    simp [codeOf, slotsOf, Block.slots, Block.code]
  · rw [hslots, List.map_cons, List.nodup_cons]
    refine ⟨fun hmem => ?_, hf.nodup⟩
    obtain ⟨j, hj, hid⟩ := List.mem_map.mp hmem
    have hlt := hf.ids 0 j (Block.mem_of_mem_slots hj)
    rw [hid, h.ids i (by simp)] at hlt
    exact Nat.lt_irrefl _ hlt
  · rw [hcode] at hmem
    rw [hslots] at hslot
    rcases List.mem_cons.mp hslot with rfl | hslot
    · rw [h.ids slot (by simp)]
      exact Nat.ne_of_lt (hf.ids j code (Block.mem_of_mem_code hmem))
    · exact hf.apart j code hmem slot hslot

end Inserts

end Function

/-! ## Builders -/

/-- The fields of a struct, if its body is given. -/
def Structs.body? (structs : Structs) (id : StructId) : Option (List Ty) :=
  structs[id]?.bind (·.fields)

namespace Builder

variable {b b' b'' : Builder} {f : FunctionId} {c c' c'' : Nat} {own : Option FunctionId}

/-- Misuses, bodies of structs and globals are not taken back. -/
structure Enlarges (b b' : Builder) : Prop where
  errors : b.errors ≤ b'.errors
  structs : ∀ id fields, b.module.structs.body? id = some fields →
    b'.module.structs.body? id = some fields
  globals : ∀ (id : GlobalId) (g : Global), b.module.globals[id]? = some g →
    b'.module.globals[id]? = some g

theorem Enlarges.refl (b : Builder) : b.Enlarges b :=
  ⟨Nat.le_refl _, fun _ _ => id, fun _ _ => id⟩

theorem Enlarges.trans (h : b.Enlarges b') (h' : b'.Enlarges b'') : b.Enlarges b'' where
  errors := Nat.le_trans h.errors h'.errors
  structs id fields hid := h'.structs id fields (h.structs id fields hid)
  globals id g hid := h'.globals id g (h.globals id g hid)

/-- A step that leaves structs and globals alone. -/
theorem Enlarges.of_eq (herrors : b.errors ≤ b'.errors)
    (hstructs : b'.module.structs = b.module.structs)
    (hglobals : b'.module.globals = b.module.globals) : b.Enlarges b' :=
  ⟨herrors, fun _ _ => by rw [hstructs]; exact id, fun _ _ => by rw [hglobals]; exact id⟩

/-- Declared functions keep their names and types. -/
structure KeepsFunctions (b b' : Builder) : Prop where
  names : ∀ name id, b.function? name = some id → b'.function? name = some id
  types : ∀ g, g < b.module.functions.size → g < b'.module.functions.size ∧
    (b'.module.function g).type = (b.module.function g).type

namespace KeepsFunctions

theorem refl (b : Builder) : b.KeepsFunctions b :=
  ⟨fun _ _ => id, fun _ hg => ⟨hg, rfl⟩⟩

theorem trans (h : b.KeepsFunctions b') (h' : b'.KeepsFunctions b'') : b.KeepsFunctions b'' where
  names name id hid := h'.names name id (h.names name id hid)
  types g hg :=
    have htype := h.types g hg
    have htype' := h'.types g htype.1
    ⟨htype'.1, htype'.2.trans htype.2⟩

/-- No function was declared. -/
theorem of_types (hdeclared : b'.declared = b.declared)
    (hsize : b'.module.functions.size = b.module.functions.size)
    (htypes : ∀ g, (b'.module.function g).type = (b.module.function g).type) : b.KeepsFunctions b' where
  names _ _ := by rw [function?, function?, hdeclared]; exact id
  types g hg := ⟨hsize ▸ hg, htypes g⟩

end KeepsFunctions

/-- Nothing that was built is taken back. -/
structure Grows (b b' : Builder) : Prop extends Enlarges b b' where
  functions : ∀ g, (b.module.function g).Grows (b'.module.function g)
  kept : b.KeepsFunctions b'

theorem Grows.refl (b : Builder) : b.Grows b :=
  ⟨.refl b, fun _ => .refl _, .refl b⟩

theorem Grows.trans (h : b.Grows b') (h' : b'.Grows b'') : b.Grows b'' :=
  ⟨h.toEnlarges.trans h'.toEnlarges, fun g => (h.functions g).trans (h'.functions g),
    h.kept.trans h'.kept⟩

/-- Only the place where building goes on has changed. -/
theorem Grows.of_module (hmodule : b'.module = b.module) (hdeclared : b'.declared = b.declared)
    (herrors : b'.errors = b.errors) : b.Grows b' :=
  ⟨.of_eq (Nat.le_of_eq herrors.symm) (by rw [hmodule]) (by rw [hmodule]),
    fun _ => by rw [hmodule]; exact .refl _,
    .of_types hdeclared (by rw [hmodule]) fun _ => by rw [hmodule]⟩

/-- Declared functions exist, and all functions are shaped. -/
structure Shaped (b : Builder) : Prop where
  functions : ∀ g, (b.module.function g).Shaped
  declared : ∀ name id, b.function? name = some id → id < b.module.functions.size

/-- The builder goes on from another one; functions with a body other than the `own` one stay as they
are. -/
structure Continues (own : Option FunctionId) (b b' : Builder) : Prop where
  grows : b.Grows b'
  shaped : b.Shaped → b'.Shaped
  others : ∀ g, own ≠ some g → (b.module.function g).hasBody = true →
    b'.module.function g = b.module.function g

namespace Continues

theorem refl (b : Builder) : Continues own b b :=
  ⟨.refl b, id, fun _ _ _ => rfl⟩

theorem trans (h : Continues own b b') (h' : Continues own b' b'') : Continues own b b'' where
  grows := h.grows.trans h'.grows
  shaped := h'.shaped ∘ h.shaped
  others g hg hbody := by
    have hsame := h.others g hg hbody
    rw [h'.others g hg (hsame ▸ hbody), hsame]

/-- Building in a function that had no body before. -/
theorem close (h : Continues (some f) b b') (hbody : (b.module.function f).hasBody = false) :
    Continues own b b' :=
  { h with others := fun g _ hg => h.others g (by rintro ⟨⟩; rw [hbody] at hg; cases hg) hg }

theorem weaken (h : Continues none b b') : Continues own b b' :=
  { h with others := fun g _ hg => h.others g (by simp) hg }

/-- Structs and globals were added. -/
theorem of_quiet (h : b.Quiet b') (he : b.Enlarges b') : Continues own b b' := by
  have hfunction : ∀ g, b'.module.function g = b.module.function g := fun g => by
    simp [Module.function, h.functions]
  refine ⟨⟨he, fun g => hfunction g ▸ .refl _, .of_types h.declared (by rw [h.functions])
    fun g => by rw [hfunction]⟩, fun hb => ⟨fun g => hfunction g ▸ hb.functions g, ?_⟩,
    fun g _ _ => hfunction g⟩
  intro name id hid
  rw [h.functions]
  exact hb.declared name id (by simpa [Builder.function?, h.declared] using hid)

/-- One function was built on. -/
theorem of_function (he : b.Enlarges b') (hdeclared : b'.declared = b.declared)
    (hsize : b'.module.functions.size = b.module.functions.size)
    (hothers : ∀ g, g ≠ f → b'.module.function g = b.module.function g)
    (htype : (b'.module.function f).type = (b.module.function f).type)
    (hgrows : (b.module.function f).Grows (b'.module.function f))
    (hshaped : (b.module.function f).Shaped → (b'.module.function f).Shaped) :
    Continues (some f) b b' where
  grows := by
    refine ⟨he, fun g => ?_, .of_types hdeclared hsize fun g => ?_⟩ <;> by_cases hg : g = f
    · exact hg ▸ hgrows
    · exact hothers g hg ▸ .refl _
    · exact hg ▸ htype
    · rw [hothers g hg]
  shaped hb := by
    refine ⟨fun g => ?_, fun name id hid => ?_⟩
    · by_cases hg : g = f
      · exact hg ▸ hshaped (hb.functions f)
      · exact hothers g hg ▸ hb.functions g
    · rw [hsize]
      exact hb.declared name id (by simpa [Builder.function?, hdeclared] using hid)
  others g hg _ := hothers g fun heq => hg (heq ▸ rfl)

end Continues

/-- Building went on from block `c` of function `f` to block `c'`: only these and new blocks have got
code. -/
structure Proceeds (f : FunctionId) (c c' : Nat) (b b' : Builder) : Prop
    extends Continues (some f) b b' where
  current : c' = c ∨ (b.module.function f).blocks.size ≤ c'
  rest : ∀ k, k < (b.module.function f).blocks.size → k ≠ c →
    ((b'.module.function f).block k).code = ((b.module.function f).block k).code

namespace Proceeds

theorem refl (f : FunctionId) (c : Nat) (b : Builder) : Proceeds f c c b b :=
  ⟨.refl b, .inl rfl, fun _ _ _ => rfl⟩

theorem trans (h : Proceeds f c c' b b') (h' : Proceeds f c' c'' b' b'') :
    Proceeds f c c'' b b'' where
  toContinues := h.toContinues.trans h'.toContinues
  current := by
    have hle := (h.grows.functions f).blocks
    rcases h'.current with rfl | hnew
    · exact h.current
    · exact .inr (Nat.le_trans hle hnew)
  rest k hk hne := by
    have hle := (h.grows.functions f).blocks
    rw [h'.rest k (Nat.lt_of_lt_of_le hk hle), h.rest k hk hne]
    rintro rfl
    exact h.current.elim hne fun hnew => absurd hk (Nat.not_lt.mpr hnew)

end Proceeds

/-- Code was added to the current block `c` of function `f`, and slots to its entry. -/
structure Adds (f : FunctionId) (c : Nat) (b b' : Builder) : Prop where
  at_ : b'.At f c
  proceeds : b.Proceeds f c c b'

theorem Adds.refl (h : b.At f c) : Adds f c b b := ⟨h, .refl f c b⟩

theorem Adds.trans (h : Adds f c b b') (h' : Adds f c b' b'') : Adds f c b b'' :=
  ⟨h'.at_, h.proceeds.trans h'.proceeds⟩

theorem Adds.of_quiet (hat : b.At f c) (h : b.Quiet b') (he : b.Enlarges b') : Adds f c b b' where
  at_ := (h.straight f c).at_ hat
  proceeds := by
    refine ⟨.of_quiet h he, .inl rfl, fun k _ _ => ?_⟩
    simp [Module.function, h.functions]

/-- A number of instructions behind the current block. -/
theorem Adds.of_function (hat : b'.At f c) (he : b.Enlarges b') (hdeclared : b'.declared = b.declared)
    (hsize : b'.module.functions.size = b.module.functions.size)
    (hothers : ∀ g, g ≠ f → b'.module.function g = b.module.function g)
    (htype : (b'.module.function f).type = (b.module.function f).type)
    (hgrows : (b.module.function f).Grows (b'.module.function f))
    (hshaped : (b.module.function f).Shaped → (b'.module.function f).Shaped)
    (hrest : ∀ k, k ≠ c →
      ((b'.module.function f).block k).code = ((b.module.function f).block k).code) :
    Adds f c b b' where
  at_ := hat
  proceeds := ⟨.of_function he hdeclared hsize hothers htype hgrows hshaped, .inl rfl, fun k _ => hrest k⟩

end Builder

/-! ## Inserting -/

section Inserting

variable {b : Builder} {f : FunctionId} {c : Nat}

/-- An instruction that is put into a function is not part of its type. -/
theorem Builder.type_withInstruction {cursor : Cursor} {names : NameTable} {new : Instruction} {k : Nat}
    (href : cursor.ref = ⟨f, k⟩) (hf : f < b.module.functions.size) :
    ((b.withInstruction cursor names new).module.function f).type = (b.module.function f).type := by
  rw [function_withInstruction href hf]
  rfl

/-- Inserting an instruction behind the current block gives it the next number. -/
theorem insert_adds (hat : b.At f c) (name : String) {op : Op} (hop : op.isAlloca = false) :
    let r := (Build.insert name op).run b
    b.Adds f c r.2 ∧ ∃ i, i.op = op ∧ i.id = (b.module.function f).nextId ∧
      r.1 = .result f i.id (op.resultType?.getD .ptr) ∧
      (b.module.function f).Inserts c [] [i] (r.2.module.function f) := by
  intro r
  obtain ⟨_, -, -, hextends⟩ := insert_extends hat name op
  obtain ⟨names, new, rfl, hid, hrun⟩ := insert_run hat.cursor name op
  have hr : r = (.result f new.id (new.op.resultType?.getD .ptr), _) := hrun
  have hinserts : (b.module.function f).Inserts c [] [new] (r.2.module.function f) := by
    rw [hr]
    exact Builder.withInstruction_inserts rfl hat.function_lt hat.block_lt hid
      (by simp [Cursor.place]) rfl
  have henlarges : b.Enlarges r.2 := by
    rw [hr]
    exact .of_eq (Nat.le_refl _) rfl rfl
  have htype : (r.2.module.function f).type = (b.module.function f).type := by
    rw [hr]
    exact Builder.type_withInstruction rfl hat.function_lt
  refine ⟨.of_function (hextends.at_ hat) henlarges hextends.declared hextends.size
    hextends.others htype (hinserts.grows rfl) (hinserts.shaped_back hop) fun k hk => ?_, new, rfl, hid,
    by rw [hr], hinserts⟩
  exact hinserts.code_rest hk

/-- Making a stack slot. -/
theorem entryAlloca_adds (hat : b.At f c) (hb : b.Shaped) (name : String) (type : Ty) :
    let r := (Build.entryAlloca f name type).run b
    b.Adds f c r.2 ∧ ∃ i, i.op = .alloca type ∧ i.id = (b.module.function f).nextId ∧
      r.1 = .result f i.id .ptr ∧
      (b.module.function f).Inserts 0 [i] [] (r.2.module.function f) := by
  intro r
  have hstraight := KeepsStraight.entryAlloca name type c b hat
  have hentry := (hb.functions f).entryBlock?_eq (Nat.zero_lt_of_lt hat.block_lt)
  obtain ⟨cursor, names, new, href, hplace, hop, hid, hrun⟩ :=
    Builder.entryAlloca_run hat.cursor hat.block hentry name type
  have hr : r = _ := hrun
  have hinserts : (b.module.function f).Inserts 0 [new] [] (r.2.module.function f) := by
    rw [hr]
    exact Builder.withInstruction_inserts href hat.function_lt (Nat.zero_lt_of_lt hat.block_lt) hid
      (by simp [hplace]) rfl
  have hslot : new.op.isAlloca = true := by rw [hop]; rfl
  have henlarges : b.Enlarges r.2 := by
    rw [hr]
    exact .of_eq (Nat.le_refl _) rfl rfl
  have htype : (r.2.module.function f).type = (b.module.function f).type := by
    rw [hr]
    exact Builder.type_withInstruction href hat.function_lt
  refine ⟨.of_function (hstraight.at_ hat) henlarges hstraight.declared hstraight.size
    hstraight.others htype (hinserts.grows (codeOf_slot hslot)) (hinserts.shaped_front hslot)
    fun k _ => ?_, new, hop, hid, by rw [hr], hinserts⟩
  by_cases hk : k = 0
  · subst hk
    rw [hinserts.code_self, codeOf_slot hslot]
    simp [codeOf]
  · exact hinserts.code_rest hk

end Inserting

/-! ## Operands -/

/-- What refers to results of instructions. -/
class HasOperands (α : Type) where
  /-- The numbers of the results that it refers to are below a bound. -/
  Below : Nat → α → Prop
  below_mono {n n' : Nat} {a : α} : n ≤ n' → Below n a → Below n' a

open HasOperands (Below)

section Operands

variable {α β : Type} {n n' : Nat}

/-- Most things refer to no results. -/
instance (priority := low) noOperands : HasOperands α := ⟨fun _ _ => True, fun _ => id⟩

instance : HasOperands Value where
  Below n
    | .result _ id _ => id < n
    | _ => True
  below_mono {_ _ v} h := by
    cases v with
    | result _ _ _ => exact fun hlt => Nat.lt_of_lt_of_le hlt h
    | _ => exact id

instance [HasOperands α] : HasOperands (Option α) :=
  ⟨fun n o => ∀ a, o = some a → Below n a, fun h ho a ha => HasOperands.below_mono h (ho a ha)⟩

instance [HasOperands α] : HasOperands (List α) :=
  ⟨fun n l => ∀ a ∈ l, Below n a, fun h hl a ha => HasOperands.below_mono h (hl a ha)⟩

instance [HasOperands α] [HasOperands β] : HasOperands (α × β) :=
  ⟨fun n p => Below n p.1 ∧ Below n p.2,
    fun h hp => ⟨HasOperands.below_mono h hp.1, HasOperands.below_mono h hp.2⟩⟩

theorem HasOperands.Below.mono [HasOperands α] {a : α} (h : Below n a) (hle : n ≤ n') :
    Below n' a :=
  HasOperands.below_mono hle h

theorem below_none [HasOperands α] : Below n (none : Option α) := fun _ h => nomatch h

theorem below_some [HasOperands α] {a : α} (h : Below n a) : Below n (some a) :=
  fun _ heq => Option.some.inj heq ▸ h

theorem below_nil [HasOperands α] : Below n ([] : List α) := fun _ h => nomatch h

theorem below_cons [HasOperands α] {a : α} {l : List α} (ha : Below n a) (hl : Below n l) :
    Below n (a :: l) :=
  List.forall_mem_cons.mpr ⟨ha, hl⟩

theorem below_append [HasOperands α] {l l' : List α} (h : Below n l) (h' : Below n l') :
    Below n (l ++ l') :=
  List.forall_mem_append.mpr ⟨h, h'⟩

end Operands

/-! ## Steps of building -/

variable {α β : Type} {f : FunctionId} {n : Nat}

/-- The number of the next instruction of a function. -/
def Builder.next (b : Builder) (f : FunctionId) : Nat :=
  (b.module.function f).nextId

theorem Builder.Adds.next_le {b b' : Builder} {c : Nat} (h : b.Adds f c b') :
    b.next f ≤ b'.next f :=
  (h.proceeds.grows.functions f).next

/-- Once the numbers below `n` are given out, the step adds code to the current block, wherever in
function `f` building goes on, and what it gives refers to instructions that are there. -/
def KeepsAdding [HasOperands α] (f : FunctionId) (n : Nat) (step : Build α) : Prop :=
  ∀ (c : Nat) (b : Builder), b.At f c → b.Shaped → n ≤ b.next f →
    b.Adds f c (step.run b).2 ∧ Below ((step.run b).2.next f) (step.run b).1

/-- The step takes back no misuse, struct or global. -/
def KeepsEnlarging (step : Build α) : Prop :=
  ∀ b : Builder, b.Enlarges (step.run b).2

namespace KeepsEnlarging

theorem pure (a : α) : KeepsEnlarging (Pure.pure a : Build α) := fun b => .refl b

theorem bind {step : Build α} {next : α → Build β} (h : KeepsEnlarging step)
    (hnext : ∀ a, KeepsEnlarging (next a)) : KeepsEnlarging (step >>= next) :=
  fun b => (h b).trans (hnext _ _)

theorem misuse : KeepsEnlarging Build.misuse :=
  fun _ => .of_eq (Nat.le_succ _) rfl rfl

theorem namedStruct (name : String) : KeepsEnlarging (Build.namedStruct name) := by
  refine fun b => ⟨Nat.le_refl _, fun id fields hid => ?_, fun _ _ => id⟩
  have hlt : id < b.module.structs.size := by
    by_contra hge
    simp [Structs.body?, Array.getElem?_eq_none (Nat.le_of_not_lt hge)] at hid
  show (Array.push _ _)[id]?.bind _ = _
  rw [Array.getElem?_push, if_neg (Nat.ne_of_lt hlt)]
  exact hid

theorem setStructBody (t : Ty) (fields : List Ty) :
    KeepsEnlarging (Build.setStructBody t fields) := by
  intro b
  show b.Enlarges ((if b.structHasBody t then Build.misuse else _ : Build Unit).run b).2
  split
  · exact misuse b
  · next hbody =>
      split
      · next id =>
          refine ⟨Nat.le_refl _, fun id' fields' hid => ?_, fun _ _ hg => hg⟩
          have hne : id ≠ id' := by
            rintro rfl
            simp only [Structs.body?] at hid
            simp [Builder.structHasBody, hid] at hbody
          show (Array.modify _ id _)[id']?.bind _ = _
          rw [Array.getElem?_modify, if_neg hne]
          exact hid
      · exact misuse b

theorem constStruct (t : Ty) (fields : List Value) :
    KeepsEnlarging (Build.constStruct t fields) := by
  unfold Build.constStruct
  split
  · exact pure _
  · exact misuse.bind fun _ => pure _

theorem addConstant (name : String) (type : Ty) (init : Value) :
    KeepsEnlarging (Build.addConstant name type init) := by
  refine fun b => ⟨Nat.le_refl _, fun _ _ => id, fun id g hid => ?_⟩
  have hlt : id < b.module.globals.size := by
    by_contra hge
    simp [Array.getElem?_eq_none (Nat.le_of_not_lt hge)] at hid
  show (Array.push _ _)[id]? = _
  rw [Array.getElem?_push, if_neg (Nat.ne_of_lt hlt)]
  exact hid

end KeepsEnlarging

namespace KeepsAdding

theorem of_quiet [HasOperands α] {step : Build α} (h : KeepsQuiet step) (he : KeepsEnlarging step)
    (hbelow : ∀ n b, Below n (step.run b).1) : KeepsAdding f n step :=
  fun _ b hat _ _ => ⟨.of_quiet hat (h b) (he b), hbelow _ _⟩

theorem mono [HasOperands α] {step : Build α} {n' : Nat} (h : KeepsAdding f n step)
    (hle : n ≤ n') : KeepsAdding f n' step :=
  fun c b hat hb hn => h c b hat hb (Nat.le_trans hle hn)

theorem pure [HasOperands α] {a : α} (h : Below n a) : KeepsAdding f n (Pure.pure a : Build α) :=
  fun _ _ hat _ hn => ⟨.refl hat, h.mono hn⟩

theorem done : KeepsAdding f n (Pure.pure ⟨⟩ : Build PUnit) := pure trivial

/-- What comes after a step may use what the step gives. -/
theorem bind [HasOperands α] [HasOperands β] {step : Build α} {next : α → Build β}
    (h : KeepsAdding f n step)
    (hnext : ∀ a n', n ≤ n' → Below n' a → KeepsAdding f n' (next a)) :
    KeepsAdding f n (step >>= next) := by
  intro c b hat hb hn
  obtain ⟨hfirst, ha⟩ := h c b hat hb hn
  obtain ⟨hrest, hr⟩ := hnext _ _ (Nat.le_trans hn hfirst.next_le) ha c _ hfirst.at_
    (hfirst.proceeds.shaped hb) (Nat.le_refl _)
  exact ⟨hfirst.trans hrest, hr⟩

/-- What comes after a step does not depend on what it gives. -/
theorem andThen [HasOperands α] [HasOperands β] {step : Build α} {next : α → Build β}
    (h : KeepsAdding f n step) (hnext : ∀ a, KeepsAdding f n (next a)) :
    KeepsAdding f n (step >>= next) :=
  h.bind fun a _ hle _ => (hnext a).mono hle

theorem read [HasOperands α] {next : Builder → Build α} (h : ∀ b, KeepsAdding f n (next b)) :
    KeepsAdding f n (get >>= next) :=
  fun c b hat hb hn => h b c b hat hb hn

theorem ite [HasOperands α] {p : Prop} [Decidable p] {yes no : Build α}
    (hyes : KeepsAdding f n yes) (hno : KeepsAdding f n no) :
    KeepsAdding f n (if p then yes else no) := by
  split
  · exact hyes
  · exact hno

theorem forM {items : List β} {body : β → Build PUnit}
    (h : ∀ item ∈ items, KeepsAdding f n (body item)) : KeepsAdding f n (items.forM body) := by
  induction items with
  | nil => exact done
  | cons item items ih =>
      rw [List.forall_mem_cons] at h
      exact h.1.andThen fun _ => ih h.2

theorem misuse : KeepsAdding f n Build.misuse := of_quiet .misuse .misuse fun _ _ => trivial

/-- A misuse that is answered by a harmless value. -/
theorem refuse [HasOperands α] {a : α} (h : Below n a) :
    KeepsAdding f n (do Build.misuse; Pure.pure a) :=
  misuse.andThen fun _ => pure h

theorem insert (name : String) {op : Op} (hop : op.isAlloca = false) :
    KeepsAdding f n (Build.insert name op) := by
  intro c b hat _ _
  obtain ⟨hadds, i, -, hid, hresult, hinserts⟩ := insert_adds hat name hop
  refine ⟨hadds, ?_⟩
  rw [hresult]
  show i.id < _
  rw [hid, Builder.next, hinserts.next]
  exact Nat.lt_succ_self _

theorem entryAlloca (name : String) (type : Ty) :
    KeepsAdding f n (Build.entryAlloca f name type) := by
  intro c b hat hb _
  obtain ⟨hadds, i, -, hid, hresult, hinserts⟩ := entryAlloca_adds hat hb name type
  refine ⟨hadds, ?_⟩
  rw [hresult]
  show i.id < _
  rw [hid, Builder.next, hinserts.next]
  exact Nat.lt_succ_self _

/-- A name of a parameter is not part of any block. -/
theorem setParamName_same {b : Builder} {c : Nat} (hat : b.At f c) (index : Nat) (name : String) :
    let r := (Build.setParamName f index name).run b
    (r.2.module.function f).blocks = (b.module.function f).blocks ∧
      (r.2.module.function f).nextId = (b.module.function f).nextId ∧
      (r.2.module.function f).type = (b.module.function f).type := by
  have hself : ∀ change : Function → Function,
      (b.module.modifyFunction f change).function f = change (b.module.function f) :=
    fun change => Module.function_modifyFunction_self _ change hat.function_lt
  simp only [Build.setParamName, Build.modifyModule, modify, modifyGet, MonadStateOf.modifyGet,
    StateT.modifyGet, StateT.run, Pure.pure, hself]
  split
  · exact ⟨rfl, rfl, rfl⟩
  · split <;> exact ⟨rfl, rfl, rfl⟩

theorem setParamName (index : Nat) (name : String) :
    KeepsAdding f n (Build.setParamName f index name) := by
  intro c b hat _ _
  refine ⟨?_, trivial⟩
  have hstraight := KeepsStraight.setParamName index name c b hat
  have hsame := setParamName_same hat index name
  let r := (Build.setParamName f index name).run b
  have hblock : ∀ k, (r.2.module.function f).block k = (b.module.function f).block k :=
    fun k => by rw [Function.block, hsame.1, Function.block]
  refine .of_function (hstraight.at_ hat) (.of_eq (Nat.le_refl _) rfl rfl) hstraight.declared
    hstraight.size hstraight.others hsame.2.2 (.of_instructions (Nat.le_of_eq hstraight.blocks.symm)
      (Nat.le_of_eq hsame.2.1.symm) fun k => by rw [hblock]) (fun hshaped => ?_)
    fun k _ => by rw [hblock]
  refine hshaped.of_instructions ?_ hsame.2.1 fun k => by rw [hblock]
  rw [hstraight.blocks, Function.entryBlock?, hstraight.layout]
  exact hshaped.entry

theorem load (type : Ty) {address : Value} (h : Below n address) (name : String) :
    KeepsAdding f n (Build.load type address name) :=
  ite (insert _ rfl) (refuse h)

theorem store (value address : Value) : KeepsAdding f n (Build.store value address) :=
  ite ((insert _ rfl).andThen fun _ => done) misuse

theorem structField (type : Ty) (base : Value) (index : Nat) (name : String) :
    KeepsAdding f n (Build.structField type base index name) := by
  unfold Build.structField
  dsimp only
  split
  · refine read fun b => ite ?_ (refuse trivial)
    split
    · exact pure trivial
    · exact insert _ rfl
  · exact refuse trivial

theorem binary (op : IntOp) (lhs rhs : Value) (name : String) :
    KeepsAdding f n (Build.binary op lhs rhs name) := by
  refine ite ?_ (refuse trivial)
  split
  · split
    · exact pure trivial
    · exact insert _ rfl
  · exact insert _ rfl

theorem not (value : Value) (name : String) : KeepsAdding f n (Build.not value name) := by
  unfold Build.not
  split
  · exact binary _ _ _ _
  · exact refuse trivial

theorem compareOf (wanted : Value → Bool) (p : Predicate) (lhs rhs : Value) (name : String) :
    KeepsAdding f n (Build.compareOf wanted p lhs rhs name) := by
  refine ite ?_ (refuse trivial)
  split
  · split
    · exact pure trivial
    · exact insert _ rfl
  · exact insert _ rfl

theorem widen {value : Value} (h : Below n value) (type : Ty) (name : String) :
    KeepsAdding f n (Build.widen value type name) := by
  refine ite (ite (pure h) ?_) (refuse h)
  split
  · split
    · exact pure trivial
    · exact insert _ rfl
  · exact insert _ rfl

/-- The result of a call, if there is one. -/
theorem insert_map (name : String) {op : Op} (hop : op.isAlloca = false) (type : Option Ty) :
    KeepsAdding f n (do
      let result ← Build.insert name op
      Pure.pure (type.map fun _ => result)) := by
  refine (insert name hop).bind fun result n' _ hresult => pure ?_
  cases type with
  | none => exact below_none
  | some _ => exact below_some hresult

theorem call (function : FunctionId) (args : List Value) (name : String) :
    KeepsAdding f n (Build.call function args name) :=
  read fun _ => insert_map _ rfl _

theorem callIndirect (type : FnType) (target : Value) (args : List Value) (name : String) :
    KeepsAdding f n (Build.callIndirect type target args name) :=
  ite (insert_map _ rfl _) (refuse below_none)

theorem phi (type : Ty) {incoming : List (Value × BlockRef)} (h : Below n incoming)
    (name : String) : KeepsAdding f n (Build.phi type incoming name) := by
  unfold Build.phi
  split
  · exact pure below_none
  · exact pure (below_some (h _ (List.mem_singleton_self _)).1)
  · exact (insert _ rfl).bind fun _ _ _ hresult => pure (below_some hresult)

/-- Ending the current block. -/
theorem terminate {op : Op} (hop : op.isAlloca = false) : KeepsAdding f n (Build.terminate op) :=
  read fun _ => ite misuse ((insert _ hop).andThen fun _ => done)

theorem jump (target : BlockRef) : KeepsAdding f n (Build.jump target) := terminate rfl

theorem branch (cond : Value) (yes no : BlockRef) : KeepsAdding f n (Build.branch cond yes no) :=
  read fun _ => ite misuse (ite (terminate rfl) (misuse.andThen fun _ => jump no))

theorem ret (value : Value) : KeepsAdding f n (Build.ret value) := terminate rfl

theorem retVoid : KeepsAdding f n Build.retVoid := terminate rfl

theorem unreachable : KeepsAdding f n Build.unreachable := terminate rfl

end KeepsAdding

/-! ## Blocks and functions -/

namespace Builder

variable {b : Builder} {f : FunctionId} {c : Nat}

theorem nextId_appendBlock (hf : f < b.module.functions.size) (label : String) :
    (((Build.appendBlock f label).run b).2.module.function f).nextId =
      (b.module.function f).nextId := by
  show ((b.module.modifyFunction f _).function f).nextId = _
  rw [Module.function_modifyFunction_self _ _ hf]

theorem type_appendBlock (hf : f < b.module.functions.size) (label : String) :
    (((Build.appendBlock f label).run b).2.module.function f).type =
      (b.module.function f).type := by
  show ((b.module.modifyFunction f _).function f).type = _
  rw [Module.function_modifyFunction_self _ _ hf]

/-- A new block has no code. -/
theorem appendBlock_adds (hat : b.At f c) (label : String) :
    let r := (Build.appendBlock f label).run b
    r.1 = ⟨f, (b.module.function f).blocks.size⟩ ∧ b.Adds f c r.2 ∧
      (r.2.module.function f).blocks.size = (b.module.function f).blocks.size + 1 ∧
      ((r.2.module.function f).block (b.module.function f).blocks.size).code = [] := by
  intro r
  obtain ⟨href, hr, hcursor, hblock, hsize, hlayout⟩ := b.appendBlock_run hat.function_lt label
  have hnext := nextId_appendBlock hat.function_lt label
  have hat' : r.2.At f c := ⟨hr.size ▸ hat.function_lt,
    Nat.lt_of_lt_of_le hat.block_lt hr.blocks, hcursor.trans hat.cursor, hblock.trans hat.block⟩
  refine ⟨href, .of_function hat' (.of_eq (Nat.le_refl _) rfl rfl) hr.declared hr.size hr.others
    (type_appendBlock hat.function_lt label) (.of_instructions hr.blocks (Nat.le_of_eq hnext.symm) hr.instructions) (fun hshaped => ?_)
    fun k _ => ?_, hsize, ?_⟩
  · refine hshaped.of_instructions (.inr ⟨by rw [hsize]; exact Nat.succ_pos _, ?_⟩) hnext
      hr.instructions
    rw [Function.entryBlock?, hlayout]
    rcases hshaped.entry with ⟨hzero, hnil⟩ | ⟨-, hentry⟩
    · simp [hzero, hnil]
    · rw [Function.entryBlock?] at hentry
      rw [List.head?_append, hentry]
      rfl
  · rw [Block.code, hr.instructions, Block.code]
  · rw [Block.code, hr.instructions, Function.block_of_le (Nat.le_refl _)]
    rfl

/-- Moving a block other than the entry changes nothing but the layout. -/
theorem moveBlockToEnd_adds (hat : b.At f c) {k : Nat} (hk : k ≠ 0) :
    let r := (Build.moveBlockToEnd ⟨f, k⟩).run b
    b.Adds f c r.2 ∧ (r.2.module.function f).blocks.size = (b.module.function f).blocks.size ∧
      ∀ j, ((r.2.module.function f).block j).code = ((b.module.function f).block j).code := by
  intro r
  obtain ⟨hr, hcursor, hblock, hsize, hlayout⟩ := b.moveBlockToEnd_run hat.function_lt k
  have hnext : (r.2.module.function f).nextId = (b.module.function f).nextId := by
    show ((b.module.modifyFunction f _).function f).nextId = _
    rw [Module.function_modifyFunction_self _ _ hat.function_lt]
  have htype : (r.2.module.function f).type = (b.module.function f).type := by
    show ((b.module.modifyFunction f _).function f).type = _
    rw [Module.function_modifyFunction_self _ _ hat.function_lt]
  have hcode : ∀ j, ((r.2.module.function f).block j).code =
      ((b.module.function f).block j).code := fun j => by
    rw [Block.code, hr.instructions, Block.code]
  have hat' : r.2.At f c := ⟨hr.size ▸ hat.function_lt,
    Nat.lt_of_lt_of_le hat.block_lt hr.blocks, hcursor.trans hat.cursor, hblock.trans hat.block⟩
  refine ⟨.of_function hat' (.of_eq (Nat.le_refl _) rfl rfl) hr.declared hr.size hr.others htype
    (.of_instructions hr.blocks (Nat.le_of_eq hnext.symm) hr.instructions) (fun hshaped => ?_)
    fun j _ => hcode j, hsize, hcode⟩
  have hpos : 0 < (b.module.function f).blocks.size := Nat.zero_lt_of_lt hat.block_lt
  refine hshaped.of_instructions (.inr ⟨hsize ▸ hpos, ?_⟩) hnext hr.instructions
  -- the entry is the head of the layout and is not the block that moves
  have hentry := hshaped.entryBlock?_eq hpos
  obtain ⟨rest, hrest⟩ := List.head?_eq_some_iff.mp hentry
  rw [Function.entryBlock?, hlayout, hrest, List.erase_cons_tail (by simpa using Ne.symm hk)]
  rfl

end Builder

end ClassLang.IR
