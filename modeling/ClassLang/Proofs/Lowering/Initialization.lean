import Mathlib.Data.Set.Basic
import Mathlib.Logic.Relation
import ClassLang.Proofs.Lowering.FlowBodies

/-!
# Slots that are written before they are read

A stack slot holds nothing until something is stored in it. `Function.WritesFirst` says of a
function that no path from its entry leads to a load of a slot without passing a store to it.

Paths change while a function is built, so the property is kept by an account: a set of slots for
every block, which are written whenever control enters the block. `Function.Covered` says that the
account is right: an edge leads to a block only if the slots of that block are written at the end of
the block it comes from, and a slot is loaded only where it is written. The account of a block is
chosen when the block is made and stays.
-/

namespace ClassLang.IR

open Relation (ReflTransGen)

/-! ## Loads and stores of slots -/

namespace Op

/-- The result that an operation reads through, with its function. -/
def loaded? : Op → Option (FunctionId × Nat)
  | load _ (.result function id _) => some (function, id)
  | _ => none

/-- The result that an operation writes through, with its function. -/
def stored? : Op → Option (FunctionId × Nat)
  | store _ (.result function id _) => some (function, id)
  | _ => none

/-- Whether the operation makes a stack slot. -/
def isAlloca : Op → Bool
  | alloca _ => true
  | _ => false

end Op

/-- One of the instructions stores something in the slot. -/
def Writes (function : FunctionId) (slot : Nat) (instructions : List Instruction) : Prop :=
  ∃ i ∈ instructions, i.op.stored? = some (function, slot)

theorem Writes.mono {function : FunctionId} {slot : Nat} {is is' : List Instruction}
    (h : Writes function slot is) (hsub : is ⊆ is') : Writes function slot is' :=
  h.imp fun _ hi => ⟨hsub hi.1, hi.2⟩

namespace Function

/-- The number is that of a stack slot of the function. -/
def IsSlot (f : Function) (id : Nat) : Prop :=
  ∃ k, ∃ i ∈ (f.block k).instructions, i.id = id ∧ i.op.isAlloca = true

/-- Control can go on from block `a` to block `b` of function `id` without a store to the slot. -/
def Misses (f : Function) (id : FunctionId) (slot a b : Nat) : Prop :=
  ⟨id, b⟩ ∈ (f.block a).successors ∧ ¬ Writes id slot (f.block a).instructions

/-- Every path from the entry of function `id` to a load of a slot passes a store to it first. -/
def WritesFirst (f : Function) (id : FunctionId) : Prop :=
  ∀ slot, f.IsSlot slot → ∀ entry k, f.entryBlock? = some entry →
    ReflTransGen (f.Misses id slot) entry k →
    ∀ before i after, (f.block k).instructions = before ++ i :: after →
      i.op.loaded? = some (id, slot) → Writes id slot before

/-! ## Accounts -/

/-- The slots that are written at the end of a block, if those of the account are at its start. -/
def writtenAt (f : Function) (id : FunctionId) (account : Nat → Set Nat) (k : Nat) : Set Nat :=
  { slot | slot ∈ account k ∨ Writes id slot (f.block k).instructions }

/-- The account of the blocks of function `id` is right, and only numbers that were given out are
used. The entry is block 0, for which the account has nothing. -/
structure Covered (f : Function) (id : FunctionId) (account : Nat → Set Nat) : Prop where
  start : account 0 = ∅
  entry : f.blocks.size = 0 ∧ f.layout = [] ∨ f.entryBlock? = some 0
  ids : ∀ k, ∀ i ∈ (f.block k).instructions, i.id < f.nextId
  edges : ∀ k j, ⟨id, j⟩ ∈ (f.block k).successors →
    j < f.blocks.size ∧ account j ⊆ f.writtenAt id account k
  loads : ∀ k before i after slot, (f.block k).instructions = before ++ i :: after →
    i.op.loaded? = some (id, slot) →
    slot < f.nextId ∧ (f.IsSlot slot → slot ∈ account k ∨ Writes id slot before)

variable {f f' : Function} {id : FunctionId} {account : Nat → Set Nat}

namespace Covered

/-- A slot of the account is written on every path to the block. -/
theorem not_mem_of_path (h : f.Covered id account) {slot k : Nat}
    (hpath : ReflTransGen (f.Misses id slot) 0 k) : slot ∉ account k := by
  induction hpath with
  | refl => simp [h.start]
  | @tail a b _ hstep ih =>
      intro hmem
      rcases (h.edges a b hstep.1).2 hmem with hmem | hwrites
      · exact ih hmem
      · exact hstep.2 hwrites

/-- With a right account no slot is read before it is written. -/
theorem writesFirst (h : f.Covered id account) : f.WritesFirst id := by
  intro slot hslot entry k hentry hpath before i after hsplit hload
  have hzero : entry = 0 := by
    rcases h.entry with ⟨-, hlayout⟩ | hzero
    · simp [entryBlock?, hlayout] at hentry
    · exact (Option.some.inj (hzero.symm.trans hentry)).symm
  subst hzero
  exact ((h.loads k before i after slot hsplit hload).2 hslot).resolve_left
    (h.not_mem_of_path hpath)

end Covered

/-! ## Functions that are built on -/

/-- The function was built on: numbers that were given out mean what they meant, and nothing that
was stored is taken back. -/
structure Develops (f : Function) (id : FunctionId) (f' : Function) : Prop where
  blocks : f.blocks.size ≤ f'.blocks.size
  next : f.nextId ≤ f'.nextId
  slots : ∀ n, n < f.nextId → f'.IsSlot n → f.IsSlot n
  writes : ∀ k slot, Writes id slot (f.block k).instructions →
    Writes id slot (f'.block k).instructions

namespace Develops

variable {f'' : Function}

/-- A change that leaves the instructions alone. -/
theorem of_instructions (hblocks : f.blocks.size ≤ f'.blocks.size) (hnext : f'.nextId = f.nextId)
    (h : ∀ k, (f'.block k).instructions = (f.block k).instructions) : f.Develops id f' where
  blocks := hblocks
  next := Nat.le_of_eq hnext.symm
  slots n _ hslot := by simpa only [IsSlot, h] using hslot
  writes k slot hwrites := by rwa [h]

theorem refl (f : Function) (id : FunctionId) : f.Develops id f :=
  of_instructions (Nat.le_refl _) rfl fun _ => rfl

/-- A function that is not there yet. -/
theorem of_default (id : FunctionId) (f : Function) : Function.Develops default id f where
  blocks := Nat.zero_le _
  next := Nat.zero_le _
  slots _ hn := absurd hn (Nat.not_lt_zero _)
  writes k slot hwrites := by
    obtain ⟨_, hi, -⟩ := hwrites
    rw [block_of_le (Nat.zero_le k)] at hi
    cases hi

theorem trans (h : f.Develops id f') (h' : f'.Develops id f'') : f.Develops id f'' where
  blocks := Nat.le_trans h.blocks h'.blocks
  next := Nat.le_trans h.next h'.next
  slots n hn hslot := h.slots n hn (h'.slots n (Nat.lt_of_lt_of_le hn h.next) hslot)
  writes k slot hwrites := h'.writes k slot (h.writes k slot hwrites)

/-- What is written at the end of a block stays written. -/
theorem writtenAt (h : f.Develops id f') {account' : Nat → Set Nat} {k : Nat}
    (haccount : account' k = account k) :
    f.writtenAt id account k ⊆ f'.writtenAt id account' k := by
  rintro slot (hmem | hwrites)
  · exact .inl (haccount ▸ hmem)
  · exact .inr (h.writes k slot hwrites)

end Develops

/-- One instruction, which got the next number, was put in front of or behind those of block
`k`. -/
structure Inserts (f : Function) (k : Nat) (front back : List Instruction) (f' : Function) :
    Prop where
  blocks : f'.blocks.size = f.blocks.size
  layout : f'.layout = f.layout
  next : f'.nextId = f.nextId + 1
  ids : ∀ i ∈ front ++ back, i.id = f.nextId
  self : (f'.block k).instructions = front ++ (f.block k).instructions ++ back
  rest : ∀ j, j ≠ k → (f'.block j).instructions = (f.block j).instructions

namespace Inserts

variable {k : Nat} {front back : List Instruction}

/-- The instructions of a block are among those it has afterwards. -/
theorem subset (h : f.Inserts k front back f') (j : Nat) :
    (f.block j).instructions ⊆ (f'.block j).instructions := by
  intro i hi
  by_cases hj : j = k
  · subst hj
    rw [h.self]
    exact List.mem_append_left _ (List.mem_append_right _ hi)
  · rwa [h.rest j hj]

/-- An instruction that was there before, or the new one. -/
theorem mem (h : f.Inserts k front back f') {j : Nat} {i : Instruction}
    (hi : i ∈ (f'.block j).instructions) :
    i ∈ (f.block j).instructions ∨ i ∈ front ++ back := by
  by_cases hj : j = k
  · subst hj
    rw [h.self] at hi
    simp only [List.mem_append] at hi ⊢
    tauto
  · exact .inl (h.rest j hj ▸ hi)

theorem develops (h : f.Inserts k front back f') : f.Develops id f' where
  blocks := Nat.le_of_eq h.blocks.symm
  next := by
    rw [h.next]
    exact Nat.le_succ _
  slots n hn := by
    rintro ⟨j, i, hi, rfl, halloca⟩
    rcases h.mem hi with hi | hi
    · exact ⟨j, i, hi, rfl, halloca⟩
    · exact absurd (h.ids i hi) (Nat.ne_of_lt hn)
  writes j slot hwrites := hwrites.mono (h.subset j)

/-- The new number is that of a slot only if the instruction makes one. -/
theorem not_isSlot (h : f.Inserts k front back f') (hids : ∀ j, ∀ i ∈ (f.block j).instructions,
    i.id < f.nextId) (hop : ∀ i ∈ front ++ back, i.op.isAlloca = false) :
    ¬ f'.IsSlot f.nextId := by
  rintro ⟨j, i, hi, hid, halloca⟩
  rcases h.mem hi with hi | hi
  · exact absurd hid (Nat.ne_of_lt (hids j i hi))
  · rw [hop i hi] at halloca
    cases halloca

end Inserts

namespace Covered

variable {k : Nat} {front back : List Instruction}

/-- What an inserted instruction has to respect: it leads only to blocks whose slots are written,
and if it reads a slot, the slot is written before. -/
theorem inserts (h : f.Covered id account) (hi : f.Inserts k front back f')
    (hedges : ∀ j, ⟨id, j⟩ ∈ (f'.block k).successors →
      j < f.blocks.size ∧ account j ⊆ f.writtenAt id account k)
    (hloads : ∀ before i after slot, (f'.block k).instructions = before ++ i :: after →
      i.op.loaded? = some (id, slot) →
      slot < f.nextId ∧ (f.IsSlot slot → slot ∈ account k ∨ Writes id slot before)) :
    f'.Covered id account where
  start := h.start
  entry := by
    rw [entryBlock?, hi.layout, hi.blocks]
    exact h.entry
  ids j i hmem := by
    rw [hi.next]
    rcases hi.mem hmem with hmem | hmem
    · exact Nat.lt_succ_of_lt (h.ids j i hmem)
    · rw [hi.ids i hmem]
      exact Nat.lt_succ_self _
  edges j j' hmem := by
    have hbefore : j' < f.blocks.size ∧ account j' ⊆ f.writtenAt id account j := by
      by_cases hj : j = k
      · subst hj
        exact hedges j' hmem
      · refine h.edges j j' ?_
        rwa [Block.successors, Block.terminator?, hi.rest j hj] at hmem
    rw [hi.blocks]
    exact ⟨hbefore.1, hbefore.2.trans (hi.develops.writtenAt rfl)⟩
  loads j before i after slot hsplit hload := by
    have hbefore : slot < f.nextId ∧
        (f.IsSlot slot → slot ∈ account j ∨ Writes id slot before) := by
      by_cases hj : j = k
      · subst hj
        exact hloads before i after slot hsplit hload
      · exact h.loads j before i after slot (hi.rest j hj ▸ hsplit) hload
    have hdevelops : f.Develops id f' := hi.develops
    refine ⟨Nat.lt_of_lt_of_le hbefore.1 hdevelops.next, fun hslot => ?_⟩
    exact hbefore.2 (hdevelops.slots slot hbefore.1 hslot)

/-- An instruction at the end of a block. -/
theorem insert_back (h : f.Covered id account) {new : Instruction}
    (hi : f.Inserts k [] [new] f')
    (hedges : ∀ j, ⟨id, j⟩ ∈ new.op.successors →
      j < f.blocks.size ∧ account j ⊆ f.writtenAt id account k)
    (hload : ∀ slot, new.op.loaded? = some (id, slot) →
      slot < f.nextId ∧ (f.IsSlot slot → slot ∈ f.writtenAt id account k)) :
    f'.Covered id account := by
  refine h.inserts hi (fun j hj => hedges j ?_) fun before i after slot hsplit hslot => ?_
  · rw [Block.successors, Block.terminator?_append hi.self] at hj
    split at hj
    · next hop =>
        split at hop
        · exact Option.some.inj hop ▸ hj
        · cases hop
    · cases hj
  · rw [hi.self, List.nil_append] at hsplit
    rcases List.eq_nil_or_concat after with rfl | ⟨rest, last, rfl⟩
    · obtain ⟨rfl, hlast⟩ := List.append_inj' hsplit rfl
      obtain rfl : new = i := (List.cons.inj hlast).1
      exact hload slot hslot
    · have hrest : (f.block k).instructions ++ [new] = (before ++ i :: rest) ++ [last] := by
        simpa using hsplit
      exact h.loads k before i rest slot (List.append_inj' hrest rfl).1 hslot

/-- A stack slot at the start of a block. -/
theorem insert_front (h : f.Covered id account) {new : Instruction}
    (hi : f.Inserts k [new] [] f') (hop : new.op.isAlloca = true) : f'.Covered id account := by
  have hload : new.op.loaded? = none := by
    cases hnew : new.op <;> simp_all [Op.isAlloca, Op.loaded?]
  have hends : new.op.isTerminator = false := by
    cases hnew : new.op <;> simp_all [Op.isAlloca, Op.isTerminator]
  refine h.inserts hi (fun j hj => h.edges k j ?_) fun before i after slot hsplit hslot => ?_
  · have hgrows : Block.Grows True False (f.block k) (f'.block k) :=
      ⟨[new], [], hi.self, by simp [hends], by simp, by simp⟩
    rwa [hgrows.successors_eq False.elim] at hj
  · rw [hi.self, List.append_nil, List.singleton_append] at hsplit
    cases before with
    | nil =>
        rw [← (List.cons.inj hsplit).1, hload] at hslot
        cases hslot
    | cons first before =>
        obtain ⟨hlt, hwritten⟩ := h.loads k before i after slot (List.cons.inj hsplit).2 hslot
        refine ⟨hlt, fun hisSlot => (hwritten hisSlot).imp_right fun hw => ?_⟩
        exact hw.mono (List.subset_cons_self _ _)

/-- A change that leaves blocks and numbers alone, and block 0 the entry. -/
theorem of_instructions (h : f.Covered id account) (hblocks : f'.blocks.size = f.blocks.size)
    (hentry : f.blocks.size = 0 ∧ f'.layout = [] ∨ f'.entryBlock? = some 0)
    (hnext : f'.nextId = f.nextId)
    (hinstructions : ∀ k, (f'.block k).instructions = (f.block k).instructions) :
    f'.Covered id account where
  start := h.start
  entry := by rwa [hblocks]
  ids k i hi := by
    rw [hnext]
    exact h.ids k i (hinstructions k ▸ hi)
  edges k j hj := by
    rw [Block.successors, Block.terminator?, hinstructions] at hj
    have hedge := h.edges k j hj
    rwa [writtenAt, hinstructions, hblocks]
  loads k before i after slot hsplit hload := by
    rw [hinstructions] at hsplit
    have hbefore := h.loads k before i after slot hsplit hload
    rw [hnext]
    refine ⟨hbefore.1, fun hslot => hbefore.2 ?_⟩
    simpa only [IsSlot, hinstructions] using hslot

/-- Any account without slots at the entry is right for a function without blocks. -/
theorem of_no_blocks (hstart : account 0 = ∅) (hblocks : f.blocks.size = 0)
    (hlayout : f.layout = []) : f.Covered id account := by
  have hempty : ∀ k, (f.block k).instructions = [] := fun k => block_of_le (by omega)
  refine ⟨hstart, .inl ⟨hblocks, hlayout⟩, fun k => by simp [hempty], fun k j hj => ?_,
    fun k => by simp [hempty]⟩
  rw [(Block.Open.of_nil (hempty k)).successors] at hj
  cases hj

/-- The account of a new block can be chosen, unless it is the entry. -/
theorem append_block (h : f.Covered id account)
    (hblocks : f'.blocks.size = f.blocks.size + 1)
    (hlayout : f'.layout = f.layout ++ [f.blocks.size]) (hnext : f'.nextId = f.nextId)
    (hinstructions : ∀ k, (f'.block k).instructions = (f.block k).instructions)
    {slots : Set Nat} (hslots : f.blocks.size = 0 → slots = ∅) :
    f'.Covered id (Function.update account f.blocks.size slots) := by
  have hold : ∀ k, k ≠ f.blocks.size → Function.update account f.blocks.size slots k = account k :=
    fun k hk => Function.update_of_ne hk slots account
  -- there is nothing in the new block yet
  have hempty : ∀ k, (f'.block k).instructions ≠ [] → k ≠ f.blocks.size := by
    rintro k hk rfl
    rw [hinstructions] at hk
    exact hk (block_of_le (Nat.le_refl _))
  refine ⟨?_, .inr ?_, fun k i hi => ?_, fun k j hj => ?_,
    fun k before i after slot hsplit hload => ?_⟩
  · by_cases hzero : f.blocks.size = 0
    · rw [hzero, Function.update_self, hslots hzero]
    · rw [hold 0 (Ne.symm hzero), h.start]
  · rw [entryBlock?, hlayout]
    rcases h.entry with ⟨hzero, hnil⟩ | hentry
    · simp [hzero, hnil]
    · rw [entryBlock?] at hentry
      rw [List.head?_append, hentry]
      rfl
  · rw [hnext]
    exact h.ids k i (hinstructions k ▸ hi)
  · have hk : k ≠ f.blocks.size := by
      refine hempty k fun hnil => ?_
      rw [(Block.Open.of_nil hnil).successors] at hj
      cases hj
    rw [Block.successors, Block.terminator?, hinstructions] at hj
    obtain ⟨hlt, hsub⟩ := h.edges k j hj
    rw [writtenAt, hinstructions, hold k hk, hold j (Nat.ne_of_lt hlt), hblocks]
    exact ⟨Nat.lt_succ_of_lt hlt, hsub⟩
  · have hk : k ≠ f.blocks.size := hempty k (by simp [hsplit])
    rw [hinstructions] at hsplit
    obtain ⟨hlt, hwritten⟩ := h.loads k before i after slot hsplit hload
    rw [hnext, hold k hk]
    refine ⟨hlt, fun hslot => hwritten ?_⟩
    simpa only [IsSlot, hinstructions] using hslot

end Covered

end Function

end ClassLang.IR
