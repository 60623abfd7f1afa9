import ClassLang.Proofs.Lowering.Initialization

/-!
# Building with an account of written slots

What the builder does is respected by the account of the blocks: inserting an instruction, making
and moving blocks, and the steps of a body that do nothing else. A value that was read through the
address of a field is no slot, so only the loads of locals ask for something.
-/

namespace ClassLang

open IR (Build Builder FunctionId Op Ty Value)

namespace IR

/-- The accounts of the blocks of all functions. -/
abbrev Accounts := FunctionId → Nat → Set Nat

/-- Choose the account of one block. -/
def Accounts.set (accounts : Accounts) (f : FunctionId) (k : Nat) (slots : Set Nat) : Accounts :=
  Function.update accounts f (Function.update (accounts f) k slots)

theorem Accounts.set_self (accounts : Accounts) (f : FunctionId) (k : Nat) (slots : Set Nat) :
    accounts.set f k slots f k = slots := by
  simp [Accounts.set]

theorem Accounts.set_of_ne (accounts : Accounts) {f g : FunctionId} {k j : Nat} (slots : Set Nat)
    (h : g = f → j ≠ k) : accounts.set f k slots g j = accounts g j := by
  by_cases hg : g = f
  · subst hg
    simp [Accounts.set, Function.update_of_ne (h rfl)]
  · simp [Accounts.set, Function.update_of_ne hg]

namespace Builder

variable {own : FunctionId → Prop} {accounts accounts' : Accounts} {f : FunctionId} {c : Nat}
  {b b' b'' : Builder}

/-- All functions were built on. -/
def Develops (b b' : Builder) : Prop :=
  ∀ g, (b.module.function g).Develops g (b'.module.function g)

theorem Develops.refl (b : Builder) : b.Develops b := fun _ => .refl _ _

theorem Develops.trans (h : b.Develops b') (h' : b'.Develops b'') : b.Develops b'' :=
  fun g => (h g).trans (h' g)

/-- Only one function was built on. -/
theorem Develops.of_function (hothers : ∀ g, g ≠ f → b'.module.function g = b.module.function g)
    (hself : (b.module.function f).Develops f (b'.module.function f)) : b.Develops b' := by
  intro g
  by_cases hg : g = f
  · exact hg ▸ hself
  · rw [hothers g hg]
    exact .refl _ _

/-- The accounts of the `own` functions are right, and functions that have no body yet are among
them. -/
structure Covered (own : FunctionId → Prop) (accounts : Accounts) (b : Builder) : Prop where
  sane : b.Sane
  fresh : ∀ g, (b.module.function g).hasBody = false → own g
  functions : ∀ g, own g → (b.module.function g).Covered g (accounts g)

/-- Nothing changes for functions that are left alone. -/
theorem Covered.of_function (h : b.Covered own accounts) (hown : own f) (hsane : b'.Sane)
    (hothers : ∀ g, g ≠ f → b'.module.function g = b.module.function g ∧ accounts' g = accounts g)
    (hself : (b'.module.function f).Covered f (accounts' f)) : b'.Covered own accounts' where
  sane := hsane
  fresh g hbody := by
    by_cases hg : g = f
    · exact hg ▸ hown
    · exact h.fresh g ((hothers g hg).1 ▸ hbody)
  functions g hg := by
    by_cases heq : g = f
    · exact heq ▸ hself
    · rw [(hothers g heq).1, (hothers g heq).2]
      exact h.functions g hg

/-- Building goes on at the end of block `c` of function `f`, which is one of the `own`. -/
structure Standing (own : FunctionId → Prop) (accounts : Accounts) (f : FunctionId) (c : Nat)
    (b : Builder) : Prop where
  mine : own f
  at_ : b.At f c
  covered : b.Covered own accounts

/-- The slots that are written at the end of block `c` of function `f`. -/
def written (b : Builder) (accounts : Accounts) (f : FunctionId) (c : Nat) : Set Nat :=
  (b.module.function f).writtenAt f (accounts f) c

/-- If the value is a slot of function `f`, it is written at the end of block `c`. -/
def Readable (b : Builder) (accounts : Accounts) (f : FunctionId) (c : Nat) (value : Value) :
    Prop :=
  ∀ id type, value = .result f id type → id < (b.module.function f).nextId ∧
    ((b.module.function f).IsSlot id → id ∈ b.written accounts f c)

/-- What can be read can be read later, as long as no more paths lead there. -/
theorem Readable.moved {value : Value} {c' : Nat} (h : b.Readable accounts f c value)
    (hdevelops : b.Develops b') (hwritten : b.written accounts f c ⊆ b'.written accounts' f c') :
    b'.Readable accounts' f c' value := by
  intro id type hvalue
  obtain ⟨hlt, hslot⟩ := h id type hvalue
  exact ⟨Nat.lt_of_lt_of_le hlt (hdevelops f).next, fun hslot' =>
    hwritten (hslot ((hdevelops f).slots id hlt hslot'))⟩

/-! ## Inserting -/

/-- Putting an instruction with the next number into a block. -/
theorem withInstruction_inserts {cursor : Cursor} {names : NameTable} {new : Instruction} {k : Nat}
    {front back : List Instruction} (href : cursor.ref = ⟨f, k⟩)
    (hf : f < b.module.functions.size) (hk : k < (b.module.function f).blocks.size)
    (hid : new.id = (b.module.function f).nextId)
    (hplace : cursor.place new ((b.module.function f).block k).instructions =
      front ++ ((b.module.function f).block k).instructions ++ back)
    (hnew : front ++ back = [new]) :
    (b.module.function f).Inserts k front back
      ((b.withInstruction cursor names new).module.function f) where
  blocks := size_blocks_withInstruction href hf
  layout := layout_withInstruction href hf
  next := by
    rw [function_withInstruction href hf, ← hid]
    rfl
  ids := by simp [hnew, hid]
  self := by
    rw [block_withInstruction href hf hk]
    exact hplace
  rest j hj := by rw [block_withInstruction_of_ne href hf hj]

/-- The account does not depend on where building goes on. -/
theorem Covered.of_module (h : b.Covered own accounts) (b' : Builder)
    (hmodule : b'.module = b.module) (hdeclared : b'.declared = b.declared) :
    b'.Covered own accounts ∧ b.Develops b' := by
  obtain ⟨module, cursor, function, block, declared, errors⟩ := b'
  cases hmodule
  cases hdeclared
  exact ⟨⟨⟨h.sane.declared, h.sane.layout⟩, h.fresh, h.functions⟩, fun _ => .refl _ _⟩

namespace Standing

/-- A change of the function that is built, which keeps the place. -/
theorem of_function (h : b.Standing own accounts f c) (hat : b'.At f c) (hsane : b'.Sane)
    (hothers : ∀ g, g ≠ f → b'.module.function g = b.module.function g)
    (hself : (b'.module.function f).Covered f (accounts f)) : b'.Standing own accounts f c where
  mine := h.mine
  at_ := hat
  covered := h.covered.of_function h.mine hsane (fun g hg => ⟨hothers g hg, rfl⟩) hself

/-- Inserting an instruction at the end of the current block. -/
theorem insert (h : b.Standing own accounts f c) (name : String) (op : Op)
    (hedges : ∀ j, ⟨f, j⟩ ∈ op.successors →
      j < (b.module.function f).blocks.size ∧ accounts f j ⊆ b.written accounts f c)
    (hload : ∀ slot, op.loaded? = some (f, slot) → slot < (b.module.function f).nextId ∧
      ((b.module.function f).IsSlot slot → slot ∈ b.written accounts f c)) :
    let r := (Build.insert name op).run b
    r.2.Standing own accounts f c ∧ b.Develops r.2 ∧
      (op.isAlloca = false → r.2.Readable accounts f c r.1) ∧
      ∀ slot, op.stored? = some (f, slot) → slot ∈ r.2.written accounts f c := by
  intro r
  obtain ⟨_, -, -, hextends⟩ := insert_extends h.at_ name op
  obtain ⟨names, new, rfl, hid, hrun⟩ := insert_run h.at_.cursor name op
  have hr : r = (.result f new.id (new.op.resultType?.getD .ptr), _) := hrun
  have hinserts : (b.module.function f).Inserts c [] [new] (r.2.module.function f) := by
    rw [hr]
    exact withInstruction_inserts rfl h.at_.function_lt h.at_.block_lt hid
      (by simp [Cursor.place]) rfl
  have hcovered := h.covered.functions f h.mine
  refine ⟨h.of_function (hextends.at_ h.at_) (hextends.sane h.covered.sane) hextends.others
    (hcovered.insert_back hinserts hedges hload), .of_function hextends.others hinserts.develops,
    fun hplain id type hvalue => ?_, fun slot hslot => .inr ?_⟩
  · obtain rfl : new.id = id := by
      rw [hr] at hvalue
      exact (Value.result.inj hvalue).2.1
    have hnew : new.id = (b.module.function f).nextId := hid
    rw [hinserts.next, hnew]
    refine ⟨Nat.lt_succ_self _, fun hslot => absurd hslot ?_⟩
    exact hinserts.not_isSlot hcovered.ids (by simpa using hplain)
  · rw [hinserts.self]
    exact ⟨new, by simp, hslot⟩

/-- A stack slot at the start of the entry block. -/
theorem entryAlloca (h : b.Standing own accounts f c) (name : String) (type : Ty) :
    let r := (Build.entryAlloca f name type).run b
    r.2.Standing own accounts f c ∧ b.Develops r.2 ∧
      ∃ id, r.1 = .result f id .ptr ∧ id < (r.2.module.function f).nextId := by
  intro r
  have hstraight := KeepsStraight.entryAlloca name type c b h.at_
  have hcovered := h.covered.functions f h.mine
  have hentry : (b.module.function f).entryBlock? = some 0 := by
    refine hcovered.entry.resolve_left fun hzero => ?_
    exact absurd h.at_.block_lt (by simp [hzero.1])
  obtain ⟨cursor, names, new, href, hplace, hop, hid, hrun⟩ :=
    entryAlloca_run h.at_.cursor h.at_.block hentry name type
  have hr : r = _ := hrun
  have hinserts : (b.module.function f).Inserts 0 [new] [] (r.2.module.function f) := by
    rw [hr]
    refine withInstruction_inserts href h.at_.function_lt (Nat.zero_lt_of_lt h.at_.block_lt) hid
      (by simp [hplace]) rfl
  refine ⟨h.of_function (hstraight.at_ h.at_) (hstraight.sane h.covered.sane) hstraight.others
    (hcovered.insert_front hinserts (by simp [hop, Op.isAlloca])),
    .of_function hstraight.others hinserts.develops, new.id, by rw [hr], ?_⟩
  rw [hinserts.next, hid]
  exact Nat.lt_succ_self _

end Standing

end Builder

/-! ## Steps of building -/

variable {own : FunctionId → Prop} {f : FunctionId} {α β : Type}

/-- From this builder the step keeps the accounts and the place of building, and its result
satisfies `Q`. -/
def Builder.CoversAt (own : FunctionId → Prop) (accounts : Accounts) (f : FunctionId) (c : Nat)
    (b : Builder) (step : Build α) (Q : α → Builder → Prop) : Prop :=
  let r := step.run b
  r.2.Standing own accounts f c ∧ b.Develops r.2 ∧ Q r.1 r.2

/-- The step keeps the accounts, wherever in function `f` building goes on. -/
def KeepsCovered (own : FunctionId → Prop) (f : FunctionId) (step : Build α) : Prop :=
  ∀ accounts c (b : Builder), b.Standing own accounts f c →
    b.CoversAt own accounts f c step fun _ _ => True

theorem Builder.CoversAt.bind {accounts : Accounts} {c : Nat} {b : Builder} {step : Build α}
    {next : α → Build β} {P : α → Builder → Prop} {Q : β → Builder → Prop}
    (h : b.CoversAt own accounts f c step P)
    (hnext : ∀ a b', b'.Standing own accounts f c → b.Develops b' → P a b' →
      b'.CoversAt own accounts f c (next a) Q) :
    b.CoversAt own accounts f c (step >>= next) Q := by
  obtain ⟨hstanding, hdevelops, hP⟩ := h
  obtain ⟨hstanding', hdevelops', hQ⟩ := hnext _ _ hstanding hdevelops hP
  exact ⟨hstanding', hdevelops.trans hdevelops', hQ⟩

/-- Reading the builder changes nothing. -/
theorem Builder.CoversAt.read {accounts : Accounts} {c : Nat} {b : Builder}
    {next : Builder → Build α} {Q : α → Builder → Prop}
    (h : b.CoversAt own accounts f c (next b) Q) :
    b.CoversAt own accounts f c (get >>= next) Q :=
  h

namespace KeepsCovered

theorem pure (a : α) : KeepsCovered own f (Pure.pure a : Build α) :=
  fun _ _ b h => ⟨h, .refl b, True.intro⟩

theorem bind {step : Build α} {next : α → Build β} (h : KeepsCovered own f step)
    (hnext : ∀ a, KeepsCovered own f (next a)) : KeepsCovered own f (step >>= next) :=
  fun accounts c b hb => (h accounts c b hb).bind fun a b' hb' _ _ => hnext a accounts c b' hb'

theorem read {next : Builder → Build α} (h : ∀ b, KeepsCovered own f (next b)) :
    KeepsCovered own f (get >>= next) :=
  fun accounts c b hb => h b accounts c b hb

theorem ite {p : Prop} [Decidable p] {yes no : Build α} (hyes : KeepsCovered own f yes)
    (hno : KeepsCovered own f no) : KeepsCovered own f (if p then yes else no) := by
  split
  · exact hyes
  · exact hno

theorem forM {items : List β} {body : β → Build PUnit}
    (h : ∀ item, KeepsCovered own f (body item)) : KeepsCovered own f (items.forM body) := by
  induction items with
  | nil => exact pure _
  | cons item items ih => exact (h item).bind fun _ => ih

theorem misuse : KeepsCovered own f Build.misuse := by
  intro accounts c b h
  obtain ⟨hcovered, hdevelops⟩ := h.covered.of_module (Build.misuse.run b).2 rfl rfl
  refine ⟨⟨h.mine, ?_, hcovered⟩, hdevelops, True.intro⟩
  exact ⟨h.at_.function_lt, h.at_.block_lt, h.at_.cursor, h.at_.block⟩

/-- A misuse that is answered by a harmless value. -/
theorem refuse (a : α) : KeepsCovered own f (do Build.misuse; Pure.pure a) :=
  misuse.bind fun _ => pure a

/-- Inserting an instruction that neither reads through a result nor leads anywhere. -/
theorem insert (name : String) {op : Op} (hload : op.loaded? = none)
    (hedges : op.successors = []) : KeepsCovered own f (Build.insert name op) := by
  intro accounts c b hb
  obtain ⟨hstanding, hdevelops, -⟩ :=
    hb.insert name op (by simp [hedges]) (by simp [hload])
  exact ⟨hstanding, hdevelops, True.intro⟩

theorem entryAlloca (name : String) (type : Ty) :
    KeepsCovered own f (Build.entryAlloca f name type) := by
  intro accounts c b hb
  obtain ⟨hstanding, hdevelops, -⟩ := hb.entryAlloca name type
  exact ⟨hstanding, hdevelops, True.intro⟩

/-- A name of a parameter is not part of any block. -/
theorem setParamName (index : Nat) (name : String) :
    KeepsCovered own f (Build.setParamName f index name) := by
  intro accounts c b hb
  have hstraight := KeepsStraight.setParamName index name c b hb.at_
  have hself : ∀ change : Function → Function,
      (b.module.modifyFunction f change).function f = change (b.module.function f) :=
    fun change => Module.function_modifyFunction_self _ change hb.at_.function_lt
  let r := (Build.setParamName f index name).run b
  have hsame : (r.2.module.function f).blocks = (b.module.function f).blocks ∧
      (r.2.module.function f).nextId = (b.module.function f).nextId := by
    simp only [r, Build.setParamName, Build.modifyModule, modify, modifyGet, MonadStateOf.modifyGet,
      StateT.modifyGet, StateT.run, Pure.pure, hself]
    split
    · exact ⟨rfl, rfl⟩
    · split <;> exact ⟨rfl, rfl⟩
  have hblock : ∀ k, (r.2.module.function f).block k = (b.module.function f).block k :=
    fun k => by rw [Function.block, hsame.1, Function.block]
  have hcovered := hb.covered.functions f hb.mine
  refine ⟨hb.of_function (hstraight.at_ hb.at_) (hstraight.sane hb.covered.sane) hstraight.others
    (hcovered.of_instructions hstraight.blocks ?_ hsame.2 fun k => by rw [hblock]),
    .of_function hstraight.others (.of_instructions (Nat.le_of_eq hstraight.blocks.symm) hsame.2
      fun k => by rw [hblock]), True.intro⟩
  rw [Function.entryBlock?, hstraight.layout]
  exact hcovered.entry

theorem store (value address : Value) : KeepsCovered own f (Build.store value address) :=
  ite ((insert _ rfl rfl).bind fun _ => pure _) misuse

theorem binary (op : IntOp) (lhs rhs : Value) (name : String) :
    KeepsCovered own f (Build.binary op lhs rhs name) := by
  refine ite ?_ (refuse _)
  split
  · split
    · exact pure _
    · exact insert _ rfl rfl
  · exact insert _ rfl rfl

theorem not (value : Value) (name : String) : KeepsCovered own f (Build.not value name) := by
  unfold Build.not
  split
  · exact binary _ _ _ _
  · exact refuse _

theorem compareOf (wanted : Value → Bool) (p : Predicate) (lhs rhs : Value) (name : String) :
    KeepsCovered own f (Build.compareOf wanted p lhs rhs name) := by
  refine ite ?_ (refuse _)
  split
  · split
    · exact pure _
    · exact insert _ rfl rfl
  · exact insert _ rfl rfl

theorem widen (value : Value) (type : Ty) (name : String) :
    KeepsCovered own f (Build.widen value type name) := by
  refine ite (ite (pure _) ?_) (refuse _)
  split
  · split
    · exact pure _
    · exact insert _ rfl rfl
  · exact insert _ rfl rfl

theorem call (function : FunctionId) (args : List Value) (name : String) :
    KeepsCovered own f (Build.call function args name) :=
  read fun _ => (insert _ rfl rfl).bind fun _ => pure _

theorem callIndirect (type : FnType) (target : Value) (args : List Value) (name : String) :
    KeepsCovered own f (Build.callIndirect type target args name) :=
  ite ((insert _ rfl rfl).bind fun _ => pure _) (refuse _)

theorem phi (type : Ty) (incoming : List (Value × BlockRef)) (name : String) :
    KeepsCovered own f (Build.phi type incoming name) := by
  unfold Build.phi
  split
  · exact pure _
  · exact pure _
  · exact (insert _ rfl rfl).bind fun _ => pure _

end KeepsCovered

namespace Builder.Standing

variable {accounts : Accounts} {c : Nat} {b : Builder}

/-- The address of a field is not that of a slot. -/
theorem structField (h : b.Standing own accounts f c) (type : Ty) (base : Value) (index : Nat)
    (name : String) :
    b.CoversAt own accounts f c (Build.structField type base index name) fun value b' =>
      b'.Readable accounts f c value := by
  have hrefuse : b.CoversAt own accounts f c (do Build.misuse; Pure.pure (Value.const .null))
      fun value b' => b'.Readable accounts f c value :=
    (KeepsCovered.misuse accounts c b h).bind fun _ b' hb' _ _ =>
      ⟨hb', .refl b', by rintro _ _ ⟨⟩⟩
  unfold Build.structField
  dsimp only
  split
  · refine CoversAt.read ?_
    split
    · split
      · exact ⟨h, .refl b, by rintro _ _ ⟨⟩⟩
      · obtain ⟨hstanding, hdevelops, hreadable, -⟩ :=
          h.insert name (.field _ base index) (by simp [Op.successors]) (by simp [Op.loaded?])
        exact ⟨hstanding, hdevelops, hreadable rfl⟩
    · exact hrefuse
  · exact hrefuse

/-- Reading through an address that may be read. -/
theorem load (h : b.Standing own accounts f c) {address : Value}
    (hreadable : b.Readable accounts f c address) (type : Ty) (name : String) :
    b.CoversAt own accounts f c (Build.load type address name) fun _ _ => True := by
  unfold Build.load
  split
  · have hload : ∀ slot, (Op.load type address).loaded? = some (f, slot) →
        slot < (b.module.function f).nextId ∧
          ((b.module.function f).IsSlot slot → slot ∈ b.written accounts f c) := by
      intro slot hslot
      obtain ⟨resultType, haddress⟩ : ∃ resultType, address = .result f slot resultType := by
        cases address <;> simp_all [Op.loaded?]
      exact hreadable slot resultType haddress
    obtain ⟨hstanding, hdevelops, -⟩ :=
      h.insert name (.load type address) (by simp [Op.successors]) hload
    exact ⟨hstanding, hdevelops, True.intro⟩
  · exact KeepsCovered.refuse address accounts c b h

/-- A new slot can be read once something was stored in it. -/
theorem storeSlot (h : b.Standing own accounts f c) (name : String) (type : Ty) (value : Value) :
    b.CoversAt own accounts f c (do
      let slot ← Build.entryAlloca f name type
      Build.store value slot
      Pure.pure slot) fun slot b' => b'.Readable accounts f c slot := by
  have hslot : b.CoversAt own accounts f c (Build.entryAlloca f name type) fun slot b' =>
      ∃ id, slot = .result f id .ptr ∧ id < (b'.module.function f).nextId :=
    h.entryAlloca name type
  refine hslot.bind ?_
  rintro _ b' hb' - ⟨id, rfl, hlt⟩
  obtain ⟨hstanding, hdevelops, -, hwritten⟩ := hb'.insert "" (.store value (.result f id .ptr))
    (by simp [Op.successors]) (by simp [Op.loaded?])
  refine ⟨hstanding, hdevelops, ?_⟩
  rintro _ _ ⟨⟩
  exact ⟨Nat.lt_of_lt_of_le hlt (hdevelops f).next, fun _ => hwritten id rfl⟩

end Builder.Standing

namespace KeepsCovered

theorem structField (type : Ty) (base : Value) (index : Nat) (name : String) :
    KeepsCovered own f (Build.structField type base index name) := by
  intro accounts c b hb
  obtain ⟨hstanding, hdevelops, -⟩ := hb.structField type base index name
  exact ⟨hstanding, hdevelops, True.intro⟩

/-- Reading a field. -/
theorem loadField (struct : Ty) (base : Value) (index : Nat) (addressName : String) (type : Ty)
    (name : String) :
    KeepsCovered own f (do
      let slot ← Build.structField struct base index addressName
      Build.load type slot name) :=
  fun _ _ _ hb => (hb.structField struct base index addressName).bind fun _ _ hb' _ hreadable =>
    hb'.load hreadable type name

end KeepsCovered

/-! ## Blocks -/

namespace Builder

variable {accounts accounts' : Accounts} {c : Nat} {b b' : Builder}

/-- The accounts of the blocks that are there have not changed. -/
def KeepsAccounts (b : Builder) (accounts accounts' : Accounts) : Prop :=
  ∀ g k, k < (b.module.function g).blocks.size → accounts' g k = accounts g k

/-- What is written at the end of a block stays written. -/
theorem Develops.written_subset (h : b.Develops b') (haccounts : b.KeepsAccounts accounts accounts')
    (hc : c < (b.module.function f).blocks.size) :
    b.written accounts f c ⊆ b'.written accounts' f c :=
  (h f).writtenAt (haccounts f c hc)

/-- A new block whose account is chosen. -/
theorem Covered.appendBlock (h : b.Covered own accounts) (hown : own f)
    (hf : f < b.module.functions.size) (label : String) {slots : Set Nat}
    (hslots : (b.module.function f).blocks.size = 0 → slots = ∅) :
    let r := (Build.appendBlock f label).run b
    r.2.Covered own (accounts.set f (b.module.function f).blocks.size slots) ∧ b.Develops r.2 := by
  intro r
  obtain ⟨-, hrearranges, -, -, hsize, hlayout⟩ := b.appendBlock_run hf label
  have hnext : (r.2.module.function f).nextId = (b.module.function f).nextId := by
    show ((b.module.modifyFunction f _).function f).nextId = _
    rw [Module.function_modifyFunction_self _ _ hf]
  have hself :=
    (h.functions f hown).append_block hsize hlayout hnext hrearranges.instructions hslots
  have hsane : r.2.Sane := h.sane.of_others hrearranges.declared hrearranges.size
    hrearranges.others (by rw [hsize]; exact Nat.succ_pos _)
  refine ⟨h.of_function hown hsane (fun g hg => ⟨hrearranges.others g hg, ?_⟩) ?_,
    .of_function hrearranges.others
      (.of_instructions hrearranges.blocks hnext hrearranges.instructions)⟩
  · exact Function.update_of_ne hg _ _
  · simpa [Accounts.set] using hself

theorem keepsAccounts_set (b : Builder) (accounts : Accounts) (f : FunctionId) (slots : Set Nat) :
    b.KeepsAccounts accounts (accounts.set f (b.module.function f).blocks.size slots) :=
  fun _ _ hk => accounts.set_of_ne slots fun hg => hg ▸ Nat.ne_of_lt hk

/-- Control may go on in block `j`: its slots are written at the end of block `c`. -/
def Admits (b : Builder) (accounts : Accounts) (f : FunctionId) (c j : Nat) : Prop :=
  j < (b.module.function f).blocks.size ∧ accounts f j ⊆ b.written accounts f c

theorem Admits.develops {j : Nat} (h : b.Admits accounts f c j) (hdevelops : b.Develops b')
    (hc : c < (b.module.function f).blocks.size) : b'.Admits accounts f c j :=
  ⟨Nat.lt_of_lt_of_le h.1 (hdevelops f).blocks,
    h.2.trans (hdevelops.written_subset (fun _ _ _ => rfl) hc)⟩

namespace Standing

variable (h : b.Standing own accounts f c)

include h

theorem appendBlock (label : String) (slots : Set Nat) :
    let r := (Build.appendBlock f label).run b
    let accounts' := accounts.set f (b.module.function f).blocks.size slots
    r.2.Standing own accounts' f c ∧ b.Develops r.2 ∧
      (b.module.function f).blocks.size < (r.2.module.function f).blocks.size := by
  intro r accounts'
  obtain ⟨-, hrearranges, hcursor, hblock, hsize, -⟩ := b.appendBlock_run h.at_.function_lt label
  have hpos := Nat.zero_lt_of_lt h.at_.block_lt
  have hentry : (b.module.function f).blocks.size = 0 → slots = ∅ :=
    fun hzero => absurd hzero (Nat.ne_of_gt hpos)
  obtain ⟨hcovered, hdevelops⟩ := h.covered.appendBlock h.mine h.at_.function_lt label hentry
  refine ⟨⟨h.mine, ?_, hcovered⟩, hdevelops, by rw [hsize]; exact Nat.lt_succ_self _⟩
  exact ⟨hrearranges.size ▸ h.at_.function_lt, Nat.lt_of_lt_of_le h.at_.block_lt hrearranges.blocks,
    hcursor.trans h.at_.cursor, hblock.trans h.at_.block⟩

/-- A block other than the entry is moved behind the others. -/
theorem moveBlockToEnd {k : Nat} (hk : k ≠ 0) :
    let r := (Build.moveBlockToEnd ⟨f, k⟩).run b
    r.2.Standing own accounts f c ∧ b.Develops r.2 := by
  intro r
  obtain ⟨hrearranges, hcursor, hblock, hsize, hlayout⟩ := b.moveBlockToEnd_run h.at_.function_lt k
  have hnext : (r.2.module.function f).nextId = (b.module.function f).nextId := by
    show ((b.module.modifyFunction f _).function f).nextId = _
    rw [Module.function_modifyFunction_self _ _ h.at_.function_lt]
  have hcovered := h.covered.functions f h.mine
  have hpos := Nat.zero_lt_of_lt h.at_.block_lt
  have hentry : (r.2.module.function f).entryBlock? = some 0 := by
    have hhead := hcovered.entry.resolve_left fun hzero => absurd hzero.1 (Nat.ne_of_gt hpos)
    obtain ⟨rest, hrest⟩ := List.head?_eq_some_iff.mp hhead
    rw [Function.entryBlock?, hlayout, hrest, List.erase_cons_tail (by simpa using Ne.symm hk)]
    rfl
  refine ⟨h.of_function ?_ (hrearranges.sane h.covered.sane hpos) hrearranges.others
    (hcovered.of_instructions hsize (.inr hentry) hnext hrearranges.instructions),
    .of_function hrearranges.others
      (.of_instructions hrearranges.blocks hnext hrearranges.instructions)⟩
  exact ⟨hrearranges.size ▸ h.at_.function_lt, hsize ▸ h.at_.block_lt,
    hcursor.trans h.at_.cursor, hblock.trans h.at_.block⟩

/-- Building goes on in another block of the function. -/
theorem positionAtEnd {k : Nat} (hk : k < (b.module.function f).blocks.size) :
    let r := (Build.positionAtEnd ⟨f, k⟩).run b
    r.2.Standing own accounts f k ∧ b.Develops r.2 := by
  intro r
  obtain ⟨hcovered, hdevelops⟩ := h.covered.of_module r.2 rfl rfl
  exact ⟨⟨h.mine, ⟨h.at_.function_lt, hk, rfl, rfl⟩, hcovered⟩, hdevelops⟩

/-- Ending the current block. -/
theorem terminate (op : Op) (hload : op.loaded? = none)
    (hedges : ∀ j, ⟨f, j⟩ ∈ op.successors → b.Admits accounts f c j) :
    b.CoversAt own accounts f c (Build.terminate op) fun _ _ => True := by
  refine CoversAt.read ?_
  split
  · exact KeepsCovered.misuse accounts c b h
  · obtain ⟨hstanding, hdevelops, -⟩ := h.insert "" op hedges (by simp [hload])
    exact ⟨hstanding, hdevelops, True.intro⟩

theorem jump {j : Nat} (hj : b.Admits accounts f c j) :
    b.CoversAt own accounts f c (Build.jump ⟨f, j⟩) fun _ _ => True :=
  h.terminate _ rfl fun j' hj' => by
    obtain rfl : j' = j := by simpa [Op.successors] using hj'
    exact hj

/-- Going to one of two blocks, or to the second one if the condition cannot be used. -/
theorem branch (cond : Value) {yes no : Nat} (hyes : b.Admits accounts f c yes)
    (hno : b.Admits accounts f c no) :
    b.CoversAt own accounts f c (Build.branch cond ⟨f, yes⟩ ⟨f, no⟩) fun _ _ => True := by
  refine CoversAt.read ?_
  split
  · exact KeepsCovered.misuse accounts c b h
  · split
    · refine h.terminate _ rfl fun j hj => ?_
      have hj' : j = yes ∨ j = no := by simpa [Op.successors] using hj
      rcases hj' with rfl | rfl
      · exact hyes
      · exact hno
    · exact (KeepsCovered.misuse accounts c b h).bind fun _ b' hb' hdevelops _ =>
        hb'.jump (hno.develops hdevelops h.at_.block_lt)

end Standing

/-! ## Functions -/

/-- A step that touches no function. -/
theorem Covered.quiet (h : b.Covered own accounts) (hquiet : b.Quiet b') :
    b'.Covered own accounts ∧ b.Develops b' := by
  have hfunction : ∀ g, b'.module.function g = b.module.function g := fun g => by
    simp [Module.function, hquiet.functions]
  refine ⟨⟨(hquiet.straight 0 0).sane h.sane, fun g hg => ?_, fun g hg => ?_⟩, fun g => ?_⟩
  · exact h.fresh g (hfunction g ▸ hg)
  · rw [hfunction]
    exact h.functions g hg
  · rw [hfunction]
    exact .refl _ _

theorem Standing.quiet (h : b.Standing own accounts f c) (hquiet : b.Quiet b') :
    b'.Standing own accounts f c ∧ b.Develops b' :=
  have hcovered := h.covered.quiet hquiet
  ⟨⟨h.mine, (hquiet.straight f c).at_ h.at_, hcovered.1⟩, hcovered.2⟩

/-- A function that is declared has no blocks. -/
theorem Covered.declares (h : b.Covered own accounts) {name : String} {id : FunctionId}
    (hdeclares : b.Declares name id b') : b'.Covered own accounts ∧ b.Develops b' := by
  have hfresh : ∀ g, b.module.functions.size ≤ g → own g := fun g hg =>
    h.fresh g (Module.hasBody_of_le hg)
  have hnone : ∀ g, b.module.functions.size ≤ g → (b'.module.function g).blocks.size = 0 := by
    intro g hg
    simpa [Function.hasBody, Array.isEmpty] using hdeclares.fresh g hg
  refine ⟨⟨hdeclares.sane, fun g hbody => ?_, fun g hown => ?_⟩, fun g => ?_⟩
  · rcases Nat.lt_or_ge g b.module.functions.size with hg | hg
    · exact h.fresh g (hdeclares.kept g hg ▸ hbody)
    · exact hfresh g hg
  · rcases Nat.lt_or_ge g b.module.functions.size with hg | hg
    · rw [hdeclares.kept g hg]
      exact h.functions g hown
    · exact .of_no_blocks (h.functions g hown).start (hnone g hg)
        (hdeclares.sane.layout g (hdeclares.fresh g hg))
  · rcases Nat.lt_or_ge g b.module.functions.size with hg | hg
    · rw [hdeclares.kept g hg]
      exact .refl _ _
    · have hdefault : b.module.function g = default := by
        simp [Module.function, Array.getD_eq_getD_getElem?, Array.getElem?_eq_none hg]
      rw [hdefault]
      exact .of_default _ _

/-- A function without a body gets an entry and an exit block, and building goes on in the
entry. -/
theorem Covered.openFunction (h : b.Covered own accounts) (hf : f < b.module.functions.size)
    (hbody : (b.module.function f).hasBody = false) :
    let r := (do
      let entry ← Build.appendBlock f "entry"
      let exit ← Build.appendBlock f "exit"
      Build.setCurrentFunction f
      Build.positionAtEnd entry
      pure exit : Build BlockRef).run b
    r.1 = ⟨f, 1⟩ ∧ b.Develops r.2 ∧ ∃ accounts', r.2.Standing own accounts' f 0 ∧
      b.KeepsAccounts accounts accounts' ∧ accounts' f 1 = ∅ ∧
      1 < (r.2.module.function f).blocks.size := by
  intro r
  have hown := h.fresh f hbody
  have hnone : (b.module.function f).blocks.size = 0 := by
    simpa [Function.hasBody, Array.isEmpty] using hbody
  obtain ⟨hexit, -, hat, hopened, -, -⟩ := b.open_run h.sane hf hbody
  obtain ⟨-, hr₁, -, -, hsize₁, -⟩ := b.appendBlock_run hf "entry"
  obtain ⟨hcovered₁, hdevelops₁⟩ := h.appendBlock hown hf "entry" fun _ => rfl
  obtain ⟨hcovered₂, hdevelops₂⟩ :=
    hcovered₁.appendBlock hown (hr₁.size ▸ hf) "exit" fun _ => rfl
  obtain ⟨hcovered, hdevelops⟩ := hcovered₂.of_module r.2 rfl rfl
  rw [hnone] at hsize₁ hcovered
  rw [hsize₁] at hcovered
  refine ⟨hexit, (hdevelops₁.trans hdevelops₂).trans hdevelops, _, ⟨hown, hat, hcovered⟩,
    fun g k hk => ?_, Accounts.set_self _ _ _ _, hopened.size ▸ Nat.one_lt_two⟩
  have hne : g = f → ∀ j, k ≠ j := by
    rintro rfl
    omega
  rw [Accounts.set_of_ne _ _ fun hg => hne hg 1, Accounts.set_of_ne _ _ fun hg => hne hg 0]

/-- Building goes on where it was before other functions were built. -/
theorem Standing.restore (h : b.Standing own accounts f c) (hcovered : b'.Covered own accounts')
    (hdevelops : b.Develops b') :
    let r := (Build.restore b.position).run b'
    r.2.Standing own accounts' f c ∧ b'.Develops r.2 := by
  intro r
  have hr : r.2 = { b' with
      currentFunction := b.currentFunction
      cursor := some (.atEnd ⟨f, c⟩)
      currentBlock := some ⟨f, c⟩ } := by
    simp only [r, Build.restore, position, h.at_.block]
    rfl
  have hblock : c < (b'.module.function f).blocks.size :=
    Nat.lt_of_lt_of_le h.at_.block_lt (hdevelops f).blocks
  have hbody : (b'.module.function f).hasBody = true := by
    simp only [Function.hasBody, Array.isEmpty, Bool.not_eq_true', decide_eq_false_iff_not]
    omega
  obtain ⟨hafter, hkept⟩ := hcovered.of_module r.2 (by rw [hr]) (by rw [hr])
  refine ⟨⟨h.mine, ?_, hafter⟩, hkept⟩
  rw [hr]
  exact ⟨Module.lt_of_hasBody hbody, hblock, rfl, rfl⟩

end Builder

/-- Leaving the function. -/
theorem KeepsCovered.leave {op : Op} (hload : op.loaded? = none) (hop : op.successors = []) :
    KeepsCovered own f (Build.terminate op) :=
  fun _ _ _ h => h.terminate op hload (by simp [hop])

end IR

end ClassLang
