import ClassLang.Proofs.Execution.Arithmetic
import ClassLang.Proofs.Execution.Stepping
import ClassLang.Proofs.Lowering.FollowingBodies
import ClassLang.Proofs.Semantics.Code

/-!
# Running what was generated

How the code of a body runs that computes with Integers and Booleans. An `Activation` is a call of a
function whose locals are stack slots. The machine is `Here` if it is about to run what building
generates next, and every local that has a value has it in its slot. `Simulates` compares a step of
evaluation with a step of generating: where the evaluation goes on, the code that was generated runs
from where building was to where building is now, and where the evaluation leaves the body, the code
comes to the exit block with the value that is returned.
-/

namespace ClassLang

open Execution (Context Datum ObjectId State)
open IR (BlockRef FunctionId HasOperands Instruction Op Ty Value)
open IR.HasOperands (Below)

/-! ## Operands -/

namespace IR.Value

/-- The value of an operand that is a number, a parameter or a result. -/
def datum? (fr : Execution.Frame) : Value → Option Datum
  | .const (.int w n) => some (.int w n)
  | .const _ => none
  | .param _ index _ => fr.args[index]?
  | .result _ id _ => fr.results[id]?

theorem eval?_of_datum? {η : Type} {E : Context η} {value : Value} {fr : Execution.Frame} {d : Datum}
    (h : value.datum? fr = some d) : E.eval? fr value = some d := by
  cases value with
  | const c =>
      cases c with
      | int w n => exact h
      | _ => cases h
  | param _ _ _ => exact h
  | result _ _ _ => exact h

/-- The operand stands for a word or truth value. -/
structure Denotes (value : Value) (v : Scalar) (fr : Execution.Frame) : Prop where
  type : value.type = v.type.ty
  datum : value.datum? fr = some v.datum

theorem Denotes.eval? {η : Type} {E : Context η} {value : Value} {v : Scalar} {fr : Execution.Frame}
    (h : value.Denotes v fr) : E.eval? fr value = some v.datum :=
  eval?_of_datum? h.datum

end IR.Value

namespace Execution.Frame

/-- The frames belong to one call, and the results numbered below `n` are the same. -/
structure Keeps (n : Nat) (fr fr' : Execution.Frame) : Prop where
  args : fr'.args = fr.args
  results : ∀ id, id < n → fr'.results[id]? = fr.results[id]?

variable {n m : Nat} {fr fr' fr'' : Execution.Frame}

namespace Keeps

theorem refl (n : Nat) (fr : Execution.Frame) : Keeps n fr fr := ⟨rfl, fun _ _ => rfl⟩

theorem mono (h : Keeps n fr fr') (hle : m ≤ n) : Keeps m fr fr' :=
  ⟨h.args, fun id hid => h.results id (Nat.lt_of_lt_of_le hid hle)⟩

theorem trans (h : Keeps n fr fr') (h' : Keeps n fr' fr'') : Keeps n fr fr'' :=
  ⟨h'.args.trans h.args, fun id hid => (h'.results id hid).trans (h.results id hid)⟩

/-- An operand that was there before. -/
theorem datum?_eq (h : Keeps n fr fr') {value : Value} (hbelow : Below n value) :
    value.datum? fr' = value.datum? fr := by
  cases value with
  | const c => cases c <;> rfl
  | param _ _ _ => simp only [IR.Value.datum?, h.args]
  | result _ id _ => exact h.results id hbelow

end Keeps

end Execution.Frame

/-- What holds of a frame goes on to hold as long as the results numbered below `n` are the same. -/
def Stable (n : Nat) (P : Execution.Frame → Prop) : Prop :=
  ∀ fr fr', Execution.Frame.Keeps n fr fr' → P fr → P fr'

namespace Stable

variable {n n' : Nat} {P Q : Execution.Frame → Prop}

theorem mono (h : Stable n P) (hle : n ≤ n') : Stable n' P :=
  fun fr fr' hkeeps => h fr fr' (hkeeps.mono hle)

theorem and (h : Stable n P) (h' : Stable n Q) : Stable n fun fr => P fr ∧ Q fr :=
  fun fr fr' hkeeps => And.imp (h fr fr' hkeeps) (h' fr fr' hkeeps)

theorem const (n : Nat) (p : Prop) : Stable n fun _ => p := fun _ _ _ => id

theorem denotes {value : Value} (h : Below n value) (v : Scalar) : Stable n (value.Denotes v) :=
  fun _ _ hkeeps hvalue => ⟨hvalue.type, (hkeeps.datum?_eq h).trans hvalue.datum⟩

end Stable

/-! ## Bodies -/

/-- Stack slots do not end a block. -/
theorem IR.Block.open_iff {b : IR.Block} :
    b.Open ↔ ∀ i ∈ b.code, i.op.isTerminator = false := by
  refine ⟨fun h i hi => h i (IR.Block.mem_of_mem_code hi), fun h i hi => ?_⟩
  cases hslot : i.op.isAlloca with
  | true => cases hop : i.op <;> first | rfl | (rw [hop] at hslot; cases hslot)
  | false => exact h i (List.mem_filter.mpr ⟨hi, by simp [hslot]⟩)

namespace Body

/-- The name has a stack slot: the result of the given instruction, for values of a type. -/
def HasSlot (b : Body) (name : String) (id : Nat) (ty : Ty) : Prop :=
  (name, Storage.slot (.result b.function id .ptr) ty) ∈ b.scope

/-- The instruction that made a stack slot. -/
def slotId? (entry : String × Storage) : Option Nat :=
  match entry.2 with
  | .slot (.result _ id _) _ => some id
  | _ => none

/-- The locals of a body are different stack slots of the function, and the blocks that return a
value have come to an end. -/
structure Regular (b : Body) (f : IR.Function) : Prop where
  slots : ∀ entry ∈ b.scope, ∃ i ∈ (f.block 0).slots, ∃ ty,
    entry.2 = .slot (.result b.function i.id .ptr) ty
  apart : (b.scope.map slotId?).Nodup
  sites : ∀ site ∈ b.returnSites, ∃ i ∈ (f.block site.2.block).code, i.op.isTerminator = true

variable {b b' b'' : Body} {f f' : IR.Function} {name name' : String} {id : Nat} {ty ty' : Ty}

theorem Regular.mono (h : b.Regular f) (hgrows : f.Grows f') : b.Regular f' where
  slots entry hentry := by
    obtain ⟨i, hi, ty, hslot⟩ := h.slots entry hentry
    exact ⟨i, hgrows.slots i hi, ty, hslot⟩
  apart := h.apart
  sites site hsite := by
    obtain ⟨i, hi, hends⟩ := h.sites site hsite
    exact ⟨i, (hgrows.code site.2.block).subset hi, hends⟩

/-- A slot of the function belongs to one local. -/
theorem Regular.slot_eq (h : b.Regular f) (hslot : b.HasSlot name id ty)
    (hslot' : b.HasSlot name' id ty') : name = name' ∧ ty = ty' := by
  have heq := List.inj_on_of_nodup_map h.apart hslot hslot' rfl
  obtain ⟨rfl, hstorage⟩ := Prod.mk.inj heq
  exact ⟨rfl, (Storage.slot.inj hstorage).2⟩

/-- What is found under a name is a slot. -/
theorem Regular.lookup (h : b.Regular f) {storage : Storage}
    (hlookup : b.scope.lookup name = some storage) :
    ∃ i ∈ (f.block 0).slots, ∃ ty, storage = .slot (.result b.function i.id .ptr) ty ∧
      b.HasSlot name i.id ty := by
  have hmem := mem_of_lookup_eq_some hlookup
  obtain ⟨i, hi, ty, rfl⟩ := h.slots _ hmem
  exact ⟨i, hi, ty, rfl, hmem⟩

/-- From one body under construction to a later one: locals and return sites were added, and code to
the function. The new locals have some of the given names, in this order. -/
structure Leads (names : List String) (b : Body) (o : Output) (b' : Body) (o' : Output) : Prop
    where
  function : b'.function = b.function
  exit : b'.exit = b.exit
  scope : ∃ new, b'.scope = new ++ b.scope ∧ (new.map (·.1)).Sublist names.reverse
  sites : b.returnSites <+: b'.returnSites
  grows : o.Grows o'

namespace Leads

variable {o o' o'' : Output} {names names' : List String}

/-- Code was added, and the body is the same. -/
theorem of_grows (b : Body) (h : o.Grows o') : Leads [] b o b o' :=
  ⟨rfl, rfl, ⟨[], rfl, .slnil⟩, List.prefix_refl _, h⟩

theorem refl (b : Body) (o : Output) : Leads [] b o b o :=
  of_grows b (.refl o)

theorem trans (h : Leads names b o b' o') (h' : Leads names' b' o' b'' o'') :
    Leads (names ++ names') b o b'' o'' where
  function := h'.function.trans h.function
  exit := h'.exit.trans h.exit
  scope := by
    obtain ⟨new, hnew, hnames⟩ := h.scope
    obtain ⟨new', hnew', hnames'⟩ := h'.scope
    refine ⟨new' ++ new, by rw [hnew', hnew, List.append_assoc], ?_⟩
    rw [List.map_append, List.reverse_append]
    exact hnames'.append hnames
  sites := h.sites.trans h'.sites
  grows := h.grows.trans h'.grows

theorem mono (h : Leads names b o b' o') (hsub : names.Sublist names') :
    Leads names' b o b' o' := by
  obtain ⟨new, hnew, hnames⟩ := h.scope
  exact { h with scope := ⟨new, hnew, hnames.trans hsub.reverse⟩ }

end Leads

end Body

/-! ## Calls in progress -/

/-- A call of a function whose body was generated. -/
structure Activation (η : Type) where
  /-- The body as its generation has left it. -/
  body : Body
  types : ScalarTypes
  args : List Datum
  /-- The instruction of the caller that waits for the result. -/
  waiting : Nat
  callers : List Execution.Frame
  host : η
  /-- The memory in which the call began. -/
  before : Execution.Memory
  /-- The object behind each stack slot, by the number of the instruction that made it. -/
  place : Nat → ObjectId

variable {η : Type} (E : Context η) (F : Output)

namespace Activation

/-- The function that runs. -/
def code (T : Activation η) : IR.Function :=
  E.module.function T.body.function

/-- What is fixed while the call is in progress. -/
structure Sound (T : Activation η) : Prop where
  module : E.module = F.builder.module
  shaped : (T.code E).Shaped
  regular : T.body.Regular (T.code E)
  names : (T.body.scope.map (·.1)).Nodup
  exit : T.body.exit = ⟨T.body.function, 1⟩
  fresh : ∀ i ∈ ((T.code E).block 0).slots, T.before.objects.size ≤ T.place i.id
  apart : ∀ i ∈ ((T.code E).block 0).slots, ∀ j ∈ ((T.code E).block 0).slots,
    T.place i.id = T.place j.id → i.id = j.id

/-- What building has come to is part of what runs. -/
structure Includes (T : Activation η) (b : Body) (o : Output) : Prop where
  function : T.body.function = b.function
  exit : T.body.exit = b.exit
  scope : b.scope <:+ T.body.scope
  sites : b.returnSites <+: T.body.returnSites
  grows : o.Grows F

/-- The frame and the world of the call, with these locals. -/
structure Holds (T : Activation η) (l : Locals) (s : State η) : Prop where
  function : s.frame.function = T.body.function
  args : s.frame.args = T.args
  waiting : s.frame.waiting = T.waiting
  callers : s.callers = T.callers
  host : s.world.host = T.host
  memory : T.before.Grows s.world.memory
  slots : ∀ i ∈ ((T.code E).block 0).slots,
    s.frame.results[i.id]? = some (.address (.place (T.place i.id) 0)) ∧
      T.place i.id < s.world.memory.objects.size
  types : ∀ name v, l name = some v → T.types.local? name = some v.type
  values : ∀ name v, l name = some v → ∀ id ty, T.body.HasSlot name id ty →
    ty = v.type.ty ∧ s.world.memory.load? ty (.place (T.place id) 0) = some v.datum

/-- The machine is about to run a block from a position of its code on. -/
structure Live (T : Activation η) (l : Locals) (k m : Nat) (s : State η) : Prop
    extends T.Holds E l s where
  block : s.frame.block = k
  code : s.frame.code = ((T.code E).block k).code.drop m

/-- The machine is about to run what building generates next. -/
structure Here (T : Activation η) (o : Output) (l : Locals) (s : State η) : Prop where
  at_ : o.builder.At T.body.function s.frame.block
  isOpen : ((o.builder.module.function T.body.function).block s.frame.block).Open
  live : T.Live E l s.frame.block
    ((o.builder.module.function T.body.function).block s.frame.block).code.length s

/-- The machine is about to run the exit block, which it has come to with the value `v` of a
`return`. -/
structure Leaving (T : Activation η) (v : Scalar) (s : State η) : Prop where
  holds : ∃ l, T.Holds E l s
  block : s.frame.block = 1
  code : s.frame.code = ((T.code E).block 1).instructions
  returned : ∃ k value ref v', s.frame.previous = some k ∧
    T.body.returnSites.find? (fun site => site.2.block == k) = some (value, ref) ∧
      v.passTo T.types.result = some v' ∧ value.Denotes v' s.frame

/-- What comes of a state as an evaluation goes on or leaves the body. -/
def Outcome {α : Type} (T : Activation η) (s : State η) (x : Eval α) (l : Locals)
    (Q : α → Locals → State η → Prop) : Prop :=
  (∀ a l', x.run l = some (.ok a, l') → ∃ t, E.Reaches s t ∧ Q a l' t) ∧
    ∀ u l', x.run l = some (.error u, l') → ∃ t, E.Reaches s t ∧ T.Leaving E u t

variable {E F} {T : Activation η} {l l' : Locals} {s t : State η} {b b' : Body} {o o' : Output}
  {names : List String} {k m : Nat}

/-! ### Building -/

namespace Includes

/-- What building had come to earlier. -/
theorem before (h : T.Includes F b' o') (hleads : b.Leads names o b' o') : T.Includes F b o where
  function := h.function.trans hleads.function
  exit := h.exit.trans hleads.exit
  scope := by
    obtain ⟨new, hnew, -⟩ := hleads.scope
    exact (hnew ▸ List.suffix_append new b.scope).trans h.scope
  sites := hleads.sites.trans h.sites
  grows := hleads.grows.trans h.grows

theorem code (h : T.Includes F b o) (hT : T.Sound E F) :
    (o.builder.module.function T.body.function).Grows (T.code E) := by
  rw [Activation.code, hT.module]
  exact h.grows.builder.functions _

theorem hasSlot (h : T.Includes F b o) {name : String} {id : Nat} {ty : Ty}
    (hslot : b.HasSlot name id ty) : T.body.HasSlot name id ty := by
  rw [Body.HasSlot, h.function]
  exact h.scope.subset hslot

end Includes

/-- Code that was added to a block stands in it when it runs. -/
theorem code_eq {f : IR.Function} (h : f.Grows (T.code E)) {before : List Instruction}
    {i : Instruction} (hcode : (f.block k).code = before ++ [i]) :
    ((T.code E).block k).code.drop before.length =
      i :: ((T.code E).block k).code.drop (before.length + 1) := by
  obtain ⟨rest, hrest⟩ := h.code k
  rw [← hrest, hcode]
  simp

/-- Building that adds no code does not change what runs next. -/
theorem Here.of_code (h : T.Here E o l s)
    (hat : ∀ c, o.builder.At T.body.function c → o'.builder.At T.body.function c)
    (hcode : ∀ k, ((o'.builder.module.function T.body.function).block k).code =
      ((o.builder.module.function T.body.function).block k).code) : T.Here E o' l s where
  at_ := hat _ h.at_
  isOpen := by
    rw [IR.Block.open_iff, hcode]
    exact IR.Block.open_iff.mp h.isOpen
  live := by
    rw [hcode]
    exact h.live

/-! ### Slots -/

namespace Sound

theorem slot_mem (h : T.Sound E F) {name : String} {id : Nat} {ty : Ty}
    (hslot : T.body.HasSlot name id ty) : ∃ i ∈ ((T.code E).block 0).slots, i.id = id := by
  obtain ⟨i, hi, ty', heq⟩ := h.regular.slots _ hslot
  cases heq
  exact ⟨i, hi, rfl⟩

/-- A local has one slot. -/
theorem slot_unique (h : T.Sound E F) {name : String} {id id' : Nat} {ty ty' : Ty}
    (hslot : T.body.HasSlot name id ty) (hslot' : T.body.HasSlot name id' ty') : id = id' := by
  have heq := List.inj_on_of_nodup_map h.names hslot hslot' rfl
  cases heq
  rfl

/-- Instructions other than those that make slots have other numbers. -/
theorem ne_slot (h : T.Sound E F) {i slot : Instruction} (hi : i ∈ ((T.code E).block k).code)
    (hslot : slot ∈ ((T.code E).block 0).slots) : i.id ≠ slot.id :=
  h.shaped.apart k i hi slot hslot

end Sound

/-- The call goes on: memory has grown, and slots are where they were. -/
theorem Holds.moved (h : T.Holds E l s) (hT : T.Sound E F)
    (hfunction : t.frame.function = s.frame.function) (hargs : t.frame.args = s.frame.args)
    (hwaiting : t.frame.waiting = s.frame.waiting) (hcallers : t.callers = s.callers)
    (hhost : t.world.host = s.world.host) (hmemory : s.world.memory.Grows t.world.memory)
    (hresults : ∀ i ∈ ((T.code E).block 0).slots,
      t.frame.results[i.id]? = s.frame.results[i.id]?) : T.Holds E l t where
  function := hfunction.trans h.function
  args := hargs.trans h.args
  waiting := hwaiting.trans h.waiting
  callers := hcallers.trans h.callers
  host := hhost.trans h.host
  memory := h.memory.trans hmemory
  slots i hi := ⟨(hresults i hi).trans (h.slots i hi).1,
    Nat.lt_of_lt_of_le (h.slots i hi).2 hmemory.size⟩
  types := h.types
  values name v hv id ty hslot := by
    obtain ⟨hty, hload⟩ := h.values name v hv id ty hslot
    obtain ⟨i, hi, rfl⟩ := hT.slot_mem hslot
    exact ⟨hty, (hmemory.load?_eq ty 0 (h.slots i hi).2).trans hload⟩

/-- A local has got a value, which was stored in its slot. -/
theorem Holds.write (h : T.Holds E l s) (hT : T.Sound E F) {name : String} {id : Nat} {v : Scalar}
    (hslot : T.body.HasSlot name id v.type.ty) (htype : T.types.local? name = some v.type)
    (hfunction : t.frame.function = s.frame.function) (hargs : t.frame.args = s.frame.args)
    (hwaiting : t.frame.waiting = s.frame.waiting) (hcallers : t.callers = s.callers)
    (hhost : t.world.host = s.world.host) (hresults : t.frame.results = s.frame.results)
    (hstore : s.world.memory.store? v.datum (.place (T.place id) 0) = some t.world.memory) :
    T.Holds E (l.set name v) t := by
  obtain ⟨i, hi, rfl⟩ := hT.slot_mem hslot
  have hsize := Execution.Memory.size_store? hstore
  refine ⟨hfunction.trans h.function, hargs.trans h.args, hwaiting.trans h.waiting,
    hcallers.trans h.callers, hhost.trans h.host, h.memory.store? (hT.fresh i hi) hstore,
    fun j hj => ?_, fun other v' hv' => ?_, fun other v' hv' id' ty' hslot' => ?_⟩
  · rw [hresults, hsize]
    exact h.slots j hj
  · by_cases hother : other = name
    · subst hother
      cases (if_pos rfl).symm.trans hv'
      exact htype
    · exact h.types other v' ((if_neg hother).symm.trans hv')
  · by_cases hother : other = name
    · subst hother
      cases (if_pos rfl).symm.trans hv'
      obtain rfl := hT.slot_unique hslot hslot'
      obtain ⟨-, rfl⟩ := hT.regular.slot_eq hslot hslot'
      exact ⟨rfl, Execution.Memory.load?_store?_self _ hstore⟩
    · obtain ⟨hty, hload⟩ := h.values other v' ((if_neg hother).symm.trans hv') id' ty' hslot'
      refine ⟨hty, (Execution.Memory.load?_store?_of_ne ty' hstore fun heq => hother ?_).trans hload⟩
      obtain ⟨j, hj, rfl⟩ := hT.slot_mem hslot'
      have hid := hT.apart j hj i hi (Execution.Address.place.inj heq).1
      rw [hid] at hslot'
      exact (hT.regular.slot_eq hslot' hslot).1

/-! ### Outcomes -/

namespace Outcome

variable {α β : Type} {x : Eval α} {Q Q' : α → Locals → State η → Prop}

theorem undefined : T.Outcome E s Eval.undefined l Q :=
  ⟨by rintro _ _ ⟨⟩, by rintro _ _ ⟨⟩⟩

theorem pure {a : α} (h : Q a l s) : T.Outcome E s (Pure.pure a) l Q := by
  refine ⟨?_, ?_⟩
  · rintro _ _ ⟨⟩
    exact ⟨s, .refl s, h⟩
  · rintro _ _ ⟨⟩

/-- The machine may come to another state first. -/
theorem of_reaches (hreaches : E.Reaches s t) (h : T.Outcome E t x l Q) : T.Outcome E s x l Q := by
  refine ⟨fun a l' hrun => ?_, fun u l' hrun => ?_⟩
  · obtain ⟨t', ht', hQ⟩ := h.1 a l' hrun
    exact ⟨t', hreaches.trans ht', hQ⟩
  · obtain ⟨t', ht', hleaving⟩ := h.2 u l' hrun
    exact ⟨t', hreaches.trans ht', hleaving⟩

/-- Where the evaluation goes on the machine goes on to another state. -/
theorem through (h : T.Outcome E s x l Q)
    (hQ : ∀ a l' t, Q a l' t → ∃ u, E.Reaches t u ∧ Q' a l' u) : T.Outcome E s x l Q' := by
  refine ⟨fun a l' hrun => ?_, h.2⟩
  obtain ⟨t, ht, hq⟩ := h.1 a l' hrun
  obtain ⟨u, hu, hq'⟩ := hQ a l' t hq
  exact ⟨u, ht.trans hu, hq'⟩

theorem mono (h : T.Outcome E s x l Q) (hQ : ∀ a l' t, Q a l' t → Q' a l' t) :
    T.Outcome E s x l Q' :=
  h.through fun a l' t hq => ⟨t, .refl t, hQ a l' t hq⟩

theorem bind {next : α → Eval β} {R : β → Locals → State η → Prop} (h : T.Outcome E s x l Q)
    (hnext : ∀ a l' t, Q a l' t → T.Outcome E t (next a) l' R) :
    T.Outcome E s (x >>= next) l R := by
  refine ⟨fun a l' hrun => ?_, fun u l' hrun => ?_⟩
  · obtain ⟨a₁, l₁, hx, hrest⟩ := Eval.run_bind_ok.mp hrun
    obtain ⟨t, ht, hq⟩ := h.1 a₁ l₁ hx
    exact (of_reaches ht (hnext a₁ l₁ t hq)).1 a l' hrest
  · rcases Eval.run_bind_error.mp hrun with hx | ⟨a₁, l₁, hx, hrest⟩
    · exact h.2 u l' hx
    · obtain ⟨t, ht, hq⟩ := h.1 a₁ l₁ hx
      exact (of_reaches ht (hnext a₁ l₁ t hq)).2 u l' hrest

/-- A result that may be undefined. -/
theorem ofOption {a? : Option α} (h : ∀ a, a? = some a → ∃ t, E.Reaches s t ∧ Q a l t) :
    T.Outcome E s (Eval.ofOption a?) l Q := by
  cases a? with
  | none => exact undefined
  | some a =>
      obtain ⟨t, ht, hQ⟩ := h a rfl
      exact of_reaches ht (pure hQ)

/-- Reading a local. -/
theorem read {name : String} {Q : Scalar → Locals → State η → Prop}
    (h : ∀ v, l name = some v → ∃ t, E.Reaches s t ∧ Q v l t) :
    T.Outcome E s (Eval.read name) l Q := by
  refine ⟨fun v l' hrun => ?_, fun u l' hrun => ?_⟩ <;> rw [Eval.run_read] at hrun
  · obtain ⟨v', hv', heq⟩ := Option.map_eq_some_iff.mp hrun
    cases heq
    exact h _ hv'
  · obtain ⟨v', -, ⟨⟩⟩ := Option.map_eq_some_iff.mp hrun

/-- Writing a local. -/
theorem write {name : String} {v : Scalar} {Q : Unit → Locals → State η → Prop}
    (h : ∃ t, E.Reaches s t ∧ Q ⟨⟩ (l.set name v) t) :
    T.Outcome E s (Eval.write name v) l Q := by
  refine ⟨?_, ?_⟩ <;> rintro _ _ ⟨⟩
  exact h

end Outcome

end Activation

/-! ## Simulation -/

namespace Lower

variable {K : ScalarTypes} {α β γ δ : Type} {f : FunctionId} {n n' : Nat} {names names' : List String}
  {P P' : Execution.Frame → Prop}

/-- Building goes on in block `c` of function `f`, in a body of plain code whose locals are stack
slots. -/
structure Ready (K : ScalarTypes) (f : FunctionId) (c : Nat) (b : Body) (o : Output) : Prop
    extends Site f c b o where
  walk : b.walk = 0
  result : b.result = K.result.id
  regular : b.Regular (o.builder.module.function f)
  locals : ∀ name id ty, b.HasSlot name id ty → ∃ τ, K.local? name = some τ ∧ ty = τ.ty

/-- Building has gone on from block `c` to block `c'` of the function, and on the way locals of the
given names may have been declared. -/
structure Goes (K : ScalarTypes) (f : FunctionId) (names : List String) (c : Nat) (b : Body)
    (o : Output) (c' : Nat) (b' : Body) (o' : Output) : Prop where
  ready : Ready K f c' b' o'
  proceeds : o.builder.Proceeds f c c' o'.builder
  leads : b.Leads names o b' o'

/-- Once the numbers below `n` are given out, the step goes on to a place in the same function. -/
def Advances [HasOperands β] (K : ScalarTypes) (f : FunctionId) (names : List String) (n : Nat)
    (step : Lower β) : Prop :=
  ∀ b c o, Ready K f c b o → n ≤ o.builder.next f → ∀ r b' o', step.run b o = .ok (r, b') o' →
    (∃ c', Goes K f names c b o c' b' o') ∧ Below (o'.builder.next f) r

/-- Where the evaluation goes on, the code runs on from where building was, in a frame with property
`P`, to where it has come, and there `Q` holds of the results. -/
def Runs (E : Context η) (F : Output) (K : ScalarTypes) (P : Execution.Frame → Prop) (x : Eval α)
    (step : Lower β) (Q : α → β → Execution.Frame → Prop) (b : Body) (o : Output) : Prop :=
  ∀ r b' o', step.run b o = .ok (r, b') o' → ∀ T : Activation η, T.Sound E F → T.types = K →
    T.Includes F b' o' → ∀ l s, T.Here E o l s → P s.frame →
      T.Outcome E s x l fun a l' t => T.Here E o' l' t ∧
        Execution.Frame.Keeps (o.builder.next b.function) s.frame t.frame ∧ Q a r t.frame

/-- The step advances, and what it generates runs as the evaluation says. -/
structure Simulates [HasOperands β] (E : Context η) (F : Output) (K : ScalarTypes) (f : FunctionId)
    (names : List String) (n : Nat) (P : Execution.Frame → Prop) (x : Eval α) (step : Lower β)
    (Q : α → β → Execution.Frame → Prop) : Prop where
  advances : Advances K f names n step
  runs : ∀ b c o, Ready K f c b o → n ≤ o.builder.next f → Runs E F K P x step Q b o

/-- The step leaves the body as it is. -/
def KeepsBody (step : Lower β) : Prop :=
  ∀ b o r b' o', step.run b o = .ok (r, b') o' → b' = b

namespace KeepsBody

theorem pure (r : β) : KeepsBody (Pure.pure r) := by
  rintro b o _ _ _ ⟨⟩
  rfl

theorem bind {step : Lower β} {next : β → Lower δ} (h : KeepsBody step)
    (hnext : ∀ r, KeepsBody (next r)) : KeepsBody (step >>= next) := by
  intro b o r b' o' hrun
  obtain ⟨r₁, b₁, o₁, hstep, hrest⟩ := bind_ok hrun
  exact (hnext r₁ b₁ o₁ r b' o' hrest).trans (h b o r₁ b₁ o₁ hstep)

theorem lift (step : Emit β) : KeepsBody (liftM step : Lower β) :=
  fun _ _ _ _ _ hrun => (lift_ok hrun).1

theorem build (step : IR.Build β) : KeepsBody (Lower.build step) := by
  rintro b o _ _ _ ⟨⟩
  rfl

theorem get_bind {next : Body → Lower β} (h : ∀ b, KeepsBody (next b)) :
    KeepsBody (get >>= next) :=
  fun b => h b b

theorem getOutput_bind {next : Output → Lower β} (h : ∀ o, KeepsBody (next o)) :
    KeepsBody (getThe Output >>= next) :=
  fun b o => h o b o

end KeepsBody

namespace Goes

variable {c c' c'' : Nat} {b b' b'' : Body} {o o' o'' : Output}

theorem refl (h : Ready K f c b o) : Goes K f [] c b o c b o :=
  ⟨h, .refl f c _, .refl b o⟩

theorem trans (h : Goes K f names c b o c' b' o') (h' : Goes K f names' c' b' o' c'' b'' o'') :
    Goes K f (names ++ names') c b o c'' b'' o'' :=
  ⟨h'.ready, h.proceeds.trans h'.proceeds, h.leads.trans h'.leads⟩

theorem next_le (h : Goes K f names c b o c' b' o') : o.builder.next f ≤ o'.builder.next f :=
  h.leads.grows.next_le f

/-- Code was added to the current block, and the body is the same. -/
theorem of_adds [CaseTags] (h : Ready K f c b o) (hadds : o.Adds f c o') : Goes K f [] c b o c b o' :=
  have hsite : Site f c b o' := ⟨h.function, hadds.builder.at_, hadds.shaped h.shaped,
    h.below.mono hadds.builder.next_le⟩
  have hregular := h.regular.mono (hadds.grows.builder.functions f)
  ⟨⟨hsite, h.walk, h.result, hregular, h.locals⟩, hadds.builder.proceeds, .of_grows b hadds.grows⟩

end Goes

namespace Advances

variable [HasOperands β] [HasOperands δ]

theorem mono {step : Lower β} (h : Advances K f names n step) (hle : n ≤ n') :
    Advances K f names n' step :=
  fun b c o hready hn => h b c o hready (Nat.le_trans hle hn)

theorem declares {step : Lower β} (h : Advances K f names n step) (hsub : names.Sublist names') :
    Advances K f names' n step := by
  intro b c o hready hn r b' o' hrun
  obtain ⟨⟨c', hgoes⟩, hr⟩ := h b c o hready hn r b' o' hrun
  exact ⟨⟨c', { hgoes with leads := hgoes.leads.mono hsub }⟩, hr⟩

theorem bind {step : Lower β} {next : β → Lower δ} (h : Advances K f names n step)
    (hnext : ∀ r n', n ≤ n' → Below n' r → Advances K f names' n' (next r)) :
    Advances K f (names ++ names') n (step >>= next) := by
  intro b c o hready hn r b' o' hrun
  obtain ⟨r₁, b₁, o₁, hstep, hrest⟩ := bind_ok hrun
  obtain ⟨⟨c₁, hgoes₁⟩, hr₁⟩ := h b c o hready hn r₁ b₁ o₁ hstep
  have hn₁ := Nat.le_trans hn hgoes₁.next_le
  obtain ⟨⟨c', hgoes⟩, hr⟩ :=
    hnext r₁ _ hn₁ hr₁ b₁ c₁ o₁ hgoes₁.ready (Nat.le_refl _) r b' o' hrest
  exact ⟨⟨c', hgoes₁.trans hgoes⟩, hr⟩

/-- A step that adds code and leaves the body as it is. -/
theorem of_adds [CaseTags] {step : Lower β} (h : Adds f n step) (hbody : KeepsBody step) :
    Advances K f [] n step := by
  intro b c o hready hn r b' o' hrun
  obtain rfl := hbody b o r b' o' hrun
  obtain ⟨-, hadds, -, hr⟩ := h b' c o hready.function hready.at_ hready.shaped hn hready.below
    r b' o' hrun
  exact ⟨⟨c, .of_adds hready hadds⟩, hr⟩

theorem pure [CaseTags] {r : β} (h : Below n r) : Advances K f [] n (Pure.pure r) :=
  of_adds (.pure h) (.pure r)

end Advances

/-- The step changes nothing, and what it gives has the property `R`. -/
def Tells (step : Lower β) (R : β → Prop) : Prop :=
  ∀ b o r b' o', b.walk = 0 → step.run b o = .ok (r, b') o' → b' = b ∧ o' = o ∧ R r

namespace Simulates

variable [HasOperands β] [HasOperands δ] {E : Context η} {F : Output} {x : Eval α}
  {step : Lower β} {Q Q' : α → β → Execution.Frame → Prop}

/-- Where a step comes to and what runs is found from its run. -/
theorem of_run (h : ∀ b c o, Ready K f c b o → n ≤ o.builder.next f → ∀ r b' o',
    step.run b o = .ok (r, b') o' →
      ((∃ c', Goes K f names c b o c' b' o') ∧ Below (o'.builder.next f) r) ∧
        ∀ T : Activation η, T.Sound E F → T.types = K → T.Includes F b' o' → ∀ l s, T.Here E o l s →
          P s.frame → T.Outcome E s x l fun a l' t => T.Here E o' l' t ∧
            Execution.Frame.Keeps (o.builder.next f) s.frame t.frame ∧ Q a r t.frame) :
    Simulates E F K f names n P x step Q := by
  refine ⟨fun b c o hready hn r b' o' hrun => (h b c o hready hn r b' o' hrun).1, ?_⟩
  intro b c o hready hn r b' o' hrun
  rw [hready.function]
  exact (h b c o hready hn r b' o' hrun).2

theorem mono (h : Simulates E F K f names n P x step Q) (hle : n ≤ n') :
    Simulates E F K f names n' P x step Q :=
  ⟨h.advances.mono hle, fun b c o hready hn => h.runs b c o hready (Nat.le_trans hle hn)⟩

theorem declares (h : Simulates E F K f names n P x step Q) (hsub : names.Sublist names') :
    Simulates E F K f names' n P x step Q :=
  ⟨h.advances.declares hsub, h.runs⟩

theorem weaken (h : Simulates E F K f names n P x step Q) (hP : ∀ fr, P' fr → P fr)
    (hQ : ∀ a r fr, Q a r fr → Q' a r fr) : Simulates E F K f names n P' x step Q' := by
  refine ⟨h.advances, fun b c o hready hn r b' o' hrun T hT hK hincl l s hhere hPs => ?_⟩
  exact (h.runs b c o hready hn r b' o' hrun T hT hK hincl l s hhere (hP _ hPs)).mono
    fun a l' t ⟨hhere', hkeeps, hq⟩ => ⟨hhere', hkeeps, hQ a r _ hq⟩

/-- Nothing has to be shown of an evaluation that is undefined. -/
theorem undefined (h : Advances K f names n step) :
    Simulates E F K f names n P Eval.undefined step Q :=
  ⟨h, fun _ _ _ _ _ _ _ _ _ _ _ _ _ _ _ _ _ => .undefined⟩

/-- Nothing has to be shown where the property of frames never holds. -/
theorem of_false (h : Advances K f names n step) (hP : ∀ fr, ¬ P fr) :
    Simulates E F K f names n P x step Q :=
  ⟨h, fun _ _ _ _ _ _ _ _ _ _ _ _ _ _ _ _ hPs => absurd hPs (hP _)⟩

theorem pure [CaseTags] {a : α} {r : β} (hr : Below n r) (h : ∀ fr, P fr → Q a r fr) :
    Simulates E F K f [] n P (Pure.pure a) (Pure.pure r) Q := by
  refine ⟨.pure hr, ?_⟩
  rintro b c o - - _ _ _ ⟨⟩ T - - - l s hhere hPs
  exact .pure ⟨hhere, .refl _ _, h _ hPs⟩

/-- A step that never succeeds. -/
theorem of_fails (h : ∀ b o r b' o', step.run b o ≠ .ok (r, b') o') :
    Simulates E F K f [] n P x step Q :=
  ⟨fun b _ o _ _ r b' o' hrun => absurd hrun (h b o r b' o'),
    fun b _ o _ _ r b' o' hrun => absurd hrun (h b o r b' o')⟩

/-- A result that may be undefined. -/
theorem ofOption [CaseTags] {a? : Option α} {r : β} (hr : Below n r)
    (h : ∀ a, a? = some a → ∀ fr, P fr → Q a r fr) :
    Simulates E F K f [] n P (Eval.ofOption a?) (Pure.pure r) Q := by
  cases a? with
  | none => exact undefined (.pure hr)
  | some a => exact pure hr (h a rfl)

/-- A result that may be undefined is defined where the evaluation goes on. -/
theorem defined {a? : Option α} (h : Simulates E F K f names n P (Eval.ofOption a?) step Q) :
    Simulates E F K f names n P (Eval.ofOption a?) step fun a r fr => a? = some a ∧ Q a r fr := by
  cases a? with
  | none => exact undefined h.advances
  | some a =>
      refine ⟨h.advances, fun b c o hready hn r b' o' hrun T hT hK hincl l s hhere hPs => ?_⟩
      obtain ⟨hok, herror⟩ := h.runs b c o hready hn r b' o' hrun T hT hK hincl l s hhere hPs
      refine ⟨?_, herror⟩
      rintro _ _ ⟨⟩
      obtain ⟨t, ht, hhere', hkeeps, hq⟩ := hok a l rfl
      exact ⟨t, ht, hhere', hkeeps, rfl, hq⟩

/-- One step after the other; the second one may use what is known of the results of the first
one. -/
theorem bind [Nonempty α] {next : α → Eval γ} {next' : β → Lower δ}
    {R : γ → δ → Execution.Frame → Prop} (h : Simulates E F K f names n P x step Q) (hP : Stable n P)
    (hnext : ∀ a r n', n ≤ n' → Below n' r →
      Simulates E F K f names' n' (fun fr => P fr ∧ Q a r fr) (next a) (next' r) R) :
    Simulates E F K f (names ++ names') n P (x >>= next) (step >>= next') R := by
  obtain ⟨a₀⟩ := ‹Nonempty α›
  refine ⟨h.advances.bind fun r n' hle hr => (hnext a₀ r n' hle hr).advances, ?_⟩
  intro b c o hready hn r b' o' hrun T hT hK hincl l s hhere hPs
  obtain ⟨r₁, b₁, o₁, hstep, hrest⟩ := bind_ok hrun
  obtain ⟨⟨c₁, hgoes₁⟩, hr₁⟩ := h.advances b c o hready hn r₁ b₁ o₁ hstep
  have hready₁ := hgoes₁.ready
  have hn₁ := Nat.le_trans hn hgoes₁.next_le
  obtain ⟨⟨c', hgoes⟩, -⟩ := (hnext a₀ r₁ _ hn₁ hr₁).advances b₁ c₁ o₁ hready₁ (Nat.le_refl _)
    r b' o' hrest
  refine (h.runs b c o hready hn r₁ b₁ o₁ hstep T hT hK (hincl.before hgoes.leads) l s hhere hPs).bind ?_
  rintro a l₁ s₁ ⟨hhere₁, hkeeps₁, hq⟩
  rw [hready.function] at hkeeps₁ ⊢
  have hPs₁ := hP _ _ (hkeeps₁.mono hn) hPs
  refine ((hnext a r₁ _ hn₁ hr₁).runs b₁ c₁ o₁ hready₁ (Nat.le_refl _) r b' o' hrest T hT hK hincl l₁ s₁
    hhere₁ ⟨hPs₁, hq⟩).mono ?_
  rintro a' l₂ s₂ ⟨hhere₂, hkeeps₂, hr⟩
  rw [hready₁.function] at hkeeps₂
  exact ⟨hhere₂, hkeeps₁.trans (hkeeps₂.mono hgoes₁.next_le), hr⟩

/-- A step that changes nothing may come first. -/
theorem ask {γ : Type} {R : γ → Prop} {first : Lower γ} {next : γ → Lower β} (hfirst : Tells first R)
    (h : ∀ r, R r → Simulates E F K f names n P x (next r) Q) :
    Simulates E F K f names n P x (first >>= next) Q := by
  refine ⟨fun b c o hready hn r b' o' hrun => ?_, fun b c o hready hn r b' o' hrun => ?_⟩ <;>
    obtain ⟨r₁, b₁, o₁, hstep, hrest⟩ := bind_ok hrun <;>
    obtain ⟨rfl, rfl, hr⟩ := hfirst b o r₁ b₁ o₁ hready.walk hstep
  · exact (h r₁ hr).advances b₁ c o₁ hready hn r b' o' hrest
  · exact (h r₁ hr).runs b₁ c o₁ hready hn r b' o' hrest

end Simulates

end Lower

end ClassLang
