import ClassLang.Proofs.Lowering.RunningSteps

/-!
# Running reads and writes of locals

A local is a stack slot. Making one adds the slot to the entry block, which has run by then, and code
that stores the value.
-/

namespace ClassLang

open Execution (Context)
open IR (Build FunctionId HasOperands Ty Value)
open IR.HasOperands (Below)

variable {η : Type} {E : Context η} {F : Output} {K : ScalarTypes} {f : FunctionId} {n c : Nat}
  {P : Execution.Frame → Prop} {b b' : Body} {o o' : Output} {name : String} {value : Value}

namespace Body

/-- The body with a further local. -/
def addSlot (b : Body) (name : String) (id : Nat) (ty : Ty) : Body :=
  { b with scope := (name, .slot (.result b.function id .ptr) ty) :: b.scope }

theorem hasSlot_addSlot {other : String} {id id' : Nat} {ty ty' : Ty}
    (h : (b.addSlot name id ty).HasSlot other id' ty') :
    other = name ∧ id' = id ∧ ty' = ty ∨ b.HasSlot other id' ty' := by
  refine (List.mem_cons.mp h).imp (fun heq => ?_) fun hmem => hmem
  obtain ⟨hname, hstorage⟩ := Prod.mk.inj heq
  obtain ⟨hslot, hty⟩ := Storage.slot.inj hstorage
  exact ⟨hname, (Value.result.inj hslot).2.1, hty⟩

/-- A slot that is made is another one than those of the locals so far. -/
theorem Regular.addSlot {g g' : IR.Function} (h : b.Regular g) (hg : g.Shaped) (hgrows : g.Grows g')
    {i : IR.Instruction} (hi : i ∈ (g'.block 0).slots) (hid : i.id = g.nextId) (name : String)
    (ty : Ty) : (b.addSlot name i.id ty).Regular g' := by
  have hmono := h.mono hgrows
  refine ⟨List.forall_mem_cons.mpr ⟨⟨i, hi, ty, rfl⟩, hmono.slots⟩, ?_, hmono.sites⟩
  rw [Body.addSlot, List.map_cons, List.nodup_cons]
  refine ⟨fun hmem => ?_, h.apart⟩
  obtain ⟨entry, hentry, heq⟩ := List.mem_map.mp hmem
  obtain ⟨j, hj, ty', hslot⟩ := h.slots entry hentry
  rw [slotId?, hslot] at heq
  have hlt := hg.ids 0 j (IR.Block.mem_of_mem_slots hj)
  rw [Option.some.inj heq, hid] at hlt
  exact Nat.lt_irrefl _ hlt

/-- One local was made. -/
theorem Leads.addSlot (name : String) (id : Nat) (ty : Ty) (h : o.Grows o') :
    Leads [name] b o (b.addSlot name id ty) o' :=
  ⟨rfl, rfl, ⟨[_], rfl, .refl _⟩, List.prefix_refl _, h⟩

end Body

namespace Lower

variable {ctx : LoweringContext} (hpool : ctx.pool.HasScalars)

/-! ## Looking things up -/

section Telling

include hpool

theorem valueType_id (τ : ScalarType) (o : Output) : Emit.valueType ctx τ.id o = .ok τ.ty o := by
  refine bind_eq_ok.mpr ⟨τ.id, o, ?_, ?_⟩
  · rw [Emit.resolve, hpool.resolveStrict_id]
    rfl
  · rw [hpool.data_id]
    cases τ <;> rfl

theorem valueType_tells (τ : ScalarType) :
    Tells (liftM (Emit.valueType ctx τ.id) : Lower Ty) (· = τ.ty) := by
  intro b o r b' o' _ hrun
  obtain ⟨rfl, hstep⟩ := lift_ok hrun
  rw [valueType_id hpool] at hstep
  cases hstep
  exact ⟨rfl, rfl, rfl⟩

/-- The recorded type of a node. -/
theorem typeOf_tells {node : NodeId} {τ : ScalarType}
    (h : ctx.typed.table.typeOf { walk := 0, node } = .ok τ.id) :
    Tells (typeOf ctx node) (· = τ.id) := by
  intro b o r b' o' hwalk hrun
  have hrun' : (do
      let t ← liftM (Emit.ofExcept (ctx.typed.table.typeOf { walk := b.walk, node }))
      liftM (Emit.resolve ctx t) : Lower TypeId).run b o = .ok (r, b') o' := hrun
  rw [hwalk, h] at hrun'
  have hresolve : Emit.resolve ctx τ.id = pure τ.id := by
    rw [Emit.resolve, hpool.resolveStrict_id]
    rfl
  have hrun'' : (liftM (Emit.resolve ctx τ.id) : Lower TypeId).run b o = .ok (r, b') o' := hrun'
  rw [hresolve] at hrun''
  cases hrun''
  exact ⟨rfl, rfl, rfl⟩

end Telling

/-- The recorded meaning of a node. -/
theorem target_tells {node : NodeId} {found : Target}
    (h : ctx.typed.table.target { walk := 0, node } = .ok found) :
    Tells (target ctx node) (· = found) := by
  intro b o r b' o' hwalk hrun
  have hrun' : (liftM (Emit.ofExcept (ctx.typed.table.target { walk := b.walk, node })) :
      Lower Target).run b o = .ok (r, b') o' := hrun
  rw [hwalk, h] at hrun'
  cases hrun'
  exact ⟨rfl, rfl, rfl⟩

/-! ## Reading -/

/-- Reading a local. -/
theorem Simulates.loadLocal [CaseTags] (name : String) :
    Simulates E F K f [] n P (Eval.read name) (loadLocal name)
      fun v value fr => K.local? name = some v.type ∧ value.Denotes v fr := by
  refine ⟨.of_adds (loadLocal_adds name) (.get_bind fun b => ?_), fun b c o hready hn => .get ?_⟩
  · split
    · exact .pure _
    · exact .build _
    · exact .lift _
  · split
    · next hlookup =>
        obtain ⟨i, -, ty, hslot, -⟩ := hready.regular.lookup hlookup
        cases hslot
    · next hlookup =>
        obtain ⟨i, hi, ty, hslot, hscope⟩ := hready.regular.lookup hlookup
        cases hslot
        refine insert_runs hready rfl rfl fun T hT hK hincl => ?_
        refine (Activation.Executes.load hT (hincl.hasSlot hscope)).mono ?_
        rintro v id fr ⟨htype, rfl, hresult⟩
        exact ⟨hK ▸ htype, rfl, hresult⟩
    · rintro r b' o' ⟨⟩

/-! ## Writing -/

/-- Store a value in the slot of a local, or stop with one of the messages. -/
def storeLocal (name : String) (value : Value) (fixed missing : String) : Lower Unit := do
  match (← get).scope.lookup name with
  | some (.slot address _) => build (Build.store value address)
  | some (.fixed _) => mismatch fixed
  | none => broken missing

/-- Writing a local that has a slot. -/
theorem Simulates.storeLocal [CaseTags] (name : String) {v : Scalar} {value : Value}
    {τ : ScalarType} (htype : K.local? name = some τ)
    (hvalue : ∀ fr, P fr → v.type = τ ∧ value.Denotes v fr) (fixed missing : String) :
    Simulates E F K f [] n P (Eval.write name v) (storeLocal name value fixed missing)
      fun _ _ _ => True := by
  unfold Lower.storeLocal
  refine ⟨.of_adds (.get_andThen fun b _ => ?_) (.get_bind fun b => ?_),
    fun b c o hready hn => .get ?_⟩
  · split
    · exact .build (.store _ _)
    · exact .mismatch _
    · exact .broken _
  · split
    · exact .build _
    · exact .lift _
    · exact .lift _
  · split
    · next hlookup =>
        obtain ⟨i, hi, ty, hslot, hscope⟩ := hready.regular.lookup hlookup
        cases hslot
        obtain ⟨_, hτ, rfl⟩ := hready.locals _ _ _ hscope
        cases htype.symm.trans hτ
        have hinsert : Runs E F K P (Eval.write name v)
            (build (Build.insert "" (.store value (.result b.function i.id .ptr))))
            (fun _ _ _ => True) b o :=
          insert_runs hready rfl rfl fun T hT hK hincl =>
            .store hT (hincl.hasSlot hscope) (hK ▸ htype) hvalue
        exact hinsert.discard
    · rintro r b' o' ⟨⟩
    · rintro r b' o' ⟨⟩

/-! ## Making -/

/-- Making a slot for a local adds no code. -/
structure MakesSlot (f : FunctionId) (c : Nat) (o : Output) (i : IR.Instruction) (o' : Output) :
    Prop where
  adds : o.builder.Adds f c o'.builder
  fresh : i.id = o.builder.next f
  slot : i ∈ ((o'.builder.module.function f).block 0).slots
  code : ∀ k, ((o'.builder.module.function f).block k).code =
    ((o.builder.module.function f).block k).code

include hpool

/-- A local is made by making a slot and storing the value in it. -/
theorem bindLocal_ok (hready : Ready K f c b o) {τ : ScalarType} {r : Unit}
    (hrun : (bindLocal ctx name value τ.id).run b o = .ok (r, b') o') :
    ∃ i o₁, MakesSlot f c o i o₁ ∧ b' = b.addSlot name i.id τ.ty ∧
      (build (Build.store value (.result f i.id .ptr))).run b o₁ = .ok (⟨⟩, b) o' := by
  obtain ⟨ty, b₁, o₁, hty, hrest⟩ := bind_ok hrun
  obtain ⟨rfl, rfl, rfl⟩ := valueType_tells hpool τ _ _ _ _ _ hready.walk hty
  have hf := hready.function
  subst hf
  obtain ⟨hadds, i, hop, hid, hr, hinserts⟩ :=
    IR.entryAlloca_adds hready.at_ hready.shaped.builder (name ++ ".addr") τ.ty
  have hslot : i.op.isAlloca = true := by
    rw [hop]
    rfl
  refine ⟨i, { o₁ with builder := ((Build.entryAlloca b₁.function (name ++ ".addr") τ.ty).run
    o₁.builder).2 }, ⟨hadds, hid, ?_, fun k => ?_⟩, ?_⟩
  · rw [hinserts.slots_self, IR.slotsOf_slot hslot]
    exact List.mem_append_left _ (List.mem_append_left _ (List.mem_singleton_self i))
  · by_cases hk : k = 0
    · subst hk
      rw [hinserts.code_self, IR.codeOf_slot hslot]
      simp [IR.codeOf]
    · exact hinserts.code_rest hk
  · cases hrest
    rw [Body.addSlot, ← hr]
    exact ⟨rfl, rfl⟩

/-- Making a local with a value. -/
theorem Simulates.bindLocal [CaseTags] (name : String) {v : Scalar} {value : Value} {τ : ScalarType}
    (htype : K.local? name = some τ) (hvalue : ∀ fr, P fr → v.type = τ ∧ value.Denotes v fr) :
    Simulates E F K f [name] n P (Eval.write name v) (bindLocal ctx name value τ.id)
      fun _ _ _ => True := by
  constructor
  · intro b c o hready hn r b' o' hrun
    obtain ⟨-, hadds, hbelow, hr⟩ := bindLocal_adds ctx name value τ.id b c o hready.function
      hready.at_ hready.shaped hn hready.below r b' o' hrun
    obtain ⟨i, o₁, hmakes, rfl, hstore⟩ := bindLocal_ok hpool hready hrun
    obtain ⟨-, -, rfl⟩ := build_ok hstore
    have hsite : Site f c (b.addSlot name i.id τ.ty) _ :=
      ⟨hready.function, hadds.builder.at_, hadds.shaped hready.shaped, hbelow⟩
    have hstores := (IR.KeepsAdding.store (n := 0) value (.result f i.id .ptr) c o₁.builder
      hmakes.adds.at_ (hmakes.adds.proceeds.shaped hready.shaped.builder) (Nat.zero_le _)).1
    have hregular := hready.regular.addSlot (hready.shaped.builder.functions f)
      (hadds.grows.builder.functions f) ((hstores.proceeds.grows.functions f).slots i hmakes.slot)
      hmakes.fresh name τ.ty
    refine ⟨⟨c, ⟨hsite, hready.walk, hready.result, hregular, fun other id ty hmem => ?_⟩,
      hadds.builder.proceeds, .addSlot name i.id τ.ty hadds.grows⟩, hr⟩
    rcases Body.hasSlot_addSlot hmem with ⟨rfl, -, rfl⟩ | hmem
    · exact ⟨_, htype, rfl⟩
    · exact hready.locals other id ty hmem
  · intro b c o hready hn r b' o' hrun T hT hK hincl l s hhere hPs
    obtain ⟨i, o₁, hmakes, rfl, hstore⟩ := bindLocal_ok hpool hready hrun
    obtain ⟨-, -, rfl⟩ := build_ok hstore
    have hf : T.body.function = f := hincl.function.trans hready.function
    have hhere₁ : T.Here E o₁ l s := hhere.of_code (fun c' hat => by
      rw [hf] at hat ⊢
      exact hready.at_.unique hat ▸ hmakes.adds.at_) (by rw [hf]; exact hmakes.code)
    have hslot : T.body.HasSlot name i.id τ.ty := hincl.hasSlot (List.mem_cons_self ..)
    refine (hhere₁.insert (Q := fun _ _ _ => True) "" hT hf hmakes.adds.at_ rfl rfl hPs
      (.store hT hslot (hK ▸ htype) hvalue) (hf ▸ hincl.code hT)).mono ?_
    rintro _ l' t ⟨hhere', hkeeps, -⟩
    rw [hready.function]
    exact ⟨hhere', hkeeps.mono (hmakes.adds.next_le), trivial⟩

end Lower

end ClassLang
