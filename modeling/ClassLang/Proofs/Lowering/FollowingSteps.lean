import ClassLang.Proofs.Lowering.Following

/-!
# Generating each construct

Each construct follows its parts: whatever generates them, if what comes of it is in the final output,
may be exchanged for something that does the same there. A lambda is generated as a function of its
own, so building leaves the enclosing function and comes back to where it was.
`lowerWithin_follows` is the induction on the nesting of nodes.
-/

namespace ClassLang

open IR (BlockRef Build Builder FnType FunctionId HasOperands KeepsAdding Ty Value below_append
  below_nil below_none below_some)
open IR.HasOperands (Below)

namespace IR

/-- A function that is declared under a new name stands behind those that are there. -/
theorem Build.declareFunction_keeps (b : Builder) {name : String} (hname : b.function? name = none)
    (type : FnType) : b.KeepsFunctions { b with
      module := { b.module with
        functions := b.module.functions.push (.declared (b.module.symbols.take name).1 type)
        symbols := (b.module.symbols.take name).2 }
      declared := (name, b.module.functions.size) :: b.declared } where
  names other id hid := by
    have hne : (other == name) = false := by
      rw [beq_eq_false_iff_ne]
      rintro rfl
      rw [hname] at hid
      cases hid
    rw [Builder.function?, List.lookup_cons, hne]
    exact hid
  types g hg := by
    refine ⟨by simpa using Nat.lt_succ_of_lt hg, ?_⟩
    simp [Module.function, Array.getD_eq_getD_getElem?, Array.getElem?_push, Nat.ne_of_lt hg]

/-- Declaring a function changes nothing about those that are there. -/
theorem Build.declareFunction_continues (b : Builder) (name : String) (type : FnType) :
    let r := (declareFunction name type).run b
    Builder.Continues none b r.2 ∧ r.2.cursor = b.cursor ∧ r.2.currentBlock = b.currentBlock ∧
      r.2.position = b.position ∧ (b.Shaped → r.1 < r.2.module.functions.size) := by
  intro r
  have hr : r = _ := run_declareFunction b name type
  split at hr
  · next id hid => exact hr ▸ ⟨.refl b, rfl, rfl, rfl, fun hb => hb.declared name id hid⟩
  · next hundeclared =>
    have hfunction : ∀ g, r.2.module.function g = b.module.function g ∨
        b.module.function g = default ∧
          r.2.module.function g = .declared (b.module.symbols.take name).1 type := by
      intro g
      rw [hr]
      simp only [Module.function, Array.getD_eq_getD_getElem?, Array.getElem?_push]
      by_cases hg : g = b.module.functions.size
      · subst hg
        simp
      · simp [hg]
    have hcontinues : Builder.Continues none b r.2 := by
      refine ⟨⟨by rw [hr]; exact .of_eq (Nat.le_refl _) rfl rfl, fun g => ?_, ?_⟩,
        fun hb => ⟨fun g => ?_, ?_⟩, fun g _ hbody => ?_⟩
      · rcases hfunction g with hsame | ⟨hnone, -⟩
        · exact hsame ▸ .refl _
        · exact hnone ▸ .of_default _
      · exact hr ▸ declareFunction_keeps b hundeclared type
      · rcases hfunction g with hsame | ⟨-, hnew⟩
        · exact hsame ▸ hb.functions g
        · exact hnew ▸ .of_no_blocks rfl rfl
      · intro other id hid
        rw [hr] at hid ⊢
        simp only [Builder.function?, List.lookup_cons, Array.size_push] at hid ⊢
        split at hid
        · cases hid
          exact Nat.lt_succ_self _
        · exact Nat.lt_succ_of_lt (hb.declared other id hid)
      · rcases hfunction g with hsame | ⟨hnone, -⟩
        · exact hsame
        · rw [hnone] at hbody
          cases hbody
    refine ⟨hcontinues, by rw [hr], by rw [hr], by rw [hr]; rfl, fun _ => ?_⟩
    rw [hr]
    simp

/-- Opening a function that has no body: it gets an empty entry, in which building goes on, and an
empty exit. -/
theorem Builder.openFunction {b : Builder} {g : FunctionId} (hb : b.Shaped)
    (hg : g < b.module.functions.size) (hbody : (b.module.function g).hasBody = false) :
    let r := (do
      let entry ← Build.appendBlock g "entry"
      let exit ← Build.appendBlock g "exit"
      Build.setCurrentFunction g
      Build.positionAtEnd entry
      pure exit : Build BlockRef).run b
    r.1 = ⟨g, 1⟩ ∧ Builder.Continues (some g) b r.2 ∧ r.2.At g 0 ∧
      (r.2.module.function g).blocks.size = 2 ∧
      ∀ k, ((r.2.module.function g).block k).instructions = [] := by
  intro r
  have hsize : (b.module.function g).blocks.size = 0 := by
    simpa [Function.hasBody] using hbody
  have hlayout : (b.module.function g).layout = [] := hb.sane.layout g hbody
  obtain ⟨hentry, hr₁, -, -, hsize₁, hlayout₁⟩ := b.appendBlock_run hg "entry"
  let b₁ := ((Build.appendBlock g "entry").run b).2
  have hg₁ : g < b₁.module.functions.size := hr₁.size ▸ hg
  obtain ⟨hexit, hr₂, -, -, hsize₂, hlayout₂⟩ := b₁.appendBlock_run hg₁ "exit"
  let b₂ := ((Build.appendBlock g "exit").run b₁).2
  have hrun : r = (⟨g, (b₁.module.function g).blocks.size⟩, { b₂ with
      currentFunction := some g
      cursor := some (.atEnd ⟨g, (b.module.function g).blocks.size⟩)
      currentBlock := some ⟨g, (b.module.function g).blocks.size⟩ }) := rfl
  rw [hsize₁, hsize] at hrun
  have hsize' : (b₂.module.function g).blocks.size = 2 := by rw [hsize₂, hsize₁, hsize]
  have hempty : ∀ k, ((b₂.module.function g).block k).instructions = [] := fun k => by
    rw [hr₂.instructions, hr₁.instructions]
    exact Function.block_of_le (by omega)
  have hlayout' : (b₂.module.function g).layout = [0, 1] := by
    rw [hlayout₂, hlayout₁, hsize₁, hsize, hlayout]
    rfl
  have hnext : (b₂.module.function g).nextId = (b.module.function g).nextId :=
    (nextId_appendBlock hg₁ "exit").trans (nextId_appendBlock hg "entry")
  rw [hrun]
  refine ⟨rfl, .of_function (.of_eq (Nat.le_refl _) rfl rfl)
    (hr₂.declared.trans hr₁.declared) (hr₂.size.trans hr₁.size)
    (fun h hne => (hr₂.others h hne).trans (hr₁.others h hne))
    ((type_appendBlock hg₁ "exit").trans (type_appendBlock hg "entry"))
    (.of_instructions (by rw [hsize]; exact Nat.zero_le _) (Nat.le_of_eq hnext.symm)
      fun k => by rw [hr₂.instructions, hr₁.instructions])
    (fun hshaped => hshaped.of_instructions (.inr ⟨?_, ?_⟩) hnext
      fun k => by rw [hr₂.instructions, hr₁.instructions]), ⟨hr₂.size ▸ hg₁, ?_, rfl, rfl⟩, hsize',
    hempty⟩
  · rw [hsize']
    exact Nat.succ_pos 1
  · rw [Function.entryBlock?, hlayout']
    rfl
  · rw [hsize']
    exact Nat.succ_pos 1

end IR

namespace Lower

variable [CaseTags] {F : Output} {f : FunctionId} {α : Type} (ctx : LoweringContext)

/-! ## Opening and closing a function -/

/-- Function `g` was opened for the body `b`. -/
structure Opened (g : FunctionId) (o : Output) (b : Body) (o' : Output) : Prop where
  fresh : (o.builder.module.function g).hasBody = false
  function : b.function = g
  exit : b.exit = ⟨g, 1⟩
  scope : b.scope = []
  receiver : b.receiver = none
  returnSites : b.returnSites = []
  at_ : o'.builder.At g 0
  size : (o'.builder.module.function g).blocks.size = 2
  empty : ∀ k, ((o'.builder.module.function g).block k).instructions = []
  continues : Output.Continues (some g) o o'

theorem start_opened {g : FunctionId} {walk : InstanceId} {owner : Option TypeId} {name : String}
    {result : TypeId} {o o' : Output} {b : Body} (hg : g < o.builder.module.functions.size)
    (ho : o.Shaped) (h : start ctx g walk owner name result o = .ok b o') :
    Opened g o b o' := by
  obtain ⟨_, o₁, hget, hrest⟩ := bind_eq_ok.mp h
  cases hget
  dsimp only at hrest
  split at hrest
  · cases hrest
  · next hbody =>
      obtain ⟨t, o₁, hresolve, hrest⟩ := bind_eq_ok.mp hrest
      obtain ⟨-, hquiet, -⟩ := ((Emit.resolve_lays result).quiet o ho.builder.sane).ok hresolve
      have henlarges := Emit.resolve_enlarges ctx result o t o₁ hresolve
      have hsame : o₁.builder.module.function g = o.builder.module.function g := by
        simp [IR.Module.function, hquiet.functions]
      have hbody' : (o.builder.module.function g).hasBody = false := by simpa using hbody
      have hcontinues : IR.Builder.Continues (some g) o.builder o₁.builder :=
        .of_quiet hquiet henlarges.builder
      obtain ⟨hexit, hopen, hat, hsize, hempty⟩ := IR.Builder.openFunction
        (hcontinues.shaped ho.builder) (hquiet.functions ▸ hg) (hsame ▸ hbody')
      cases hrest
      exact {
        fresh := hbody'
        function := rfl
        exit := hexit
        scope := rfl
        receiver := rfl
        returnSites := rfl
        at_ := hat
        size := hsize
        empty := hempty
        continues := ⟨henlarges.toExtends.trans (.of_build o₁ hopen.grows.toEnlarges),
          hcontinues.trans hopen⟩ }

/-- A body under construction begins without names. -/
theorem Opened.below {g : FunctionId} {o o' : Output} {b : Body} (h : Opened g o b o') (n : Nat) :
    Below n b := by
  refine ⟨?_, ?_, ?_⟩
  · rw [h.scope]
    exact below_nil
  · rw [h.receiver]
    exact below_none
  · rw [h.returnSites]
    exact below_nil

/-- Once the numbers below `n` are given out, function `g` is completed by the first step, and by the
second one in the same way if what comes of it is in `F`. -/
def Closes (F : Output) (g : FunctionId) (n : Nat) (step step' : Lower α) : Prop :=
  ∀ b c o, b.function = g → b.exit = ⟨g, 1⟩ → o.builder.At g c → o.Shaped →
    1 < (o.builder.module.function g).blocks.size → n ≤ o.builder.next g →
    Below (o.builder.next g) b → ∀ r b' o', step.run b o = .ok (r, b') o' →
      Output.Continues (some g) o o' ∧ (o'.Grows F → step'.run b o = .ok (r, b') o')

namespace Closes

variable {β : Type} {g : FunctionId} {n : Nat}

theorem after [HasOperands β] {step step' : Lower β} {next next' : β → Lower α}
    (h : ∀ c₀ o₀ blocks, FollowsFrom F g n c₀ o₀ blocks step step')
    (hnext : ∀ a n', n ≤ n' → Below n' a → Closes F g n' (next a) (next' a)) :
    Closes F g n (step >>= next) (step' >>= next') := by
  intro b c o hb hexit hat hshaped hsize hn hbelow r b' o' hrun
  obtain ⟨a, b₁, o₁, hstep, hrest⟩ := bind_ok hrun
  obtain ⟨ha, hstep'⟩ := h c o [] b o hb (.refl hat hshaped) hn hbelow a b₁ o₁ hstep
  obtain ⟨c₁, hat₁, hproceeds⟩ := ha.since.place
  obtain ⟨hcontinues, hrest'⟩ := hnext a _ (Nat.le_trans hn (ha.grows.next_le g)) ha.result b₁ c₁ o₁
    (ha.stays.function.trans hb) (ha.stays.exit.trans hexit) hat₁ ha.since.shaped
    (Nat.lt_of_lt_of_le hsize (hproceeds.grows.functions g).blocks) (Nat.le_refl _) ha.body
    r b' o' hrest
  refine ⟨⟨ha.since.extends_.trans hcontinues.toExtends,
    hproceeds.toContinues.trans hcontinues.builder⟩, fun hF => ?_⟩
  exact run_bind_ok (hstep' (hcontinues.grows.trans hF)) (hrest' hF)

theorem after_adds [HasOperands β] {step : Lower β} {next next' : β → Lower α}
    (h : Adds g n step)
    (hnext : ∀ a n', n ≤ n' → Below n' a → Closes F g n' (next a) (next' a)) :
    Closes F g n (step >>= next) (step >>= next') :=
  after (fun _ _ _ => .of_adds h) hnext

theorem get_bind {next next' : Body → Lower α}
    (h : ∀ b : Body, b.function = g → b.exit = ⟨g, 1⟩ → ∀ n', n ≤ n' → Below n' b →
      Closes F g n' (next b) (next' b)) :
    Closes F g n (get >>= next) (get >>= next') :=
  fun b c o hb hexit hat hshaped hsize hn hbelow =>
    h b hb hexit _ hn hbelow b c o hb hexit hat hshaped hsize (Nat.le_refl _) hbelow

theorem ite {p : Prop} [Decidable p] {yes yes' no no' : Lower α} (hyes : Closes F g n yes yes')
    (hno : Closes F g n no no') :
    Closes F g n (if p then yes else no) (if p then yes' else no') := by
  by_cases hp : p
  · simpa only [if_pos hp] using hyes
  · simpa only [if_neg hp] using hno

/-- The exit block gets its code last. -/
theorem at_exit [HasOperands α] {next : PUnit → Lower α} (h : Adds g n (next ⟨⟩)) : Closes F g n
    ((build do
      Build.moveBlockToEnd ⟨g, 1⟩
      Build.positionAtEnd ⟨g, 1⟩) >>= next)
    ((build do
      Build.moveBlockToEnd ⟨g, 1⟩
      Build.positionAtEnd ⟨g, 1⟩) >>= next) := by
  intro b c o hb _ hat hshaped hsize hn hbelow r b' o' hrun
  obtain ⟨_, b₁, o₁, hstep, hrest⟩ := bind_ok hrun
  cases hstep
  obtain ⟨hmoved, hsize', -⟩ := o.builder.moveBlockToEnd_adds hat Nat.one_ne_zero
  let b₁ := ((Build.moveBlockToEnd ⟨g, 1⟩).run o.builder).2
  let b₂ := ((Build.positionAtEnd ⟨g, 1⟩).run b₁).2
  have hplaced : IR.Builder.Continues (some g) b₁ b₂ :=
    ⟨.of_module rfl rfl rfl, fun h => ⟨h.functions, h.declared⟩, fun _ _ _ => rfl⟩
  have hcontinues := hmoved.proceeds.toContinues.trans hplaced
  have hnext : o.builder.next g ≤ b₂.next g := (hcontinues.grows.functions g).next
  obtain ⟨-, hadds, -⟩ := h b 1 { o with builder := b₂ } hb
    ⟨hmoved.at_.function_lt, by rw [← hsize'] at hsize; exact hsize, rfl, rfl⟩
    ⟨hcontinues.shaped hshaped.builder, hshaped.constants⟩ (Nat.le_trans hn hnext)
    (hbelow.mono hnext) r b' o' hrest
  exact ⟨⟨(Output.Extends.of_build o hcontinues.grows.toEnlarges).trans hadds.toExtends,
    hcontinues.trans hadds.builder.proceeds.toContinues⟩, fun _ => hrun⟩

end Closes

section Returning

variable {n : Nat}

theorem terminated_adds : Adds f n terminated := Adds.getOutput.andThen fun _ => .pure trivial

theorem returnVoid_adds : Adds f n returnVoid :=
  .get_andThen fun _ _ => .build (.jump _)

theorem returnValue_adds {value : Value} (h : Below n value) (t : TypeId) :
    Adds f n (returnValue ctx value t) := by
  refine .get_andThen fun b _ => (convert_adds ctx h t _).bind fun value n' _ hvalue => ?_
  refine Adds.getOutput.andThen fun o => ?_
  split
  · refine Adds.andThen (.update (fun b => ⟨rfl, rfl⟩) fun b n'' hle hb => ?_) fun _ =>
      returnVoid_adds
    refine ⟨hb.1, hb.2.1, fun site hsite => ?_⟩
    rcases List.mem_append.mp hsite with hsite | hsite
    · exact hb.2.2 site hsite
    · rw [List.mem_singleton.mp hsite]
      exact ⟨hvalue.mono hle, trivial⟩
  · exact returnVoid_adds

theorem fallThrough_adds {value : Option Value} (h : Below n value) (body : NodeId) :
    Adds f n (fallThrough ctx value body) := by
  refine .get_andThen fun b _ => .ite returnVoid_adds ?_
  split
  · next value => exact (typeOf_adds ctx body).bind fun t _ hle _ =>
      returnValue_adds ctx ((h value rfl).mono hle) t
  · exact .mismatch _

/-- The code of the exit block. -/
theorem exitBlock_closes {g : FunctionId} : Closes F g n (exitBlock ctx) (exitBlock ctx) := by
  refine .get_bind fun b _ hexit n' _ hb => ?_
  rw [hexit]
  refine .at_exit (.ite (.build .retVoid)
    ((valueType_adds ctx _).bind fun type n'' hle _ => .build ?_))
  refine (KeepsAdding.phi _ (hb.2.2.mono hle) _).andThen fun value => ?_
  split
  · exact .ret _
  · exact .unreachable

end Returning

variable {lower lower' : NodeId → Lower (Option Value)}

/-- The code of a body, then the exit block. -/
theorem finish_closes {g : FunctionId} {n : Nat} {body : NodeId}
    (h : Follows F g (lower body) (lower' body)) :
    Closes F g n (finish ctx lower body) (finish ctx lower' body) := by
  refine .after (h n) fun value n' _ hvalue => .after_adds terminated_adds fun ended n'' hle _ => ?_
  refine .ite (.after_adds (fallThrough_adds ctx (hvalue.mono hle) _) fun _ _ _ _ => ?_) ?_
  · exact exitBlock_closes ctx
  · exact exitBlock_closes ctx

/-! ## Expressions -/

section Parts

variable {ctx} (hlower : ∀ f node, Follows F f (lower node) (lower' node)) {node : NodeId}
  {n c₀ : Nat} {o₀ : Output} {blocks : List Nat}

include hlower

theorem lowerValue_follows (node : NodeId) :
    Follows F f (lowerValue lower node) (lowerValue lower' node) := by
  intro n c₀ o₀ blocks
  refine (hlower f node n c₀ o₀ blocks).bind fun value n' _ hvalue => ?_
  cases value with
  | some value => exact .pure (hvalue value rfl)
  | none => exact .of_adds (.broken _)

theorem lowerBinary_follows (op : BinaryOp) (lhs rhs : NodeId) :
    Follows F f (lowerBinary ctx lower node op lhs rhs)
      (lowerBinary ctx lower' node op lhs rhs) := by
  intro n c₀ o₀ blocks
  refine .adds_andThen (typeOf_adds ctx _) fun lhsType => ?_
  refine .adds_andThen (typeOf_adds ctx _) fun rhsType => ?_
  refine (lowerValue_follows hlower lhs n c₀ o₀ blocks).andThen fun l => ?_
  refine (lowerValue_follows hlower rhs n c₀ o₀ blocks).bind fun r n' _ hr => ?_
  refine .of_adds ((convert_adds ctx hr _ _).andThen fun r => ?_)
  split
  · exact .fail _
  · split
    · exact .build (.binary _ _ _ _)
    · exact .broken _
  · split
    · exact .build (.compareOf _ _ _ _ _)
    · exact .broken _
  · exact .broken _

theorem lowerVar_follows (name : String) (value : NodeId) :
    Follows F f (lowerVar ctx lower node name value) (lowerVar ctx lower' node name value) := by
  intro n c₀ o₀ blocks
  refine .adds_andThen (typeOf_adds ctx _) fun valueType => ?_
  refine .adds_andThen (typeOf_adds ctx _) fun varType => ?_
  refine (lowerValue_follows hlower value n c₀ o₀ blocks).bind fun v n' _ hv => .of_adds ?_
  refine (convert_adds ctx hv _ _).bind fun v n'' _ hv => ?_
  exact (bindLocal_adds ctx _ _ _).bind fun _ _ hle _ => .pure (hv.mono hle)

theorem lowerAssign_follows (target value : NodeId) :
    Follows F f (lowerAssign ctx lower target value) (lowerAssign ctx lower' target value) := by
  intro n c₀ o₀ blocks
  refine .adds_andThen (typeOf_adds ctx _) fun valueType => ?_
  refine .adds_andThen (typeOf_adds ctx _) fun targetType => ?_
  refine (lowerValue_follows hlower value n c₀ o₀ blocks).bind fun v n' _ hv => .of_adds ?_
  refine (convert_adds ctx hv _ _).bind fun converted n'' hle _ => ?_
  have hresult : Adds f n'' (Pure.pure v : Lower Value) := .pure (hv.mono hle)
  dsimp only
  split
  · refine (ivarSlot_adds ctx _).andThen fun slot => ?_
    exact (Adds.build (.store _ _)).andThen fun _ => hresult
  · refine .get_andThen fun b _ => ?_
    split
    · exact (Adds.build (.store _ _)).andThen fun _ => hresult
    · exact (Adds.mismatch _).andThen fun (_ : PUnit) => hresult
    · exact (Adds.broken _).andThen fun (_ : PUnit) => hresult
  · exact (Adds.broken _).andThen fun (_ : PUnit) => hresult

theorem lowerArgs_follows (sig : Signature) (args : List NodeId) :
    Follows F f (lowerArgs ctx lower sig args) (lowerArgs ctx lower' sig args) := by
  intro n c₀ o₀ blocks
  refine .adds_andThen (ofExcept_adds _) fun ordered => ?_
  refine .bind (.mapM fun arg => ?_) fun lowered n' _ hlowered => .of_adds ?_
  · refine (lowerValue_follows hlower arg n c₀ o₀ blocks).bind fun value n' _ hvalue => .of_adds ?_
    exact (typeOf_adds ctx arg).bind fun t _ hle _ => .pure ⟨hvalue.mono hle, trivial⟩
  · have hat : ∀ position, Below n' (lowered.getD position (default, .void)).1 := fun position => by
      rw [List.getD_eq_getElem?_getD]
      cases hvalue : lowered[position]? with
      | none => trivial
      | some value => exact (hlowered value (List.mem_of_getElem? hvalue)).1
    refine (Adds.mapM fun item _ => convert_adds ctx (hat _) _ _).bind fun fixed n₁ hle hfixed => ?_
    refine (Adds.mapM fun position _ => ?_).bind fun extra n₂ hle' hextra => .pure ?_
    · exact .ite (convert_adds ctx ((hat _).mono hle) _ _) (.pure ((hat _).mono hle))
    · exact below_append (hfixed.mono hle') hextra

theorem callFunction_follows (sig : Signature) (receiver : Option Value) (args : List NodeId) :
    Follows F f (callFunction ctx lower sig receiver args)
      (callFunction ctx lower' sig receiver args) := by
  intro n c₀ o₀ blocks
  refine .adds_andThen (functionFor_adds sig) fun function => ?_
  refine (lowerArgs_follows hlower sig args n c₀ o₀ blocks).andThen fun values => ?_
  exact .of_adds (.build (.call _ _ _))

theorem lowerElement_follows (receiver : NodeId) (method : String) (index : Nat) :
    Follows F f (lowerElement ctx lower node receiver method index)
      (lowerElement ctx lower' node receiver method index) := by
  intro n c₀ o₀ blocks
  refine .adds_andThen (typeOf_adds ctx _) fun receiverType => ?_
  refine .adds_andThen (typeOf_adds ctx _) fun resultType => ?_
  refine (lowerValue_follows hlower receiver n c₀ o₀ blocks).andThen fun object => .of_adds ?_
  refine (layout_adds ctx _).andThen fun struct => (valueType_adds ctx _).andThen fun type => ?_
  exact .build ((KeepsAdding.structField _ _ _ _).bind fun slot _ _ hslot => .load _ hslot _)

theorem callClosure_follows (name : String) (sig : Signature) (args : List NodeId) :
    Follows F f (callClosure ctx lower name sig args) (callClosure ctx lower' name sig args) := by
  intro n c₀ o₀ blocks
  refine .adds_andThen (loadLocal_adds name) fun closure => ?_
  refine .adds_andThen (closureLayout_adds ctx _ _ _) fun header => ?_
  refine .adds_andThen (closureFnType_adds ctx _ _) fun type => ?_
  refine (lowerArgs_follows hlower sig args n c₀ o₀ blocks).andThen fun values => ?_
  refine .of_adds (.build ((KeepsAdding.structField _ _ _ _).bind fun slot _ _ hslot => ?_))
  exact (KeepsAdding.load _ hslot _).andThen fun function => .callIndirect _ _ _ _

/-! ### Construction -/

theorem constructObject_follows (t : TypeId) (init : Option Signature) (args : List NodeId)
    (onStack : Bool) : Follows F f (constructObject ctx lower t init args onStack)
      (constructObject ctx lower' t init args onStack) := by
  intro n c₀ o₀ blocks
  refine .adds_andThen (layout_adds ctx t) fun struct => ?_
  refine .adds_bind (allocate_adds _ _ _) fun object n' _ hobject => ?_
  cases init with
  | some init =>
      refine .adds_andThen (functionFor_adds init) fun function => ?_
      refine (lowerArgs_follows hlower init args n' c₀ o₀ blocks).bind fun values n'' hle _ =>
        .of_adds ?_
      exact (Adds.build (.call _ _ _)).andThen fun _ => .pure (hobject.mono hle)
  | none =>
      refine .of_adds ?_
      exact .ite ((Adds.broken _).andThen fun (_ : PUnit) => .pure hobject) (.pure hobject)

theorem constructCase_follows (t : TypeId) (sig : Signature) (args : List NodeId)
    (onStack : Bool) : Follows F f (constructCase ctx lower t sig args onStack)
      (constructCase ctx lower' t sig args onStack) := by
  intro n c₀ o₀ blocks
  refine .adds_andThen (caseParts_adds ctx t) fun parts => ?_
  refine (lowerArgs_follows hlower sig args n c₀ o₀ blocks).andThen fun values => .of_adds ?_
  refine (layout_adds ctx t).andThen fun struct => (dataLayout_adds ctx _).andThen fun envelope => ?_
  refine (allocate_adds _ _ _).bind fun object n' _ hobject => ?_
  refine (Adds.build ?_).bind fun _ _ hle _ => .pure (hobject.mono hle)
  refine (KeepsAdding.structField _ _ _ _).andThen fun _ => ?_
  refine (KeepsAdding.structField _ _ _ _).andThen fun _ => ?_
  refine (KeepsAdding.store _ _).andThen fun _ => .forM fun item _ => ?_
  exact (KeepsAdding.structField _ _ _ _).andThen fun _ => .store _ _

theorem lowerConstruction_follows (args : List NodeId) (onStack : Bool) :
    Follows F f (lowerConstruction ctx lower node args onStack)
      (lowerConstruction ctx lower' node args onStack) := by
  intro n c₀ o₀ blocks
  refine .adds_andThen (target_adds ctx node) fun found => ?_
  cases found with
  | construct t init => exact constructObject_follows hlower t init args onStack n c₀ o₀ blocks
  | constructCase t sig => exact constructCase_follows hlower t sig args onStack n c₀ o₀ blocks
  | _ => exact .of_adds (.broken _)

theorem lowerUnary_follows (op : UnaryOp) (operand : NodeId) :
    Follows F f (lowerUnary ctx lower op operand) (lowerUnary ctx lower' op operand) := by
  intro n c₀ o₀ blocks
  cases op with
  | not =>
      refine (lowerValue_follows hlower operand n c₀ o₀ blocks).andThen fun value => ?_
      exact .of_adds (.build (.not _ _))
  | stack =>
      unfold lowerUnary
      dsimp only
      cases ctx.tree.node operand with
      | call _ _ args => exact lowerConstruction_follows hlower args true n c₀ o₀ blocks
      | templatedInstance _ _ args => exact lowerConstruction_follows hlower args true n c₀ o₀ blocks
      | _ => exact .of_adds (.mismatch _)

omit hlower in
theorem callReceiver_adds (receiver : Option NodeId) :
    Adds f n (match receiver with
      | some receiver => pure receiver
      | none => broken "method call without a receiver" : Lower NodeId) := by
  cases receiver with
  | some receiver => exact .pure trivial
  | none => exact .broken _

theorem lowerCall_follows (receiver : Option NodeId) (method : String) (args : List NodeId) :
    Follows F f (lowerCall ctx lower node receiver method args)
      (lowerCall ctx lower' node receiver method args) := by
  intro n c₀ o₀ blocks
  refine .adds_andThen (target_adds ctx node) fun found => ?_
  cases found with
  | function sig => exact callFunction_follows hlower sig none args n c₀ o₀ blocks
  | method sig =>
      refine .adds_andThen (callReceiver_adds receiver) fun receiver => ?_
      refine (lowerValue_follows hlower receiver n c₀ o₀ blocks).andThen fun object => ?_
      exact callFunction_follows hlower sig (some object) args n c₀ o₀ blocks
  | selfMethod sig =>
      refine .adds_andThen receiver_adds fun object => ?_
      exact callFunction_follows hlower sig (some object) args n c₀ o₀ blocks
  | element index =>
      refine .adds_andThen (callReceiver_adds receiver) fun receiver => ?_
      refine (lowerElement_follows hlower receiver method index n c₀ o₀ blocks).bind
        fun _ _ _ hvalue => ?_
      exact .pure (below_some hvalue)
  | closure sig => exact callClosure_follows hlower method sig args n c₀ o₀ blocks
  | construct _ _ =>
      exact (lowerConstruction_follows hlower args false n c₀ o₀ blocks).bind
        fun _ _ _ hvalue => .pure (below_some hvalue)
  | constructCase _ _ =>
      exact (lowerConstruction_follows hlower args false n c₀ o₀ blocks).bind
        fun _ _ _ hvalue => .pure (below_some hvalue)
  | builtin which =>
      cases which
      rcases args with _ | ⟨object, _ | ⟨other, rest⟩⟩
      · exact .of_adds (.broken _)
      · refine (lowerValue_follows hlower object n c₀ o₀ blocks).andThen fun object => .of_adds ?_
        refine Adds.getOutput.andThen fun o => ?_
        exact (Adds.build (.call _ _ _)).andThen fun _ => .pure below_none
      · exact .of_adds (.broken _)
  | _ => exact .of_adds (.broken _)

end Parts

end Lower

end ClassLang
