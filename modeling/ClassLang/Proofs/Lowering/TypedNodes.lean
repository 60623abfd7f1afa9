import ClassLang.Proofs.Lowering.TypedCode

/-!
# Generating well-typed nodes

Each construct of code on Integers and Booleans is generated well typed from its parts, and by
induction so is every node: `types_code`. Where blocks end and begin, that they are open is known from
the flow of control.
-/

namespace ClassLang

open IR (BlockRef Build Builder FunctionId KeepsShared KeepsStraight Op Ty Value)
open IR.Builder (WellUsed)

/-- What the value of a node may be. -/
def Kind.Admits (kind : Kind) (value : Value) : Prop :=
  match kind with
  | .scalar τ => value.type = τ.ty
  | .constant => True
  | .nothing => False

variable {ctx : LoweringContext} {callees : String → Prop} {K : ScalarTypes} {f : FunctionId}
  {α β : Type} {σ τ : ScalarType}

namespace Lower

/-- A node is generated well typed: if it gives a value, that is one of the kind, and the current
block is open. -/
abbrev TypesNode (ctx : LoweringContext) (callees : String → Prop) (K : ScalarTypes) (f : FunctionId)
    (kind : Kind) (step : Lower (Option Value)) : Prop :=
  Types ctx callees K f (fun value? => value?.isSome = true)
    (fun value? => ∀ value ∈ value?, kind.Admits value) step

variable {lower : Generator} {kind : Kind}

/-! ## Values of nodes -/

/-- A node that must have a value. -/
theorem TypesNode.value {node : NodeId} (h : TypesNode ctx callees K f kind (lower node)) :
    TypesOn ctx callees K f kind.Admits (lowerValue lower node) := by
  intro pending c b o hs
  refine bind_keeps (h pending c b o hs) ?_
  rintro value? b' o' hinv - ⟨⟨c', hflowing, hopen⟩, hvalue⟩
  cases value? with
  | none => exact .of_error rfl ⟨⟨hinv.1, fun path h => by cases h⟩, trivial⟩
  | some value => exact .pure hinv ⟨⟨c', hflowing, fun _ => hopen rfl⟩, hvalue value rfl⟩

/-- A value becomes the value of a node. -/
theorem Types.toNode {step : Lower Value} (h : TypesOn ctx callees K f kind.Admits step) :
    TypesNode ctx callees K f kind (do return some (← step)) := by
  refine h.bind fun value hvalue => .pure ?_
  rintro _ ⟨⟩
  exact hvalue

/-- A statement without a value. -/
theorem Types.noValue {step : Lower Unit}
    (h : Types ctx callees K f (fun _ => False) (fun _ => True) step) :
    TypesNode ctx callees K f .nothing (do
      step
      Pure.pure none) := by
  intro pending c b o hs
  refine bind_keeps (h pending c b o hs) ?_
  rintro _ b' o' hinv - ⟨⟨c', hflowing, -⟩, -⟩
  exact .pure hinv ⟨⟨c', hflowing, fun h => by cases h⟩, by rintro _ ⟨⟩⟩

/-! ## Expressions -/

section Expressions

variable (hpool : ctx.pool.HasScalars)

include hpool

/-- Looking up the recorded type of a node. -/
theorem Types.typeOf {opens R : α → Prop} {node : NodeId} (h : ctx.typed.table.HasScalar node τ)
    {next : TypeId → Lower α} (hnext : Types ctx callees K f opens R (next τ.id)) :
    Types ctx callees K f opens R (typeOf ctx node >>= next) := by
  refine .ask (typeOf_straight ctx node) (typeOf_tells hpool h) fun t ht => ?_
  subst ht
  exact hnext

theorem Types.binaryOperator {node lhs rhs : NodeId} {op : BinaryOp} {ρ : ScalarType}
    (hleft : ctx.typed.table.HasScalar lhs σ) (hright : ctx.typed.table.HasScalar rhs ρ)
    (hresult : op.scalarResult? σ = some τ) (hl : TypesNode ctx callees K f (.scalar σ) (lower lhs))
    (hr : TypesNode ctx callees K f (.scalar ρ) (lower rhs)) :
    TypesOn ctx callees K f (Kind.scalar τ).Admits (lowerBinary ctx lower node op lhs rhs) := by
  rw [lowerBinary_eq]
  refine .typeOf hpool hleft (.typeOf hpool hright ?_)
  refine hl.value.bind fun l hl => hr.value.bind fun r hr => ?_
  exact (Types.convert hpool hr σ).bind fun r hr => .operate hpool node hresult hl hr

omit hpool in
theorem Types.complement {operand : NodeId}
    (h : TypesNode ctx callees K f (.scalar .boolean) (lower operand)) :
    TypesOn ctx callees K f (Kind.scalar .boolean).Admits (lowerUnary ctx lower .not operand) :=
  h.value.bind fun _ hvalue => .build (.not _ _) (.not _ _) fun _ _ hat _ =>
    Build.not_wellUsed hat hvalue "not"

/-- A condition is a truth value. -/
theorem Types.condition {cond : NodeId} (htype : ctx.typed.table.HasScalar cond τ)
    (h : TypesNode ctx callees K f (.scalar τ) (lower cond)) :
    TypesOn ctx callees K f (fun value => value.type = .i1) (condition ctx lower cond) := by
  refine .typeOf hpool htype (h.value.bind fun value hvalue => ?_)
  cases τ with
  | boolean => exact .pure hvalue
  | integer =>
      have hint : value.isInt = true := by
        rw [Value.isInt, show value.type = _ from hvalue]
        rfl
      have hzero : (Value.const (.int .w32 0)).type = value.type := hvalue.symm
      exact .build (.compareOf _ _ _ _ _) (.compareOf _ _ _ _ _) fun _ _ hat _ =>
        Build.compare_wellUsed hat hint hzero .ne "tobool"

theorem Types.declaration {node initial : NodeId} {name : String} (hlocal : K.local? name = some τ)
    (hinitial : ctx.typed.table.HasScalar initial σ) (htype : ctx.typed.table.HasScalar node τ)
    (h : TypesNode ctx callees K f (.scalar σ) (lower initial)) :
    TypesOn ctx callees K f (Kind.scalar τ).Admits (lowerVar ctx lower node name initial) := by
  refine .typeOf hpool hinitial (.typeOf hpool htype ?_)
  refine h.value.bind fun value hvalue => (Types.convert hpool hvalue τ).bind fun value hvalue => ?_
  exact (Types.bindLocal hpool hlocal hvalue).bind fun _ _ => .pure hvalue

theorem Types.assignment {target given : NodeId} {name : String}
    (htarget : ctx.tree.node target = .ident name) (hlocal : K.local? name = some τ)
    (hgiven : ctx.typed.table.HasScalar given τ) (hwanted : ctx.typed.table.HasScalar target τ)
    (h : TypesNode ctx callees K f (.scalar τ) (lower given)) :
    TypesOn ctx callees K f (Kind.scalar τ).Admits (lowerAssign ctx lower target given) := by
  refine .typeOf hpool hgiven (.typeOf hpool hwanted (h.value.bind fun value hvalue => ?_))
  have hconvert : Lower.convert ctx value τ.id τ.id = Pure.pure value := by
    rw [Lower.convert, hpool.conversion?_id, if_pos rfl]
  simp only [hconvert, pure_bind, htarget]
  have hstore : ∀ fixed missing, TypesOn ctx callees K f (Kind.scalar τ).Admits
      (Lower.storeLocal name value fixed missing >>= fun _ => Pure.pure value) := fun fixed missing =>
    (Types.storeLocal hlocal hvalue fixed missing).bind fun _ _ => .pure hvalue
  simp only [storeLocal_then] at hstore
  exact hstore _ _

end Expressions

/-! ## Calls -/

section Calls

variable {sig : Signature} {fn : ScalarFunction} {args : List NodeId} {types : NodeId → ScalarType}

/-- Where an argument stands among those of the call. -/
theorem lt_of_mem_fixed {ordered : OrderedArgs Nat}
    (h : orderArguments sig (labelled ctx.tree args) = .ok ordered) {position : Nat}
    (hposition : position ∈ ordered.fixed) : position < args.length := by
  have hmem := (orderArguments_places h).2.mem_iff.mp (List.mem_append_left _ hposition)
  obtain ⟨label, hlabel, rfl⟩ := List.mem_map.mp hmem
  obtain ⟨⟨arg, position⟩, harg, rfl⟩ := List.mem_map.mp hlabel
  exact (List.mem_zipIdx' harg).1

/-- The values that were placed on the parameters have their types. -/
theorem map_type_of_placed {params : List (String × ScalarType)} {declared : List Param}
    (hparams : List.Forall₂ (fun p q => q.name = some p.1 ∧ q.type = p.2.id) params declared)
    {fixed : List Nat} (hlength : fixed.length = declared.length) {values : List Value}
    (hvalues : List.Forall₂ (fun (item : Nat × Param) value =>
      ∀ ρ : ScalarType, item.2.type = ρ.id → value.type = ρ.ty) (fixed.zip declared) values) :
    values.map (·.type) = params.map (·.2.ty) := by
  induction hparams generalizing fixed values with
  | nil =>
      rw [List.zip_nil_right] at hvalues
      cases hvalues
      rfl
  | cons hhead _ ih =>
      cases fixed with
      | nil => cases hlength
      | cons position fixed =>
          rw [List.zip_cons_cons] at hvalues
          cases hvalues with
          | cons hvalue hrest =>
              rw [List.map_cons, List.map_cons, hvalue _ hhead.2, ih (Nat.succ.inj hlength) hrest]

variable (hpool : ctx.pool.HasScalars)

include hpool

/-- Arguments that were generated are placed on the parameters. -/
theorem Types.placeArgs (htakes : fn.Takes sig) {ordered : OrderedArgs Nat}
    (hordered : orderArguments sig (labelled ctx.tree args) = .ok ordered)
    {lowered : List (Value × TypeId)}
    (hlowered : List.Forall₂ (fun arg r => (Kind.scalar (types arg)).Admits r.1 ∧
      r.2 = (types arg).id) args lowered) :
    TypesOn ctx callees K f (fun values => values.map (·.type) = fn.params.map (·.2.ty))
      (placeArgs ctx sig ordered lowered) := by
  rw [placeArgs_eq htakes hordered]
  refine (Types.mapM fun item hitem => ?_).weaken fun values hvalues =>
    map_type_of_placed htakes.params (orderArguments_places hordered).1 hvalues
  obtain ⟨position, param⟩ := item
  obtain ⟨hposition, hparam⟩ := List.of_mem_zip hitem
  -- the argument was generated, and the parameter has a type
  have hlt := lt_of_mem_fixed hordered hposition
  have harg := hlowered.get hlt (hlowered.length_eq ▸ hlt)
  obtain ⟨i, hi, rfl⟩ := List.mem_iff_getElem.mp hparam
  have hp := (htakes.params.get (htakes.params.length_eq ▸ hi) hi).2
  have hget : lowered.getD position (default, .void) =
      lowered.get ⟨position, hlowered.length_eq ▸ hlt⟩ := by
    rw [List.getD_eq_getElem?_getD, List.getElem?_eq_getElem (hlowered.length_eq ▸ hlt)]
    rfl
  dsimp only
  rw [hget, harg.2, show sig.params[i].type = _ from hp]
  refine (Types.convert hpool harg.1 _).weaken fun value hvalue ρ hρ => ?_
  rwa [← ScalarType.id_inj hρ]

/-- The arguments of a call are generated with the types of the parameters. -/
theorem Types.lowerArgs (htakes : fn.Takes sig)
    (hargs : ∀ arg ∈ args, ctx.typed.table.HasScalar arg (types arg) ∧
      TypesNode ctx callees K f (.scalar (types arg)) (lower arg)) :
    TypesOn ctx callees K f (fun values => values.map (·.type) = fn.params.map (·.2.ty))
      (lowerArgs ctx lower sig args) := by
  rw [lowerArgs_eq_placeArgs]
  refine .ask (S := fun ordered => orderArguments sig (labelled ctx.tree args) = .ok ordered)
    (.lift (.ofExcept (orderArguments_free _ _))) ?_ fun ordered hordered => ?_
  · intro b o r b' o' _ hrun
    obtain ⟨hr, hb, ho⟩ := ofExcept_ok hrun
    exact ⟨hb, ho, hr⟩
  · refine Types.bind (S := fun lowered => List.Forall₂ (fun arg r =>
      (Kind.scalar (types arg)).Admits r.1 ∧ r.2 = (types arg).id) args lowered)
      (Types.mapM fun arg harg => ?_)
      fun lowered hlowered => .placeArgs hpool htakes hordered hlowered
    obtain ⟨htype, hnode⟩ := hargs arg harg
    exact hnode.value.bind fun value hvalue => .typeOf hpool htype (.pure ⟨hvalue, rfl⟩)

/-- A call of a function that may be called. -/
theorem Types.callFunction {name : String} {decl : NodeId} (hcallee : callees name)
    (hdecl : ctx.tree.function? name = some decl) (hfn : ctx.tree.scalarFunction? decl = some fn)
    (hsig : ctx.typed.table.signature { walk := 0, node := decl } = .ok sig)
    (hargs : ∀ arg ∈ args, ctx.typed.table.HasScalar arg (types arg) ∧
      TypesNode ctx callees K f (.scalar (types arg)) (lower arg)) :
    TypesNode ctx callees K f (.scalar fn.result) (callFunction ctx lower sig none args) := by
  intro pending c b o hs
  obtain ⟨htakes, hdeclared⟩ := hs.built.callable name decl fn sig hcallee hdecl hfn hsig
  refine bind_keeps (hs.reads (.lift (Emit.functionFor_quiet sig)) fun r b' o' hrun => ?_) ?_
  · obtain ⟨hb, ho, -⟩ := functionFor_ok hrun
    exact ⟨hb, ho⟩
  rintro g _ _ - - ⟨rfl, rfl, hrun⟩
  have htype := hdeclared g (functionFor_ok hrun).2.2
  refine bind_keeps (Types.lowerArgs hpool htakes hargs pending c _ _ hs) ?_
  rintro values b o - hle ⟨⟨c', hflowing, hopen⟩, hvalues⟩
  have hs' := hflowing.sound (hopen trivial)
  rw [← hle.2.types] at htype
  have hargs' : values.map (·.type) = (o.builder.module.function g).type.params := by
    rw [hvalues, htype]
    rfl
  obtain ⟨hused, hresult⟩ := Build.call_wellUsed hs'.at_ hargs' sig.name
  refine (hs'.straight (R := fun value? => ∀ value, value? = some value →
    some value.type = (o.builder.module.function g).type.result) (.build (.call _ _ _))
      (build_types hs'.built (.call _ _ _) hused
        ⟨hs'.locals.of_wellUsed hused rfl, hresult⟩)).weaken ?_
  rintro ⟨value?, b'⟩ o' - - ⟨hs'', hvalue⟩
  refine ⟨⟨c', hs''.flowing, fun _ => hs''.place.isOpen⟩, fun value hmem => ?_⟩
  have hsome := hvalue value hmem
  rw [htype] at hsome
  exact Option.some.inj hsome

end Calls

/-! ## Control flow -/

section Control

variable {pending : List Nat} {c : Nat} {b : Body} {o : Output}

namespace Placed

/-- Whether the current block has ended is known. -/
theorem terminated (h : Flowing ctx callees K f pending c b o) :
    (building ctx callees K f).KeepsAt o (terminated.run b) fun r o' =>
      o' = o ∧ r = (o.builder.isTerminated, b) :=
  building_of (terminated_keeps h.place) (.of_ok rfl h.built (.refl _ _) trivial)

/-- A new block is pending. -/
theorem block (h : Flowing ctx callees K f pending c b o) (label : String) :
    (building ctx callees K f).KeepsAt o ((block label).run b) fun r o' =>
      ∃ k, r = (⟨f, k⟩, b) ∧ k ∉ pending ∧ 1 < k ∧
        Flowing ctx callees K f (k :: pending) c b o' ∧
        (((o.builder.module.function f).block c).Open →
          ((o'.builder.module.function f).block c).Open) := by
  have htyped : (typing ctx callees K.result f).KeepsAt o ((Lower.block label).run b)
      fun _ _ => True := by
    show (typing ctx callees K.result f).KeepsAt o
      ((Lower.build (Build.appendBlock b.function label)).run b) _
    rw [h.place.function]
    exact build_types h.built (.appendBlock _ _) (.appendBlock h.place.at_.function_lt label) trivial
  refine (building_of (block_keeps h.place label) htyped).weaken ?_
  rintro _ o' hinv hle ⟨k, rfl, hk, hlt, hflow, hopen⟩
  exact ⟨k, rfl, hk, hlt trivial, ⟨hflow, hinv.2, h.locals.of_wellUsed hle.2 rfl⟩, hopen⟩

/-- The order of the pending blocks does not matter. -/
theorem of_mem_iff (h : Flowing ctx callees K f pending c b o) (pending' : List Nat)
    (hmem : ∀ k, k ∈ pending' ↔ k ∈ pending) : Flowing ctx callees K f pending' c b o :=
  { h with place := h.place.of_mem_iff pending' hmem }

variable {k : Nat}

theorem jump_wellUsed (h : Sound ctx callees K f pending c b o) (k : Nat) :
    WellUsed f o.builder ((Build.jump ⟨f, k⟩).run o.builder).2 :=
  Build.terminate_wellUsed h.at_ h.place.isOpen (show Op.WellTyped _ _ (.jump ⟨f, k⟩) from trivial)

/-- Going to a block. -/
theorem jump (h : Sound ctx callees K f pending c b o) (hk : 1 < k) :
    (building ctx callees K f).KeepsAt o ((Lower.build (Build.jump ⟨f, k⟩)).run b) fun r o' =>
      r.2 = b ∧ Ended ctx callees K f pending c b o' :=
  h.build (jump_keeps h.place fun _ => hk) (.jump _)
    (jump_wellUsed h k)

/-- Going to one of two blocks, and on in the first. -/
theorem branch {yes no : Nat} {cond : Value} (h : Sound ctx callees K f (yes :: pending) c b o)
    (hcond : cond.type = .i1) (hnot : yes ∉ pending) (hyes : 1 < yes) (hno : 1 < no) :
    (building ctx callees K f).KeepsAt o ((Lower.build do
        Build.branch cond ⟨f, yes⟩ ⟨f, no⟩
        Build.positionAtEnd ⟨f, yes⟩).run b)
      fun r o' => r.2 = b ∧ Sound ctx callees K f pending yes b o' :=
  h.build (branch_keeps h.place cond hnot (fun _ => hyes) fun _ => hno)
    ((KeepsShared.branch _ _ _).bind fun _ => .positionAtEnd _)
    ((Build.branch_wellUsed h.at_ h.place.isOpen hcond _ _).trans (.positionAtEnd f _ _))

/-- Going on in a pending block. -/
theorem position (h : Ended ctx callees K f (k :: pending) c b o) (hnot : k ∉ pending)
    (hk : 1 < k) :
    (building ctx callees K f).KeepsAt o ((Lower.build (Build.positionAtEnd ⟨f, k⟩)).run b)
      fun r o' => r.2 = b ∧ Sound ctx callees K f pending k b o' :=
  h.build (position_keeps h.place hnot fun _ => hk) (.positionAtEnd _) (.positionAtEnd f _ _)

/-- Going on in a pending block that moves to the end. -/
theorem enter (h : Ended ctx callees K f (k :: pending) c b o) (hnot : k ∉ pending) (hk : 1 < k) :
    (building ctx callees K f).KeepsAt o ((Lower.build do
        Build.moveBlockToEnd ⟨f, k⟩
        Build.positionAtEnd ⟨f, k⟩).run b)
      fun r o' => r.2 = b ∧ Sound ctx callees K f pending k b o' :=
  h.build (enter_keeps h.place hnot fun _ => hk)
    ((KeepsShared.moveBlockToEnd _).bind fun _ => .positionAtEnd _)
    ((WellUsed.moveBlockToEnd h.place.flow.at_.function_lt k).trans (.positionAtEnd f _ _))

/-- Going to a pending block, and on in it. -/
theorem jump_position (h : Sound ctx callees K f (k :: pending) c b o) (hnot : k ∉ pending)
    (hk : 1 < k) :
    (building ctx callees K f).KeepsAt o ((Lower.build do
        Build.jump ⟨f, k⟩
        Build.positionAtEnd ⟨f, k⟩).run b)
      fun r o' => r.2 = b ∧ Sound ctx callees K f pending k b o' :=
  h.build (jump_position_keeps (S := Stage.plain K f) h.place hnot fun _ => hk)
    ((KeepsShared.jump _).bind fun _ => .positionAtEnd _)
    ((jump_wellUsed h k).trans (.positionAtEnd f _ _))

/-- Leaving for the block where the branches meet, which is made on first use. -/
theorem joinAt {merge : Option BlockRef} (hmerge : Meets True (Stage.plain K f) merge pending)
    (h : Flowing ctx callees K f (awaiting merge pending) c b o) :
    (building ctx callees K f).KeepsAt o ((joinAt merge).run b) fun r o' =>
      r.2 = b ∧ Meets True (Stage.plain K f) r.1 pending ∧
        Ended ctx callees K f (awaiting r.1 pending) c b o' := by
  refine bind_keeps h.terminated ?_
  rintro _ _ u hu - ⟨rfl, heq⟩
  cases heq
  cases hended : u.builder.isTerminated with
  | true =>
      exact .pure hu ⟨rfl, hmerge, ⟨h.place, h.place.endsOnce_of_isTerminated hended⟩, h.built,
        h.locals⟩
  | false =>
      have hopen := h.place.open_of_isTerminated hended
      cases merge with
      | some target =>
          obtain ⟨function, k⟩ := target
          obtain ⟨rfl, hnot, hlt⟩ := hmerge _ rfl
          refine pure_bind_keeps (bind_keeps ((h.sound hopen).jump (hlt trivial)) ?_)
          rintro _ _ v hv - ⟨rfl, hended⟩
          exact .pure hv ⟨rfl, hmerge, hended⟩
      | none =>
          refine bind_keeps (h.block "if.end") ?_
          rintro _ _ v - - ⟨k, heq, hnot, hlt, hflowing, hopen'⟩
          cases heq
          refine bind_keeps ((hflowing.sound (hopen' hopen)).jump hlt) ?_
          rintro _ _ w hw - ⟨rfl, hended⟩
          refine .pure hw ⟨rfl, fun target htarget => ?_, hended⟩
          cases htarget
          exact ⟨rfl, hnot, fun _ => hlt⟩

/-- Going on where the branches meet, if they do. -/
theorem meet {merge : Option BlockRef} : Meets True (Stage.plain K f) merge pending →
    Ended ctx callees K f (awaiting merge pending) c b o →
    (building ctx callees K f).KeepsAt o ((match merge with
      | some merge => Lower.build do
        Build.moveBlockToEnd merge
        Build.positionAtEnd merge
      | none => pure () : Lower Unit).run b) fun r o' =>
        (∃ c', Flowing ctx callees K f pending c' r.2 o' ∧
          (False → ((o'.builder.module.function f).block c').Open)) ∧ True := by
  intro hmerge h
  cases merge with
  | none =>
      exact .pure ⟨h.place.flow.sane, h.built⟩
        ⟨⟨c, ⟨h.place.flow, h.built, h.locals⟩, False.elim⟩, trivial⟩
  | some target =>
      obtain ⟨function, k⟩ := target
      obtain ⟨rfl, hnot, hlt⟩ := hmerge _ rfl
      refine (h.enter hnot (hlt trivial)).weaken ?_
      rintro ⟨_, _⟩ v - - ⟨rfl, hs⟩
      exact ⟨⟨k, hs.flowing, False.elim⟩, trivial⟩

end Placed

/-- Statements are generated in order, as long as the current block is open. -/
theorem Types.seq {statements : List NodeId} {kinds : NodeId → Kind}
    (h : ∀ s ∈ statements, TypesNode ctx callees K f (kinds s) (lower s)) :
    TypesNode ctx callees K f (statements.getLast?.elim .nothing kinds)
      (lowerSeq lower statements) := by
  -- a value is kept only while the block that it was generated in is open
  suffices ∀ (last : Option Value) kind pending c b o, Flowing ctx callees K f pending c b o →
      (last.isSome = true → ((o.builder.module.function f).block c).Open) →
      (∀ value ∈ last, kind.Admits value) →
      (building ctx callees K f).KeepsAt o ((statements.foldlM (fun last statement => do
        if ← Lower.terminated then Pure.pure last else lower statement) last).run b) fun r o' =>
          (∃ c', Flowing ctx callees K f pending c' r.2 o' ∧
            (r.1.isSome = true → ((o'.builder.module.function f).block c').Open)) ∧
            ∀ value ∈ r.1, (statements.getLast?.elim kind kinds).Admits value from
    fun pending c b o hs => this none .nothing pending c b o hs.flowing (fun _ => hs.place.isOpen)
      (by rintro _ ⟨⟩)
  intro last kind pending c b o hflowing hopen hlast
  induction statements generalizing last kind c b o with
  | nil => exact .pure ⟨hflowing.place.sane, hflowing.built⟩ ⟨⟨c, hflowing, hopen⟩, hlast⟩
  | cons s statements ih =>
      rw [List.foldlM_cons, List.getLast?_cons]
      have hrest := ih fun s hs => h s (List.mem_cons_of_mem _ hs)
      refine bind_keeps (P := fun r o' => (∃ c', Flowing ctx callees K f pending c' r.2 o' ∧
        (r.1.isSome = true → ((o'.builder.module.function f).block c').Open)) ∧
          ∀ value ∈ r.1, (kinds s).Admits value) ?_ ?_
      · refine bind_keeps hflowing.terminated ?_
        rintro _ _ u hu - ⟨rfl, heq⟩
        cases heq
        cases hended : u.builder.isTerminated with
        | false =>
            exact h s (by simp) pending c b u
              (hflowing.sound (hflowing.place.open_of_isTerminated hended))
        | true =>
            refine .pure hu ⟨⟨c, hflowing, hopen⟩, fun value hvalue => ?_⟩
            obtain rfl : last = some value := hvalue
            have hat : u.builder.At f c := hflowing.place.at_
            rw [hat.isTerminated, (hopen rfl).isTerminated] at hended
            cases hended
      · rintro value? b' u - - ⟨⟨c', hflowing', hopen'⟩, hvalue⟩
        have hstatements := hrest value? (kinds s) c' b' u hflowing' hopen' hvalue
        cases hend : statements.getLast? <;> rw [hend] at hstatements <;> exact hstatements

/-- Going on behind a condition. -/
theorem Types.condition_keeps (hpool : ctx.pool.HasScalars) {cond : NodeId}
    (htype : ctx.typed.table.HasScalar cond τ)
    (h : TypesNode ctx callees K f (.scalar τ) (lower cond))
    (hs : Sound ctx callees K f pending c b o) :
    (building ctx callees K f).KeepsAt o ((Lower.condition ctx lower cond).run b) fun r o' =>
      r.1.type = .i1 ∧ ∃ c', Sound ctx callees K f pending c' r.2 o' := by
  refine (Types.condition hpool htype h pending c b o hs).weaken ?_
  rintro r o' - - ⟨⟨c', hflowing, hopen⟩, hvalue⟩
  exact ⟨hvalue, c', hflowing.sound (hopen trivial)⟩

theorem Types.lowerBranch (hpool : ctx.pool.HasScalars) {cond yes : NodeId} {no : Option NodeId}
    (htype : ctx.typed.table.HasScalar cond τ)
    (hcond : TypesNode ctx callees K f (.scalar τ) (lower cond))
    (hyes : TypesNode ctx callees K f kind (lower yes))
    (hno : ∀ no' ∈ no, ∃ kind', TypesNode ctx callees K f kind' (lower no')) :
    Types ctx callees K f (fun _ => False) (fun _ => True) (lowerBranch ctx lower cond yes no) := by
  intro pending c b o hs
  refine bind_keeps (Types.condition_keeps hpool htype hcond hs) ?_
  rintro value b o - - ⟨hvalue, c, hs⟩
  refine bind_keeps (hs.flowing.block "if.then") ?_
  rintro _ _ o - - ⟨y, heq, hy, hy1, hflowing, hopen'⟩
  cases heq
  have hopen := hopen' hs.place.isOpen
  cases no with
  | none =>
      refine bind_keeps (hflowing.block "if.end") ?_
      rintro _ _ o - - ⟨m, heq, hm, hm1, hflowing, hopen'⟩
      cases heq
      simp only [List.mem_cons, not_or] at hm
      have hmeets : Meets True (Stage.plain K f) (some ⟨f, m⟩) pending := by
        intro target htarget
        cases htarget
        exact ⟨rfl, hm.2, fun _ => hm1⟩
      have hs := (hflowing.of_mem_iff (y :: m :: pending) (by simp [or_left_comm])).sound
        (hopen' hopen)
      refine pure_bind_keeps (bind_keeps (hs.branch hvalue (by simp [hy, Ne.symm hm.1]) hy1 hm1) ?_)
      rintro _ _ o - - ⟨rfl, hs⟩
      refine bind_keeps (hyes (m :: pending) y _ o hs) ?_
      rintro _ b o - - ⟨⟨c, hflowing, -⟩, -⟩
      refine bind_keeps (Placed.joinAt hmeets hflowing) ?_
      rintro merge _ o - - ⟨rfl, hmeets, hended⟩
      exact pure_bind_keeps (Placed.meet hmeets hended)
  | some no =>
      refine bind_keeps (hflowing.block "if.else") ?_
      rintro _ _ o - - ⟨n, heq, hn, hn1, hflowing, hopen'⟩
      cases heq
      simp only [List.mem_cons, not_or] at hn
      have hmeets : Meets True (Stage.plain K f) none (n :: pending) := fun _ h => by cases h
      have hs := (hflowing.of_mem_iff (y :: n :: pending) (by simp [or_left_comm])).sound
        (hopen' hopen)
      refine pure_bind_keeps (bind_keeps (hs.branch hvalue (by simp [hy, Ne.symm hn.1]) hy1 hn1) ?_)
      rintro _ _ o - - ⟨rfl, hs⟩
      refine bind_keeps (hyes (n :: pending) y _ o hs) ?_
      rintro _ b o - - ⟨⟨c, hflowing, -⟩, -⟩
      refine bind_keeps (Placed.joinAt hmeets hflowing) ?_
      rintro merge _ o - - ⟨rfl, hmeets, hended⟩
      -- the second branch starts in its own block, the meeting point stays pending
      have hended : Ended ctx callees K f (n :: awaiting merge pending) c _ o :=
        { hended with place := ⟨hended.place.flow.of_mem_iff _ (mem_awaiting_cons merge n),
          hended.place.ended⟩ }
      refine bind_keeps (hended.position (hmeets.not_mem_awaiting hn.2) hn1) ?_
      rintro _ _ o - - ⟨rfl, hs⟩
      obtain ⟨kind', hno⟩ := hno no rfl
      refine bind_keeps (hno _ n _ o hs) ?_
      rintro _ b o - - ⟨⟨c, hflowing, -⟩, -⟩
      refine bind_keeps (Placed.joinAt hmeets.of_cons hflowing) ?_
      rintro merge _ o - - ⟨rfl, hmeets, hended⟩
      exact Placed.meet hmeets hended

theorem Types.lowerLoop (hpool : ctx.pool.HasScalars) {cond body : NodeId}
    (htype : ctx.typed.table.HasScalar cond τ)
    (hcond : TypesNode ctx callees K f (.scalar τ) (lower cond))
    (hbody : TypesNode ctx callees K f kind (lower body)) :
    Types ctx callees K f (fun _ => False) (fun _ => True) (lowerLoop ctx lower cond body) := by
  intro pending c b o hs
  refine bind_keeps (hs.flowing.block "while.cond") ?_
  rintro _ _ o - - ⟨k₁, heq, h₁, hlt₁, hflowing, hopen₁⟩
  cases heq
  refine bind_keeps (hflowing.block "while.body") ?_
  rintro _ _ o - - ⟨k₂, heq, h₂, hlt₂, hflowing, hopen₂⟩
  cases heq
  refine bind_keeps (hflowing.block "while.end") ?_
  rintro _ _ o - - ⟨k₃, heq, h₃, hlt₃, hflowing, hopen₃⟩
  cases heq
  have hopen := hopen₃ (hopen₂ (hopen₁ hs.place.isOpen))
  simp only [List.mem_cons, not_or] at h₂ h₃
  have hs := (hflowing.of_mem_iff (k₁ :: k₂ :: k₃ :: pending) (mem_cons_three k₁ k₂ k₃)).sound hopen
  refine bind_keeps (hs.jump_position (by simp [h₁, Ne.symm h₂.1, Ne.symm h₃.2.1]) hlt₁) ?_
  rintro _ _ o - - ⟨rfl, hs⟩
  refine bind_keeps (Types.condition_keeps hpool htype hcond hs) ?_
  rintro value b o - - ⟨hvalue, c, hs⟩
  refine bind_keeps (hs.branch hvalue (by simp [h₂.2, Ne.symm h₃.1]) hlt₂ hlt₃) ?_
  rintro _ _ o - - ⟨rfl, hs⟩
  refine bind_keeps (hbody _ k₂ _ o hs) ?_
  rintro _ b o - - ⟨⟨c, hflowing, -⟩, -⟩
  have hend : ∀ o, Ended ctx callees K f (k₃ :: pending) c b o →
      (building ctx callees K f).KeepsAt o ((Lower.build do
        Build.moveBlockToEnd ⟨f, k₃⟩
        Build.positionAtEnd ⟨f, k₃⟩).run b) fun r o' =>
          (∃ c', Flowing ctx callees K f pending c' r.2 o' ∧
            (False → ((o'.builder.module.function f).block c').Open)) ∧ True := by
    intro o hended
    refine (hended.enter h₃.2.2 hlt₃).weaken ?_
    rintro ⟨_, _⟩ o - - ⟨rfl, hs⟩
    exact ⟨⟨k₃, hs.flowing, False.elim⟩, trivial⟩
  refine bind_keeps hflowing.terminated ?_
  rintro _ _ o - - ⟨rfl, heq⟩
  cases heq
  cases hended : o.builder.isTerminated with
  | true =>
      exact hend o ⟨⟨hflowing.place, hflowing.place.endsOnce_of_isTerminated hended⟩, hflowing.built,
        hflowing.locals⟩
  | false =>
      refine bind_keeps ((hflowing.sound (hflowing.place.open_of_isTerminated hended)).jump hlt₁) ?_
      rintro _ _ o - - ⟨rfl, hended⟩
      exact hend o hended

/-! ## Returns -/

/-- Returning a value. -/
theorem Placed.returnValue (hpool : ctx.pool.HasScalars) {value : Value}
    (hs : Sound ctx callees K f pending c b o) (hvalue : value.type = σ.ty) :
    (building ctx callees K f).KeepsAt o ((returnValue ctx value σ.id).run b) fun r o' =>
      Ended ctx callees K f pending c r.2 o' := by
  have hvoid : K.result.id ≠ .void := by
    cases K.result <;> decide
  have htypes : TypesOn ctx callees K f (fun value => value.type = K.result.ty)
      (Lower.convert ctx value σ.id K.result.id) := .convert hpool hvalue K.result
  have hconvert := htypes pending c b o hs
  -- what is returned is the converted value
  have hflow : (ClassLang.flowing ctx True (fun _ => True) (some f)).KeepsAt o
      ((Lower.returnValue ctx value σ.id).run b) fun r o' =>
        Halted True (Stage.plain K f) pending c r.2 o' := by
    refine returnValue_keeps (S := Stage.plain K f) hs.place hvoid fun _ site b' o' hrun _ => ?_
    exact (hconvert.ok hrun).2.2.2
  have htyped : (typing ctx callees K.result f).KeepsAt o ((Lower.returnValue ctx value σ.id).run b)
      fun r o' => HasLocals K f r.2 o'.builder.module := by
    refine get_bind_keeps ?_
    rw [hs.result]
    refine bind_keeps hconvert.right ?_
    rintro converted b' o' - - ⟨⟨c', hflowing, hopen⟩, -⟩
    have hs' := hflowing.sound (hopen trivial)
    refine output_bind_keeps ?_
    rw [hs'.at_.block]
    refine bind_keeps (P := fun r u => r.2.scope = b'.scope ∧ r.2.exit = b'.exit ∧ u = o')
      (.of_ok rfl hs'.built (.refl _ _) ⟨rfl, rfl, rfl⟩) ?_
    rintro _ b'' _ - - ⟨hscope, hexit, rfl⟩
    refine get_bind_keeps ?_
    have hused := hs'.jump_wellUsed 1
    rw [show (⟨f, 1⟩ : BlockRef) = b''.exit from (hexit.trans hs'.place.flow.exit).symm] at hused
    exact build_types hs'.built (.jump _) hused (hs'.locals.of_wellUsed hused hscope)
  refine (hflow.prod htyped).weaken ?_
  rintro r o' hinv - ⟨hhalted, hlocals⟩
  exact ⟨hhalted, hinv.2, hlocals⟩

/-- A return of a value. -/
theorem Types.lowerReturn (hpool : ctx.pool.HasScalars) {given : NodeId}
    (hgiven : ctx.typed.table.HasScalar given σ)
    (h : TypesNode ctx callees K f (.scalar σ) (lower given)) :
    Types ctx callees K f (fun _ => False) (fun _ => True) (lowerReturn ctx lower (some given)) := by
  refine .ask (.get_bind fun _ _ => .pure _) returnsVoid_tells fun void _ => ?_
  cases void with
  | true => exact .bind (S := fun _ => False) .broken fun _ h => h.elim
  | false =>
      refine .typeOf hpool hgiven fun pending c b o hs => ?_
      refine bind_keeps (h.value pending c b o hs) ?_
      rintro value b o - - ⟨⟨c, hflowing, hopen⟩, hvalue⟩
      have hopen := hopen trivial
      refine bind_keeps hflowing.terminated ?_
      rintro _ _ o - - ⟨rfl, heq⟩
      cases heq
      have hs := hflowing.sound hopen
      rw [hs.at_.isTerminated, hopen.isTerminated]
      refine (hs.returnValue hpool hvalue).weaken ?_
      rintro ⟨_, b⟩ o - - hended
      exact ⟨⟨c, ⟨hended.place.flow, hended.built, hended.locals⟩, False.elim⟩, trivial⟩

end Control

/-! ## All nodes -/

/-- The nesting bound of generating does not matter. -/
theorem typesNode_within {node : NodeId}
    (h : ∀ fuel, TypesNode ctx callees K f kind (lowerNode ctx (lowerWithin ctx fuel) node))
    (fuel : Nat) : TypesNode ctx callees K f kind (lowerWithin ctx fuel node) := by
  cases fuel with
  | succ fuel => exact h fuel
  | zero =>
      refine .of_fails (.lift (.throw fun path h => by cases h)) ?_
      rintro _ _ _ _ _ ⟨⟩

/-- Code on Integers and Booleans is generated well typed. -/
theorem types_code (hpool : ctx.pool.HasScalars) (hsound : ctx.pool.Sound) {node : NodeId}
    {kind : Kind} {names : List String}
    (h : ScalarCode ctx.tree ctx.typed.table callees K node kind names) (fuel : Nat) :
    TypesNode ctx callees K f kind (lowerWithin ctx fuel node) := by
  induction h generalizing fuel with
  | number h _ =>
      refine typesNode_within (fun fuel => ?_) fuel
      rw [lowerNode, h]
      dsimp only
      split
      · exact .pure (by rintro _ ⟨⟩; rfl)
      · exact .mismatch
  | bool h _ =>
      refine typesNode_within (fun fuel => ?_) fuel
      rw [lowerNode, h]
      exact .pure (by rintro _ ⟨⟩; rfl)
  | @readLocal node name τ h htarget hlocal _ =>
      refine typesNode_within (fun fuel => ?_) fuel
      rw [lowerNode, h]
      refine .toNode (.ask (target_straight ctx node) (target_tells htarget) fun _ heq => ?_)
      subst heq
      exact Types.loadLocal hlocal
  | @constant node name t h htarget =>
      refine typesNode_within (fun fuel => ?_) fuel
      rw [lowerNode, h]
      refine .toNode (.ask (target_straight ctx node) (target_tells htarget) fun _ heq => ?_)
      subst heq
      exact Types.singleton hsound t
  | var h hinitial _ _ hlocal htype ih =>
      refine typesNode_within (fun fuel => ?_) fuel
      rw [lowerNode, h]
      exact .toNode (.declaration hpool hlocal hinitial.hasType htype (ih fuel))
  | assign h htarget hvalue hlocal hwanted _ ih =>
      refine typesNode_within (fun fuel => ?_) fuel
      rw [lowerNode, h]
      exact .toNode (.assignment hpool htarget hlocal hvalue.hasType hwanted (ih fuel))
  | binary h hlhs hrhs hresult _ ihl ihr =>
      refine typesNode_within (fun fuel => ?_) fuel
      rw [lowerNode, h]
      exact .toNode (.binaryOperator hpool hlhs.hasType hrhs.hasType hresult (ihl fuel) (ihr fuel))
  | not h _ _ ih =>
      refine typesNode_within (fun fuel => ?_) fuel
      rw [lowerNode, h]
      exact .toNode (.complement (ih fuel))
  | seq h _ _ ih =>
      refine typesNode_within (fun fuel => ?_) fuel
      rw [lowerNode, h]
      exact .seq fun s hs => ih s hs fuel
  | branchOnly h hcond _ ihc ihy =>
      refine typesNode_within (fun fuel => ?_) fuel
      rw [lowerNode, h]
      exact .noValue (.lowerBranch hpool hcond.hasType (ihc fuel) (ihy fuel) (by rintro _ ⟨⟩))
  | branchElse h hcond _ _ ihc ihy ihn =>
      refine typesNode_within (fun fuel => ?_) fuel
      rw [lowerNode, h]
      refine .noValue (.lowerBranch hpool hcond.hasType (ihc fuel) (ihy fuel) ?_)
      rintro _ ⟨⟩
      exact ⟨_, ihn fuel⟩
  | loop h hcond _ ihc ihb =>
      refine typesNode_within (fun fuel => ?_) fuel
      rw [lowerNode, h]
      exact .noValue (.lowerLoop hpool hcond.hasType (ihc fuel) (ihb fuel))
  | ret h hvalue _ ih =>
      refine typesNode_within (fun fuel => ?_) fuel
      rw [lowerNode, h]
      exact .noValue (.lowerReturn hpool hvalue.hasType (ih fuel))
  | namedArg h _ _ ih =>
      refine typesNode_within (fun fuel => ?_) fuel
      rw [lowerNode, h]
      exact ih fuel
  | @call node decl name args types names fn sig h hcallee hdecl hfn hsig htarget hargs _ ih =>
      refine typesNode_within (fun fuel => ?_) fuel
      rw [lowerNode, h]
      refine .ask (target_straight ctx node) (target_tells htarget) fun _ heq => ?_
      subst heq
      exact .callFunction hpool hcallee hdecl hfn hsig fun arg harg =>
        ⟨(hargs arg harg).hasType, ih arg harg fuel⟩

end Lower

end ClassLang
