import ClassLang.Proofs.Lowering.Detours

/-!
# Generating code that reads settled names

`KindSettled` says of a node that it reads only names that are settled, following the order in which
its parts are generated. What a part declares may be read by the parts after it, but only as long as
control cannot get there without it: the parts of a branch or a loop settle nothing for what
follows, and a name that they declare is not settled any more afterwards, since it is bound to the
new storage there.
-/

namespace ClassLang

open IR (Build Builder FunctionId KeepsCovered Ty Value)

namespace LoweringContext

variable (ctx : LoweringContext) (walk : InstanceId)

/-- The parts of a node whose code is in the same scope. -/
def scopeParts (node : NodeId) : List NodeId :=
  match ctx.tree.node node with
  | .select cond _ => [cond]
  | .unary .stack operand => ctx.constructionArgs operand
  | _ => ctx.tree.inlineParts node

/-- The names that are declared in the code of a node, not counting arms and lambdas, whose names
are their own. -/
def varsWithin : Nat → NodeId → List String
  | 0, _ => []
  | fuel + 1, node => ctx.declares node ++ (ctx.scopeParts node).flatMap (varsWithin fuel)

variable (V : NodeId → List String) (S : List String → NodeId → Prop)

/-- The names that are settled after a part. -/
def settledAfter (names : List String) (part : NodeId) : List String :=
  ctx.declares part ++ untouched names (V part)

/-- Parts that are generated one after the other. -/
def PartsSettled : List String → List NodeId → Prop
  | _, [] => True
  | names, part :: rest => S names part ∧ PartsSettled (ctx.settledAfter V names part) rest

/-- The types of the parameters and captures of a lambda. -/
def closureTypes? (node : NodeId) : Option (List TypeId × List TypeId) :=
  match (ctx.recordedType walk node).map ctx.pool.view with
  | .ok (.closure paramTypes _ captureTypes) => some (paramTypes, captureTypes)
  | _ => none

/-- The parts of a call, in the order in which they are generated. -/
def callParts (node : NodeId) (receiver : Option NodeId) (args : List NodeId) : List NodeId :=
  match ctx.typed.table.target { walk, node } with
  | .ok (.method _) => receiver.toList ++ args
  | .ok (.element _) => receiver.toList
  | _ => args

/-- Whether a call is that of a closure held by a local. -/
def callsClosure (node : NodeId) : Bool :=
  match ctx.typed.table.target { walk, node } with
  | .ok (.closure _) => true
  | _ => false

/-- A node of the given kind reads settled names only, and what is generated next satisfies `S` with
the names that are settled there. -/
def KindSettled (names : List String) (node : NodeId) : Node → Prop
  | .seq statements => ctx.PartsSettled V S names statements
  | .ident name => ctx.typed.table.target { walk, node } = .ok .localVar → name ∈ names
  | .var _ _ value => S names value
  | .assign _ value => S names value
  | .call receiver method args => (ctx.callsClosure walk node = true → method ∈ names) ∧
    ctx.PartsSettled V S names (ctx.callParts walk node receiver args)
  | .namedArg _ value => S names value
  | .templatedInstance _ _ args => ctx.PartsSettled V S names args
  | .binary _ lhs rhs => ctx.PartsSettled V S names [lhs, rhs]
  | .unary .not operand => S names operand
  | .unary .stack operand => ctx.PartsSettled V S names (ctx.constructionArgs operand)
  | .branch cond yes no => S names cond ∧ S (ctx.settledAfter V names cond) yes ∧
    ∀ no' ∈ no, S (untouched (ctx.settledAfter V names cond) (V yes)) no'
  | .loop cond body => S names cond ∧ S (untouched names (V cond)) body
  | .select cond arms => S names cond ∧
    ∀ arm ∈ arms,
      ctx.ArmScoped walk S (ctx.isDynamic walk cond) (ctx.settledAfter V names cond) arm
  | .ret value => ∀ value' ∈ value, S names value'
  | .lambda params captures body => (∀ name ∈ captures, name ∈ names) ∧
    ∀ types ∈ ctx.closureTypes? walk node,
      S (ctx.lambdaNames params captures types.1 types.2) body
  | _ => True

/-- A node and what is below it, as deep as the bound says, read settled names only. -/
def SettledWithin : Nat → List String → NodeId → Prop
  | 0, _, _ => True
  | fuel + 1, names, node =>
    ctx.KindSettled walk (ctx.varsWithin fuel) (SettledWithin fuel) names node (ctx.tree.node node)

end LoweringContext

namespace Lower

variable {own : FunctionId → Prop} {walk : InstanceId} {f : FunctionId} {ctx : LoweringContext}
  {names : List String} {V : NodeId → List String} {S : List String → NodeId → Prop}
  {lower : NodeId → Lower (Option Value)} {α β : Type} {b b' : Body} {o o' : Output}
  {p p' : Place} {start : Origin} {blocks : List Nat} {touched touched' : List String}

/-- All nodes in `S` can be generated where their names are settled; then what they declare is, and
they bind nothing but the names in `V`. -/
def SettlesAll (own : FunctionId → Prop) (ctx : LoweringContext) (walk : InstanceId)
    (V : NodeId → List String) (S : List String → NodeId → Prop)
    (lower : NodeId → Lower (Option Value)) : Prop :=
  ∀ f names node, S names node →
    Settles own walk f names (ctx.declares node) (V node) (lower node)

section Constructs

variable (hlower : SettlesAll own ctx walk V S lower)

include hlower

theorem lowerValue_settles {node : NodeId} (h : S names node) :
    Settles own walk f names (ctx.declares node) (V node) (lowerValue lower node) := by
  refine (hlower f names node h).then_plain fun result => ?_
  split
  · exact .pure _
  · exact .broken _

/-! ## Expressions -/

theorem lowerBinary_settles {node lhs rhs : NodeId} {op : BinaryOp}
    (h : ctx.PartsSettled V S names [lhs, rhs]) :
    Settles own walk f names [] (V lhs ++ V rhs) (lowerBinary ctx lower node op lhs rhs) := by
  refine .after_plain (typeOf_plain _) fun lhsType => ?_
  refine .after_plain (typeOf_plain _) fun rhsType => ?_
  refine (lowerValue_settles hlower h.1).bind fun l => ?_
  refine (lowerValue_settles hlower h.2.1).forget.then_plain fun r => ?_
  refine (convert_plain _ _ _).bind fun r => ?_
  split
  · exact .lift (.fail (by simp))
  · split
    · exact .build (.binary _ _ _ _)
    · exact .broken _
  · split
    · exact .build (.compareOf _ _ _ _ _)
    · exact .broken _
  · exact .broken _

omit hlower in
theorem lowerIdent_settles {node : NodeId} {name : String}
    (h : ctx.typed.table.target { walk, node } = .ok .localVar → name ∈ names) :
    Settles own walk f names [] [] (lowerIdent ctx node name) := by
  refine target_settles fun found hfound => ?_
  split
  · exact (loadLocal_settles (h hfound)).weaken (List.nil_subset _) (List.nil_subset _)
  · exact (Plain.lift (Emit.singleton_lays _).quiet).settles_nil
  · exact .broken

/-- A declaration settles its name. -/
theorem lowerVar_settles {node value : NodeId} {name : String} (hvalue : S names value) :
    Settles own walk f names [name] (V value ++ [name]) (lowerVar ctx lower node name value) := by
  refine .after_plain (typeOf_plain _) fun valueType => ?_
  refine .after_plain (typeOf_plain _) fun varType => ?_
  refine (lowerValue_settles hlower hvalue).bind fun v => ?_
  refine .after_plain (convert_plain _ _ _) fun v => ?_
  exact (bindLocal_settles _ _ _).then_plain fun _ => .pure _

/-- Assigning a local writes its slot and reads none. -/
theorem lowerAssign_settles {target value : NodeId} (hvalue : S names value) :
    Settles own walk f names [] (V value) (lowerAssign ctx lower target value) := by
  refine .after_plain (typeOf_plain _) fun valueType => ?_
  refine .after_plain (typeOf_plain _) fun targetType => ?_
  refine (lowerValue_settles hlower hvalue).forget.then_plain fun v => ?_
  refine (convert_plain _ _ _).bind fun converted => ?_
  have hend : ∀ _ : PUnit, Plain own walk f (pure v : Lower Value) := fun _ => .pure v
  dsimp only
  split
  · exact (ivarSlot_plain _).bind fun slot => (Plain.build (.store _ _)).bind hend
  · refine .get_bind fun b _ _ => ?_
    split
    · exact (Plain.build (.store _ _)).bind hend
    · exact (Plain.mismatch _).bind hend
    · exact (Plain.broken _).bind hend
  · exact (Plain.broken _).bind hend

/-! ## Calls and constructions -/

omit hlower in
/-- Parts that are generated one after the other, each where the ones before it left things. -/
theorem parts_settle {body : NodeId → Lower α} {parts : List NodeId}
    (hparts : ctx.PartsSettled V S names parts)
    (h : ∀ names part, S names part →
      Settles own walk f names (ctx.declares part) (V part) (body part)) :
    Settles own walk f names [] (parts.flatMap V) (parts.mapM body) := by
  induction parts generalizing names with
  | nil => exact (Plain.pure _).settles_nil
  | cons part parts ih =>
      rw [List.mapM_cons]
      exact (h names part hparts.1).bind fun _ => (ih hparts.2).then_plain fun _ => .pure _

/-- The arguments are generated in the order they are written. -/
theorem lowerArgs_settles {sig : Signature} {args : List NodeId}
    (hargs : ctx.PartsSettled V S names args) :
    Settles own walk f names [] (args.flatMap V) (lowerArgs ctx lower sig args) := by
  refine .after_plain (.lift (.ofExcept (orderArguments_free _ _))) fun ordered => ?_
  refine (parts_settle hargs fun names arg harg => ?_).then_plain fun lowered => ?_
  · refine (lowerValue_settles hlower harg).then_plain fun value => ?_
    exact (typeOf_plain _).bind fun _ => .pure _
  · refine (Plain.mapM fun item => convert_plain _ _ _).bind fun fixed => ?_
    refine (Plain.mapM fun item => ?_).bind fun extra => .pure _
    exact .ite (convert_plain _ _ _) (.pure _)

theorem callFunction_settles {sig : Signature} {receiver : Option Value} {args : List NodeId}
    (hargs : ctx.PartsSettled V S names args) :
    Settles own walk f names [] (args.flatMap V) (callFunction ctx lower sig receiver args) := by
  refine .after_plain (.lift (Emit.functionFor_quiet sig)) fun function => ?_
  exact (lowerArgs_settles hlower hargs).then_plain fun values => .build (.call _ _ _)

theorem lowerElement_settles {node receiver : NodeId} {method : String} {index : Nat}
    (hreceiver : S names receiver) :
    Settles own walk f names [] (V receiver)
      (lowerElement ctx lower node receiver method index) := by
  refine .after_plain (typeOf_plain _) fun receiverType => ?_
  refine .after_plain (typeOf_plain _) fun resultType => ?_
  refine (lowerValue_settles hlower hreceiver).forget.then_plain fun object => ?_
  refine (Plain.lift (Emit.layout_lays _).quiet).bind fun struct => ?_
  refine (Plain.lift (Emit.valueType_lays _).quiet).bind fun type => ?_
  exact .build (.loadField _ _ _ _ _ _)

theorem callClosure_settles {name : String} {sig : Signature} {args : List NodeId}
    (hname : name ∈ names) (hargs : ctx.PartsSettled V S names args) :
    Settles own walk f names [] (args.flatMap V) (callClosure ctx lower name sig args) := by
  refine (loadLocal_settles hname).bind_settled fun closure => ?_
  refine .after_plain (.lift (Emit.closureLayout_lays _ _ _).quiet) fun header => ?_
  refine .after_plain (.lift (Emit.closureFnType_lays _ _).quiet) fun type => ?_
  refine (lowerArgs_settles hlower hargs).then_plain fun values => .build ?_
  exact (KeepsCovered.loadField header closure 0 "fn.ptr" .ptr "fn").bind fun function =>
    .callIndirect type function (closure :: values) "closure.call"

theorem constructObject_settles {t : TypeId} {init : Option Signature} {args : List NodeId}
    {onStack : Bool} (hargs : ctx.PartsSettled V S names args) :
    Settles own walk f names [] (args.flatMap V)
      (constructObject ctx lower t init args onStack) := by
  refine .after_plain (.lift (Emit.layout_lays _).quiet) fun struct => ?_
  refine .after_plain (allocate_plain _ _ _) fun object => ?_
  dsimp only
  cases init with
  | some init =>
      refine .after_plain (.lift (Emit.functionFor_quiet init)) fun function => ?_
      refine (lowerArgs_settles hlower hargs).then_plain fun values => ?_
      exact (Plain.build (.call _ _ _)).bind fun _ => .pure _
  | none => exact .ite .broken_bind (Plain.pure object).settles_nil

theorem constructCase_settles {t : TypeId} {sig : Signature} {args : List NodeId} {onStack : Bool}
    (hargs : ctx.PartsSettled V S names args) :
    Settles own walk f names [] (args.flatMap V)
      (constructCase ctx lower t sig args onStack) := by
  refine .after_plain (.lift (Emit.caseParts_lays t).quiet) fun parts => ?_
  refine (lowerArgs_settles hlower hargs).then_plain fun values => ?_
  refine (Plain.lift (Emit.layout_lays t).quiet).bind fun struct => ?_
  refine (Plain.lift (Emit.dataLayout_lays _).quiet).bind fun envelopeStruct => ?_
  refine (allocate_plain _ _ _).bind fun object => (Plain.build ?_).bind fun _ => .pure _
  refine (KeepsCovered.structField _ _ _ _).bind fun envelope => ?_
  refine (KeepsCovered.structField _ _ _ _).bind fun tagSlot => ?_
  refine (KeepsCovered.store _ _).bind fun _ => .forM fun item => ?_
  exact (KeepsCovered.structField _ _ _ _).bind fun slot => .store _ _

theorem lowerConstruction_settles {node : NodeId} {args : List NodeId} {onStack : Bool}
    (hargs : ctx.PartsSettled V S names args) :
    Settles own walk f names [] (args.flatMap V)
      (lowerConstruction ctx lower node args onStack) := by
  refine target_settles fun found _ => ?_
  split
  · exact constructObject_settles hlower hargs
  · exact constructCase_settles hlower hargs
  · exact .broken

theorem lowerStack_settles {operand : NodeId}
    (h : ctx.PartsSettled V S names (ctx.constructionArgs operand)) :
    Settles own walk f names [] ((ctx.constructionArgs operand).flatMap V)
      (lowerUnary ctx lower .stack operand) := by
  unfold lowerUnary
  dsimp only [LoweringContext.constructionArgs] at h ⊢
  cases hnode : ctx.tree.node operand with
  | call receiver method args =>
      rw [hnode] at h
      exact lowerConstruction_settles hlower h
  | templatedInstance name typeArgs args =>
      rw [hnode] at h
      exact lowerConstruction_settles hlower h
  | _ => exact .mismatch

theorem lowerNot_settles {operand : NodeId} (h : S names operand) :
    Settles own walk f names [] (V operand) (lowerUnary ctx lower .not operand) :=
  (lowerValue_settles hlower h).forget.then_plain fun _ => .build (.not _ _)

/-- A call, by what it means. -/
theorem lowerCall_settles {node : NodeId} {receiver : Option NodeId} {method : String}
    {args : List NodeId}
    (hclosure : ctx.callsClosure walk node = true → method ∈ names)
    (h : ctx.PartsSettled V S names (ctx.callParts walk node receiver args)) :
    Settles own walk f names [] ((receiver.toList ++ args).flatMap V)
      (lowerCall ctx lower node receiver method args) := by
  have hargs : args.flatMap V ⊆ (receiver.toList ++ args).flatMap V := by simp
  refine target_settles fun found hfound => ?_
  rw [LoweringContext.callsClosure, hfound] at hclosure
  rw [LoweringContext.callParts, hfound] at h
  have hconstruct (h : ctx.PartsSettled V S names args) :
      Settles own walk f names [] (args.flatMap V) (do
        return some (← lowerConstruction ctx lower node args false)) :=
    (lowerConstruction_settles hlower h).then_plain fun _ => .pure _
  split
  · exact (callFunction_settles hlower h).touches hargs
  · cases receiver with
    | none => exact .broken_bind
    | some object =>
        refine .pure_bind ((lowerValue_settles hlower h.1).bind fun object => ?_)
        exact callFunction_settles hlower h.2
  · refine .after_plain receiver_plain fun object => ?_
    exact (callFunction_settles hlower h).touches hargs
  · cases receiver with
    | none => exact .broken_bind
    | some object =>
        refine .pure_bind (Settles.touches ?_ (List.subset_append_left _ _))
        exact (lowerElement_settles hlower h.1).then_plain fun _ => .pure _
  · exact (callClosure_settles hlower (hclosure rfl) h).touches hargs
  · exact (hconstruct h).touches hargs
  · exact (hconstruct h).touches hargs
  · split
    · next object =>
        have hobject : V object ⊆ (receiver.toList ++ [object]).flatMap V := by simp
        refine Settles.touches ?_ hobject
        refine (lowerValue_settles hlower h.1).forget.then_plain fun object => ?_
        exact Plain.getOutput.bind fun o => (Plain.build (.call _ _ _)).bind fun _ => .pure _
    · exact .broken
  · exact .broken

/-! ## Control flow -/

/-- The rest of a sequence, when either the current block has ended or all that was declared so far
is settled. -/
theorem statements_settle {statements : List NodeId} {last : Option Value}
    (h : ctx.PartsSettled V S names statements) (hb : b.Stands own walk f p o)
    (hnames : o.builder.isTerminated = true ∨ b.Settled f p names o) :
    succeeding.KeepsAt o ((statements.foldlM (fun last statement => do
        if ← terminated then pure last else lower statement) last).run b) fun r o' =>
      ∃ p', Body.Moves own walk f (statements.flatMap V) p b o p' r.2 o' := by
  induction statements generalizing names last p b o with
  | nil => exact .pure True.intro ⟨p, .of_stands hb hb.standing (.refl _)⟩
  | cons statement statements ih =>
      rw [List.foldlM_cons]
      have hstep : succeeding.KeepsAt o
          ((do if ← terminated then pure last else lower statement : Lower (Option Value)).run b)
          fun r u => ∃ p', Body.Moves own walk f (V statement) p b o p' r.2 u ∧
            (u.builder.isTerminated = true ∨
              r.2.Settled f p' (ctx.settledAfter V names statement) u) := by
        show succeeding.KeepsAt o (terminated.run b >>= fun r =>
          (if r.1 then pure last else lower statement : Lower (Option Value)).run r.2) _
        refine .bind_read True.intro (b := (o.builder.isTerminated, b)) rfl ?_
        cases hended : o.builder.isTerminated with
        | true =>
            -- the statement is skipped, so it does not matter what would be settled after it
            have hstay := Body.Moves.of_stands hb hb.standing (.refl _)
            exact .pure True.intro ⟨p, hstay.mono (List.nil_subset _), .inl hended⟩
        | false =>
            have hsettled := hnames.resolve_left (by simp [hended])
            refine (hlower f names statement h.1 p b o hb hsettled).weaken ?_
            rintro r u - - ⟨p', hmoves, hgains⟩
            exact ⟨p', hmoves, .inr (hgains.append (hmoves.settled hsettled))⟩
      refine bind_keeps hstep ?_
      rintro last' b' u - - ⟨p', hmoves, hnext⟩
      refine (ih h.2 hmoves.stands hnext).weaken ?_
      rintro r o' - - ⟨p'', hmoves'⟩
      exact ⟨p'', hmoves.trans hmoves'⟩

/-- A statement may read what the ones before it in its sequence declare. -/
theorem lowerSeq_settles {statements : List NodeId} (h : ctx.PartsSettled V S names statements) :
    Settles own walk f names [] (statements.flatMap V) (lowerSeq lower statements) := by
  intro p b o hb hsettled
  refine (statements_settle hlower h hb (.inr hsettled)).weaken ?_
  rintro r o' - - ⟨p', hmoves⟩
  exact ⟨p', hmoves, by simp [Body.Settled]⟩

theorem condition_settles {cond : NodeId} (h : S names cond) :
    Settles own walk f names (ctx.declares cond) (V cond) (condition ctx lower cond) := by
  refine .after_plain (typeOf_plain _) fun t => (lowerValue_settles hlower h).then_plain fun v => ?_
  exact .ite (.build (.compareOf _ _ _ _ _)) (.pure _)

omit hlower

/-- The branches meet in one of the blocks, if they do. -/
def MeetsIn (f : FunctionId) (blocks : List Nat) (merge : Option IR.BlockRef) : Prop :=
  ∀ target ∈ merge, ∃ k ∈ blocks, target = ⟨f, k⟩

theorem joinAt_bind {merge : Option IR.BlockRef} {next : Option IR.BlockRef → Lower α}
    (hmerge : MeetsIn f blocks merge)
    (h : ∀ merge' blocks', blocks ⊆ blocks' → MeetsIn f blocks' merge' →
      Detours own walk f start blocks' touched touched' (next merge')) :
    Detours own walk f start blocks touched touched' (joinAt merge >>= next) := by
  have hjoin : ∀ b o, b.Detour own walk f start blocks touched o →
      succeeding.KeepsAt o ((joinAt merge).run b) fun r o' => ∃ blocks', blocks ⊆ blocks' ∧
        MeetsIn f blocks' r.1 ∧ r.2.Detour own walk f start blocks' touched o' := by
    intro b o hb
    refine bind_keeps (Detours.of_plain terminated_plain b o hb) ?_
    rintro ended b o - - hb
    cases ended with
    | true => exact .pure True.intro ⟨blocks, List.Subset.refl _, hmerge, hb⟩
    | false =>
        cases merge with
        | some target =>
            obtain ⟨k, hk, rfl⟩ := hmerge target rfl
            refine pure_bind_keeps (bind_keeps (Detours.jump hk b o hb) ?_)
            rintro _ b o - - hb
            exact .pure True.intro ⟨blocks, List.Subset.refl _, hmerge, hb⟩
        | none =>
            refine bind_keeps (Detours.block_keeps _ hb) ?_
            rintro _ b o - - ⟨k, rfl, hb⟩
            refine bind_keeps (Detours.jump (List.mem_cons_self) b o hb) ?_
            rintro _ b o - - hb
            refine .pure True.intro ⟨k :: blocks, List.subset_cons_self _ _, ?_, hb⟩
            rintro _ ⟨⟩
            exact ⟨k, List.mem_cons_self, rfl⟩
  intro b o hb
  refine bind_keeps (hjoin b o hb) ?_
  rintro merge' b' o' - - ⟨blocks', hsub, hmerge', hb'⟩
  exact (h merge' blocks' hsub hmerge' b' o' hb').weaken fun _ _ _ _ hr => hr.drop hsub

/-- Going on where branches meet, if they do. -/
theorem meet_detours {merge : Option IR.BlockRef} : MeetsIn f blocks merge →
    Detours own walk f start blocks touched touched (match merge with
      | some merge => build do
        Build.moveBlockToEnd merge
        Build.positionAtEnd merge
      | none => pure () : Lower Unit) := by
  intro hmerge
  cases merge with
  | none => exact .pure _
  | some merge =>
      obtain ⟨k, hk, rfl⟩ := hmerge merge rfl
      exact .build_bind (.bind (.moveBlockToEnd hk) fun _ => .positionAtEnd hk)

include hlower

theorem lowerBranch_settles {cond yes : NodeId} {no : Option NodeId} (hcond : S names cond)
    (hyes : S (ctx.settledAfter V names cond) yes)
    (hno : ∀ no' ∈ no, S (untouched (ctx.settledAfter V names cond) (V yes)) no') :
    Settles own walk f names [] ((cond :: yes :: no.toList).flatMap V)
      (lowerBranch ctx lower cond yes no) := by
  refine (condition_settles hlower hcond).bind fun value => Detours.settles fun start hstart => ?_
  have hyes' (blocks : List Nat) : Detours own walk f start blocks [] (V yes) (lower yes) :=
    .part hstart (untouched_nil (ctx.settledAfter V names cond) ▸ hlower f _ yes hyes)
  have hopen {blocks : List Nat} {y n : Nat} (hy : y ∈ blocks) (hn : n ∈ blocks) :
      Detours own walk f start blocks [] [] (build do
        Build.branch value ⟨f, y⟩ ⟨f, n⟩
        Build.positionAtEnd ⟨f, y⟩) :=
    .build_bind ((Detours.branch value hy hn).bind fun _ => .positionAtEnd hy)
  refine .block_bind fun y => ?_
  dsimp only
  cases no with
  | none =>
      have htouched : V yes ⊆ [yes].flatMap V := by simp
      refine Detours.touches ?_ htouched
      refine .block_bind fun m => .pure_bind ?_
      have hmerge : MeetsIn f [m, y] (some ⟨f, m⟩) := by
        rintro _ ⟨⟩
        exact ⟨m, List.mem_cons_self, rfl⟩
      refine (hopen (by simp) (by simp)).bind fun _ => (hyes' _).bind fun _ => ?_
      exact joinAt_bind hmerge fun merge blocks _ hmerge => .pure_bind (meet_detours hmerge)
  | some no =>
      -- the second branch begins where the first one did, but the names the first one bound are gone
      have htouched : V yes ++ V no ⊆ [yes, no].flatMap V := by simp
      refine Detours.touches ?_ htouched
      have hno' (blocks : List Nat) :
          Detours own walk f start blocks (V yes) (V yes ++ V no) (lower no) :=
        .part hstart (hlower f _ no (hno no rfl))
      have hmerge : ∀ blocks, MeetsIn f blocks none := fun _ _ h => by cases h
      refine .block_bind fun n => .pure_bind ?_
      refine (hopen (by simp) (by simp)).bind fun _ => (hyes' _).bind fun _ => ?_
      refine joinAt_bind (hmerge _) fun merge blocks hsub hmerge => ?_
      refine (Detours.positionAtEnd (hsub (by simp))).bind fun _ => (hno' _).bind fun _ => ?_
      exact joinAt_bind hmerge fun merge blocks _ hmerge => meet_detours hmerge

theorem lowerLoop_settles {cond body : NodeId} (hcond : S names cond)
    (hbody : S (untouched names (V cond)) body) :
    Settles own walk f names [] (V cond ++ V body) (lowerLoop ctx lower cond body) := by
  -- all three blocks rely on what was written before the loop, so the way back asks for no more
  refine Detours.settles fun start hstart => .block_bind fun c => .block_bind fun d => ?_
  refine .block_bind fun e => .bind (.build_bind (.bind (.jump ?_) fun _ => .positionAtEnd ?_)) ?_
  · simp
  · simp
  intro _
  have hcond' : Detours own walk f start [e, d, c] [] (V cond) (condition ctx lower cond) :=
    .part hstart (untouched_nil names ▸ condition_settles hlower hcond)
  have hbody' : Detours own walk f start [e, d, c] (V cond) (V cond ++ V body) (lower body) :=
    .part hstart (hlower f _ body hbody)
  have hend : ∀ _ : PUnit, Detours own walk f start [e, d, c] (V cond ++ V body) (V cond ++ V body)
      (build do
        Build.moveBlockToEnd ⟨f, e⟩
        Build.positionAtEnd ⟨f, e⟩) :=
    fun _ => .build_bind (.bind (.moveBlockToEnd (by simp)) fun _ => .positionAtEnd (by simp))
  refine hcond'.bind fun value => ?_
  refine .bind (.build_bind (.bind (.branch value ?_ ?_) fun _ => .positionAtEnd ?_)) ?_
  · simp
  · simp
  · simp
  intro _
  refine hbody'.bind fun _ => .bind (.of_plain terminated_plain) fun ended => ?_
  exact .ite ((Detours.jump (by simp)).bind hend) (hend ⟨⟩)

theorem lowerReturn_settles {value : Option NodeId} (h : ∀ value' ∈ value, S names value') :
    Settles own walk f names [] (value.toList.flatMap V) (lowerReturn ctx lower value) := by
  unfold lowerReturn
  cases value with
  | none => exact returnVoid_plain.settles_nil
  | some value =>
      have hrest : Settles own walk f names [] (V value) (do
          let t ← typeOf ctx value
          let v ← lowerValue lower value
          if !(← terminated) then returnValue ctx v t) := by
        refine .after_plain (typeOf_plain _) fun t => ?_
        refine (lowerValue_settles hlower (h value rfl)).forget.then_settled fun v names => ?_
        exact .after_plain terminated_plain fun ended =>
          .ite (returnValue_settles _ _) (Plain.pure _).settles
      refine .after_plain (.get_bind fun b _ _ => .pure _) fun isVoid => ?_
      exact .ite .broken_bind (hrest.touches (by simp))

/-! ## Case -/

/-- The body of an arm may read what its pattern binds; afterwards the scope is as before. -/
theorem lowerArm_detours {value : Value} {tag : Option Value} {e : Nat} {arm : NodeId}
    (hstart : start.body.Settled f start.place names start.output) (he : e ∈ blocks)
    (harm : ctx.ArmScoped walk S tag.isNone names arm) :
    Detours own walk f start blocks [] [] (lowerArm ctx lower value tag ⟨f, e⟩ arm) := by
  unfold lowerArm
  unfold LoweringContext.ArmScoped at harm
  split
  · next matched body hnode =>
      rw [hnode] at harm
      dsimp only at harm
      split
      · next type binder fields hpattern =>
          rw [hpattern] at harm
          refine .typeOf_bind fun t ht => ?_
          rw [ht] at harm
          let bound := ctx.patternNames t tag.isNone binder fields
          have hbody : Settles own walk f names [] (bound ++ V body) (do
              bindPattern ctx value t tag.isNone binder fields
              lower body) := by
            refine (bindPattern_settles _ _ _ _ _).bind fun _ => ?_
            refine (hlower f _ body harm).forget.given fun name hname => ?_
            rw [List.mem_append] at hname
            rw [List.mem_append, mem_untouched]
            tauto
          have hrest : ∀ found, Detours own walk f start blocks [] [] (do
              let armBlock ← block "when"
              let nextBlock ← block "when.next"
              build do
                Build.branch found armBlock nextBlock
                Build.positionAtEnd armBlock
              let outer := (← get).scope
              bindPattern ctx value t tag.isNone binder fields
              let _ ← lower body
              modify fun b => { b with scope := outer }
              if !(← terminated) then build (Build.jump ⟨f, e⟩)
              build (Build.positionAtEnd nextBlock)) := by
            intro found
            refine .block_bind fun w => .block_bind fun n => ?_
            refine .bind (.build_bind (.bind (.branch found ?_ ?_) fun _ => .positionAtEnd ?_)) ?_
            · simp
            · simp
            · simp
            intro _
            have hnext : ∀ _ : PUnit, Detours own walk f start (n :: w :: blocks) [] []
                (build (Build.positionAtEnd ⟨f, n⟩)) := fun _ => .positionAtEnd (by simp)
            refine .get_bind fun b hscope => ?_
            refine .bind_bind (.part hstart (untouched_nil names ▸ hbody)) fun _ => ?_
            -- the scope of the arm ends here, and the names around it are back
            refine .bind (.restore fun name => hscope name (by simp)) fun _ => ?_
            refine .bind (.of_plain terminated_plain) fun ended => ?_
            exact .ite ((Detours.jump (by simp [he])).bind hnext) (hnext ⟨⟩)
          cases tag with
          | some tag => exact .bind (.of_plain (tagMatches_plain _ _)) hrest
          | none => exact .bind (.of_plain (dynamicHolds_plain _ _)) hrest
      · exact .broken
  · exact .broken

theorem lowerSelect_settles {cond : NodeId} {arms : List NodeId} (hcond : S names cond)
    (harms : ∀ arm ∈ arms,
      ctx.ArmScoped walk S (ctx.isDynamic walk cond) (ctx.settledAfter V names cond) arm) :
    Settles own walk f names [] (V cond) (lowerSelect ctx lower cond arms) := by
  refine typeOf_settles fun t ht => ?_
  rw [← List.append_nil (V cond)]
  refine (lowerValue_settles hlower hcond).bind fun value => ?_
  have hrest : ∀ tag : Option Value, tag.isNone = decide (t = .dynamic) →
      Settles own walk f (ctx.settledAfter V names cond) [] [] (do
      let endBlock ← block "case.end"
      arms.forM (lowerArm ctx lower value tag endBlock)
      build do
        Build.jump endBlock
        Build.moveBlockToEnd endBlock
        Build.positionAtEnd endBlock) := by
    intro tag htag
    refine Detours.settles fun start hstart => .block_bind fun e => ?_
    have he : e ∈ [e] := List.mem_cons_self
    refine .bind (.forM fun arm harm => lowerArm_detours hlower hstart he ?_) fun _ => ?_
    · have hdynamic : ctx.isDynamic walk cond = tag.isNone := by
        rw [htag, LoweringContext.isDynamic, ht]
        simp [Except.toOption]
      exact hdynamic ▸ harms arm harm
    · refine .build_bind (.bind (.jump he) fun _ => .build_bind (.bind (.moveBlockToEnd he) ?_))
      exact fun _ => .positionAtEnd he
  dsimp only
  by_cases hdynamic : t = .dynamic
  · rw [if_pos hdynamic]
    exact .pure_bind (hrest none (by simp [hdynamic]))
  · rw [if_neg hdynamic]
    refine .after_plain (.lift (Emit.layout_lays _).quiet) fun envelope => ?_
    have htag : KeepsCovered own f (do
        let slot ← Build.structField envelope value 0 "tag.ptr"
        Build.load .i32 slot "tag") := .loadField _ _ _ _ _ _
    exact (Plain.build htag).settles.bind_settled fun tag => hrest (some tag) (by simp [hdynamic])

end Constructs

end Lower

end ClassLang
