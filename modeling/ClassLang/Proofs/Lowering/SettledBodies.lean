import ClassLang.Proofs.Lowering.FlowBodies
import ClassLang.Proofs.Lowering.SettledBelow

/-!
# Bodies that read settled names

A function that is opened has nothing written, and its exit block is reached from everywhere, so it
can rely on nothing. The body of a lambda is a function of its own, built while the enclosing one
waits: the accounts of the enclosing function stay as they are. With that, the accounts are right
after any node that reads settled names only.
-/

namespace ClassLang

open IR (Accounts BlockRef Build Builder FunctionId KeepsCovered Ty Value)

variable {own : FunctionId → Prop} {accounts : Accounts}

/-- The accounts of the blocks of all functions are right again, with accounts for new blocks. -/
def IR.Builder.Advances (own : FunctionId → Prop) (accounts : Accounts) (b b' : Builder) : Prop :=
  ∃ accounts', b'.Covered own accounts' ∧ b.Develops b' ∧ b.KeepsAccounts accounts accounts'

theorem IR.Builder.Advances.of_kept {accounts' : Accounts} {b b' b'' : Builder}
    (hdevelops : b.Develops b') (hkeeps : b.KeepsAccounts accounts accounts')
    (h : b'.Advances own accounts' b'') : b.Advances own accounts b'' := by
  obtain ⟨accounts'', hcovered, hdevelops', hkeeps'⟩ := h
  refine ⟨accounts'', hcovered, hdevelops.trans hdevelops', fun g k hk => ?_⟩
  rw [hkeeps' g k (Nat.lt_of_lt_of_le hk (hdevelops g).blocks), hkeeps g k hk]

/-- Going on after nothing was bound. -/
theorem Body.Moves.resume {walk : InstanceId} {f : FunctionId} {names gains touched : List String}
    {p p' : Place} {b b' : Body} {o o' : Output} {α : Type} {step : Lower α}
    (h : Body.Moves own walk f [] p b o p' b' o') (hsettled : b.Settled f p names o)
    (hstep : Lower.Settles own walk f names gains touched step) :
    succeeding.KeepsAt o' (step.run b') fun r o'' =>
      ∃ p'', Body.Moves own walk f touched p b o p'' r.2 o'' ∧ r.2.Settled f p'' gains o'' := by
  have hsettled' : b'.Settled f p' names o' := untouched_nil names ▸ h.settled hsettled
  refine (hstep p' b' o' h.stands hsettled').weaken ?_
  rintro r o'' - - ⟨p'', hmoves, hgained⟩
  exact ⟨p'', h.trans hmoves, hgained⟩

namespace Lower

variable {walk : InstanceId} {f : FunctionId} {ctx : LoweringContext}
  {names gains touched : List String} {V : NodeId → List String} {S : List String → NodeId → Prop}
  {lower : NodeId → Lower (Option Value)} {α β : Type} {b b' : Body} {o o' : Output} {p p' : Place}

/-! ## Completing a function -/

/-- The step leads from a place where `names` are settled to the end of the function. -/
def Completes (own : FunctionId → Prop) (walk : InstanceId) (f : FunctionId) (names : List String)
    (step : Lower α) : Prop :=
  ∀ p b o, b.Stands own walk f p o → b.Settled f p names o →
    succeeding.KeepsAt o (step.run b) fun _ o' => o.builder.Advances own p.accounts o'.builder

namespace Completes

theorem after {step : Lower α} {next : α → Lower β}
    (h : Settles own walk f names gains touched step)
    (hnext : ∀ a, Completes own walk f (gains ++ untouched names touched) (next a)) :
    Completes own walk f names (step >>= next) := by
  intro p b o hb hsettled
  refine bind_keeps (h p b o hb hsettled) ?_
  rintro a b' o' - - ⟨p', hmoves, hgained⟩
  refine (hnext a p' b' o' hmoves.stands (hgained.append (hmoves.settled hsettled))).weaken ?_
  exact fun _ _ _ _ hr => .of_kept hmoves.develops hmoves.accounts hr

theorem given {step : Lower α} {names' : List String} (h : Completes own walk f names step)
    (hsub : names ⊆ names') : Completes own walk f names' step :=
  fun p b o hb hsettled => h p b o hb (hsettled.mono hsub)

theorem after_settled {step : Lower α} {next : α → Lower β}
    (h : Settles own walk f names names [] step)
    (hnext : ∀ a, Completes own walk f names (next a)) :
    Completes own walk f names (step >>= next) :=
  after h fun a => (hnext a).given (List.subset_append_left _ _)

theorem get_bind {next : Body → Lower α} (h : ∀ b : Body, b.function = f → b.walk = walk →
      b.exit = ⟨f, 1⟩ → Completes own walk f names (next b)) :
    Completes own walk f names (get >>= next) :=
  fun p b o hb hsettled => h b hb.function hb.walk hb.exit p b o hb hsettled

/-- Building goes on in the exit block. -/
theorem at_exit {next : PUnit → Lower α} (h : Plain own walk f (next ⟨⟩)) :
    Completes own walk f names ((build do
      Build.moveBlockToEnd ⟨f, 1⟩
      Build.positionAtEnd ⟨f, 1⟩) >>= next) := by
  intro p b o hb _
  obtain ⟨hstanding, hdevelops⟩ := hb.standing.moveBlockToEnd Nat.one_ne_zero
  have hexit := Nat.lt_of_lt_of_le hb.exitBlock (hdevelops f).blocks
  obtain ⟨hstanding', hdevelops'⟩ := hstanding.positionAtEnd hexit
  have hrun : succeeding.KeepsAt o ((build do
      Build.moveBlockToEnd ⟨f, 1⟩
      Build.positionAtEnd ⟨f, 1⟩).run b) fun r o' => r.2 = b ∧
        b.Stands own walk f ⟨p.accounts, 1⟩ o' ∧ o.builder.Develops o'.builder :=
    .of_ok rfl True.intro True.intro ⟨rfl, { hb with standing := hstanding', exitBlock := hexit },
      hdevelops.trans hdevelops'⟩
  refine bind_keeps hrun ?_
  rintro _ _ o' - - ⟨rfl, hb', hdevelops⟩
  refine (h ⟨p.accounts, 1⟩ _ o' hb').weaken ?_
  rintro r o'' - - ⟨-, hstanding, hdevelops'⟩
  exact ⟨p.accounts, hstanding.covered, hdevelops.trans hdevelops', fun _ _ _ => rfl⟩

theorem ite {c : Prop} [Decidable c] {yes no : Lower α} (hyes : Completes own walk f names yes)
    (hno : Completes own walk f names no) :
    Completes own walk f names (if c then yes else no) := by
  split
  · exact hyes
  · exact hno

end Completes

/-- The code of the exit block, which asks for nothing. -/
theorem exitBlock_completes : Completes own walk f names (exitBlock ctx) := by
  refine .get_bind fun b _ _ hexit => ?_
  rw [hexit]
  refine .at_exit (.ite (.build (.leave rfl rfl)) ?_)
  refine (Plain.lift (Emit.valueType_lays _).quiet).bind fun type => .build ?_
  refine (KeepsCovered.phi _ _ _).bind fun value => ?_
  split
  · exact .leave rfl rfl
  · exact .leave rfl rfl

/-- The code of a body, then the exit block. -/
theorem finish_completes {body : NodeId}
    (h : Settles own walk f names gains touched (lower body)) :
    Completes own walk f names (finish ctx lower body) := by
  refine .after h fun value => .after_settled terminated_plain.settles fun ended => ?_
  exact .ite (.after_settled (fallThrough_settles _ _) fun _ => exitBlock_completes)
    exitBlock_completes

/-- A function without a body is opened: nothing is written at its entry. -/
theorem start_stands {function : FunctionId} {owner : Option TypeId} {name : String}
    {result : TypeId} (h : o.builder.Covered own accounts)
    (hlt : function < o.builder.module.functions.size) :
    succeeding.KeepsAt o (start ctx function walk owner name result) fun b o' =>
      ∃ p, b.Stands own walk function p o' ∧ o.builder.Develops o'.builder ∧
        o.builder.KeepsAccounts accounts p.accounts := by
  refine .bind_read True.intro rfl ?_
  cases hbody : (o.builder.module.function function).hasBody with
  | true => exact .of_error rfl True.intro
  | false =>
      refine .bind ((Emit.resolve_lays result).quiet o h.sane).succeeds ?_
      rintro result' o₁ - - ⟨-, hq, -⟩
      have hsame : o₁.builder.module.function function = o.builder.module.function function := by
        simp [IR.Module.function, hq.functions]
      obtain ⟨hcovered, hdevelops⟩ := h.quiet hq
      obtain ⟨hexit, hdevelops', accounts', hstanding, hkeeps, hempty, hsize⟩ :=
        hcovered.openFunction (hq.functions ▸ hlt) (hsame ▸ hbody)
      refine .bind (P := fun exit o' => exit = ⟨function, 1⟩ ∧ o₁.builder.Develops o'.builder ∧
        o'.builder.Standing own accounts' function 0 ∧
        1 < (o'.builder.module.function function).blocks.size)
        (.of_ok rfl True.intro True.intro ⟨hexit, hdevelops', hstanding, hsize⟩) ?_
      rintro exit o₂ - - ⟨rfl, hdevelops', hstanding, hsize⟩
      refine .pure True.intro ⟨⟨accounts', 0⟩, ⟨rfl, rfl, hstanding, rfl, hempty, hsize⟩,
        hdevelops.trans hdevelops', fun g k hk => hkeeps g k ?_⟩
      exact Nat.lt_of_lt_of_le hk (hdevelops g).blocks

/-! ## Lambdas -/

/-- The parameters of a lambda become locals. -/
theorem lambdaParams_settle {params : List (NodeId × TypeId)} :
    Settles own walk f names (params.flatMap fun p => ctx.paramNames p.1)
      (params.flatMap fun p => ctx.paramNames p.1)
      (params.zipIdx.forM fun ((param, t), index) => do
        match ctx.tree.node param with
        | .ident name => bindParam ctx (index + 1) name t
        | .typed name _ => bindParam ctx (index + 1) name t
        | _ => broken "lambda parameter is not a name") := by
  refine .forM_zipIdx_binds _ ?_
  rintro ⟨param, t⟩ index names
  dsimp only
  split
  · next name hnode =>
      rw [show ctx.paramNames param = [name] by simp [LoweringContext.paramNames, hnode]]
      exact bindParam_settles _ _ _
  · next name _ hnode =>
      rw [show ctx.paramNames param = [name] by simp [LoweringContext.paramNames, hnode]]
      exact bindParam_settles _ _ _
  · exact .broken

/-- The captured values become locals. -/
theorem lambdaCaptures_settle {struct : Ty} {closure : Value} {captures : List (String × TypeId)} :
    Settles own walk f names (captures.map (·.1)) (captures.map (·.1))
      (captures.zipIdx.forM fun ((name, t), index) => do
        let type ← Emit.valueType ctx t
        let value ← build do
          let slot ← Build.structField struct closure (index + 1) (name ++ ".ptr")
          Build.load type slot name
        bindLocal ctx name value t) := by
  rw [List.map_eq_flatMap]
  refine .forM_zipIdx_binds _ ?_
  rintro ⟨name, t⟩ index names
  refine .after_plain (.lift (Emit.valueType_lays _).quiet) fun type => ?_
  exact .after_plain (.build (.loadField _ _ _ _ _ _)) fun value => bindLocal_settles _ _ _

/-- The function of a lambda may read its parameters and captures from the start. -/
theorem lambdaBody_completes {struct : Ty} {params : List NodeId} {captures : List String}
    {paramTypes captureTypes : List TypeId} {body : NodeId}
    (h : Settles own walk f (ctx.lambdaNames params captures paramTypes captureTypes) gains touched
      (lower body)) :
    Completes own walk f [] (lambdaBody ctx lower struct (params.zip paramTypes)
      (captures.zip captureTypes) body) := by
  refine .get_bind fun b hb _ _ => ?_
  subst hb
  refine .after_settled (Plain.build (.setParamName _ _)).settles fun _ => ?_
  refine .after_settled Plain.getOutput.settles fun o => ?_
  refine .after lambdaParams_settle fun _ => .after lambdaCaptures_settle fun _ => ?_
  refine finish_completes (h.given fun name hname => ?_)
  rw [LoweringContext.lambdaNames, List.mem_append] at hname
  rw [List.mem_append, mem_untouched, List.mem_append]
  tauto

/-- The lambda's function is built while the enclosing one waits. -/
theorem lambdaFunction_advances {function : FunctionId} {name : String} {struct : Ty}
    {params : List NodeId} {captures : List String} {paramTypes captureTypes : List TypeId}
    {result : TypeId} {body : NodeId} (ho : o.builder.Covered own accounts)
    (hlt : function < o.builder.module.functions.size)
    (h : Settles own walk function (ctx.lambdaNames params captures paramTypes captureTypes) gains
      touched (lower body)) :
    succeeding.KeepsAt o (do
      let inner ← start ctx function walk none name result
      (lambdaBody ctx lower struct (params.zip paramTypes) (captures.zip captureTypes) body).run
        inner) fun _ o' => o.builder.Advances own accounts o'.builder := by
  refine .bind (start_stands ho hlt) ?_
  rintro inner o₁ - - ⟨p, hinner, hdevelops, hkeeps⟩
  refine (lambdaBody_completes h p inner o₁ hinner (by simp [Body.Settled])).weaken ?_
  exact fun _ _ _ _ hr => .of_kept hdevelops hkeeps hr

/-- Declaring a function does not touch the current one. -/
theorem declare_stands (hb : b.Stands own walk f p o) (name : String) (type : IR.FnType) :
    succeeding.KeepsAt o ((build (Build.declareFunction name type)).run b) fun r o' =>
      Body.Moves own walk f [] p b o p r.2 o' ∧ r.2 = b ∧
        r.1 < o'.builder.module.functions.size := by
  have hdeclares := IR.Builder.declareFunction_run hb.standing.covered.sane name type
  obtain ⟨hcovered, hdevelops⟩ := hb.standing.covered.declares hdeclares
  have hat := hb.standing.at_
  refine .of_ok rfl True.intro True.intro ⟨.of_stands hb ⟨hb.standing.mine, ?_, hcovered⟩ hdevelops,
    rfl, hdeclares.sane.declared _ _ hdeclares.found⟩
  exact ⟨Nat.lt_of_lt_of_le hat.function_lt hdeclares.size,
    Nat.lt_of_lt_of_le hat.block_lt (hdevelops f).blocks, hdeclares.cursor.trans hat.cursor,
    hdeclares.block.trans hat.block⟩

/-- Building goes on where it was before the other function was built. -/
theorem restore_moves (hb : b.Stands own walk f p o)
    (h : o.builder.Advances own p.accounts o'.builder) :
    succeeding.KeepsAt o' ((build (Build.restore o.builder.position)).run b) fun r o'' =>
      ∃ p', Body.Moves own walk f [] p b o p' r.2 o'' := by
  obtain ⟨accounts, hcovered, hdevelops, hkeeps⟩ := h
  obtain ⟨hstanding, hdevelops'⟩ := hb.standing.restore hcovered hdevelops
  exact .of_ok rfl True.intro True.intro
    ⟨⟨accounts, p.block⟩, .stay hb hstanding (hdevelops.trans hdevelops') hkeeps⟩

theorem nextLambdaName_plain : Plain own walk f nextLambdaName :=
  fun _ _ _ hb => .of_ok rfl True.intro True.intro ⟨rfl, hb.standing, .refl _⟩

section Nodes

variable (hlower : SettlesAll own ctx walk V S lower)

include hlower

/-- The values that a lambda captures are read where it is made. -/
theorem lowerLambda_settles {node body : NodeId} {params : List NodeId} {captures : List String}
    (hcaptures : ∀ name ∈ captures, name ∈ names)
    (hbody : ∀ types ∈ ctx.closureTypes? walk node,
      S (ctx.lambdaNames params captures types.1 types.2) body) :
    Settles own walk f names names [] (lowerLambda ctx lower node params captures body) := by
  refine typeOf_settles fun t ht => ?_
  split
  · next paramTypes result captureTypes hview =>
      have htypes : ctx.closureTypes? walk node = some (paramTypes, captureTypes) := by
        simp [LoweringContext.closureTypes?, ht, Except.map, hview]
      refine .after_plain (.lift (Emit.layout_lays t).quiet) fun struct => ?_
      refine .after_plain (.lift (Emit.closureFnType_lays _ _).quiet) fun type => ?_
      refine .after_plain nextLambdaName_plain fun name => ?_
      intro p b o hb hsettled
      refine bind_keeps (declare_stands hb _ type) ?_
      rintro function b o₁ - - ⟨hdeclared, rfl, hlt⟩
      refine output_bind_keeps (get_bind_keeps ?_)
      rw [hb.walk]
      have hcode := hlower function _ body (hbody _ htypes)
      refine lift_bind_keeps (lambdaFunction_advances hdeclared.stands.standing.covered hlt hcode)
        fun _ o₂ _ _ hadvances => ?_
      -- the enclosing function is as it was, so the captured names are still settled
      refine bind_keeps (restore_moves hdeclared.stands hadvances) ?_
      rintro _ b o₃ - - ⟨p', hmoves⟩
      refine (hdeclared.trans hmoves).resume hsettled ?_
      refine .after_plain (allocate_plain _ _ _) fun object => ?_
      refine .after_plain (.build ?_) fun _ => Settles.then_plain (.forM ?_) fun _ => .pure _
      · exact (KeepsCovered.structField _ _ _ _).bind fun slot => .store _ _
      · rintro ⟨name, index⟩ hname
        have hmem := List.fst_mem_of_mem_zipIdx hname
        refine (loadLocal_settles (hcaptures name hmem)).then_plain fun value => .build ?_
        exact (KeepsCovered.structField _ _ _ _).bind fun slot => .store _ _
  · exact .broken

/-- Generating a node that reads settled names settles what it declares. -/
theorem lowerNode_settles {node : NodeId}
    (h : ctx.KindSettled walk V S names node (ctx.tree.node node)) :
    Settles own walk f names (ctx.declares node)
      (ctx.declares node ++ (ctx.scopeParts node).flatMap V) (lowerNode ctx lower node) := by
  have hvalue {touched : List String} {step : Lower Value}
      (h : Settles own walk f names [] touched step) :
      Settles own walk f names [] touched (do return some (← step)) :=
    h.then_plain fun _ => .pure _
  unfold lowerNode LoweringContext.declares LoweringContext.scopeParts SyntaxTree.inlineParts
  cases hkind : ctx.tree.node node with
  | seq statements =>
      rw [hkind] at h
      exact lowerSeq_settles hlower h
  | number n => exact .ite (Plain.pure _).settles_nil .mismatch
  | bool b => exact (Plain.pure _).settles_nil
  | text s =>
      exact ((Plain.lift (Emit.stringLiteral_lays s).quiet).bind fun _ => .pure _).settles_nil
  | ident name =>
      rw [hkind] at h
      exact hvalue (lowerIdent_settles h)
  | ivar name => exact ((lowerIvar_plain name).bind fun _ => .pure _).settles_nil
  | selfRef => exact (receiver_plain.bind fun _ => .pure _).settles_nil
  | typed | varargs | namedType | pointerType
  | templatedType | closureType => exact (Plain.pure _).settles_nil
  | methodDef | methodDec | classDef | dataDef | caseDef | ivarDecl | traitDef | inclusion
  | importModule | package => exact .mismatch
  | var name type value =>
      rw [hkind] at h
      refine ((lowerVar_settles hlower h).then_plain fun _ => .pure _).touches ?_
      simp
  | assign target value =>
      rw [hkind] at h
      exact (hvalue (lowerAssign_settles hlower h)).touches (by simp)
  | call receiver method args =>
      rw [hkind] at h
      exact lowerCall_settles hlower h.1 h.2
  | namedArg name value =>
      rw [hkind] at h
      exact (hlower f names value h).forget.touches (by simp)
  | templatedInstance name typeArgs args =>
      rw [hkind] at h
      exact hvalue (lowerConstruction_settles hlower h)
  | binary op lhs rhs =>
      rw [hkind] at h
      exact (hvalue (lowerBinary_settles hlower h)).touches (by simp)
  | unary op operand =>
      rw [hkind] at h
      cases op with
      | not => exact (hvalue (lowerNot_settles hlower h)).touches (by simp)
      | stack => exact hvalue (lowerStack_settles hlower h)
  | branch cond yes no =>
      rw [hkind] at h
      exact (lowerBranch_settles hlower h.1 h.2.1 h.2.2).then_plain fun _ => .pure _
  | loop cond body =>
      rw [hkind] at h
      exact ((lowerLoop_settles hlower h.1 h.2).then_plain fun _ => .pure _).touches (by simp)
  | select cond arms =>
      rw [hkind] at h
      exact ((lowerSelect_settles hlower h.1 h.2).then_plain fun _ => .pure _).touches (by simp)
  | arm | pattern => exact .broken
  | ret value =>
      rw [hkind] at h
      exact (lowerReturn_settles hlower h).then_plain fun _ => .pure _
  | lambda params captures body =>
      rw [hkind] at h
      exact hvalue (lowerLambda_settles hlower h.1 h.2).forget

end Nodes

/-- Generating a node that reads settled names only, as deep as it is generated. -/
theorem lowerWithin_settles (fuel : Nat) :
    SettlesAll own ctx walk (ctx.varsWithin fuel) (ctx.SettledWithin walk fuel)
      (lowerWithin ctx fuel) := by
  induction fuel with
  | zero => exact fun _ _ _ _ => .fails fun _ o => ⟨_, o, rfl⟩
  | succ fuel ih => exact fun _ _ _ h => lowerNode_settles ih h

end Lower

end ClassLang
