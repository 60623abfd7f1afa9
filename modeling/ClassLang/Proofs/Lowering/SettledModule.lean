import ClassLang.Proofs.Lowering.FlowModule
import ClassLang.Proofs.Lowering.SettledBodies
import ClassLang.Proofs.Lowering.StorageModule

/-!
# Generating a module of settled bodies

The parameters of a function or method are settled when its body begins. If all bodies of a module
read settled names only, there are accounts of written slots for all functions that generating the
module gives a body.
-/

namespace ClassLang

open IR (Accounts Build Builder FunctionId)

namespace LoweringContext

/-- The body of a function or method. -/
def methodBody? (ctx : LoweringContext) (node : NodeId) : Option NodeId :=
  match ctx.tree.node node with
  | .methodDef _ _ _ body => some body
  | _ => none

/-- The body of a declared function or method reads settled names only. -/
def MethodSettled (ctx : LoweringContext) (visit : Visit) (sig : Signature) : Prop :=
  ∀ body ∈ ctx.methodBody? visit.node,
    ctx.SettledWithin visit.walk (ctx.tree.size + 1) (signatureNames sig) body

/-- All bodies of the module read settled names only. -/
def BodiesSettled (ctx : LoweringContext) : Prop :=
  ∀ entry ∈ ctx.typed.table.signatures.toList, ctx.MethodSettled entry.1 entry.2

/-- The body of a function or method with a recorded signature. -/
theorem BodiesSettled.method {ctx : LoweringContext} (h : ctx.BodiesSettled) {visit : Visit}
    {sig : Signature} (hsig : ctx.typed.table.signature visit = .ok sig) :
    ctx.MethodSettled visit sig :=
  h (visit, sig) (TypeTable.mem_signatures hsig)

end LoweringContext

namespace Emit

variable {own : FunctionId → Prop} {α β : Type} {ctx : LoweringContext}

/-- The step keeps the accounts of written slots right. -/
def Covers (own : FunctionId → Prop) (step : Emit α) : Prop :=
  ∀ accounts o, o.builder.Covered own accounts →
    succeeding.KeepsAt o step fun _ o' => o.builder.Advances own accounts o'.builder

namespace Covers

theorem of_quiet {step : Emit α} (h : Quiet step) : Covers own step := by
  intro accounts o ho
  refine (h o ho.sane).succeeds.weaken ?_
  rintro _ o' - - ⟨-, hq, -⟩
  obtain ⟨hcovered, hdevelops⟩ := ho.quiet hq
  exact ⟨accounts, hcovered, hdevelops, fun _ _ _ => rfl⟩

theorem pure (a : α) : Covers own (Pure.pure a) :=
  of_quiet (.pure a)

theorem bind {step : Emit α} {next : α → Emit β} (h : Covers own step)
    (hnext : ∀ a, Covers own (next a)) : Covers own (step >>= next) := by
  intro accounts o ho
  refine .bind (h accounts o ho) ?_
  rintro a o' - - ⟨accounts', hcovered, hdevelops, hkeeps⟩
  exact (hnext a accounts' o' hcovered).weaken fun _ _ _ _ hr => .of_kept hdevelops hkeeps hr

theorem forM {items : List β} {body : β → Emit PUnit} (h : ∀ item, Covers own (body item)) :
    Covers own (items.forM body) := by
  induction items with
  | nil => exact pure _
  | cons item items ih => exact (h item).bind fun _ => ih

end Covers

/-! ## Declaring -/

theorem declareFunction_covers (sig : Signature) (receiver : Bool) :
    Covers own (declareFunction ctx sig receiver) := by
  refine (Covers.of_quiet (signatureType_lays sig receiver).quiet).bind fun type => ?_
  refine (Covers.of_quiet Quiet.get).bind fun o => ?_
  dsimp only
  split
  · split
    · exact .of_quiet ((Quiet.fail (by simp)).bind fun _ => .pure _)
    · exact .pure _
  · intro accounts o ho
    obtain ⟨hcovered, hdevelops⟩ :=
      ho.declares (IR.Builder.declareFunction_run ho.sane sig.linkName type)
    exact .of_ok rfl True.intro True.intro ⟨accounts, hcovered, hdevelops, fun _ _ _ => rfl⟩

theorem declareType_covers (decl : NodeId) (walk : InstanceId) (t : TypeId) :
    Covers own (declareType ctx decl walk t) := by
  refine (Covers.of_quiet (layout_lays t).quiet).bind fun _ => ?_
  refine Covers.bind (.of_quiet (.forM fun variant _ => ?_)) fun _ => ?_
  · exact (layout_lays variant).quiet.bind fun _ => .pure _
  · refine (Covers.of_quiet (methods_quiet decl walk)).bind fun found => .forM fun item => ?_
    refine (Covers.of_quiet (.ofExcept (TypeTable.signature_free _ _))).bind fun sig => ?_
    exact (declareFunction_covers sig true).bind fun _ => .pure _

theorem forInstances_covers {decl : NodeId} {step : NodeId → InstanceId → TypeId → Emit Unit}
    (hstep : ∀ walk t, Covers own (step decl walk t)) : Covers own (forInstances ctx decl step) :=
  (Covers.of_quiet (typeInstances_quiet decl)).bind fun _ => .forM fun item => hstep item.1 item.2

theorem declareStatement_covers (statement : NodeId) :
    Covers own (declareStatement ctx statement) := by
  have hfunction : Covers own (do
      let sig ← ofExcept (ctx.typed.table.signature { walk := 0, node := statement })
      let _ ← declareFunction ctx sig false) :=
    (Covers.of_quiet (.ofExcept (TypeTable.signature_free _ _))).bind fun sig =>
      (declareFunction_covers sig false).bind fun _ => .pure _
  have htype : Covers own (forInstances ctx statement (declareType ctx)) :=
    forInstances_covers fun _ _ => declareType_covers _ _ _
  unfold declareStatement
  dsimp only
  split
  · exact hfunction
  · exact hfunction
  · exact htype
  · exact htype
  · exact .pure _
  · exact .pure _
  · exact .pure _
  · exact .of_quiet (.fail (by simp))

/-! ## Defining -/

/-- Parameters become locals. -/
theorem bindParams_settle {walk : InstanceId} {f : FunctionId} {names : List String}
    (sig : Signature) (first : Nat) :
    Lower.Settles own walk f names (LoweringContext.signatureNames sig)
      (LoweringContext.signatureNames sig)
      ((sig.params.zipIdx first).forM fun (param, index) => do
        match param.name with
        | some name => Lower.bindParam ctx index name param.type
        | none => pure ()) := by
  refine .forM_zipIdx_binds _ fun param index names => ?_
  dsimp only
  cases param.name with
  | none => exact (Lower.Plain.pure _).settles_nil
  | some name => exact Lower.bindParam_settles _ _ _

/-- The code of a method: the receiver and the parameters become locals, then comes the body. -/
theorem methodCode_completes {walk : InstanceId} {function : FunctionId} (owner : Option TypeId)
    {sig : Signature} {body : NodeId}
    (hbody : ctx.SettledWithin walk (ctx.tree.size + 1) (LoweringContext.signatureNames sig) body) :
    Lower.Completes own walk function [] (do
      let first ← match owner with
        | some _ => do
          Lower.build (Build.setParamName function 0 "self")
          let receiver := (← getThe Output).builder.param function 0
          modify fun b => { b with receiver := some receiver }
          pure 1
        | none => pure 0
      (sig.params.zipIdx first).forM fun (param, index) => do
        match param.name with
        | some name => Lower.bindParam ctx index name param.type
        | none => pure ()
      Lower.finish ctx (Lower.lower ctx) body : Lower Unit) := by
  have hfinish : Lower.Completes own walk function (LoweringContext.signatureNames sig)
      (Lower.finish ctx (Lower.lower ctx) body) :=
    Lower.finish_completes (Lower.lowerWithin_settles _ function _ body hbody)
  have hrest (first : Nat) : Lower.Completes own walk function [] (do
      (sig.params.zipIdx first).forM fun (param, index) => do
        match param.name with
        | some name => Lower.bindParam ctx index name param.type
        | none => pure ()
      Lower.finish ctx (Lower.lower ctx) body : Lower Unit) :=
    .after (bindParams_settle sig first) fun _ => hfinish.given (List.subset_append_left _ _)
  cases owner with
  | none => exact fun p b o hb hsettled => hrest 0 p b o hb hsettled
  | some t =>
      refine .after_settled (Lower.Plain.build (.setParamName 0 "self")).settles fun _ => ?_
      refine .after_settled Lower.Plain.getOutput.settles fun o => ?_
      exact .after_settled (.update fun _ => ⟨rfl, rfl, rfl, rfl⟩) fun _ => hrest 1

/-- The body of a function or method may read its parameters from the start. -/
theorem defineMethod_covers (hsettled : ctx.BodiesSettled) (node : NodeId) (walk : InstanceId)
    (owner : Option TypeId) : Covers own (defineMethod ctx node walk owner) := by
  unfold defineMethod
  split
  · next body hnode =>
      intro accounts o ho
      cases hsig : ctx.typed.table.signature { walk, node } with
      | error e => exact .of_error rfl True.intro
      | ok sig =>
          have hbody := hsettled.method hsig body (by simp [LoweringContext.methodBody?, hnode])
          have hfound : succeeding.KeepsAt o (functionFor sig) fun function o' => o' = o ∧
              function < o.builder.module.functions.size := by
            refine .bind_read True.intro rfl ?_
            split
            · next function hfunction =>
                exact .pure True.intro ⟨rfl, ho.sane.declared _ _ hfunction⟩
            · exact .of_error rfl True.intro
          refine .bind_read True.intro (b := sig) rfl (.bind hfound ?_)
          rintro function _ - - ⟨rfl, hlt⟩
          refine .bind (Lower.start_stands ho hlt) ?_
          rintro start o₁ - - ⟨p, hstart, hdevelops, hkeeps⟩
          have hcode := methodCode_completes owner hbody p start o₁ hstart (by simp [Body.Settled])
          exact .bind hcode fun _ _ _ _ hr => .pure True.intro (.of_kept hdevelops hkeeps hr)
  · exact .of_quiet (.broken _)

theorem defineType_covers (hsettled : ctx.BodiesSettled) (decl : NodeId) (walk : InstanceId)
    (t : TypeId) : Covers own (defineType ctx decl walk t) := by
  refine (Covers.of_quiet (methods_quiet decl walk)).bind fun found => .forM fun item => ?_
  dsimp only
  split
  · exact defineMethod_covers hsettled _ _ _
  · exact .pure _

theorem defineStatement_covers (hsettled : ctx.BodiesSettled) (statement : NodeId) :
    Covers own (defineStatement ctx statement) := by
  unfold defineStatement
  split
  · exact defineMethod_covers hsettled _ _ _
  · exact forInstances_covers fun _ _ => defineType_covers hsettled _ _ _
  · exact forInstances_covers fun _ _ => defineType_covers hsettled _ _ _
  · exact .pure _

/-- Generating a module of settled bodies keeps the accounts of written slots right. -/
theorem generate_covers (hsettled : ctx.BodiesSettled) : Covers own (generate ctx) :=
  (Covers.forM fun statement => declareStatement_covers statement).bind fun _ =>
    .forM fun statement => defineStatement_covers hsettled statement

end Emit

end ClassLang
