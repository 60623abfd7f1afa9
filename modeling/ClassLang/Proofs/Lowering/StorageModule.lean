import ClassLang.Proofs.Lowering.StorageBelow

/-!
# Generating a module of scoped bodies

The body of a function or method may read the parameters of its recorded signature. If all bodies
of a module are scoped, generating the module never stops because a name has no storage. Whether
they are or not, it keeps the records of runtime types.
-/

namespace ClassLang

open IR (Build)

/-- A signature that is found is recorded. -/
theorem TypeTable.mem_signatures {table : TypeTable} {visit : Visit} {sig : Signature}
    (h : table.signature visit = .ok sig) : (visit, sig) ∈ table.signatures.toList := by
  unfold TypeTable.signature at h
  split at h
  · next found hfound =>
      cases h
      simpa using hfound
  · cases h

namespace LoweringContext

/-- The names that a function or method has storage for when its body begins. -/
def signatureNames (sig : Signature) : List String :=
  sig.params.flatMap fun param => param.name.toList

/-- The body of a declared function or method reads no names but those it may read, if `strict`. -/
def MethodScoped (ctx : LoweringContext) (strict : Prop) (visit : Visit) (sig : Signature) : Prop :=
  match ctx.tree.node visit.node with
  | .methodDef _ _ _ body =>
    ctx.ScopedWithin visit.walk strict (ctx.tree.size + 1) (signatureNames sig) body
  | _ => True

/-- All bodies of the module are scoped. -/
def BodiesScoped (ctx : LoweringContext) (strict : Prop) : Prop :=
  ∀ entry ∈ ctx.typed.table.signatures.toList, ctx.MethodScoped strict entry.1 entry.2

variable {ctx : LoweringContext} {strict : Prop}

/-- The body of a function or method with a recorded signature. -/
theorem BodiesScoped.method (h : ctx.BodiesScoped strict) {visit : Visit} {sig : Signature}
    (hsig : ctx.typed.table.signature visit = .ok sig) : ctx.MethodScoped strict visit sig :=
  h (visit, sig) (TypeTable.mem_signatures hsig)

/-- Steps that are not strict may read any name. -/
theorem scopedWithin_of_lax {walk : InstanceId} (fuel : Nat)
    (names : List String) (node : NodeId) : ctx.ScopedWithin walk False fuel names node := by
  induction fuel generalizing names node with
  | zero => exact True.intro
  | succ fuel ih =>
      have hseq : ∀ statements names,
          ctx.SeqScoped (ctx.ScopedWithin walk False fuel) names statements := by
        intro statements
        induction statements with
        | nil => exact fun _ => True.intro
        | cons statement rest ihs => exact fun names => ⟨ih names statement, ihs _⟩
      have harm : ∀ onDynamic names arm,
          ctx.ArmScoped walk (ctx.ScopedWithin walk False fuel) onDynamic names arm := by
        intro onDynamic names arm
        unfold ArmScoped
        split
        · split
          · exact ih _ _
          · exact True.intro
        · exact True.intro
      unfold ScopedWithin NodeScoped
      split <;> simp only [ih, hseq, harm, false_implies, implies_true, and_self, true_and]
      all_goals split <;> trivial

theorem bodiesScoped_of_lax (ctx : LoweringContext) : ctx.BodiesScoped False := by
  intro entry _
  unfold MethodScoped
  split
  · exact scopedWithin_of_lax _ _ _
  · exact True.intro

end LoweringContext

namespace Emit

variable {ctx : LoweringContext} {strict frozen : Prop}

/-! ## Declaring -/

theorem methodsWithin_registers (fuel : Nat) (body : NodeId) (walk : InstanceId) :
    Registers strict frozen (methodsWithin ctx fuel body walk) := by
  induction fuel generalizing body walk with
  | zero => exact .outOfFuel
  | succ fuel ih =>
      refine (Registers.mapM fun statement _ => ?_).bind fun found => .pure _
      split
      · exact .pure _
      · exact .pure _
      · split
        · exact .broken (by decide)
        · exact .broken (by simp [ToString.toString])
        · exact ih _ _
      · exact .pure _

theorem methods_registers (decl : NodeId) (walk : InstanceId) :
    Registers strict frozen (methods ctx decl walk) := by
  unfold methods
  dsimp only
  split
  · exact methodsWithin_registers _ _ _
  · exact .pure _

theorem signature_registers (visit : Visit) :
    Registers strict frozen (ofExcept (ctx.typed.table.signature visit)) :=
  .ofExcept fun _ => TypeTable.not_unstored_of_signature

theorem declareType_registers (decl : NodeId) (walk : InstanceId) (t : TypeId) :
    Registers strict frozen (declareType ctx decl walk t) := by
  refine (layout_lays t).registers.bind fun _ => (Registers.forM fun variant _ => ?_).bind fun _ => ?_
  · exact (layout_lays variant).registers.bind fun _ => .pure _
  · refine (methods_registers _ _).bind fun found => .forM fun item _ => ?_
    refine (signature_registers _).bind fun sig => ?_
    exact (declareFunction_registers _ _).bind fun _ => .pure _

theorem typeInstances_registers (decl : NodeId) :
    Registers strict frozen (typeInstances ctx decl) := by
  unfold typeInstances
  split
  · exact .pure _
  · exact Registers.bind (.ofExcept fun _ => TypeTable.not_unstored_of_typeOf) fun _ => .pure _

theorem forInstances_registers {decl : NodeId} {step : NodeId → InstanceId → TypeId → Emit Unit}
    (hstep : ∀ walk t, Registers strict frozen (step decl walk t)) :
    Registers strict frozen (forInstances ctx decl step) :=
  (typeInstances_registers decl).bind fun _ => .forM fun item _ => hstep item.1 item.2

theorem declareStatement_registers (statement : NodeId) :
    Registers strict frozen (declareStatement ctx statement) := by
  have hfunction : Registers strict frozen (do
      let sig ← ofExcept (ctx.typed.table.signature { walk := 0, node := statement })
      let _ ← declareFunction ctx sig false) :=
    (signature_registers _).bind fun _ => (declareFunction_registers _ _).bind fun _ => .pure _
  have htype : Registers strict frozen (forInstances ctx statement (declareType ctx)) :=
    forInstances_registers fun _ _ => declareType_registers _ _ _
  unfold declareStatement
  dsimp only
  split
  · exact hfunction
  · exact hfunction
  · exact htype
  · exact htype
  · exact .pure _
  · exact .pure _
  · exact .pure _
  · exact .program (by simp)

/-! ## Defining -/

/-- Parameters become locals. -/
theorem bindParams_scoped (walk : InstanceId) (sig : Signature) (first : Nat) :
    Lower.Scoped strict walk [] (LoweringContext.signatureNames sig)
      ((sig.params.zipIdx first).forM fun (param, index) => do
        match param.name with
        | some name => Lower.bindParam ctx index name param.type
        | none => pure ()) := by
  rw [LoweringContext.signatureNames, ← List.append_nil (List.flatMap _ _)]
  refine .forM_zipIdx_binds _ fun param _ index names => ?_
  dsimp only
  cases param.name with
  | none => exact .pure _
  | some name => exact Lower.bindParam_scoped _ _ _

/-- The body of a function or method may read its parameters. -/
theorem defineMethod_registers (hscoped : ctx.BodiesScoped strict) (node : NodeId)
    (walk : InstanceId) (owner : Option TypeId) :
    Registers strict False (defineMethod ctx node walk owner) := by
  unfold defineMethod
  split
  · next body hnode =>
      intro o ho
      cases hsig : ctx.typed.table.signature { walk, node } with
      | error e =>
          exact .of_error rfl ⟨fun _ => TypeTable.not_unstored_of_signature hsig, ho, id⟩
      | ok sig =>
          have hbody := hscoped.method hsig
          rw [LoweringContext.MethodScoped, hnode] at hbody
          refine .bind_read ho (b := sig) rfl ?_
          refine .bind (functionFor_registers sig o ho) fun function u hu _ _ => ?_
          refine .bind (Lower.start_scoped function owner sig.name sig.result hu) ?_
          intro start v hv _ hstart
          have hfinish : Lower.Scoped strict walk (LoweringContext.signatureNames sig) _
              (Lower.finish ctx (Lower.lowerWithin ctx (ctx.tree.size + 1)) body) :=
            Lower.finish_scoped (Lower.lowerWithin_scoped _ _ body hbody)
          have hparams (first : Nat) :=
            (@bindParams_scoped ctx _ walk sig first).bind fun _ => hfinish
          refine .bind (P := fun _ _ => True) ?_ fun _ w hw _ _ => .pure hw True.intro
          cases owner with
          | none => exact (Lower.Scoped.pure_bind (hparams 0) start hstart v hv).trivial
          | some t =>
              have hself := (Lower.Scoped.build (.setParamName function 0 "self")).bind fun _ =>
                Lower.Scoped.getOutput.bind fun o =>
                  (Lower.Scoped.update (f := fun b =>
                    { b with receiver := some (o.builder.param function 0) })
                    fun _ hb => ⟨hb.walk, hb.names⟩).bind fun _ => hparams 1
              exact (hself start hstart v hv).trivial
  · exact .broken (by decide)

theorem defineType_registers (hscoped : ctx.BodiesScoped strict) (decl : NodeId)
    (walk : InstanceId) (t : TypeId) : Registers strict False (defineType ctx decl walk t) := by
  refine (methods_registers _ _).bind fun found => .forM fun item _ => ?_
  dsimp only
  split
  · exact defineMethod_registers hscoped _ _ _
  · exact .pure _

theorem defineStatement_registers (hscoped : ctx.BodiesScoped strict) (statement : NodeId) :
    Registers strict False (defineStatement ctx statement) := by
  unfold defineStatement
  split
  · exact defineMethod_registers hscoped _ _ _
  · exact forInstances_registers fun _ _ => defineType_registers hscoped _ _ _
  · exact forInstances_registers fun _ _ => defineType_registers hscoped _ _ _
  · exact .pure _

/-- Generating a module keeps the records of runtime types, and if its bodies are scoped, it does
not fail because a name has no storage. -/
theorem generate_registers (hscoped : ctx.BodiesScoped strict) :
    Registers strict False (generate ctx) :=
  (Registers.forM fun statement _ => declareStatement_registers statement).bind fun _ =>
    .forM fun statement _ => defineStatement_registers hscoped statement

end Emit

end ClassLang
