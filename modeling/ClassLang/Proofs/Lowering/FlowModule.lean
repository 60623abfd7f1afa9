import ClassLang.Proofs.Lowering.BodyOrder
import ClassLang.Proofs.Lowering.FlowBodies

/-!
# Generating a module completes its bodies

Between bodies no function is under construction: every function with a body is one that had it
before, or it is `Done`. If typing has checked the `return`s of all bodies, the exit blocks of the
new functions obey their protocol.
-/

namespace ClassLang

open IR (Build FunctionId Value)

/-- Typing has checked every `return` in the bodies of the module against the declared results. -/
structure ReturnsChecked (ctx : LoweringContext) : Prop where
  void : ctx.pool.resolveStrict .void = .ok .void
  bodies : ∀ statement ∈ ctx.tree.statements ctx.tree.root, ∀ visit,
    ctx.typed.Declares ctx.tree statement visit → ∀ sig,
      ctx.typed.table.signature visit = .ok sig → ∀ name params result body,
        ctx.tree.node visit.node = .methodDef name params result body →
          ctx.tree.ReturnsFit (some sig.result) body

namespace Emit

variable {α β : Type} {ctx : LoweringContext} {tracked : Prop} {begun : BodyRun → Prop}

/-- The step completes all bodies that it begins. -/
def Flows (ctx : LoweringContext) (tracked : Prop) (begun : BodyRun → Prop) (step : Emit α) :
    Prop :=
  ∀ o : Output, o.builder.Sane → (flowing ctx tracked begun none).KeepsAt o step fun _ _ => True

namespace Flows

theorem of_quiet {step : Emit α} (h : Quiet step) : Flows ctx tracked begun step :=
  fun _ ho => (h.keeps ho).trivial

theorem pure (a : α) : Flows ctx tracked begun (Pure.pure a) :=
  of_quiet (.pure a)

theorem bind {step : Emit α} {next : α → Emit β} (h : Flows ctx tracked begun step)
    (hnext : ∀ a, Flows ctx tracked begun (next a)) : Flows ctx tracked begun (step >>= next) :=
  fun o ho => .bind (h o ho) fun a o' ho' _ _ => hnext a o' ho'

theorem forM {items : List β} {body : β → Emit PUnit}
    (h : ∀ item ∈ items, Flows ctx tracked begun (body item)) :
    Flows ctx tracked begun (items.forM body) :=
  fun _ ho => (Discipline.forM_keeps (P := fun _ => True) items ho True.intro
    fun item hitem o' ho' _ _ => h item hitem o' ho').trivial

end Flows

/-! ## Declaring

No body is begun here, so it does not matter what the bodies are completed for. -/

section Declaring

variable {ctx' : LoweringContext}

theorem declareFunction_flows (sig : Signature) (receiver : Bool) :
    Flows ctx' tracked begun (declareFunction ctx sig receiver) := by
  refine (Flows.of_quiet (signatureType_lays sig receiver).quiet).bind fun type => ?_
  refine (Flows.of_quiet Quiet.get).bind fun o => ?_
  dsimp only
  split
  · split
    · exact .of_quiet ((Quiet.fail (by simp)).bind fun _ => .pure _)
    · exact .pure _
  · intro o ho
    have hd := IR.Builder.declareFunction_run ho sig.linkName type
    exact .of_ok rfl hd.sane hd.frame True.intro

theorem methodsWithin_quiet (fuel : Nat) (body : NodeId) (walk : InstanceId) :
    Quiet (methodsWithin ctx fuel body walk) := by
  induction fuel generalizing body walk with
  | zero => exact .throw fun path h => by cases h
  | succ fuel ih =>
      refine (Quiet.mapM fun statement _ => ?_).bind fun found => .pure _
      split
      · exact .pure _
      · exact .pure _
      · split
        · exact .broken _
        · exact .broken _
        · exact ih _ _
      · exact .pure _

theorem methods_quiet (decl : NodeId) (walk : InstanceId) : Quiet (methods ctx decl walk) := by
  unfold methods
  dsimp only
  split
  · exact methodsWithin_quiet _ _ _
  · exact .pure _

theorem declareType_flows (decl : NodeId) (walk : InstanceId) (t : TypeId) :
    Flows ctx' tracked begun (declareType ctx decl walk t) := by
  refine (Flows.of_quiet (layout_lays t).quiet).bind fun _ => ?_
  refine Flows.bind (.of_quiet (.forM fun variant _ => ?_)) fun _ => ?_
  · exact (layout_lays variant).quiet.bind fun _ => .pure _
  · refine (Flows.of_quiet (methods_quiet decl walk)).bind fun found => .forM fun item _ => ?_
    refine (Flows.of_quiet (.ofExcept (TypeTable.signature_free _ _))).bind fun sig => ?_
    exact (declareFunction_flows sig true).bind fun _ => .pure _

theorem typeInstances_quiet (decl : NodeId) : Quiet (typeInstances ctx decl) := by
  unfold typeInstances
  split
  · exact .pure _
  · exact (Quiet.ofExcept (TypeTable.typeOf_free _ _)).bind fun _ => .pure _

theorem declareStatement_flows (statement : NodeId) :
    Flows ctx' tracked begun (declareStatement ctx statement) := by
  have hfunction : Flows ctx' tracked begun (do
      let sig ← ofExcept (ctx.typed.table.signature { walk := 0, node := statement })
      let _ ← declareFunction ctx sig false) :=
    (Flows.of_quiet (.ofExcept (TypeTable.signature_free _ _))).bind fun sig =>
      (declareFunction_flows sig false).bind fun _ => .pure _
  have htype : Flows ctx' tracked begun (forInstances ctx statement (declareType ctx)) :=
    (Flows.of_quiet (typeInstances_quiet statement)).bind fun found =>
      .forM fun item _ => declareType_flows _ _ _
  unfold declareStatement
  dsimp only
  split
  · exact hfunction
  · exact hfunction
  · exact htype
  · exact htype
  · exact .pure _
  · exact .pure _
  · exact .pure _
  · exact .of_quiet (.fail (by simp))

end Declaring

/-! ## Defining -/

/-- What a body is checked against, if that is tracked. -/
def Checks (ctx : LoweringContext) (tracked : Prop) (visit : Visit) : Prop :=
  tracked → ctx.pool.resolveStrict .void = .ok .void ∧ ∀ sig,
    ctx.typed.table.signature visit = .ok sig → ∀ name params result body,
      ctx.tree.node visit.node = .methodDef name params result body →
        ctx.tree.ReturnsFit (some sig.result) body

/-- Parameters become locals. -/
theorem bindParams_straight {f : FunctionId} (params : List (Param × Nat)) :
    Lower.Straight f (params.forM (bindNamedParam ctx)) := by
  refine .forM fun param => ?_
  unfold bindNamedParam
  split
  · exact Lower.bindParam_straight ctx _ _ _
  · exact .pure _

theorem enterLocals_keeps {S : Stage} {f : FunctionId} (sig : Signature) (owner : Option TypeId)
    {b : Body} {o : Output} (hr : Running tracked S [1] 0 b o) (hf : S.function = f) :
    (flowing ctx tracked begun (some f)).KeepsAt o ((enterLocals ctx f sig owner).run b)
      fun r o' => Running tracked S [1] 0 r.2 o' := by
  subst hf
  unfold enterLocals
  cases owner with
  | none => exact Lower.pure_bind_keeps ((bindParams_straight _).keeps hr)
  | some t =>
      refine Lower.bind_keeps ((Lower.Straight.build (.setParamName 0 "self")).keeps hr) ?_
      rintro _ b o - - hr
      refine Lower.bind_keeps (Lower.Straight.getOutput.keeps hr) ?_
      rintro out b o - - hr
      have hreceiver : Lower.Straight S.function (modify fun b : Body =>
          { b with receiver := some (out.builder.param S.function 0) } : Lower PUnit) :=
        .update fun _ => ⟨rfl, rfl, rfl, rfl, rfl⟩
      refine Lower.bind_keeps (Lower.Straight.keeps hreceiver hr) ?_
      rintro _ b o - - hr
      exact Lower.pure_bind_keeps ((bindParams_straight _).keeps hr)

/-- The function of a method is opened; the receiver and the parameters become locals. -/
theorem enterMethod_keeps {f : FunctionId} (sig : Signature) (walk : InstanceId)
    (owner : Option TypeId) {o : Output} (ho : o.builder.Sane)
    (hlt : f < o.builder.module.functions.size) :
    (flowing ctx tracked begun (some f)).KeepsAt o (enterMethod ctx f sig walk owner) fun b o' =>
      (o.builder.module.function f).hasBody = false ∧
        ctx.pool.resolveStrict sig.result = .ok b.result ∧
        Running tracked (.whole f walk b.result none (fun h => by cases h) fun _ => False) [1] 0 b
          o' := by
  refine .bind (Lower.start_keeps ho hlt) ?_
  rintro inner o - - ⟨hnone, hresolved, hstage⟩
  let S := Stage.whole f walk inner.result none (fun h => by cases h) fun _ => False
  refine .bind (enterLocals_keeps sig owner (hstage S rfl rfl rfl rfl) rfl) ?_
  rintro ⟨_, b⟩ o ho - hr
  have hresult : b.result = inner.result := hr.flow.result
  exact .pure ho ⟨hnone, by rw [hresult]; exact hresolved, by rw [hresult]; exact hr⟩

/-- The function of a signature is looked up. -/
theorem functionFor_keeps (sig : Signature) {u : Output} (hu : u.builder.Sane) :
    (flowing ctx tracked begun none).KeepsAt u (functionFor sig) fun f u' =>
      u' = u ∧ u.builder.function? sig.linkName = some f := by
  refine .bind_read hu rfl ?_
  split
  · next f hf => exact .pure hu ⟨rfl, hf⟩
  · exact .of_error rfl ⟨hu, fun path h => by cases h⟩

/-- Typing has checked the `return`s of a body against the declared result, which generating
resolves. -/
theorem Checks.expected {visit : Visit} (h : Checks ctx tracked visit) {sig : Signature}
    (hsig : ctx.typed.table.signature visit = .ok sig) {name : String} {params : List NodeId}
    {result : Option NodeId} {body : NodeId}
    (hnode : ctx.tree.node visit.node = .methodDef name params result body) {r : TypeId}
    (hresolved : ctx.pool.resolveStrict sig.result = .ok r) : ∃ expected : Option TypeId,
      (expected = some .void → r = .void) ∧ (tracked → ctx.tree.ReturnsFit expected body) := by
  by_cases ht : tracked
  · obtain ⟨hvoid, hreturns⟩ := h ht
    refine ⟨some sig.result, fun heq => ?_, fun _ => hreturns sig hsig _ _ _ _ hnode⟩
    rw [Option.some.inj heq, hvoid] at hresolved
    exact (Except.ok.inj hresolved).symm
  · exact ⟨none, (fun heq => by cases heq), fun h => absurd h ht⟩

/-- The body of a method is completed by a run that has begun. -/
theorem defineMethod_keeps (visit : Visit) (owner : Option TypeId)
    (hchecks : Checks ctx tracked visit) {u : Output} (hu : u.builder.Sane)
    (henters : tracked → ∀ run, Enters ctx visit owner u run → begun run)
    (hencloses : tracked → ∀ outer run, begun outer → outer.Encloses ctx run → begun run) :
    (flowing ctx tracked begun none).KeepsAt u (defineMethod ctx visit.node visit.walk owner)
      fun _ _ => True := by
  cases hnode : ctx.tree.node visit.node with
  | methodDef name params result body =>
      rw [defineMethod_eq hnode]
      refine .bind ((Quiet.ofExcept (TypeTable.signature_free _ _)).keeps hu).recall ?_
      rintro sig u - - ⟨-, hrun⟩
      obtain ⟨hsig, rfl⟩ := ofExcept_ok hrun
      refine .bind (functionFor_keeps sig hu) ?_
      rintro f u - - ⟨rfl, hname⟩
      refine flowing_close (g := f) ?_
      refine .bind (enterMethod_keeps sig visit.walk owner hu (hu.declared _ _ hname)).recall ?_
      rintro b o ho hframe ⟨⟨hnone, hresolved, hr⟩, hentered⟩
      obtain ⟨expected, hbare, hfits⟩ := hchecks.expected hsig hnode hresolved
      let run : BodyRun := ⟨ctx.tree.size + 1, body, b, o⟩
      let S := Stage.whole f visit.walk b.result expected hbare (run.Returns ctx)
      have hfunction : b.function = f := hr.flow.function
      have hr' : Running tracked S [1] 0 b o :=
        ⟨hr.flow.restage expected hbare fun _ h => h.elim, hr.isOpen⟩
      have hbegun : tracked → begun run := fun ht => henters ht run
        ⟨⟨name, params, result, hnode⟩, rfl, sig, hsig, by rw [hfunction]; exact hname, hresolved,
          by rw [hfunction]; exact hentered⟩
      have horiginates : Originates ctx o.builder b := by
        refine .inl ⟨visit.node, sig, ?_, ?_, hresolved⟩
        · rw [show b.walk = visit.walk from hr.flow.walk]
          exact hsig
        · rw [hfunction]
          exact hframe.declared _ _ hname
      refine .bind (run.finish_keeps (S := S) hr' rfl (fun _ => True.intro) rfl hbegun horiginates ?_)
        fun _ o' ho' _ hdone => .pure ho' ⟨hnone, hdone, True.intro⟩
      exact Lower.lowerWithin_flows hencloses _ S body hfits [1] 0 b o hr' fun ht =>
        ⟨run, hbegun ht, .code, hfunction, rfl, fun _ h => h⟩
  | _ =>
      unfold defineMethod
      rw [hnode]
      exact .of_error rfl ⟨hu, fun path h => by cases h⟩

/-- The walks and types that are found for a declaration are its own. -/
theorem typeInstances_instances (decl : NodeId) (o : Output) :
    (Discipline.onSuccess Halt Output).KeepsAt o (typeInstances ctx decl) fun found _ =>
      ∀ item, item ∈ found ↔ ctx.typed.HasInstance decl item.1 item.2 := by
  unfold typeInstances TypedModule.HasInstance
  cases htemplate : ctx.typed.templateFor? decl with
  | some template => exact .pure True.intro fun item => by simp [Prod.ext_iff]
  | none =>
      have htype : (Discipline.onSuccess Halt Output).KeepsAt o
          (ofExcept (ctx.typed.table.typeOf { walk := 0, node := decl })) fun t _ =>
            ctx.typed.table.get? { walk := 0, node := decl } = some t := by
        unfold TypeTable.typeOf
        split
        · next t ht => exact .pure True.intro ht
        · exact True.intro
      exact .bind htype fun t o _ _ ht =>
        .pure True.intro fun item => by simp [ht, Prod.ext_iff, eq_comm]

section Members

variable {o₀ o₁ : Output} {statement : NodeId} {u : Output}
  (hdeclare : (ctx.tree.statements ctx.tree.root).forM (declareStatement ctx) o₀ = .ok ⟨⟩ o₁)

include hdeclare

/-- A definition is completed when it is its turn. -/
theorem definition_keeps {d : Declaration} (hturn : Turn ctx o₁ d u)
    (hchecks : Checks ctx tracked d.visit) (hu : u.builder.Sane) :
    (flowing ctx tracked (Begins ctx o₀) none).KeepsAt u
      (defineMethod ctx d.visit.node d.visit.walk d.owner?) fun _ _ => True :=
  defineMethod_keeps d.visit d.owner? hchecks hu
    (fun _ _ henters => .definition hdeclare hturn henters) fun _ _ _ => .lambda

variable (hchecks : ∀ statement ∈ ctx.tree.statements ctx.tree.root, ∀ visit,
  ctx.typed.Declares ctx.tree statement visit → Checks ctx tracked visit)

include hchecks

theorem defineType_keeps {decl : NodeId} {walk : InstanceId} {owner : TypeId}
    {instances : List (InstanceId × TypeId)} {v w : Output}
    (hstatement : LoopComesTo (ctx.tree.statements ctx.tree.root) (defineStatement ctx) o₁ decl v)
    (hinstances : typeInstances ctx decl v = .ok instances w)
    (hinstance : LoopComesTo instances (fun item => defineType ctx decl item.1 item.2) w
      (walk, owner) u) (hu : u.builder.Sane) :
    (flowing ctx tracked (Begins ctx o₀) none).KeepsAt u (defineType ctx decl walk owner)
      fun _ _ => True := by
  obtain ⟨-, -, hall⟩ := (typeInstances_instances decl v).ok hinstances
  have hwalk := ((hall _).mp hinstance.mem).isInstance
  rw [defineType_eq]
  refine .bind (((methods_quiet decl walk).keeps hu).recall.and (methods_members hwalk u)) ?_
  rintro found x hx - ⟨⟨-, hrun⟩, hfound⟩
  refine Discipline.forM_keeps_reached found hx fun before item after heq y hbefore hy => ?_
  have hmem : item ∈ found := by simp [heq]
  unfold defineMember
  split
  · next hnode =>
      obtain ⟨hmethod, body, statement, hbody, hmember, h⟩ := (hfound ⟨item.1, item.2⟩).mp hmem
      exact definition_keeps hdeclare (d := .method decl walk owner ⟨item.1, item.2⟩)
        (.method hstatement hinstances hinstance hrun ⟨before, after, heq, hbefore⟩
          ⟨_, _, _, _, hnode⟩)
        (hchecks decl hstatement.mem _
          ⟨hmethod, .inr ⟨body, walk, statement, hbody, hwalk, hmember, h⟩⟩) hy
  · exact .pure hy True.intro

theorem defineStatement_keeps
    (hstatement : LoopComesTo (ctx.tree.statements ctx.tree.root) (defineStatement ctx) o₁ statement
      u) (hu : u.builder.Sane) :
    (flowing ctx tracked (Begins ctx o₀) none).KeepsAt u (defineStatement ctx statement)
      fun _ _ => True := by
  have htype : (flowing ctx tracked (Begins ctx o₀) none).KeepsAt u
      (forInstances ctx statement (defineType ctx)) fun _ _ => True := by
    refine .bind ((typeInstances_quiet statement).keeps hu).recall ?_
    rintro instances v hv - ⟨-, hrun⟩
    refine Discipline.forM_keeps_reached instances hv fun before item after heq w hbefore hw => ?_
    exact defineType_keeps hdeclare hchecks hstatement hrun ⟨before, after, heq, hbefore⟩ hw
  unfold defineStatement
  split
  · next hnode =>
      exact definition_keeps hdeclare (d := .function statement)
        (.function hstatement ⟨_, _, _, _, hnode⟩)
        (hchecks statement hstatement.mem ⟨0, statement⟩
          ⟨by simp [SyntaxTree.IsMethod, hnode], .inl rfl⟩) hu
  · exact htype
  · exact htype
  · exact .pure hu True.intro

end Members

/-- Generating a module completes the bodies of all its functions, methods and lambdas, by runs that
begin on the way. -/
theorem generate_keeps (hchecked : tracked → ReturnsChecked ctx) {o : Output}
    (ho : o.builder.Sane) :
    (flowing ctx tracked (Begins ctx o) none).KeepsAt o (generate ctx) fun _ _ => True := by
  have hchecks : ∀ statement ∈ ctx.tree.statements ctx.tree.root, ∀ visit,
      ctx.typed.Declares ctx.tree statement visit → Checks ctx tracked visit :=
    fun statement hstatement visit hvisit ht =>
      ⟨(hchecked ht).void, (hchecked ht).bodies statement hstatement visit hvisit⟩
  have hdeclares : Flows ctx tracked (Begins ctx o)
      ((ctx.tree.statements ctx.tree.root).forM (declareStatement ctx)) :=
    .forM fun statement _ => declareStatement_flows statement
  refine .bind (hdeclares o ho).recall ?_
  rintro ⟨⟩ o₁ ho₁ - ⟨-, hdeclare⟩
  exact Discipline.forM_keeps_reached _ ho₁ fun before statement after heq u hbefore hu =>
    defineStatement_keeps hdeclare hchecks ⟨before, after, heq, hbefore⟩ hu

end Emit

end ClassLang
