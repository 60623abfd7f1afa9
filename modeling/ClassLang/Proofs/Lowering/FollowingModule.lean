import ClassLang.Proofs.Lowering.FollowingBodies

/-!
# Generating modules

A module is generated function by function: all of them are declared, then each gets its body. What
was there before stays, and functions that have a body stay as they are.
-/

namespace ClassLang

open IR (Build FunctionId KeepsAdding)
open IR.HasOperands (Below)

variable [CaseTags] {α β : Type}

namespace Emit

/-- The step goes on from what is there and completes the functions that it opens. -/
def Continues (step : Emit α) : Prop :=
  ∀ o r o', o.Shaped → step o = .ok r o' → Output.Continues none o o'

namespace Continues

theorem pure (a : α) : Continues (Pure.pure a) := by
  rintro o _ _ - ⟨⟩
  exact .refl o

theorem bind {step : Emit α} {next : α → Emit β} (h : Continues step)
    (hnext : ∀ a, Continues (next a)) : Continues (step >>= next) := by
  intro o r o' ho hrun
  obtain ⟨a, o₁, hstep, hrest⟩ := bind_eq_ok.mp hrun
  have hstep' := h o a o₁ ho hstep
  exact hstep'.trans (hnext a o₁ r o' (hstep'.shaped ho) hrest)

theorem of_enlarges {step : Emit α} (hquiet : Quiet step) (h : Enlarges step) : Continues step := by
  intro o r o' ho hrun
  have henlarges := h o r o' hrun
  obtain ⟨-, hsame, -⟩ := (hquiet o ho.builder.sane).ok hrun
  exact ⟨henlarges.toExtends, .of_quiet hsame henlarges.builder⟩

theorem fail (e : CompileError) : Continues (Emit.fail e : Emit α) := by
  rintro _ _ _ - ⟨⟩

theorem broken (text : String) : Continues (Emit.broken text : Emit α) := fail _

theorem ofExcept (r : Except CompileError α) : Continues (Emit.ofExcept r) := by
  cases r with
  | ok a => exact pure a
  | error e => exact fail e

theorem forM {items : List β} {body : β → Emit PUnit} (h : ∀ item ∈ items, Continues (body item)) :
    Continues (items.forM body) := by
  induction items with
  | nil => exact pure _
  | cons item items ih =>
      rw [List.forall_mem_cons] at h
      exact h.1.bind fun _ => ih h.2

theorem mapM {items : List β} {body : β → Emit α} (h : ∀ item, Continues (body item)) :
    Continues (items.mapM body) := by
  induction items with
  | nil => exact pure _
  | cons item items ih =>
      rw [List.mapM_cons]
      exact (h item).bind fun _ => ih.bind fun _ => pure _

end Continues

omit [CaseTags] in
/-- A function that is found was declared. -/
theorem functionFor_ok {sig : Signature} {g : FunctionId} {o o' : Output}
    (h : functionFor sig o = .ok g o') : o' = o ∧ o.builder.function? sig.linkName = some g := by
  obtain ⟨_, _, hget, hrest⟩ := bind_eq_ok.mp h
  cases hget
  cases hname : o.builder.function? sig.linkName with
  | none =>
      rw [hname] at hrest
      cases hrest
  | some id =>
      rw [hname] at hrest
      cases hrest
      exact ⟨rfl, rfl⟩

variable (ctx : LoweringContext)

/-! ## Declarations -/

theorem declareFunction_continues (sig : Signature) (receiver : Bool) :
    Continues (declareFunction ctx sig receiver) := by
  refine (Continues.of_enlarges (signatureType_lays sig receiver).quiet
    (signatureType_enlarges ctx sig receiver)).bind fun type o r o' ho hrun => ?_
  obtain ⟨_, o₁, hget, hrest⟩ := bind_eq_ok.mp hrun
  cases hget
  cases hname : o.builder.function? sig.linkName with
  | some id =>
      simp only [hname] at hrest
      split at hrest
      · cases hrest
      · cases hrest
        exact .refl o
  | none =>
      simp only [hname] at hrest
      obtain ⟨hcontinues, -⟩ := Build.declareFunction_continues o.builder sig.linkName type
      cases hrest
      exact ⟨.of_build o hcontinues.grows.toEnlarges, hcontinues⟩

theorem methodsWithin_continues (fuel : Nat) (body : NodeId) (walk : InstanceId) :
    Continues (methodsWithin ctx fuel body walk) := by
  induction fuel generalizing body walk with
  | zero => rintro _ _ _ - ⟨⟩
  | succ fuel ih =>
      refine (Continues.mapM fun statement => ?_).bind fun _ => .pure _
      split
      · exact .pure _
      · exact .pure _
      · split
        · exact .broken _
        · exact .broken _
        · exact ih _ _
      · exact .pure _

theorem methods_continues (decl : NodeId) (walk : InstanceId) :
    Continues (methods ctx decl walk) := by
  unfold methods
  dsimp only
  split
  · exact methodsWithin_continues ctx _ _ _
  · exact .pure _

theorem forInstances_continues {decl : NodeId} {step : NodeId → InstanceId → TypeId → Emit Unit}
    (h : ∀ walk t, Continues (step decl walk t)) : Continues (forInstances ctx decl step) := by
  refine Continues.bind ?_ fun found => .forM fun item _ => h _ _
  unfold typeInstances
  split
  · exact .pure _
  · exact (Continues.ofExcept _).bind fun t => .pure _

theorem declareType_continues (decl : NodeId) (walk : InstanceId) (t : TypeId) :
    Continues (declareType ctx decl walk t) := by
  have hlayout : ∀ t, Continues (layout ctx t) := fun t =>
    .of_enlarges (layout_lays t).quiet (layout_enlarges ctx t)
  refine (hlayout t).bind fun _ => Continues.bind
    (.forM fun variant _ => (hlayout variant).bind fun _ => .pure _) fun _ => ?_
  refine (methods_continues ctx decl walk).bind fun found => .forM fun item _ => ?_
  exact (Continues.ofExcept _).bind fun sig =>
    (declareFunction_continues ctx sig true).bind fun _ => .pure _

theorem declareStatement_continues (statement : NodeId) :
    Continues (declareStatement ctx statement) := by
  have hdeclare : Continues (do
      let sig ← ofExcept (ctx.typed.table.signature { walk := 0, node := statement })
      let _ ← declareFunction ctx sig false) :=
    (Continues.ofExcept _).bind fun sig =>
      (declareFunction_continues ctx sig false).bind fun _ => .pure _
  unfold declareStatement
  dsimp only
  split
  · exact hdeclare
  · exact hdeclare
  · exact forInstances_continues ctx fun _ _ => declareType_continues ctx _ _ _
  · exact forInstances_continues ctx fun _ _ => declareType_continues ctx _ _ _
  · exact .pure _
  · exact .pure _
  · exact .pure _
  · exact .fail _

/-! ## Bodies -/

/-- The code of a method: the receiver and the parameters become locals, then comes the body. -/
def methodCode (function : FunctionId) (owner : Option TypeId) (sig : Signature) (body : NodeId) :
    Lower Unit := do
  let first ← match owner with
    | some _ => do
      Lower.build (Build.setParamName function 0 "self")
      let receiver := (← getThe Output).builder.param function 0
      modify fun b => { b with receiver := some receiver }
      pure 1
    | none => pure 0
  (sig.params.zipIdx first).forM fun (param, index) => do
    match param.name with
    | some name => Lower.bindParam ctx index name param.type
    | none => pure ()
  Lower.finish ctx (Lower.lower ctx) body

variable {ctx} (htags : ctx.Tags)

include htags

theorem methodCode_closes (F : Output) (g : FunctionId) (n : Nat) (owner : Option TypeId)
    (sig : Signature) (body : NodeId) :
    Lower.Closes F g n (methodCode ctx g owner sig body) (methodCode ctx g owner sig body) := by
  have hrest : ∀ n first, Lower.Closes F g n (do
      (sig.params.zipIdx first).forM fun (param, index) => do
        match param.name with
        | some name => Lower.bindParam ctx index name param.type
        | none => pure ()
      Lower.finish ctx (Lower.lower ctx) body) (do
      (sig.params.zipIdx first).forM fun (param, index) => do
        match param.name with
        | some name => Lower.bindParam ctx index name param.type
        | none => pure ()
      Lower.finish ctx (Lower.lower ctx) body) := by
    refine fun n first => .after_adds (.forM ?_) fun _ _ _ _ =>
      Lower.finish_closes ctx (Lower.lowerWithin_follows htags _ g body)
    rintro ⟨param, index⟩ -
    dsimp only
    split
    · exact Lower.bindParam_adds ctx _ _ _
    · exact .done
  unfold methodCode
  cases owner with
  | none => exact hrest n 0
  | some t =>
      simp only [pure_bind]
      refine .after_adds (.build (.setParamName _ _)) fun _ _ _ _ => ?_
      refine .after_adds Lower.Adds.getOutput fun out _ _ _ => ?_
      refine .after_adds (.update (fun _ => ⟨rfl, rfl⟩) fun b n' _ hb => ?_)
        fun _ _ _ _ => hrest _ 1
      exact ⟨hb.1, IR.below_some trivial, hb.2.2⟩

theorem defineMethod_continues (node : NodeId) (walk : InstanceId) (owner : Option TypeId) :
    Continues (defineMethod ctx node walk owner) := by
  unfold defineMethod
  split
  · next name params result body _ =>
      refine (Continues.ofExcept _).bind fun sig o r o' ho hrun => ?_
      obtain ⟨g, o₁, hfunction, hrest₁⟩ := bind_eq_ok.mp hrun
      obtain ⟨b, o₂, hstart, hrest₂⟩ := bind_eq_ok.mp hrest₁
      obtain ⟨rb, o₃, hcode, hrest₃⟩ := bind_eq_ok.mp hrest₂
      cases hrest₃
      -- the function was declared, so it can be opened
      obtain ⟨rfl, hname⟩ := functionFor_ok hfunction
      have hopened := Lower.start_opened ctx (ho.builder.declared _ _ hname) ho hstart
      obtain ⟨hcontinues, -⟩ := methodCode_closes htags o' g 0 owner sig body b 0 o₂
        hopened.function hopened.exit hopened.at_ (hopened.continues.shaped ho)
        (by rw [hopened.size]; exact Nat.lt_succ_self 1) (Nat.zero_le _) (hopened.below _) _ _ _ hcode
      exact (hopened.continues.trans hcontinues).close hopened.fresh
  · exact .broken _

theorem defineType_continues (decl : NodeId) (walk : InstanceId) (t : TypeId) :
    Continues (defineType ctx decl walk t) := by
  refine (methods_continues ctx decl walk).bind fun found => .forM fun item _ => ?_
  dsimp only
  split
  · exact defineMethod_continues htags _ _ _
  · exact .pure _

theorem defineStatement_continues (statement : NodeId) :
    Continues (defineStatement ctx statement) := by
  have htype : Continues (forInstances ctx statement (defineType ctx)) :=
    forInstances_continues ctx fun _ _ => defineType_continues htags _ _ _
  unfold defineStatement
  split
  · exact defineMethod_continues htags _ _ _
  · exact htype
  · exact htype
  · exact .pure _

/-- Generating a module goes on from what was generated before. -/
theorem generate_continues : Continues (generate ctx) :=
  (Continues.forM fun statement _ => declareStatement_continues ctx statement).bind fun _ =>
    .forM fun statement _ => defineStatement_continues htags statement

end Emit

end ClassLang
