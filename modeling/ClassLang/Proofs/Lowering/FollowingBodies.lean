import ClassLang.Proofs.Lowering.FollowingSteps

/-!
# Generating nodes

A lambda is generated as a function of its own while the enclosing one waits, and building comes back
to where it was. Branches, loops and cases take building through blocks of their own.
`lowerWithin_follows` is the induction on the nesting of nodes.
-/

namespace ClassLang

open IR (BlockRef Build Builder FnType FunctionId HasOperands KeepsAdding Ty Value below_append
  below_nil below_none below_some)
open IR.HasOperands (Below)

variable [CaseTags]

/-- Coming back to a function after others were built. -/
theorem Output.Since.restored {f : FunctionId} {c₀ : Nat} {o₀ o o' : Output} {blocks : List Nat}
    (h : Output.Since f c₀ o₀ blocks o) (hcontinues : Output.Continues none o o') :
    let r := ((Build.restore o.builder.position).run o'.builder).2
    Output.Since f c₀ o₀ blocks { o' with builder := r } ∧ o.Grows { o' with builder := r } ∧
      o'.Grows { o' with builder := r } := by
  intro r
  obtain ⟨c, hat, hproceeds⟩ := h.place
  have hbody : (o.builder.module.function f).hasBody = true := by
    have hpos := hat.block_lt
    simp only [IR.Function.hasBody, Array.isEmpty, Bool.not_eq_true', decide_eq_false_iff_not]
    omega
  have hsame := hcontinues.builder.others f (by simp) hbody
  have hr : r = { o'.builder with
      currentFunction := o.builder.currentFunction
      cursor := some (.atEnd ⟨f, c⟩)
      currentBlock := some ⟨f, c⟩ } := by
    simp only [r, Build.restore, IR.Builder.position, hat.block]
    rfl
  have hsize : f < o'.builder.module.functions.size := by
    by_contra hge
    have hnone : o'.builder.module.function f = default := by
      simp [IR.Module.function, Array.getD_eq_getD_getElem?,
        Array.getElem?_eq_none (Nat.le_of_not_lt hge)]
    rw [← hsame, hnone] at hbody
    cases hbody
  have hplaced : IR.Builder.Continues (some f) o.builder r := by
    refine hcontinues.builder.weaken.trans ?_
    rw [hr]
    exact ⟨.of_module rfl rfl rfl, fun h => ⟨h.functions, h.declared⟩, fun _ _ _ => rfl⟩
  have hmodule : r.module = o'.builder.module := by rw [hr]
  have hfunction : r.module.function f = o.builder.module.function f := by rw [hmodule, hsame]
  have hproceeds' : o.builder.Proceeds f c c r := ⟨hplaced, .inl rfl, fun _ _ _ => by rw [hfunction]⟩
  have hat' : r.At f c := by
    refine ⟨hmodule ▸ hsize, by rw [hfunction]; exact hat.block_lt, ?_, ?_⟩ <;> rw [hr]
  have hrestored : o'.builder.Grows r := by
    rw [hr]
    exact .of_module rfl rfl rfl
  have hextends : o.Extends { o' with builder := r } :=
    hcontinues.toExtends.trans (.of_build o' hrestored.toEnlarges)
  refine ⟨⟨h.extends_.trans hextends, ⟨hplaced.shaped h.shaped.builder,
    hextends.constants h.shaped.constants⟩, h.origin, ⟨c, hat', hproceeds.trans hproceeds'⟩,
    fun k hk => ⟨(h.made k hk).1, ?_⟩⟩, ⟨hextends.toRemembers, hplaced.grows⟩,
    ⟨.of_build o' r, hrestored⟩⟩
  show k < (r.module.function f).blocks.size
  rw [hfunction]
  exact (h.made k hk).2

namespace Lower

variable {F : Output} {f : FunctionId} {ctx : LoweringContext}
  {lower lower' : NodeId → Lower (Option Value)}
  (hlower : ∀ f node, Follows F f (lower node) (lower' node)) {node : NodeId} {n c₀ : Nat}
  {o₀ : Output} {blocks : List Nat}

theorem nextLambdaName_adds : Adds f n nextLambdaName := by
  rintro b c o - hat - - hbelow _ _ _ ⟨⟩
  exact ⟨.refl b, ⟨⟨⟨rfl, fun _ _ => id, fun _ _ => id, fun _ _ => id, fun _ _ => id, id⟩, id⟩,
    .refl hat⟩, hbelow, trivial⟩

/-! ## Lambdas -/

/-- Declaring the function of a lambda. -/
theorem declare_ok {name : String} {type : FnType} {b b' : Body} {o o' : Output} {g : FunctionId}
    (h : (build (Build.declareFunction name type)).run b o = .ok (g, b') o')
    (ho : o.Shaped) : b' = b ∧ Output.Continues none o o' ∧
      o'.builder.position = o.builder.position ∧ g < o'.builder.module.functions.size := by
  obtain ⟨hcontinues, -, -, hposition, hlt⟩ := Build.declareFunction_continues o.builder name type
  cases h
  exact ⟨rfl, ⟨.of_build o hcontinues.grows.toEnlarges, hcontinues⟩, hposition, hlt ho.builder⟩

theorem lambdaParams_adds (ctx : LoweringContext) (params : List (NodeId × TypeId)) :
    Adds f n (params.zipIdx.forM fun ((param, t), index) => do
      match ctx.tree.node param with
      | .ident name => bindParam ctx (index + 1) name t
      | .typed name _ => bindParam ctx (index + 1) name t
      | _ => broken "lambda parameter is not a name") := by
  refine .forM ?_
  rintro ⟨⟨param, t⟩, index⟩ -
  dsimp only
  split
  · exact bindParam_adds ctx _ _ _
  · exact bindParam_adds ctx _ _ _
  · exact .broken _

theorem lambdaCaptures_adds (ctx : LoweringContext) (struct : Ty) (closure : Value)
    (captures : List (String × TypeId)) :
    Adds f n (captures.zipIdx.forM fun ((name, t), index) => do
      let type ← Emit.valueType ctx t
      let value ← build do
        let slot ← Build.structField struct closure (index + 1) (name ++ ".ptr")
        Build.load type slot name
      bindLocal ctx name value t) := by
  refine .forM ?_
  rintro ⟨⟨name, t⟩, index⟩ -
  refine (valueType_adds ctx _).andThen fun type => (Adds.build ?_).andThen
    fun value => bindLocal_adds ctx _ _ _
  exact (KeepsAdding.structField _ _ _ _).bind fun slot _ _ hslot => .load _ hslot _

include hlower

/-- The body of a lambda. -/
theorem lambdaBody_closes {g : FunctionId} (struct : Ty) (params : List (NodeId × TypeId))
    (captures : List (String × TypeId)) (body : NodeId) :
    Closes F g n (lambdaBody ctx lower struct params captures body)
      (lambdaBody ctx lower' struct params captures body) := by
  refine .get_bind fun b hb _ n' _ _ => ?_
  subst hb
  refine .after_adds (.build (.setParamName _ _)) fun _ _ _ _ => ?_
  refine .after_adds Adds.getOutput fun o _ _ _ => ?_
  refine .after_adds (lambdaParams_adds ctx params) fun _ _ _ _ => ?_
  refine .after_adds (lambdaCaptures_adds ctx struct _ captures) fun _ _ _ _ => ?_
  exact finish_closes ctx (hlower _ body)

/-- A function is declared and generated, and building comes back to where it was. -/
theorem lambdaFunction_follows {α : Type} [HasOperands α] (name : String) (type : FnType)
    (result : TypeId) (struct : Ty) (params : List (NodeId × TypeId))
    (captures : List (String × TypeId)) (body : NodeId) {next next' : FunctionId → Lower α}
    (hnext : ∀ g, FollowsFrom F f n c₀ o₀ blocks (next g) (next' g)) :
    FollowsFrom F f n c₀ o₀ blocks
      (do
        let function ← build (Build.declareFunction name type)
        let saved := (← getThe Output).builder.position
        let inner ← start ctx function (← get).walk none name result
        let _ ← (lambdaBody ctx lower struct params captures body).run inner
        build (Build.restore saved)
        next function)
      (do
        let function ← build (Build.declareFunction name type)
        let saved := (← getThe Output).builder.position
        let inner ← start ctx function (← get).walk none name result
        let _ ← (lambdaBody ctx lower' struct params captures body).run inner
        build (Build.restore saved)
        next' function) := by
  intro b o hb ho hn hbelow r b' o' hrun
  obtain ⟨g, _, o₁, hdeclare, hrest₁⟩ := bind_ok hrun
  obtain ⟨rfl, hcontinues₁, hposition, hlt⟩ := declare_ok hdeclare ho.shaped
  obtain ⟨_, _, _, houtput, hrest₂⟩ := bind_ok hrest₁
  have hrunOutput := houtput
  cases houtput
  obtain ⟨_, _, _, hself, hrest₃⟩ := bind_ok hrest₂
  have hrunSelf := hself
  cases hself
  obtain ⟨inner, _, o₂, hinner, hrest₄⟩ := bind_ok hrest₃
  obtain ⟨rfl, hstart⟩ := lift_ok hinner
  obtain ⟨completed, _, o₃, hcompleted, hrest₅⟩ := bind_ok hrest₄
  obtain ⟨rfl, hbody⟩ := lift_ok hcompleted
  obtain ⟨_, _, o₄, hrestore, hrest₆⟩ := bind_ok hrest₅
  have hrunRestore := hrestore
  cases hrestore
  -- the function is opened and completed, and building comes back
  have hopened := start_opened ctx hlt (hcontinues₁.shaped ho.shaped) hstart
  obtain ⟨hcontinues₃, hbody'⟩ := lambdaBody_closes hlower struct params captures body inner 0 o₂
    hopened.function hopened.exit hopened.at_
    (hopened.continues.shaped (hcontinues₁.shaped ho.shaped))
    (by rw [hopened.size]; exact Nat.lt_succ_self 1) (Nat.le_refl _) (hopened.below _) _ _ _ hbody
  have hcontinues : Output.Continues none o o₃ :=
    hcontinues₁.trans ((hopened.continues.trans hcontinues₃).close hopened.fresh)
  obtain ⟨hsince, hgrows, hrestored⟩ := ho.restored hcontinues
  rw [← hposition] at hsince hgrows hrestored
  have hle := hgrows.next_le f
  obtain ⟨hr, hrest'⟩ := hnext g _ _ hb hsince (Nat.le_trans hn hle) (hbelow.mono hle) r b' o' hrest₆
  refine ⟨{ hr with grows := hgrows.trans hr.grows }, fun hF => ?_⟩
  have hcompleted' := hbody' (hrestored.trans (hr.grows.trans hF))
  refine run_bind_ok hdeclare (run_bind_ok hrunOutput ?_)
  refine run_bind_ok hrunSelf (run_bind_ok hinner ?_)
  exact run_bind_ok (run_lift_ok hcompleted' _) (run_bind_ok hrunRestore (hrest' hF))

theorem lowerLambda_follows (params : List NodeId) (captures : List String) (body : NodeId) :
    Follows F f (lowerLambda ctx lower node params captures body)
      (lowerLambda ctx lower' node params captures body) := by
  intro n c₀ o₀ blocks
  refine .adds_andThen (typeOf_adds ctx _) fun t => ?_
  split
  · refine .adds_andThen (layout_adds ctx _) fun struct => ?_
    refine .adds_andThen (closureFnType_adds ctx _ _) fun type => ?_
    refine .adds_andThen nextLambdaName_adds fun name => ?_
    refine lambdaFunction_follows hlower _ _ _ _ _ _ _ fun g => .of_adds ?_
    refine (allocate_adds _ _ _).bind fun object n' _ hobject => ?_
    refine (Adds.build ((KeepsAdding.structField _ _ _ _).andThen fun _ => .store _ _)).andThen
      fun _ => ?_
    refine Adds.bind (.forM ?_) fun _ _ hle _ => .pure (hobject.mono hle)
    rintro ⟨name, index⟩ -
    refine (loadLocal_adds name).andThen fun value => .build ?_
    exact (KeepsAdding.structField _ _ _ _).andThen fun _ => .store _ _
  · exact .of_adds (.broken _)

/-! ## Control flow -/

theorem lowerSeq_follows (statements : List NodeId) :
    Follows F f (lowerSeq lower statements) (lowerSeq lower' statements) := by
  intro n c₀ o₀ blocks
  refine .foldlM (fun last statement n' _ hlast => ?_) below_none
  refine .adds_bind terminated_adds fun ended n'' hle _ => ?_
  exact .ite (.pure (hlast.mono hle)) (hlower f statement n'' c₀ o₀ blocks)

theorem condition_follows (cond : NodeId) :
    Follows F f (condition ctx lower cond) (condition ctx lower' cond) := by
  intro n c₀ o₀ blocks
  refine .adds_andThen (typeOf_adds ctx _) fun t => ?_
  refine (lowerValue_follows hlower cond n c₀ o₀ blocks).bind fun value n' _ hvalue => .of_adds ?_
  exact .ite (.build (.compareOf _ _ _ _ _)) (.pure hvalue)

omit hlower in
/-- The place where branches meet is one of the blocks that were made. -/
theorem joinAt_follows {merge : Option BlockRef}
    (hmerge : ∀ target, merge = some target → ∃ k ∈ blocks, target = ⟨f, k⟩)
    {α : Type} [HasOperands α] {next next' : Option BlockRef → Lower α}
    (hnext : ∀ merge blocks', blocks ⊆ blocks' →
      (∀ target, merge = some target → ∃ k ∈ blocks', target = ⟨f, k⟩) →
      FollowsFrom F f n c₀ o₀ blocks' (next merge) (next' merge)) :
    FollowsFrom F f n c₀ o₀ blocks (joinAt merge >>= next) (joinAt merge >>= next') := by
  unfold joinAt
  rw [bind_assoc, bind_assoc]
  refine .adds_andThen terminated_adds fun ended => ?_
  cases ended with
  | true => exact hnext merge blocks (List.Subset.refl _) hmerge
  | false =>
      cases merge with
      | some target =>
          simp only [Bool.false_eq_true, if_false, bind_assoc, pure_bind]
          refine .adds_andThen (.build (.jump target)) fun _ => ?_
          exact hnext (some target) blocks (List.Subset.refl _) hmerge
      | none =>
          simp only [Bool.false_eq_true, if_false, bind_assoc, pure_bind]
          refine .block_bind fun k => .adds_andThen (.build (.jump _)) fun _ => ?_
          refine hnext (some ⟨f, k⟩) (k :: blocks) (List.subset_cons_self _ _) ?_
          rintro _ ⟨⟩
          exact ⟨k, List.mem_cons_self, rfl⟩

omit hlower in
/-- Ending the current block with a branch, and going on in a block that was made on the way. -/
theorem branch_follows (cond : Value) (yes no : BlockRef) {k : Nat} (hk : k ∈ blocks) :
    FollowsFrom F f n c₀ o₀ blocks
      (build do
        Build.branch cond yes no
        Build.positionAtEnd ⟨f, k⟩)
      (build do
        Build.branch cond yes no
        Build.positionAtEnd ⟨f, k⟩) :=
  (FollowsFrom.of_adds (.build (.branch cond yes no))).andThen fun _ => .positionAtEnd hk

omit hlower in
/-- Going on in a block that was made on the way and is moved to the end. -/
theorem moveTo_follows {k : Nat} (hk : k ∈ blocks) : FollowsFrom F f n c₀ o₀ blocks
    (build do
      Build.moveBlockToEnd ⟨f, k⟩
      Build.positionAtEnd ⟨f, k⟩)
    (build do
      Build.moveBlockToEnd ⟨f, k⟩
      Build.positionAtEnd ⟨f, k⟩) :=
  (FollowsFrom.moveBlockToEnd hk).andThen fun _ => .positionAtEnd hk

omit hlower in
/-- Branches meet in a block that was made for it, if there is one. -/
theorem meet_follows {merge : Option BlockRef} :
    (∀ target, merge = some target → ∃ k ∈ blocks, target = ⟨f, k⟩) →
    FollowsFrom F f n c₀ o₀ blocks
      (match merge with
        | some merge => build do
            Build.moveBlockToEnd merge
            Build.positionAtEnd merge
        | none => pure ())
      (match merge with
        | some merge => build do
            Build.moveBlockToEnd merge
            Build.positionAtEnd merge
        | none => pure ()) := by
  intro hmerge
  cases merge with
  | none => exact .done
  | some target =>
      obtain ⟨k, hk, rfl⟩ := hmerge target rfl
      exact moveTo_follows hk

theorem lowerBranch_follows (cond yes : NodeId) (no : Option NodeId) :
    Follows F f (lowerBranch ctx lower cond yes no) (lowerBranch ctx lower' cond yes no) := by
  intro n c₀ o₀ blocks
  refine (condition_follows hlower cond n c₀ o₀ blocks).andThen fun cond => ?_
  refine .block_bind fun yesBlock => ?_
  cases no with
  | none =>
      simp only [pure_bind]
      refine .block_bind fun mergeBlock => ?_
      refine (branch_follows _ _ _ (by simp)).andThen fun _ => ?_
      refine (hlower f yes _ _ _ _).andThen fun _ => ?_
      refine joinAt_follows ?_ fun merge blocks' _ hmerge => meet_follows hmerge
      rintro _ ⟨⟩
      exact ⟨mergeBlock, List.mem_cons_self, rfl⟩
  | some no =>
      simp only [pure_bind]
      refine .block_bind fun noBlock => ?_
      refine (branch_follows _ _ _ (by simp)).andThen fun _ => ?_
      refine (hlower f yes _ _ _ _).andThen fun _ => ?_
      refine joinAt_follows (by simp) fun merge blocks' hsub hmerge => ?_
      refine (FollowsFrom.positionAtEnd (hsub List.mem_cons_self)).andThen fun _ => ?_
      refine (hlower f no _ _ _ _).andThen fun _ => ?_
      exact joinAt_follows hmerge fun merge blocks'' _ hmerge' => meet_follows hmerge'

theorem lowerLoop_follows (cond body : NodeId) :
    Follows F f (lowerLoop ctx lower cond body) (lowerLoop ctx lower' cond body) := by
  intro n c₀ o₀ blocks
  refine .block_bind fun condBlock => .block_bind fun bodyBlock => .block_bind fun endBlock => ?_
  have hstart : FollowsFrom F f n c₀ o₀ (endBlock :: bodyBlock :: condBlock :: blocks)
      (build do
        Build.jump ⟨f, condBlock⟩
        Build.positionAtEnd ⟨f, condBlock⟩)
      (build do
        Build.jump ⟨f, condBlock⟩
        Build.positionAtEnd ⟨f, condBlock⟩) :=
    (FollowsFrom.jump _).andThen fun _ => .positionAtEnd (by simp)
  refine hstart.andThen fun _ => ?_
  refine (condition_follows hlower cond _ _ _ _).andThen fun cond => ?_
  refine (branch_follows _ _ _ (by simp)).andThen fun _ => ?_
  refine (hlower f body _ _ _ _).andThen fun _ => ?_
  refine .adds_andThen terminated_adds fun ended => ?_
  have hlast : FollowsFrom F f n c₀ o₀ (endBlock :: bodyBlock :: condBlock :: blocks) _ _ :=
    moveTo_follows (k := endBlock) (by simp)
  exact .ite ((FollowsFrom.jump _).andThen fun _ => hlast) hlast

theorem lowerArm_follows {value : Value} (hvalue : Below n value) (tag : Option Value)
    (endBlock : BlockRef) (arm : NodeId) : FollowsFrom F f n c₀ o₀ blocks
      (lowerArm ctx lower value tag endBlock arm) (lowerArm ctx lower' value tag endBlock arm) := by
  unfold lowerArm
  cases ctx.tree.node arm with
  | arm pattern body =>
      dsimp only
      cases ctx.tree.node pattern with
      | pattern type binder fields =>
          dsimp only
          refine .adds_andThen (typeOf_adds ctx _) fun t => ?_
          have hrest : ∀ found : Value, FollowsFrom F f n c₀ o₀ blocks
              (do
                let armBlock ← block "when"
                let nextBlock ← block "when.next"
                build do
                  Build.branch found armBlock nextBlock
                  Build.positionAtEnd armBlock
                let outer := (← get).scope
                bindPattern ctx value t tag.isNone binder fields
                let _ ← lower body
                modify fun b => { b with scope := outer }
                if !(← terminated) then build (Build.jump endBlock)
                build (Build.positionAtEnd nextBlock))
              (do
                let armBlock ← block "when"
                let nextBlock ← block "when.next"
                build do
                  Build.branch found armBlock nextBlock
                  Build.positionAtEnd armBlock
                let outer := (← get).scope
                bindPattern ctx value t tag.isNone binder fields
                let _ ← lower' body
                modify fun b => { b with scope := outer }
                if !(← terminated) then build (Build.jump endBlock)
                build (Build.positionAtEnd nextBlock)) := by
            intro found
            refine .block_bind fun armBlock => .block_bind fun nextBlock => ?_
            refine (branch_follows _ _ _ (by simp)).andThen fun _ => ?_
            refine .get_bind fun b _ n₁ hle hb => ?_
            refine .adds_bind (bindPattern_adds ctx (hvalue.mono hle) t _ binder fields)
              fun _ n₂ hle' _ => ?_
            refine (hlower f body n₂ _ _ _).bind fun _ n₃ hle'' _ => ?_
            refine .adds_andThen (.update (fun _ => ⟨rfl, rfl⟩) fun _ _ hle hb' =>
              ⟨hb.1.mono (by omega), hb'.2⟩) fun _ => ?_
            refine .adds_andThen terminated_adds fun ended => ?_
            have hlast : FollowsFrom F f n₃ c₀ o₀ (nextBlock :: armBlock :: blocks)
                (build (Build.positionAtEnd ⟨f, nextBlock⟩))
                (build (Build.positionAtEnd ⟨f, nextBlock⟩)) := .positionAtEnd (by simp)
            exact .ite ((FollowsFrom.jump _).andThen fun _ => hlast) hlast
          cases tag with
          | some tag => exact .adds_andThen (tagMatches_adds ctx _ _) hrest
          | none => exact .adds_andThen (dynamicHolds_adds ctx _ _) hrest
      | _ => exact .of_adds (.broken _)
  | _ => exact .of_adds (.broken _)

theorem lowerSelect_follows (cond : NodeId) (arms : List NodeId) :
    Follows F f (lowerSelect ctx lower cond arms) (lowerSelect ctx lower' cond arms) := by
  intro n c₀ o₀ blocks
  refine .adds_andThen (typeOf_adds ctx _) fun t => ?_
  refine (lowerValue_follows hlower cond n c₀ o₀ blocks).bind fun value n' _ hvalue => ?_
  have hrest : ∀ tag : Option Value, FollowsFrom F f n' c₀ o₀ blocks
      (do
        let endBlock ← block "case.end"
        arms.forM (lowerArm ctx lower value tag endBlock)
        build do
          Build.jump endBlock
          Build.moveBlockToEnd endBlock
          Build.positionAtEnd endBlock)
      (do
        let endBlock ← block "case.end"
        arms.forM (lowerArm ctx lower' value tag endBlock)
        build do
          Build.jump endBlock
          Build.moveBlockToEnd endBlock
          Build.positionAtEnd endBlock) := by
    intro tag
    refine .block_bind fun endBlock => ?_
    refine (FollowsFrom.forM fun arm => lowerArm_follows hlower hvalue tag _ arm).andThen fun _ => ?_
    exact (FollowsFrom.jump _).andThen fun _ => moveTo_follows (by simp)
  dsimp only
  split
  · exact hrest none
  · refine .adds_andThen (layout_adds ctx _) fun envelope => ?_
    refine .adds_andThen (.build ((KeepsAdding.structField _ _ _ _).bind
      fun slot _ _ hslot => (KeepsAdding.load _ hslot _).bind fun tag _ _ htag =>
        .pure (below_some htag))) hrest

theorem lowerReturn_follows (value : Option NodeId) :
    Follows F f (lowerReturn ctx lower value) (lowerReturn ctx lower' value) := by
  intro n c₀ o₀ blocks
  cases value with
  | none => exact .of_adds returnVoid_adds
  | some value =>
      have hrest : FollowsFrom F f n c₀ o₀ blocks
          (do
            let t ← typeOf ctx value
            let v ← lowerValue lower value
            if !(← terminated) then returnValue ctx v t)
          (do
            let t ← typeOf ctx value
            let v ← lowerValue lower' value
            if !(← terminated) then returnValue ctx v t) := by
        refine .adds_andThen (typeOf_adds ctx _) fun t => ?_
        refine (lowerValue_follows hlower value n c₀ o₀ blocks).bind fun v n' _ hv => .of_adds ?_
        refine terminated_adds.bind fun ended n'' hle _ => ?_
        exact .ite (returnValue_adds ctx (hv.mono hle) t) .done
      refine .adds_andThen (.get_andThen fun _ _ => .pure trivial) fun void => ?_
      exact .ite (.adds_andThen (.broken _) fun (_ : PUnit) => hrest) hrest

theorem lowerNode_follows (htags : ctx.Tags) (node : NodeId) :
    Follows F f (lowerNode ctx lower node) (lowerNode ctx lower' node) := by
  intro n c₀ o₀ blocks
  have hsome : ∀ {step step' : Lower Value}, FollowsFrom F f n c₀ o₀ blocks step step' →
      FollowsFrom F f n c₀ o₀ blocks (do return some (← step)) (do return some (← step')) :=
    fun h => h.bind fun _ _ _ hvalue => .pure (below_some hvalue)
  have hnone : ∀ {step step' : Lower PUnit}, FollowsFrom F f n c₀ o₀ blocks step step' →
      FollowsFrom F f n c₀ o₀ blocks (do step; return (none : Option Value))
        (do step'; return (none : Option Value)) :=
    fun h => h.andThen fun _ => .pure below_none
  unfold lowerNode
  cases ctx.tree.node node with
  | seq statements => exact lowerSeq_follows hlower statements n c₀ o₀ blocks
  | number i => exact .of_adds (.ite (.pure (below_some trivial)) (.mismatch _))
  | bool b => exact .pure (below_some trivial)
  | text s => exact hsome (.of_adds (stringLiteral_adds ctx s))
  | ident name => exact hsome (.of_adds (lowerIdent_adds ctx htags node name))
  | ivar name => exact hsome (.of_adds (lowerIvar_adds ctx name))
  | selfRef => exact hsome (.of_adds receiver_adds)
  | var name _ value => exact hsome (lowerVar_follows hlower name value n c₀ o₀ blocks)
  | assign target value => exact hsome (lowerAssign_follows hlower target value n c₀ o₀ blocks)
  | call receiver method args => exact lowerCall_follows hlower receiver method args n c₀ o₀ blocks
  | namedArg _ value => exact hlower f value n c₀ o₀ blocks
  | templatedInstance _ _ args =>
      exact hsome (lowerConstruction_follows hlower args false n c₀ o₀ blocks)
  | binary op lhs rhs => exact hsome (lowerBinary_follows hlower op lhs rhs n c₀ o₀ blocks)
  | unary op operand => exact hsome (lowerUnary_follows hlower op operand n c₀ o₀ blocks)
  | branch cond yes no => exact hnone (lowerBranch_follows hlower cond yes no n c₀ o₀ blocks)
  | loop cond body => exact hnone (lowerLoop_follows hlower cond body n c₀ o₀ blocks)
  | select cond arms => exact hnone (lowerSelect_follows hlower cond arms n c₀ o₀ blocks)
  | ret value => exact hnone (lowerReturn_follows hlower value n c₀ o₀ blocks)
  | lambda params captures body =>
      exact hsome (lowerLambda_follows hlower params captures body n c₀ o₀ blocks)
  | arm _ _ | pattern _ _ _ => exact .of_adds (.broken _)
  | typed _ _ | varargs | namedType _ | pointerType _
  | templatedType _ _ | closureType _ _ => exact .pure below_none
  | _ => exact .of_adds (.mismatch _)

omit hlower in
/-- Whatever nodes are generated to stays in place. -/
theorem lowerWithin_follows {ctx : LoweringContext} (htags : ctx.Tags) (fuel : Nat) (f : FunctionId)
    (node : NodeId) : Follows F f (lowerWithin ctx fuel node) (lowerWithin ctx fuel node) := by
  induction fuel generalizing f node with
  | zero =>
      rintro n c₀ o₀ blocks b o - - - - r b' o' ⟨⟩
  | succ fuel ih => exact lowerNode_follows ih htags node

end Lower

end ClassLang
