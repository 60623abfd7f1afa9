import ClassLang.Proofs.Syntax.Returns
import ClassLang.Proofs.Typing.ConfinedViews
import ClassLang.Proofs.Typing.WalkedDeclarations

/-!
# Bodies keep the rules of a walk

Whatever `WalkRules` there are, every construct of a body keeps them if its parts do, and so typing a
node keeps them. A variable is bound in the frame that its `var` statement stands in: the bodies of
methods, closures, arms and types have frames of their own, and all other parts of a node are typed
in the frame of the node. Under strict rules this is said of code alone: declarations need what was
found out before.
-/

namespace ClassLang

/-- What is typed as code is a child. -/
theorem Node.mem_children_of_codeParts {d : Node} {part : NodeId} (h : part ∈ d.codeParts) :
    part ∈ d.children := by
  cases d <;> simp_all [codeParts, children]

namespace SyntaxTree

/-- The parts of a node that are typed in the same frame as the node. -/
def frameParts (tree : SyntaxTree) (id : NodeId) : List NodeId :=
  match tree.node id with
  | .select cond _ => [cond]
  | _ => tree.inlineParts id

/-- A `var` statement for the name stands in the frame of the node. -/
inductive DeclaresVar (tree : SyntaxTree) (name : String) : NodeId → Prop
  | here {id value : NodeId} {declared : Option NodeId}
      (h : tree.node id = .var name declared value) : DeclaresVar tree name id
  | part {id part : NodeId} (hpart : part ∈ tree.frameParts id)
      (h : DeclaresVar tree name part) : DeclaresVar tree name id

/-- What is typed in the frame of a node is one of its code parts. -/
theorem mem_codeParts_of_frameParts {tree : SyntaxTree} {id part : NodeId}
    (h : part ∈ tree.frameParts id) : part ∈ (tree.node id).codeParts := by
  unfold frameParts inlineParts at h
  cases hnode : tree.node id <;> simp_all [Node.codeParts]

end SyntaxTree

namespace Typing.WalkRules

variable {σ : Type} {ctx : TypingContext σ} {rules : WalkRules ctx} {l : Licence}
  {names : String → Prop} {infer : NodeId → Typing σ TypeId}

theorem resolveStrict_faultless {p : Pool} {t : TypeId} : Faultless (p.resolveStrict t) :=
  fun text h => Pool.resolveStrict_error h text rfl

theorem operatorResult_faultless {p : Pool} {lhs rhs : TypeId} {op : BinaryOp} :
    Faultless (p.operatorResult lhs op rhs) :=
  fun text h => Pool.operatorResult_error h text rfl

/-! ## Calls -/

theorem unifyClosureParams_keeps (given wanted : TypeId) :
    rules.Keeps l (unifyClosureParams given wanted) := by
  refine .get fun s => ?_
  dsimp only
  split
  · split
    · refine .forM ?_
      rintro ⟨var, target⟩ - t ht
      refine .bind_read ht (b := t) rfl ?_
      dsimp only
      split
      · next hvar =>
          exact Keeps.updatePool ht (fun _ h => .unify h)
            (fun _ h r => .inl (Pool.KeepsLayouts.unify h r)) fun _ => Pool.unify_faultless hvar
      · exact .pure ht True.intro
    · exact .pure _
  · exact .pure _

section Calls

variable {args : List NodeId}

theorem checkArguments_keeps (hargs : ∀ arg ∈ args, rules.Keeps l (infer arg)) (sig : Signature) :
    rules.Keeps l (checkArguments ctx infer sig args) := by
  refine .bind (.mapM fun arg harg => (hargs arg harg).bind fun _ => .pure _) fun typed => ?_
  refine (Keeps.ofExcept fun _ => orderArguments_faultless _ _).bind fun ordered =>
    .bind (.forM ?_) fun _ => .forM fun extra _ => ?_
  · rintro ⟨⟨given, param⟩, i⟩ -
    refine (unifyClosureParams_keeps _ _).bind fun _ => .get fun u => ?_
    dsimp only
    split
    · exact .mismatch _
    · exact .pure _
  · refine .get fun u => (Keeps.ofExcept fun _ => resolveStrict_faultless).bind fun r => ?_
    split
    · exact .mismatch _
    · exact .pure _

/-- A call whose arguments are checked before its meaning is recorded. If it is to build a case, that
was found before. -/
theorem checkedCall_at (hargs : ∀ arg ∈ args, rules.Keeps l (infer arg)) {t u : TypingState σ}
    (ht : rules.inv l t) (htu : rules.le l t u) (hu : rules.inv l u) {node : NodeId}
    {sig : Signature} {target : Target} {r : TypeId}
    (h : rules.follows → ∀ r, target.built? = some r → Constructed ctx t u node r) :
    (rules.discipline l).KeepsAt u (do
      checkArguments ctx infer sig args
      setTarget node target
      pure r) fun _ _ => True :=
  .bind (checkArguments_keeps hargs sig u hu) fun _ _ hv hle _ =>
    .bind (Keeps.buildTarget ht htu hu hle hv h) fun _ _ hw _ _ => .pure hw True.intro

/-- A call that builds no case. -/
theorem checkedCall_keeps (hargs : ∀ arg ∈ args, rules.Keeps l (infer arg)) {node : NodeId}
    {sig : Signature} {target : Target} {r : TypeId} (h : target.built? = none) :
    rules.Keeps l (do
      checkArguments ctx infer sig args
      setTarget node target
      pure r) :=
  fun s hs => checkedCall_at hargs hs (rules.refl l s) hs fun _ r hr => by simp [h] at hr

theorem inferConstruction_at (hargs : ∀ arg ∈ args, rules.Keeps l (infer arg)) {node : NodeId}
    {r : TypeId} {t u : TypingState σ} (ht : rules.inv l t) (htu : rules.le l t u)
    (hu : rules.inv l u) (h : rules.follows → Constructed ctx t u node r) :
    (rules.discipline l).KeepsAt u (inferConstruction ctx infer node r args) fun _ _ => True := by
  refine .bind_read hu (b := u) rfl ?_
  dsimp only
  split
  · next methods _ =>
      cases methods.find? (·.name == "initialize") with
      | some init => exact checkedCall_keeps hargs rfl u hu
      | none =>
          dsimp only
          split
          · refine .bind ((Keeps.forM fun arg harg =>
              (hargs arg harg).bind fun _ => .pure _) u hu) fun _ v hv _ _ => ?_
            exact Keeps.stop (by simp) v hv
          · exact .bind (Keeps.setTarget _ rfl u hu) fun _ v hv _ _ => .pure hv True.intro
  · exact checkedCall_at hargs ht htu hu fun hfollows _ hr => Option.some.inj hr ▸ h hfollows
  · exact mismatch_at

/-- A module that is found was named, and it has exports. -/
theorem importedModule_keeps (receiver : NodeId) {s : TypingState σ} (hs : rules.inv l s) :
    (rules.discipline l).KeepsAt s (inferReceiverCall.importedModule ctx receiver) fun found t =>
      t = s ∧ (found.isSome → (ctx.tree.node receiver).takesAnyType = true) ∧
        (rules.strict → ∀ m ∈ found, (ctx.importer.exports? s.imports m.2).isSome) := by
  unfold inferReceiverCall.importedModule
  split
  · next hnode =>
    refine .bind_read hs (b := s) rfl ?_
    split
    · next hfound =>
        refine .pure hs ⟨rfl, fun _ => by rw [hnode]; rfl, fun h m hm => ?_⟩
        cases Option.some.inj hm
        exact (rules.guarantees h).module hs hfound
    · exact .pure hs ⟨rfl, by simp, by simp⟩
  · exact .pure hs ⟨rfl, by simp, by simp⟩

/-- A call of a method. -/
theorem methodCall_keeps {receiver : NodeId} (hreceiver : rules.Keeps l (infer receiver))
    (hargs : ∀ arg ∈ args, rules.Keeps l (infer arg)) (node : NodeId) (method : String) :
    rules.Keeps l (do
      let given ← infer receiver
      let r ← ofExcept ((← get).pool.resolveStrict given)
      let pool := (← get).pool
      match pool.findSignature? r method with
      | none => mismatch s!"'{pool.display r}' has no method '{method}'"
      | some sig =>
        checkArguments ctx infer sig args
        match ← ofExcept ((← get).pool.findOperation r method) with
        | .element index _ => setTarget node (.element index)
        | _ => setTarget node (.method sig)
        pure sig.result) := by
  refine hreceiver.bind fun given => .get fun s =>
    (Keeps.ofExcept fun _ => resolveStrict_faultless).bind fun r => .get fun t => ?_
  dsimp only
  split
  · exact .mismatch _
  · refine (checkArguments_keeps hargs _).bind fun _ => .get fun u => ?_
    refine (Keeps.ofExcept fun _ => Pool.findOperation_faultless _ _ _).bind fun operation => ?_
    split
    · exact (Keeps.setTarget _ rfl).bind fun _ => .pure _
    · exact (Keeps.setTarget _ rfl).bind fun _ => .pure _

theorem inferReceiverCall_keeps {receiver : NodeId} (hreceiver : rules.Keeps l (infer receiver))
    (hargs : ∀ arg ∈ args, rules.Keeps l (infer arg)) {node : NodeId} {method : String}
    (hnode : ctx.tree.node node = .call (some receiver) method args) :
    rules.Keeps l (inferReceiverCall ctx infer node receiver method args) := by
  unfold inferReceiverCall
  refine fun s hs => .bind (importedModule_keeps receiver hs) ?_
  rintro found s hs - ⟨rfl, hnamed, hfound⟩
  split
  · obtain ⟨hinv, hle, -⟩ := (Keeps.record (l := l) receiver .void (hnamed rfl) s hs).ok rfl
    refine .bind (P := fun _ t => t.imports = s.imports) (.of_ok rfl hinv hle rfl)
      fun _ t ht _ himports => .bind_read ht (b := t) rfl ?_
    split
    · next hnone =>
        refine fails_at fun h => ?_
        have hsome := hfound h _ rfl
        rw [himports] at hnone
        simp [hnone] at hsome
    · next hexports =>
        split
        · exact checkedCall_keeps hargs rfl t ht
        · next htype =>
            exact inferConstruction_at hargs ht (rules.refl l t) ht fun _ =>
              .imported hnode hexports htype
        · exact mismatch_at
  · exact methodCall_keeps hreceiver hargs node method s hs

theorem inferBuiltin_keeps (hargs : ∀ arg ∈ args, rules.Keeps l (infer arg)) (node : NodeId)
    (builtin : Builtin) : rules.Keeps l (inferBuiltin infer node builtin args) := by
  unfold inferBuiltin
  split
  · next object =>
      refine (hargs object (by simp)).bind fun r => .get fun s => ?_
      dsimp only
      split
      · exact .stop (by simp)
      · exact (Keeps.setTarget _ rfl).bind fun _ => .pure _
  · exact .stop (by simp)

theorem inferBareCall_keeps (hargs : ∀ arg ∈ args, rules.Keeps l (infer arg)) {node : NodeId}
    {method : String} (hnode : ctx.tree.node node = .call none method args) :
    rules.Keeps l (inferBareCall ctx infer node method args) := by
  intro s hs
  refine .bind_read hs (b := s) rfl ?_
  dsimp only
  split
  · split
    · exact checkedCall_keeps hargs rfl s hs
    · exact mismatch_at
  · split
    · exact checkedCall_keeps hargs rfl s hs
    · exact checkedCall_keeps hargs rfl s hs
    · split
      · next hlookup =>
          exact inferConstruction_at hargs hs (rules.refl l s) hs fun _ =>
            .named (.inr ⟨args, hnode⟩) hlookup
      · exact mismatch_at
      · exact mismatch_at
      · exact mismatch_at
      · split
        · exact inferBuiltin_keeps hargs _ _ s hs
        · exact mismatch_at

/-- The construction of a generic type, which may be the first to expand it. -/
theorem inferTemplatedInstance_keeps {typeArgs : List NodeId}
    (htypes : ∀ type ∈ typeArgs, rules.Denotes (.body names) (typeExpr ctx type))
    (hargs : ∀ arg ∈ args, rules.Keeps (.body names) (infer arg)) {node : NodeId} {name : String}
    (hnode : ctx.tree.node node = .templatedInstance name typeArgs args) :
    rules.Keeps (.body names) (inferTemplatedInstance ctx infer node name typeArgs args) := by
  intro s hs
  refine .bind (mapM_denotes htypes hs) fun types t ht _ htypes => ?_
  refine .bind_read ht (b := t) rfl ?_
  dsimp only
  split
  · next id hid =>
      refine .bind (expand_keeps typeExpr_keeps ht (rules.known_template ht hid) htypes) ?_
      exact fun r u hu hle ⟨_, hexpansion⟩ => inferConstruction_at hargs ht hle hu fun hfollows =>
        .expanded (hexpansion hfollows)
  · split
    · next id index hcase =>
        refine .bind (expand_keeps typeExpr_keeps ht (rules.known_case ht hcase) htypes) ?_
        intro owner u hu hle ⟨_, hexpansion⟩
        refine .bind_read hu (b := u) rfl ?_
        split
        · next hvariant =>
            exact inferConstruction_at hargs ht hle hu fun hfollows =>
              .generic hnode hcase (hexpansion hfollows) hvariant
        · next hnone =>
            refine fails_at fun h => ?_
            have hsome := (rules.guarantees h).variant ht hcase hle hu
              (hexpansion (rules.follows_of_strict h))
            simp [hnone] at hsome
    · exact mismatch_at

end Calls

/-! ## Expressions and statements -/

theorem inferIdent_keeps {node : NodeId} {name : String}
    (hnode : ctx.tree.node node = .ident name) : rules.Keeps l (inferIdent node name) := by
  intro s hs
  refine .bind_read hs (b := s) rfl ?_
  split
  · exact .bind (Keeps.setTarget _ rfl s hs) fun _ t ht _ _ => .pure ht True.intro
  · next hlookup =>
      split
      · refine .bind (Keeps.buildTarget hs (rules.refl l s) hs (rules.refl l s) hs fun _ r hr => ?_)
          fun _ t ht _ _ => .pure ht True.intro
        exact .named (.inl hnode) (Option.some.inj hr ▸ hlookup)
      · exact mismatch_at
      · exact mismatch_at
  · exact mismatch_at
  · exact mismatch_at
  · exact fails_at fun _ => Halt.not_isInternal_of_kind (by simp)

/-- The type of an instance variable is what its name is bound to. -/
theorem ivarInScope_at (name : String) {s : TypingState σ} (hs : rules.inv l s) :
    (rules.discipline l).KeepsAt s (ivarInScope name) fun r t =>
      t = s ∧ s.scopes.lookupIvar name = some r := by
  refine .bind_read hs (b := s) rfl ?_
  split
  · next hr => exact .pure hs ⟨rfl, hr⟩
  · exact fails_at fun _ => Halt.not_isInternal_of_kind (by simp)

/-- In a body, what the name of an instance variable is bound to is recorded for it. -/
theorem recordIvar_at {node : NodeId} {name : String} (hinside : rules.inside node)
    (hnode : ctx.tree.node node = .ivar name) {s : TypingState σ} (hs : rules.inv (.body names) s)
    {r : TypeId} (hr : s.scopes.lookupIvar name = some r) :
    (rules.discipline (.body names)).KeepsAt s (record node r) fun _ _ => True :=
  Keeps.record_at hs
    { ivar := fun other hother => by
        rw [hnode] at hother
        cases hother
        exact ⟨hinside, ⟨names, rfl⟩, hr⟩
      plain := fun hplain => by simp [hnode, Node.declaresType] at hplain }

/-- A `var` statement is the only one that binds a name in the frame it stands in. -/
theorem inferVar_keeps {name : String} {value : NodeId} (hname : names name)
    (hvalue : rules.Keeps (.body names) (infer value)) {declared : Option NodeId}
    (hdeclared : ∀ type ∈ declared, rules.Denotes (.body names) (typeExpr ctx type)) :
    rules.Keeps (.body names) (inferVar ctx infer name declared value) := by
  have hbind (r : TypeId) : rules.Keeps (.body names) (do
      modifyScopes (·.bind name (.value r))
      pure r) := by
    refine .bind (fun s hs => ?_) fun _ => .pure _
    obtain ⟨hinv, hle⟩ := @rules.value names s name r hs hname
    exact .of_ok rfl hinv hle True.intro
  refine hvalue.bind fun given => .get fun s => ?_
  dsimp only
  split
  · exact .stop (by simp)
  · cases declared with
    | none => exact hbind given
    | some declared =>
        refine (hdeclared declared rfl).keeps.bind fun wanted => .get fun t => ?_
        split
        · exact .stop (by simp)
        · exact hbind wanted

theorem inferAssign_keeps {value : NodeId} (hvalue : rules.Keeps (.body names) (infer value))
    {target : NodeId} (hinside : rules.inside target) :
    rules.Keeps (.body names) (inferAssign ctx infer target value) := by
  refine hvalue.bind fun given => ?_
  dsimp only
  split
  · next hnode =>
      intro s hs
      refine .bind (ivarInScope_at _ hs) ?_
      rintro r s hs - ⟨rfl, hr⟩
      refine .bind_read hs (b := s) rfl ?_
      split
      · exact mismatch_at
      · exact .bind (recordIvar_at hinside hnode hs hr) fun _ t ht _ _ => .pure ht True.intro
  · next hnode =>
      refine .get fun s => ?_
      split
      · exact .stop (by simp)
      · refine .get fun t => ?_
        split
        · exact .stop (by simp)
        · exact (Keeps.setTarget _ rfl).bind fun _ =>
            (Keeps.record _ _ (by rw [hnode]; rfl)).bind fun _ => .pure _
  · exact .stop (by simp)

theorem inferBinary_keeps {lhs rhs : NodeId} (hlhs : rules.Keeps l (infer lhs))
    (hrhs : rules.Keeps l (infer rhs)) (op : BinaryOp) :
    rules.Keeps l (inferBinary infer op lhs rhs) := by
  refine hlhs.bind fun left => hrhs.bind fun right => .get fun s => ?_
  dsimp only
  split
  · exact .makeType (fun p => .derive p _ _ _) fun p => .derive p _ _ _
  · split
    · exact .makeType (fun p => .derive p _ _ _) fun p => .derive p _ _ _
    · exact .ofExcept fun _ => operatorResult_faultless

theorem inferUnary_keeps {operand : NodeId} (hoperand : rules.Keeps l (infer operand))
    (op : UnaryOp) : rules.Keeps l (inferUnary infer op operand) := by
  refine hoperand.bind fun r => .get fun s => ?_
  cases op with
  | stack =>
      refine (Keeps.visit _).bind fun v => ?_
      split
      · exact .pure _
      · exact .pure _
      · exact .mismatch _
  | not =>
      dsimp only
      split
      · exact .pure _
      · exact .fail (by simp)

theorem inferCondition_keeps {cond : NodeId} (hcond : rules.Keeps l (infer cond)) :
    rules.Keeps l (inferCondition infer cond) := by
  refine hcond.bind fun r => .get fun s => ?_
  dsimp only
  split
  · exact .mismatch _
  · exact .pure _

theorem patternCase_keeps (type : NodeId) (owner : TypeId) :
    rules.Keeps l (patternCase ctx type owner) := by
  unfold patternCase
  split
  · next hnode =>
    refine .get fun s => ?_
    dsimp only
    split
    · exact .mismatch _
    · exact (Keeps.record _ _ (by rw [hnode]; rfl)).bind fun _ => .pure _
  · exact .mismatch _

/-- The frame of an arm binds variables only. -/
theorem inferPattern_keeps (scrutinee : TypeId) (onDynamic : Bool) {type : NodeId}
    (htype : rules.Denotes l (typeExpr ctx type)) (binder : Option String) (fields : List String)
    {s : TypingState σ} (hs : rules.inv l s) :
    (rules.discipline l).KeepsAt s (inferPattern ctx scrutinee onDynamic type binder fields)
      fun arm _ => arm.1.BindsLocals := by
  unfold inferPattern
  dsimp only
  split
  · refine .bind (htype s hs) fun r t ht _ _ => ?_
    split
    · exact stops_at fun _ => Halt.not_isInternal_of_kind (by simp)
    · exact .pure ht Scope.BindsLocals.empty.bindValues
  · refine .bind (patternCase_keeps type scrutinee s hs) fun r t ht _ _ => ?_
    refine .bind (P := fun frame _ => frame.BindsLocals) ?_ fun frame u hu _ hframe =>
      .pure hu hframe.bindValues
    unfold caseFrame
    refine .bind_read ht (b := t) rfl ?_
    dsimp only
    split
    · exact .pure ht .empty
    · split
      · exact mismatch_at
      · exact .pure ht Scope.BindsLocals.empty.bindValues

variable (rules) in
/-- Code keeps the rules in a frame of its own. -/
def InfersCode (infer : NodeId → Typing σ TypeId) : Prop :=
  ∀ body, (rules.strict → ctx.tree.IsCode body) → rules.inside body → rules.Keeps .any (infer body)

/-- The body of a node that has a frame of its own. -/
theorem InfersCode.body (h : rules.InfersCode infer) {node body : NodeId} {d : Node}
    (hinside : rules.inside node) (hnode : ctx.tree.node node = d) (hseq : d.isSeq = false)
    (hbody : body ∈ d.codeParts) : rules.Keeps .any (infer body) :=
  h body (fun hstrict => (rules.guarantees hstrict).regular.codePart_of_not_seq (hnode ▸ hseq)
    (hnode ▸ hbody)) (rules.inside_child hinside (hnode ▸ Node.mem_children_of_codeParts hbody))

theorem inferArm_keeps (hbodies : rules.InfersCode infer) (scrutinee : TypeId) (onDynamic : Bool)
    {arm : NodeId} (hinside : rules.inside arm) (harm : rules.strict → ctx.tree.isArm arm) :
    rules.Keeps (.body names) (inferArm ctx infer scrutinee onDynamic arm) := by
  unfold inferArm
  split
  · next matched body hnode =>
      have hbody : rules.Keeps .any (infer body) :=
        hbodies.body hinside hnode rfl (by simp [Node.codeParts])
      split
      · next type binder fields hpattern =>
          have htype : rules.Denotes (.body names) (typeExpr ctx type) :=
            typeExpr_keeps.part hpattern (by simp [Node.typeParts])
          intro s hs
          refine .bind (inferPattern_keeps _ _ htype _ _ hs) fun found t ht _ hframe => ?_
          have hrest : rules.Keeps (.body names) (do
              record matched found.2
              let _ ← withFrame found.1 (infer body)
              record arm .void) :=
            (Keeps.record _ _ (by rw [hpattern]; rfl)).bind fun _ =>
              (Keeps.withFrame hframe hbody).bind fun _ => .record _ _ (by rw [hnode]; rfl)
          exact hrest t ht
      · next hpattern =>
          refine .internal (not_strict harm ?_)
          simp [SyntaxTree.isArm, hnode]
  · next hnode =>
      refine .internal (not_strict harm ?_)
      unfold SyntaxTree.isArm
      split
      · next heq => exact absurd heq (hnode _ _)
      · simp

theorem inferSelect_keeps {cond : NodeId} {arms : List NodeId}
    (hcond : rules.Keeps (.body names) (infer cond)) (hbodies : rules.InfersCode infer)
    (hinside : ∀ arm ∈ arms, rules.inside arm)
    (harms : rules.strict → ∀ arm ∈ arms, ctx.tree.isArm arm) :
    rules.Keeps (.body names) (inferSelect ctx infer cond arms) := by
  have hloop (scrutinee : TypeId) (onDynamic : Bool) : rules.Keeps (.body names) (do
      arms.forM (inferArm ctx infer scrutinee onDynamic)
      pure TypeId.void) :=
    .bind (.forM fun arm harm => inferArm_keeps hbodies _ _ (hinside arm harm)
      fun h => harms h arm harm)
      fun _ => .pure _
  refine hcond.bind fun given => .get fun s => ?_
  dsimp only
  split
  · exact hloop _ false
  · exact hloop _ true
  · exact .stop (by simp)

theorem inferReturn_keeps {value : Option NodeId}
    (hvalue : ∀ part ∈ value, rules.Keeps l (infer part)) :
    rules.Keeps l (inferReturn infer value) := by
  refine .get fun s => ?_
  split
  · exact .stop (by simp)
  · split
    · exact .get fun t => .stop (by simp)
    · exact .pure _
  · next part _ =>
      refine (hvalue part rfl).bind fun r => ?_
      dsimp only
      split
      · exact .stop (by simp)
      · refine .get fun t => ?_
        split
        · exact .stop (by simp)
        · exact .pure _

theorem lambdaParams_keeps {params : List NodeId}
    (hparams : rules.strict → ∀ param ∈ params, ctx.tree.isLambdaParam param) :
    rules.Keeps l (lambdaParams ctx params) := by
  refine .mapM fun param hparam => ?_
  split
  · next hnode =>
      exact (typeExpr_keeps.part hnode (by simp [Node.typeParts])).keeps.bind fun _ =>
        (Keeps.record _ _ (by rw [hnode]; rfl)).bind fun _ => .pure _
  · next hnode =>
      exact (Keeps.makeType (fun p => .freshVar p) fun p => .freshVar p).bind fun _ =>
        (Keeps.record _ _ (by rw [hnode]; rfl)).bind fun _ => .pure _
  · next htyped hident =>
      refine fun s _ => stops_at fun h => absurd (hparams h param hparam) ?_
      unfold SyntaxTree.isLambdaParam
      split
      · next heq => exact absurd heq (htyped _ _)
      · next heq => exact absurd heq (hident _)
      · simp

theorem inferLambda_keeps {params : List NodeId} {captures : List String} {body : NodeId}
    (hparams : rules.strict → ∀ param ∈ params, ctx.tree.isLambdaParam param)
    (hbody : rules.Keeps .any (infer body)) :
    rules.Keeps (.body names) (inferLambda ctx infer params captures body) := by
  have hcaptures : rules.Keeps (.body names) (lambdaCaptures captures) := by
    refine .mapM fun name _ => .get fun s => ?_
    split
    · exact .pure _
    · exact .fail (by simp)
  refine (lambdaParams_keeps hparams).bind fun params => hcaptures.bind fun captures => ?_
  refine .bind (.withFrame Scope.BindsLocals.empty.bindValues hbody.withReturnType) fun result => ?_
  exact .makeType (fun p => .closure p _ _ _) fun p => .closure p _ _ _

/-! ## Members -/

/-- The body of a method whose signature was recorded. -/
theorem walkMethod_keeps (hbodies : rules.InfersCode infer) {node : NodeId} {s : TypingState σ}
    (hs : rules.inv (.body names) s) (hinside : rules.inside node)
    (hmethod : rules.strict → (ctx.tree.node node).isMethodDef ∧ s.table.HasSignature ⟨s.walk, node⟩) :
    (rules.discipline (.body names)).KeepsAt s (walkMethod ctx infer node) fun _ _ => True := by
  unfold walkMethod
  split
  · next body hnode =>
      have hbody : rules.Keeps .any (infer body) :=
        hbodies.body hinside hnode rfl (by simp [Node.codeParts])
      refine .bind_read hs (b := ⟨s.walk, node⟩) rfl (.bind_read hs (b := s) rfl ?_)
      refine .bind (ofExcept_at (Q := fun _ _ => True) hs
        (fun h => signature_faultless (hmethod h).2) fun _ _ => True.intro) fun sig t ht _ _ => ?_
      refine .bind (Keeps.withFrame Scope.BindsLocals.empty.bindValues hbody.withReturnType t ht)
        fun r u hu _ _ => .bind_read hu (b := u) rfl ?_
      dsimp only
      split
      · exact mismatch_at
      · exact .pure hu True.intro
  · next hnode =>
      refine fails_at fun h => absurd (hmethod h).1 ?_
      unfold Node.isMethodDef
      split
      · next heq => exact absurd heq (hnode _ _ _ _)
      · simp

/-- The type of a declaration stays recorded. -/
theorem keepType_keeps {statement : NodeId}
    (hany : (ctx.tree.node statement).takesAnyType = true) : rules.Keeps l (do
    let v ← visit statement
    if ((← get).table.get? v).isNone then record statement .void : Typing σ Unit) := by
  refine (Keeps.visit _).bind fun v => .get fun s => ?_
  split
  · exact .record _ _ hany
  · exact .pure _

theorem walkMembersWithin_keeps (hloose : ¬ rules.strict) (hbodies : rules.InfersCode infer)
    (hdeclares : rules.declares) (fuel : Nat) (body : NodeId) :
    rules.Keeps .any (walkMembersWithin ctx infer fuel body) := by
  have hinside := rules.inside_of_declares hdeclares
  induction fuel generalizing body with
  | zero => exact .outOfFuel
  | succ fuel ih =>
      unfold walkMembersWithin
      refine .forM fun statement _ => ?_
      dsimp only
      split
      · next hnode =>
        exact .bind (fun s hs => walkMethod_keeps hbodies hs (hinside _) fun h => absurd h hloose)
          fun _ => .record _ _ (by rw [hnode]; rfl)
      · next hnode =>
        refine (findTrait_keeps _).bind fun traitBody s hs => ?_
        refine .bind_read hs (b := _) rfl (.bind_read hs (b := s) rfl ?_)
        split
        · exact fails_at fun h => absurd h hloose
        · next included hincluded =>
            have hentered := (rules.walk hs hincluded (.inl hdeclares)).enters
            exact .bind (Keeps.withWalk hs hincluded (.inl hdeclares) (ih traitBody _ hentered))
              fun _ t ht _ _ => Keeps.record statement .void (by rw [hnode]; rfl) t ht
      · next hnode => exact keepType_keeps (by rw [hnode]; rfl)
      · next hnode => exact keepType_keeps (by rw [hnode]; rfl)
      · exact (hbodies statement (fun h => absurd h hloose) (hinside _)).bind fun _ => .pure _

/-- The declaration of a plain type is walked only if its type was recorded before. -/
theorem walkDeclaredType_keeps (hbodies : rules.InfersCode infer) {decl : NodeId}
    (hinside : rules.inside decl) {typeParam : Option String}
    (hgeneric : rules.strict → typeParam.isSome)
    (hplain : typeParam = none → (ctx.tree.node decl).declaresType = true) (body : Option NodeId)
    {s : TypingState σ} (hs : rules.inv (.body names) s) :
    (rules.discipline (.body names)).KeepsAt s (walkDeclaredType ctx infer decl typeParam body)
      fun r t => typeParam = none → rules.le (.body names) s t ∧
        s.table.get? ⟨s.walk, decl⟩ = some r := by
  unfold walkDeclaredType
  split
  · next hsome => exact .pure hs fun hnone => by simp [hnone] at hsome
  · next hnone =>
      have hloose := not_strict hgeneric hnone
      have hdecl := hplain (by simpa using hnone)
      refine .bind (P := fun r t => t = s ∧ s.table.get? ⟨s.walk, decl⟩ = some r) ?_ ?_
      · refine .bind_read hs (b := ⟨s.walk, decl⟩) rfl (.bind_read hs (b := s) rfl ?_)
        refine ofExcept_at hs (fun h => absurd h hloose) fun r hr => ⟨rfl, ?_⟩
        unfold TypeTable.typeOf at hr
        split at hr
        · next heq => exact Except.ok.inj hr ▸ heq
        · cases hr
      · rintro r t ht - ⟨rfl, hr⟩
        have hdeclares := rules.declares_of_recorded ht hinside hdecl hr
        cases body with
        | none => exact .pure ht fun _ => ⟨rules.refl _ t, hr⟩
        | some body =>
            have hmembers : rules.Keeps .any (walkMembers ctx infer body) :=
              walkMembersWithin_keeps hloose hbodies hdeclares _ body
            exact .bind (Keeps.withTypeFrame r ht hdeclares fun u _ => hmembers u)
              fun _ u hu hle _ => .pure hu fun _ => ⟨hle, hr⟩

/-! ## Nodes -/

/-- Typing a node keeps the rules if typing its parts does, under the licence of the frame for parts
that are typed in it, and under one of their own for bodies. -/
theorem inferNode_keeps {node : NodeId} (hcode : rules.strict → ctx.tree.IsCode node)
    (hvar : ∀ name declared value, ctx.tree.node node = .var name declared value → names name)
    (hparts : ∀ part ∈ ctx.tree.frameParts node, rules.Keeps (.body names) (infer part))
    (hbodies : rules.InfersCode infer) (hinside : rules.inside node) :
    rules.Keeps (.body names) (inferNode ctx infer node) := by
  have htype {d : Node} {type : NodeId} (hnode : ctx.tree.node node = d)
      (h : type ∈ d.typeParts) : rules.Denotes (.body names) (typeExpr ctx type) :=
    typeExpr_keeps.part hnode h
  have hself {d : Node} (hnode : ctx.tree.node node = d) (h : d.isTypeExpr) :
      rules.Keeps (.body names) (typeExpr ctx node) :=
    (typeExpr_keeps.denotes _ node fun _ => hnode ▸ h).keeps
  -- declarations and the parts of `case` expressions are no code
  have hmisplaced {d : Node} (hnode : ctx.tree.node node = d) (h : d.isCode = false) :
      ¬ rules.strict :=
    not_strict hcode fun hcode => by simp [SyntaxTree.IsCode, hnode, h] at hcode
  have hkinds {d : Node} (hnode : ctx.tree.node node = d) : rules.strict → ctx.tree.kindsFit d :=
    fun h => hnode ▸ (rules.guarantees h).regular.kind node
  unfold inferNode
  unfold SyntaxTree.frameParts SyntaxTree.inlineParts at hparts
  cases hnode : ctx.tree.node node with
  | seq statements =>
      exact .foldlM fun _ statement hstatement => hparts statement (by simpa [hnode] using hstatement)
  | ident name => exact inferIdent_keeps hnode
  | ivar name => exact fun s hs => (ivarInScope_at name hs).trivial
  | selfRef =>
      refine .get fun s => ?_
      split
      · exact .pure _
      · exact .fail (by simp)
  | typed | namedType | pointerType | templatedType | closureType => exact hself hnode rfl
  | methodDef =>
      have hloose := hmisplaced hnode rfl
      exact .bind (fun s hs => walkMethod_keeps hbodies hs hinside fun h => absurd h hloose)
        fun _ => .pure _
  | classDef name typeParam body | dataDef name typeParam cases body =>
      refine fun s hs => (walkDeclaredType_keeps hbodies hinside (fun h => ?_)
        (fun h => by simp [hnode, h, Node.declaresType]) _ hs).trivial
      have hkind := (hcode h).1
      cases typeParam with
      | none => simp [hnode, Node.isCode, Node.declaresType] at hkind
      | some param => rfl
  | caseDef => exact .recorded node (hmisplaced hnode rfl)
  | ivarDecl name type => exact (htype hnode (by simp [Node.typeParts])).keeps
  | inclusion => exact .mismatch _
  | var name declared value =>
      exact inferVar_keeps (hvar name declared value hnode) (hparts value (by simp [hnode]))
        fun type hdeclared => htype hnode (by simpa [Node.typeParts, Option.mem_def] using hdeclared)
  | assign target value =>
      exact inferAssign_keeps (hparts value (by simp [hnode]))
        (rules.inside_child hinside (by simp [hnode, Node.children]))
  | call receiver method args =>
      have hargs : ∀ arg ∈ args, rules.Keeps (.body names) (infer arg) :=
        fun arg harg => hparts arg (by simp [hnode, harg])
      cases receiver with
      | some receiver => exact inferReceiverCall_keeps (hparts receiver (by simp [hnode])) hargs hnode
      | none => exact inferBareCall_keeps hargs hnode
  | namedArg name value => exact hparts value (by simp [hnode])
  | templatedInstance name typeArgs args =>
      exact inferTemplatedInstance_keeps (fun type h => htype hnode h)
        (fun arg harg => hparts arg (by simpa [hnode] using harg)) hnode
  | binary op lhs rhs =>
      exact inferBinary_keeps (hparts lhs (by simp [hnode])) (hparts rhs (by simp [hnode])) op
  | unary op operand => exact inferUnary_keeps (hparts operand (by simp [hnode])) op
  | branch cond yes no =>
      refine (inferCondition_keeps (hparts cond (by simp [hnode]))).bind fun _ => ?_
      refine (hparts yes (by simp [hnode])).bind fun _ => ?_
      cases no with
      | none => exact .pure _
      | some no =>
          exact .bind ((hparts no (by simp [hnode])).bind fun _ => .pure _) fun _ => .pure _
  | loop cond body =>
      refine (inferCondition_keeps (hparts cond (by simp [hnode]))).bind fun _ => ?_
      exact (hparts body (by simp [hnode])).bind fun _ => .pure _
  | select cond arms =>
      have harms (arm) (harm : arm ∈ arms) : rules.inside arm :=
        rules.inside_child hinside (by simp [hnode, Node.children, harm])
      exact inferSelect_keeps (hparts cond (by simp [hnode])) hbodies harms fun h => by
        simpa [SyntaxTree.kindsFit] using hkinds hnode h
  | ret value =>
      refine inferReturn_keeps fun part hpart => hparts part ?_
      simpa [hnode, Option.mem_def] using hpart
  | lambda params captures body =>
      exact inferLambda_keeps (fun h => by simpa [SyntaxTree.kindsFit] using hkinds hnode h)
        (hbodies.body hinside hnode rfl (by simp [Node.codeParts]))
  | arm | pattern => exact .internal (hmisplaced hnode rfl)
  | _ => exact .pure _

/-- What a node is typed with may be recorded for it. -/
theorem inferNode_mayRecord {node : NodeId} (hcode : rules.strict → ctx.tree.IsCode node)
    (hkeeps : rules.Keeps (.body names) (inferNode ctx infer node))
    (hbodies : rules.InfersCode infer) (hinside : rules.inside node) {s : TypingState σ}
    (hs : rules.inv (.body names) s) :
    (rules.discipline (.body names)).KeepsAt s (inferNode ctx infer node) fun r t =>
      MayRecord ctx rules.inside (rules.inv (.body names)) (rules.le (.body names)) (.body names)
        t node r := by
  -- the declaration of a plain type is typed with the type that was recorded for it
  have hplain {body : Option NodeId} (hdecl : (ctx.tree.node node).declaresType = true) :
      (rules.discipline (.body names)).KeepsAt s (walkDeclaredType ctx infer node none body)
        fun r t => MayRecord ctx rules.inside (rules.inv (.body names)) (rules.le (.body names))
          (.body names) t node r := by
    refine (walkDeclaredType_keeps hbodies hinside (fun h => ?_) (fun _ => hdecl) body hs).weaken
      fun r t _ _ h => .of_declaresType hdecl hs (h rfl).1 (h rfl).2
    exact absurd (hcode h).1 (by unfold Node.isCode; split <;> simp_all)
  by_cases hany : (ctx.tree.node node).takesAnyType = true
  · exact (hkeeps s hs).weaken fun _ _ _ _ _ => .of_takesAnyType hany
  · unfold inferNode
    cases hnode : ctx.tree.node node with
    | ivar name =>
        refine (ivarInScope_at name hs).weaken fun r t _ _ h =>
          { ivar := fun other hother => ?_
            plain := fun hdecl => by simp [hnode, Node.declaresType] at hdecl }
        obtain ⟨rfl, hr⟩ := h
        rw [hnode] at hother
        cases hother
        exact ⟨hinside, ⟨names, rfl⟩, hr⟩
    | classDef name param body =>
        cases param with
        | none => exact hplain (by simp [hnode, Node.declaresType])
        | some param => simp [hnode, Node.takesAnyType, Node.declaresType] at hany
    | dataDef name param cases body =>
        cases param with
        | none => exact hplain (by simp [hnode, Node.declaresType])
        | some param => simp [hnode, Node.takesAnyType, Node.declaresType] at hany
    | _ => simp [hnode, Node.takesAnyType, Node.declaresType] at hany

/-- Typing a node keeps the rules, whatever the bound on its nesting: in its frame it binds at most
the variables that it declares there. -/
theorem inferWithin_keeps (fuel : Nat) (node : NodeId)
    (hcode : rules.strict → ctx.tree.IsCode node)
    (hnames : ∀ name, ctx.tree.DeclaresVar name node → names name) (hinside : rules.inside node) :
    rules.Keeps (.body names) (inferWithin ctx fuel node) := by
  induction fuel generalizing node names with
  | zero => exact .outOfFuel
  | succ fuel ih =>
      have hparts : ∀ part ∈ ctx.tree.frameParts node,
          rules.Keeps (.body names) (inferWithin ctx fuel part) := fun part hpart =>
        have hpart' := SyntaxTree.mem_codeParts_of_frameParts hpart
        ih part (fun h => (rules.guarantees h).regular.codePart (hcode h).2 hpart')
          (fun name h => hnames name (.part hpart h))
          (rules.inside_child hinside (Node.mem_children_of_codeParts hpart'))
      have hbodies : rules.InfersCode (inferWithin ctx fuel) := fun body hbody hinside =>
        ih body hbody (fun _ _ => True.intro) hinside
      have hkeeps := inferNode_keeps hcode (fun name _ _ hnode => hnames name (.here hnode)) hparts
        hbodies hinside
      exact fun s hs => .bind (inferNode_mayRecord hcode hkeeps hbodies hinside hs) fun _ t ht _ h =>
        .bind (Keeps.record_at ht h) fun _ u hu _ _ => .pure hu True.intro

end Typing.WalkRules

end ClassLang
