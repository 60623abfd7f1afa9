import ClassLang.Proofs.Lowering.FaultsBelow
import ClassLang.Proofs.Typing.Members

/-!
# Generating a ready module

Generating a module asks typing for the walks of its type declarations, of the traits they include
and for the signatures of all methods found there. `Declares` says which visits these are. A module
is `ModuleReady` if all of this is known and the bodies are prepared. Generating a ready module
stops only as allowed, and afterwards all its functions and methods are declared.
-/

namespace ClassLang

open IR (Build KeepsShared)
open Relation (ReflTransGen)
open SyntaxTree (IsMethod IsTypeDecl bodyOf?)
open TypedModule (IsInstance)

/-- The walk and the body of an inclusion are known, or their absence is allowed. -/
def InclusionKnown (Allowed : Halt → Prop) (ctx : LoweringContext) (visit : Visit) : Prop :=
  ∀ name, ctx.tree.node visit.node = .inclusion name →
    (ctx.typed.table.inclusion? visit = none →
      Allowed (.error (.internal "include was not typed before generation"))) ∧
    (ctx.trait? name = none →
      Allowed (.error (.internal s!"trait '{name}' is not declared in this module")))

/-- The signature of a declaration is known, or its absence is allowed. -/
def SignatureKnown (Allowed : Halt → Prop) (ctx : LoweringContext) (visit : Visit) : Prop :=
  ∀ e, ctx.typed.table.signature visit = .error e → Allowed (.error e)

/-- Everything that generating the module asks for is known, given the functions that are declared
before. -/
structure ModuleReady (Allowed : Halt → Prop) (before : String → Prop) (ctx : LoweringContext) :
    Prop where
  types : ∀ statement ∈ ctx.tree.statements ctx.tree.root, ctx.tree.IsTypeDecl statement →
    ctx.typed.templateFor? statement = none → TypeKnown Allowed ctx 0 statement
  inclusions : ∀ statement ∈ ctx.tree.statements ctx.tree.root, ∀ visit,
    ctx.typed.IsMember ctx.tree statement visit → InclusionKnown Allowed ctx visit
  signatures : ∀ statement ∈ ctx.tree.statements ctx.tree.root, ∀ visit,
    ctx.typed.Declares ctx.tree statement visit → SignatureKnown Allowed ctx visit
  bodies : ∀ statement ∈ ctx.tree.statements ctx.tree.root, ∀ visit,
    ctx.typed.Declares ctx.tree statement visit → ∀ name params result body,
      ctx.tree.node visit.node = .methodDef name params result body →
        TypeKnown Allowed ctx visit.walk body ∧
          ∃ S, Prepared Allowed (fun name => before name ∨ ctx.typed.Links ctx.tree name) ctx
            visit.walk S ∧ S body

/-! ## Methods found in a body -/

namespace LoweringContext

variable {ctx : LoweringContext}

/-- The methods that a visit to a statement of a type body comes to. -/
def Finds (ctx : LoweringContext) (visit : Visit) (found : List (InstanceId × NodeId)) : Prop :=
  ∀ method : Visit, (method.walk, method.node) ∈ found ↔
    ctx.tree.IsMethod method.node ∧ ReflTransGen (ctx.typed.table.Includes ctx.tree) visit method

/-- A statement that includes nothing comes to itself only. -/
theorem includes_self_iff {visit other : Visit}
    (h : ∀ name, ctx.tree.node visit.node ≠ .inclusion name) :
    ReflTransGen (ctx.typed.table.Includes ctx.tree) visit other ↔ other = visit := by
  refine ⟨fun hother => ?_, fun hother => hother ▸ .refl⟩
  rcases hother.cases_head with hother | ⟨_, ⟨name, _, hname, _⟩, _⟩
  · exact hother.symm
  · exact absurd hname (h name)

theorem finds_method {walk : InstanceId} {statement : NodeId} (h : ctx.tree.IsMethod statement) :
    ctx.Finds { walk, node := statement } [(walk, statement)] := by
  intro method
  have hnot : ∀ name, ctx.tree.node statement ≠ .inclusion name := by
    intro name hname
    simp [IsMethod, hname] at h
  rw [includes_self_iff hnot]
  constructor
  · intro hmem
    obtain ⟨rfl, rfl⟩ : method.walk = walk ∧ method.node = statement := by simpa using hmem
    exact ⟨h, rfl⟩
  · rintro ⟨_, rfl⟩
    simp

theorem finds_nothing {visit : Visit} (h : ¬ ctx.tree.IsMethod visit.node)
    (hnot : ∀ name, ctx.tree.node visit.node ≠ .inclusion name) : ctx.Finds visit [] := by
  intro method
  rw [includes_self_iff hnot]
  simp only [List.not_mem_nil, false_iff, not_and]
  rintro hmethod rfl
  exact h hmethod

/-- An inclusion comes to the methods of the trait. -/
theorem finds_inclusion {visit : Visit} {name : String} {body : NodeId} {walk : InstanceId}
    {found : List (InstanceId × NodeId)} (hnode : ctx.tree.node visit.node = .inclusion name)
    (hwalk : ctx.typed.table.inclusion? visit = some walk) (hbody : ctx.trait? name = some body)
    (hfound : ∀ method : Visit, (method.walk, method.node) ∈ found ↔ ctx.tree.IsMethod method.node ∧
      ∃ statement ∈ ctx.tree.statements body,
        ReflTransGen (ctx.typed.table.Includes ctx.tree) { walk, node := statement } method) :
    ctx.Finds visit found := by
  intro method
  rw [hfound method]
  refine and_congr_right fun hmethod => ⟨?_, fun h => ?_⟩
  · rintro ⟨statement, hstatement, h⟩
    exact .head ⟨name, body, hnode, hwalk, hbody, hstatement⟩ h
  · rcases h.cases_head with rfl | ⟨⟨walk', statement⟩, hinto, h⟩
    · simp [IsMethod, hnode] at hmethod
    · obtain ⟨name', body', hnode', hwalk', hbody', hstatement⟩ := hinto
      obtain rfl : name = name' := by simpa [hnode] using hnode'
      obtain rfl : walk = walk' := by simpa [hwalk] using hwalk'
      obtain rfl : body = body' := Option.some.inj (hbody.symm.trans hbody')
      exact ⟨statement, hstatement, h⟩

/-- The methods of a body are those of its statements. -/
theorem mem_flatten_of_finds {walk : InstanceId} {statements : List NodeId}
    {found : List (List (InstanceId × NodeId))}
    (h : List.Forall₂ (fun statement => ctx.Finds { walk, node := statement }) statements found)
    (method : Visit) :
    (method.walk, method.node) ∈ found.flatten ↔ ctx.tree.IsMethod method.node ∧
      ∃ statement ∈ statements,
        ReflTransGen (ctx.typed.table.Includes ctx.tree) { walk, node := statement } method := by
  induction h with
  | nil => simp
  | cons hhead _ ih =>
      rw [List.flatten_cons, List.mem_append, hhead method, ih]
      simp only [List.exists_mem_cons_iff]
      tauto

end LoweringContext

namespace Emit

variable {Allowed : Halt → Prop} {declared : String → Prop} {ctx : LoweringContext}

open LoweringContext

/-- The methods found in a body are those that its statements come to. -/
theorem methodsWithin_safe (hA : Tolerant Allowed) (fuel : Nat) {body : NodeId} {walk : InstanceId}
    (hknown : ∀ statement ∈ ctx.tree.statements body, ∀ visit,
      ReflTransGen (ctx.typed.table.Includes ctx.tree) { walk, node := statement } visit →
        InclusionKnown Allowed ctx visit) {o : Output} (ho : (emission ctx Allowed declared).inv o) :
    (emission ctx Allowed declared).KeepsAt o (methodsWithin ctx fuel body walk) fun found _ =>
      ∀ method : Visit, (method.walk, method.node) ∈ found ↔
        ctx.tree.IsMethod method.node ∧ ∃ statement ∈ ctx.tree.statements body,
          ReflTransGen (ctx.typed.table.Includes ctx.tree) { walk, node := statement } method := by
  induction fuel generalizing body walk o with
  | zero => exact .of_error rfl hA.outOfFuel
  | succ fuel ih =>
      refine .bind (Discipline.mapM_keeps (P := fun statement found _ =>
        ctx.Finds { walk, node := statement } found) _ ho (fun _ _ _ _ _ _ _ _ h => h)
        fun statement hstatement u hu _ => ?_) fun found u hu _ hfound =>
          .pure hu (mem_flatten_of_finds hfound)
      split
      · next hnode => exact .pure hu (finds_method (by simp [IsMethod, hnode]))
      · next hnode => exact .pure hu (finds_method (by simp [IsMethod, hnode]))
      · next name hnode =>
          have hinclusion := hknown statement hstatement _ .refl name hnode
          split
          · next hnone => exact .of_error rfl (hinclusion.1 hnone)
          · next hnone => exact .of_error rfl (hinclusion.2 hnone)
          · next included traitBody hincluded htrait =>
              refine (ih (fun inner hinner visit h => ?_) hu).weaken fun found _ _ _ hfound =>
                finds_inclusion hnode hincluded htrait hfound
              have hinto : ctx.typed.table.Includes ctx.tree { walk, node := statement }
                  { walk := included, node := inner } :=
                ⟨name, traitBody, hnode, hincluded, htrait, hinner⟩
              exact hknown statement hstatement visit (.head hinto h)
      · next hdef hdec hinclusion =>
          refine .pure hu (finds_nothing ?_ fun name => hinclusion name)
          unfold IsMethod
          split
          · next hnode => exact absurd hnode (hdef _ _ _ _)
          · next hnode => exact absurd hnode (hdec _ _ _ _)
          · exact id

/-- The methods found in a type declaration are its members. -/
theorem methods_safe (hA : Tolerant Allowed) {decl : NodeId} {walk : InstanceId}
    (hwalk : ctx.typed.IsInstance decl walk)
    (hknown : ∀ visit, ctx.typed.IsMember ctx.tree decl visit → InclusionKnown Allowed ctx visit)
    {o : Output} (ho : (emission ctx Allowed declared).inv o) :
    (emission ctx Allowed declared).KeepsAt o (methods ctx decl walk) fun found _ =>
      ∀ method : Visit, (method.walk, method.node) ∈ found ↔ ctx.tree.IsMethod method.node ∧
        ∃ body statement, ctx.tree.bodyOf? decl = some body ∧ statement ∈ ctx.tree.statements body ∧
          ReflTransGen (ctx.typed.table.Includes ctx.tree) { walk, node := statement } method := by
  unfold methods
  dsimp only
  split
  · next body hfound =>
      have hbody : ctx.tree.bodyOf? decl = some body := hfound
      refine (methodsWithin_safe hA _ (fun statement hstatement visit h => ?_) ho).weaken ?_
      · exact hknown visit ⟨body, walk, statement, hbody, hwalk, hstatement, h⟩
      · intro found _ _ _ hfound method
        rw [hfound method]
        simp [hbody]
  · next hnone =>
      have hbody : ctx.tree.bodyOf? decl = none := hnone
      exact .pure ho (by simp [hbody])

/-- Whatever is missing, the methods that are found in a type declaration are its members. -/
theorem methods_members {decl : NodeId} {walk : InstanceId} (hwalk : ctx.typed.IsInstance decl walk)
    (o : Output) :
    (Discipline.onSuccess Halt Output).KeepsAt o (methods ctx decl walk) fun found _ =>
      ∀ method : Visit, (method.walk, method.node) ∈ found ↔ ctx.tree.IsMethod method.node ∧
        ∃ body statement, ctx.tree.bodyOf? decl = some body ∧ statement ∈ ctx.tree.statements body ∧
          ReflTransGen (ctx.typed.table.Includes ctx.tree) { walk, node := statement } method := by
  have hfound : (emission ctx (fun _ => True) fun _ => False).KeepsAt o (methods ctx decl walk) _ :=
    methods_safe ⟨True.intro, fun _ _ => True.intro, fun _ _ => True.intro⟩ hwalk
      (fun _ _ _ _ => ⟨fun _ => True.intro, fun _ => True.intro⟩) fun _ h => h.elim
  exact hfound.succeeds.weaken fun _ _ _ _ h => h.2.2

/-! ## Declaring -/

/-- After a declaration the function is declared. -/
theorem declareFunction_safe (hA : Tolerant Allowed) (sig : Signature) (receiver : Bool)
    {o : Output} (ho : (emission ctx Allowed declared).inv o) :
    (emission ctx Allowed declared).KeepsAt o (declareFunction ctx sig receiver) fun _ u =>
      (u.builder.function? sig.linkName).isSome := by
  refine .bind (Emit.signatureType_safe hA sig receiver o ho) fun type u hu _ _ => ?_
  refine .bind_read hu (b := u) rfl ?_
  dsimp only
  split
  · next id hid =>
      split
      · exact .of_error rfl (hA.program _ (by simp))
      · exact .pure hu (by simp [hid])
  · next hnone =>
      have hdeclares := KeepsShared.declareFunction sig.linkName type
      have hkeeps := hdeclares.declared u.builder
      refine .of_ok rfl (fun name hname => hkeeps name (hu name hname))
        ⟨hkeeps, .code .refl (.of_build hdeclares u)⟩ ?_
      exact IR.Retains.declareFunction_isSome _ _ _

/-- The signatures of these visits have their functions declared. -/
def Linked (ctx : LoweringContext) (P : Visit → Prop) (o : Output) : Prop :=
  ∀ visit, P visit → ∀ sig, ctx.typed.table.signature visit = .ok sig →
    (o.builder.function? sig.linkName).isSome

theorem stable_linked (P : Visit → Prop) : (emission ctx Allowed declared).Stable (Linked ctx P) :=
  fun _ _ _ hle _ h visit hvisit sig hsig => hle.1 _ (h visit hvisit sig hsig)

/-- Declaring the function of a recorded signature. -/
theorem declareSignature_safe (hA : Tolerant Allowed) {visit : Visit} (receiver : Bool)
    (hknown : SignatureKnown Allowed ctx visit) {o : Output}
    (ho : (emission ctx Allowed declared).inv o) :
    (emission ctx Allowed declared).KeepsAt o (do
      let sig ← ofExcept (ctx.typed.table.signature visit)
      let _ ← declareFunction ctx sig receiver) fun _ => Linked ctx (· = visit) := by
  cases hsig : ctx.typed.table.signature visit with
  | error e => exact .of_error rfl (hknown e hsig)
  | ok sig =>
      refine .bind_read ho (b := sig) rfl ?_
      refine .bind (declareFunction_safe hA sig receiver ho) fun _ u hu _ hdeclared => .pure hu ?_
      rintro _ rfl sig' hsig'
      obtain rfl : sig = sig' := by simpa [hsig] using hsig'
      exact hdeclared

theorem declareType_safe (hA : Tolerant Allowed) {decl : NodeId} {walk : InstanceId} (t : TypeId)
    (hwalk : ctx.typed.IsInstance decl walk)
    (hinclusions : ∀ visit, ctx.typed.IsMember ctx.tree decl visit → InclusionKnown Allowed ctx visit)
    (hsignatures : ∀ visit, ctx.tree.IsMethod visit.node → ctx.typed.IsMember ctx.tree decl visit →
      SignatureKnown Allowed ctx visit) {o : Output} (ho : (emission ctx Allowed declared).inv o) :
    (emission ctx Allowed declared).KeepsAt o (declareType ctx decl walk t) fun _ =>
      Linked ctx fun method => ctx.tree.IsMethod method.node ∧ ∃ body statement,
        ctx.tree.bodyOf? decl = some body ∧ statement ∈ ctx.tree.statements body ∧
          ReflTransGen (ctx.typed.table.Includes ctx.tree) { walk, node := statement } method := by
  refine .bind (Emit.layout_safe hA t o ho) fun _ u hu _ _ => ?_
  refine .bind (Safe.forM (fun variant _ => ?_) u hu) fun _ v hv _ _ => ?_
  · exact (Emit.layout_safe hA variant).bind fun _ => .pure _
  · refine .bind (methods_safe hA hwalk hinclusions hv) fun found w hw _ hfound => ?_
    refine (Discipline.forM_keeps_each (P := fun item => Linked ctx (· = ⟨item.1, item.2⟩)) found hw
      (fun _ _ => stable_linked _) fun item hitem x hx _ => ?_).weaken ?_
    · obtain ⟨hmethod, body, statement, hbody, hstatement, h⟩ :=
        (hfound ⟨item.1, item.2⟩).mp hitem
      exact declareSignature_safe hA true
        (hsignatures _ hmethod ⟨body, walk, statement, hbody, hwalk, hstatement, h⟩) hx
    · intro _ x _ _ hlinked method hmethod sig hsig
      exact hlinked _ ((hfound method).mpr hmethod) method rfl sig hsig

/-- Doing something for each walk of a type declaration. -/
theorem forInstances_safe {decl : NodeId} {step : NodeId → InstanceId → TypeId → Emit Unit}
    {P : InstanceId → Output → Prop}
    (hstable : ∀ walk, (emission ctx Allowed declared).Stable (P walk))
    (htype : ctx.typed.templateFor? decl = none → TypeKnown Allowed ctx 0 decl)
    (hstep : ∀ walk t, ctx.typed.IsInstance decl walk → ∀ u, (emission ctx Allowed declared).inv u →
      (emission ctx Allowed declared).KeepsAt u (step decl walk t) fun _ => P walk)
    {o : Output} (ho : (emission ctx Allowed declared).inv o) :
    (emission ctx Allowed declared).KeepsAt o (forInstances ctx decl step) fun _ u =>
      ∀ walk, ctx.typed.IsInstance decl walk → P walk u := by
  have hinstances : (emission ctx Allowed declared).KeepsAt o (typeInstances ctx decl) fun found _ =>
      ∀ walk, ctx.typed.IsInstance decl walk ↔ ∃ t, (walk, t) ∈ found := by
    unfold typeInstances
    split
    · next template htemplate =>
        refine .pure ho fun walk => ?_
        simp only [IsInstance, htemplate, List.mem_map, Prod.mk.injEq]
        exact ⟨fun ⟨e, he, hwalk⟩ => ⟨e.type, e, he, hwalk, rfl⟩,
          fun ⟨t, e, he, hwalk, _⟩ => ⟨e, he, hwalk⟩⟩
    · next hnone =>
        cases hfound : ctx.typed.table.typeOf { walk := 0, node := decl } with
        | error e => exact .of_error rfl (htype hnone e hfound)
        | ok t => exact .bind_read ho (b := t) rfl (.pure ho (by simp [IsInstance, hnone]))
  refine .bind hinstances fun found u hu _ hfound => ?_
  refine (Discipline.forM_keeps_each (P := fun item => P item.1) found hu
    (fun item _ => hstable item.1) fun item hitem v hv _ => ?_).weaken ?_
  · exact hstep item.1 item.2 ((hfound item.1).mpr ⟨item.2, hitem⟩) v hv
  · intro _ v _ _ h walk hwalk
    obtain ⟨t, ht⟩ := (hfound walk).mp hwalk
    exact h (walk, t) ht

variable {before : String → Prop}

/-- Declaring a statement of a ready module declares its functions and methods. -/
theorem declareStatement_safe (hA : Tolerant Allowed) (hready : ModuleReady Allowed before ctx)
    {statement : NodeId} (hstatement : statement ∈ ctx.tree.statements ctx.tree.root) {o : Output}
    (ho : (emission ctx Allowed before).inv o) :
    (emission ctx Allowed before).KeepsAt o (declareStatement ctx statement) fun _ =>
      Linked ctx (ctx.typed.Declares ctx.tree statement) := by
  have hfunction : ctx.tree.IsMethod statement → ctx.tree.bodyOf? statement = none →
      (emission ctx Allowed before).KeepsAt o (do
        let sig ← ofExcept (ctx.typed.table.signature { walk := 0, node := statement })
        let _ ← declareFunction ctx sig false) fun _ =>
          Linked ctx (ctx.typed.Declares ctx.tree statement) := by
    intro hmethod hnobody
    have hknown := hready.signatures statement hstatement _ ⟨hmethod, .inl rfl⟩
    refine (declareSignature_safe hA false hknown ho).weaken fun _ u _ _ hlinked visit hvisit => ?_
    rcases hvisit.2 with h | ⟨body, _, _, hbody, _⟩
    · exact hlinked visit h
    · simp [hnobody] at hbody
  have htype : ctx.tree.IsTypeDecl statement → ¬ ctx.tree.IsMethod statement →
      (emission ctx Allowed before).KeepsAt o (forInstances ctx statement (declareType ctx)) fun _ =>
        Linked ctx (ctx.typed.Declares ctx.tree statement) := by
    intro hdecl hnot
    refine (forInstances_safe (fun _ => stable_linked _) (hready.types statement hstatement hdecl)
      (fun walk t hwalk u hu => declareType_safe hA t hwalk
        (hready.inclusions statement hstatement)
        (fun visit hmethod hmember => hready.signatures statement hstatement visit
          ⟨hmethod, .inr hmember⟩) hu) ho).weaken ?_
    intro _ u _ _ hlinked visit hvisit sig hsig
    rcases hvisit.2 with rfl | ⟨body, walk, member, hbody, hwalk, hmember, h⟩
    · exact absurd hvisit.1 hnot
    · exact hlinked walk hwalk visit ⟨hvisit.1, body, member, hbody, hmember, h⟩ sig hsig
  have hnothing : ¬ ctx.tree.IsMethod statement → ctx.tree.bodyOf? statement = none →
      Linked ctx (ctx.typed.Declares ctx.tree statement) o := by
    intro hnot hnobody visit hvisit
    rcases hvisit.2 with rfl | ⟨body, _, _, hbody, _⟩
    · exact absurd hvisit.1 hnot
    · simp [hnobody] at hbody
  unfold declareStatement
  dsimp only
  unfold IsMethod bodyOf? IsTypeDecl at *
  split <;> rename_i hnode <;> simp only [hnode] at hfunction htype hnothing
  · exact hfunction trivial trivial
  · exact hfunction trivial trivial
  · exact htype trivial id
  · exact htype trivial id
  · exact .pure ho (hnothing id trivial)
  · exact .pure ho (hnothing id trivial)
  · exact .pure ho (hnothing id trivial)
  · exact .of_error rfl (hA.program _ (by simp))

/-! ## Defining -/

/-- Parameters become locals. -/
theorem bindParams_safe (hA : Tolerant Allowed) (ctx : LoweringContext) (walk : InstanceId)
    (params : List (Param × Nat)) :
    Lower.Safe ctx Allowed declared walk (params.forM fun (param, index) => do
      match param.name with
      | some name => Lower.bindParam ctx index name param.type
      | none => pure ()) := by
  refine Lower.Safe.forM fun item _ => ?_
  obtain ⟨param, index⟩ := item
  dsimp only
  split
  · exact Lower.bindParam_safe hA _ _ _
  · exact .pure _

/-- The body of a declared method with known types is generated. -/
theorem defineMethod_safe (hA : Tolerant Allowed) {visit : Visit} (owner : Option TypeId)
    (hsignature : SignatureKnown Allowed ctx visit)
    (hlink : ∀ sig, ctx.typed.table.signature visit = .ok sig → declared sig.linkName)
    (hbody : ∀ name params result body,
      ctx.tree.node visit.node = .methodDef name params result body →
        TypeKnown Allowed ctx visit.walk body ∧
          ∃ S, Prepared Allowed declared ctx visit.walk S ∧ S body) :
    Safe ctx Allowed declared (defineMethod ctx visit.node visit.walk owner) := by
  intro o ho
  unfold defineMethod
  split
  · next body hnode =>
      obtain ⟨htype, S, hS, hmem⟩ := hbody _ _ _ _ hnode
      have hlower := Lower.lowerWithin_safe hA hS (ctx.tree.size + 1)
      cases hsig : ctx.typed.table.signature visit with
      | error e => exact .of_error rfl (hsignature e hsig)
      | ok sig =>
          refine .bind_read ho (b := sig) rfl ?_
          refine .bind (functionFor_safe (.inl (hlink sig hsig)) o ho) fun function u hu _ _ => ?_
          refine .bind (Lower.start_safe hA function visit.walk owner sig.name sig.result hu) ?_
          intro start v hv _ hstart
          have hparams (params : List (Param × Nat)) :=
            (bindParams_safe hA ctx visit.walk params).bind fun _ =>
              Lower.finish_safe hA (hlower body hmem) htype
          refine .bind (P := fun _ _ => True) ?_ fun _ w hw _ _ => .pure hw trivial
          cases owner with
          | none => exact (Lower.Safe.pure_bind (hparams _) start hstart v hv).trivial
          | some t =>
              refine (Lower.Safe.bind (.build (.setParamName _ _ _)) (fun _ => ?_)
                start hstart v hv).trivial
              refine Lower.Safe.getOutput.bind fun _ => ?_
              exact Lower.Safe.bind (.update fun _ => rfl) fun _ => .pure_bind (hparams _)
  · exact .of_error rfl (hA.broken _ (by decide))

theorem defineType_safe (hA : Tolerant Allowed) {decl : NodeId} {walk : InstanceId} (t : TypeId)
    (hwalk : ctx.typed.IsInstance decl walk)
    (hinclusions : ∀ visit, ctx.typed.IsMember ctx.tree decl visit → InclusionKnown Allowed ctx visit)
    (hdefine : ∀ visit, ctx.tree.IsMethod visit.node → ctx.typed.IsMember ctx.tree decl visit →
      Safe ctx Allowed declared (defineMethod ctx visit.node visit.walk (some t))) :
    Safe ctx Allowed declared (defineType ctx decl walk t) := by
  intro o ho
  refine .bind (methods_safe hA hwalk hinclusions ho) fun found u hu _ hfound => ?_
  refine Safe.forM (fun item hitem => ?_) u hu
  obtain ⟨hmethod, body, statement, hbody, hstatement, h⟩ := (hfound ⟨item.1, item.2⟩).mp hitem
  dsimp only
  split
  · exact hdefine ⟨item.1, item.2⟩ hmethod ⟨body, walk, statement, hbody, hwalk, hstatement, h⟩
  · exact .pure _

theorem defineStatement_safe (hA : Tolerant Allowed) (hready : ModuleReady Allowed before ctx)
    {statement : NodeId} (hstatement : statement ∈ ctx.tree.statements ctx.tree.root) :
    Safe ctx Allowed (fun name => before name ∨ ctx.typed.Links ctx.tree name)
      (defineStatement ctx statement) := by
  have hdefine : ∀ visit, ctx.typed.Declares ctx.tree statement visit → ∀ owner,
      Safe ctx Allowed (fun name => before name ∨ ctx.typed.Links ctx.tree name)
        (defineMethod ctx visit.node visit.walk owner) := by
    intro visit hvisit owner
    refine defineMethod_safe hA owner (hready.signatures statement hstatement visit hvisit) ?_
      (hready.bodies statement hstatement visit hvisit)
    exact fun sig hsig => .inr ⟨statement, hstatement, visit, sig, hvisit, hsig, rfl⟩
  have htype : ctx.tree.IsTypeDecl statement →
      Safe ctx Allowed (fun name => before name ∨ ctx.typed.Links ctx.tree name)
        (forInstances ctx statement (defineType ctx)) := by
    intro hdecl o ho
    refine (forInstances_safe (P := fun _ _ => True) (fun _ _ _ _ _ _ _ => trivial)
      (hready.types statement hstatement hdecl) (fun walk t hwalk => ?_) ho).trivial
    exact defineType_safe hA t hwalk (hready.inclusions statement hstatement)
      fun visit hmethod hmember => hdefine visit ⟨hmethod, .inr hmember⟩ (some t)
  unfold defineStatement
  split
  · next hnode =>
      exact hdefine { walk := 0, node := statement } ⟨by simp [IsMethod, hnode], .inl rfl⟩ none
  · next hnode => exact htype (by simp [IsTypeDecl, hnode])
  · next hnode => exact htype (by simp [IsTypeDecl, hnode])
  · exact .pure _

/-- Before any body is generated, all functions and methods of the module are declared. -/
theorem declareStatements_safe (hA : Tolerant Allowed) (hready : ModuleReady Allowed before ctx)
    {o : Output} (ho : (emission ctx Allowed before).inv o) :
    (emission ctx Allowed before).KeepsAt o
      ((ctx.tree.statements ctx.tree.root).forM (declareStatement ctx)) fun _ u =>
        ∀ name, ctx.typed.Links ctx.tree name → (u.builder.function? name).isSome := by
  refine (Discipline.forM_keeps_each (P := fun statement =>
    Linked ctx (ctx.typed.Declares ctx.tree statement)) _ ho (fun _ _ => stable_linked _)
    fun statement hstatement u hu _ => declareStatement_safe hA hready hstatement hu).weaken ?_
  rintro _ u - - hlinked name ⟨statement, hstatement, visit, sig, hvisit, hsig, rfl⟩
  exact hlinked statement hstatement visit hvisit sig hsig

/-- Generating a ready module stops only as allowed. Afterwards its functions and methods are
declared. -/
theorem generate_safe (hA : Tolerant Allowed) (hready : ModuleReady Allowed before ctx) {o : Output}
    (ho : (emission ctx Allowed before).inv o) :
    (emission ctx Allowed before).KeepsAt o (generate ctx) fun _ u =>
      ∀ name, ctx.typed.Links ctx.tree name → (u.builder.function? name).isSome := by
  refine .bind (declareStatements_safe hA hready ho) fun _ u hu _ hlinked => ?_
  have hall : (emission ctx Allowed fun name => before name ∨ ctx.typed.Links ctx.tree name).inv u :=
    fun name hname => hname.elim (hu name) (hlinked name)
  have hdefine := Safe.forM (fun statement hstatement => defineStatement_safe hA hready hstatement)
    u hall
  -- the same run, seen as one that only relies on what was declared before
  unfold Discipline.KeepsAt at hdefine ⊢
  split at hdefine
  · next hrun =>
      rw [hrun]
      exact ⟨fun name hname => hdefine.1 name (.inl hname), hdefine.2.1,
        fun name hname => hdefine.1 name (.inr hname)⟩
  · next hrun =>
      rw [hrun]
      exact hdefine

end Emit

end ClassLang
