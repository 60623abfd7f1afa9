import ClassLang.Proofs.Lowering.BodyRuns
import ClassLang.Proofs.Lowering.FaultsBelow
import ClassLang.Proofs.Syntax.TreeShape

/-!
# What generating a node asks for

`NodeReady` says in which set the parts of a node must stand that are generated with it. Those that
stand in every such set are the ones that generating the node asks for (`Generates`). A run comes to
no others (`Visits.generates`): if it stopped with an odd error at another node, this error could not
come out, since generating prepared code stops as allowed.
-/

namespace ClassLang

open Relation (ReflTransGen)
open IR (BlockRef Value)

namespace LoweringContext

variable (ctx : LoweringContext) (walk : InstanceId)

/-- Generating a node asks for this part of it: the part stands in every set for which the node is
ready, where all findings and functions count as known. -/
def Generates (node part : NodeId) : Prop :=
  ∀ S, NodeReady (fun _ => True) (fun _ => True) ctx walk S node → S part

variable {ctx walk} {code node part : NodeId}

/-- What generating a node asks for stands below it. -/
theorem Generates.below (h : ctx.Generates walk node part) : ctx.tree.Below node part := by
  refine h (ctx.tree.Below node) ?_
  have hchild {child : NodeId} (hchild : child ∈ (ctx.tree.node node).children) :
      ctx.tree.Below node child := .single hchild
  unfold NodeReady
  cases hnode : ctx.tree.node node with
  | select cond arms =>
      simp only [hnode, Node.children] at hchild
      refine ⟨⟨fun _ _ => trivial, hchild (.head _)⟩, fun arm harm matched body hbody => ?_⟩
      have harm : ctx.tree.Below node arm := hchild (.tail _ harm)
      exact ⟨fun _ _ => trivial, harm.tail (by simp [hbody, Node.children])⟩
  | _ => simp_all [Node.children, CallReady, PartReady, TypeKnown, TargetKnown, FunctionKnown]

/-- The nodes that generating some code comes to are prepared, where findings and functions are known
or their absence is allowed. -/
theorem prepared_generates {Allowed : Halt → Prop} {declared : String → Prop}
    (htype : ∀ node, TypeKnown Allowed ctx walk node)
    (htarget : ∀ node, TargetKnown Allowed declared ctx walk node) (code : NodeId) :
    Prepared Allowed declared ctx walk (ReflTransGen (ctx.Generates walk) code) := by
  intro node hnode
  have hpart {part : NodeId} (h : ctx.Generates walk node part) :
      ReflTransGen (ctx.Generates walk) code part := hnode.tail h
  unfold Generates NodeReady at hpart
  unfold NodeReady
  cases hkind : ctx.tree.node node <;> simp only [hkind] at hpart ⊢
  case seq statements => exact fun statement hstatement => hpart fun S h => h statement hstatement
  case ident => exact htarget node
  case var => exact ⟨htype _, htype _, hpart fun S h => h.2.2⟩
  case assign => exact ⟨htype _, htype _, hpart fun S h => h.2.2⟩
  case call receiver method args =>
    refine ⟨htype _, ⟨htarget _, fun arg harg =>
      ⟨htype _, hpart fun S h => (h.2.1.2 arg harg).2⟩⟩, ?_⟩
    exact fun target hfound hneeds object hobject =>
      ⟨htype _, hpart fun S h => (h.2.2 target hfound hneeds object hobject).2⟩
  case namedArg => exact hpart fun S h => h
  case templatedInstance =>
    exact ⟨htarget _, fun arg harg => ⟨htype _, hpart fun S h => (h.2 arg harg).2⟩⟩
  case binary => exact ⟨⟨htype _, hpart fun S h => h.1.2⟩, htype _, hpart fun S h => h.2.2⟩
  case unary => exact hpart fun S h => h
  case branch =>
    exact ⟨⟨htype _, hpart fun S h => h.1.2⟩, hpart fun S h => h.2.1,
      fun no hno => hpart fun S h => h.2.2 no hno⟩
  case loop => exact ⟨⟨htype _, hpart fun S h => h.1.2⟩, hpart fun S h => h.2⟩
  case select =>
    exact ⟨⟨htype _, hpart fun S h => h.1.2⟩, fun arm harm matched body hbody =>
      ⟨htype _, hpart fun S h => (h.2 arm harm matched body hbody).2⟩⟩
  case ret => exact fun value hvalue => ⟨htype _, hpart fun S h => (h value hvalue).2⟩
  case lambda => exact ⟨htype _, htype _, hpart fun S h => h.2.2⟩

/-- An error that generating does not stop with. -/
def oddHalt : Halt := .error (.internal "typ")

theorem ne_oddHalt {text : String} (h : text.toList.head? ≠ some 't') :
    Halt.error (.internal text) ≠ oddHalt := by
  rintro ⟨⟩
  exact h rfl

theorem tolerant_oddHalt : Tolerant (· ≠ oddHalt) where
  outOfFuel := nofun
  program e h heq := h _ (Halt.error.inj heq)
  broken text h := by
    rintro ⟨⟩
    exact h (by decide)

/-- Where the run of a node comes to a part, the node asks for it. -/
theorem Visits.generates {fuel : Nat} {place next : CodePlace} (h : ctx.Visits fuel place next) :
    ReflTransGen (ctx.Generates place.body.walk) place.node next.node := by
  by_contra hnot
  have htype (node : NodeId) : TypeKnown (· ≠ oddHalt) ctx place.body.walk node := by
    intro e he
    unfold TypeTable.typeOf at he
    split at he <;> cases he
    exact ne_oddHalt (by simp [ToString.toString])
  have htarget (node : NodeId) :
      TargetKnown (· ≠ oddHalt) (fun _ => False) ctx place.body.walk node := by
    refine ⟨fun e he => ?_, fun _ _ _ _ => .inr (ne_oddHalt (by simp [ToString.toString]))⟩
    unfold TypeTable.target at he
    split at he <;> cases he
    exact ne_oddHalt (by simp [ToString.toString])
  have hprepared := prepared_generates htype htarget place.node
  have hlower : Lower.LowersAll ctx (· ≠ oddHalt) (fun _ => False) place.body.walk
      (ReflTransGen (ctx.Generates place.body.walk) place.node)
      (Emit.stopAt next oddHalt (Lower.lowerWithin ctx fuel)) := by
    intro node hnode
    -- the run does not stop at this node
    have hsame : Emit.stopAt next oddHalt (Lower.lowerWithin ctx fuel) node =
        Lower.lowerWithin ctx fuel node := by
      funext b o
      exact if_neg fun heq => hnot (by rwa [← congrArg CodePlace.node heq])
    rw [hsame]
    exact Lower.lowerWithin_safe tolerant_oddHalt hprepared fuel node hnode
  have hsafe := Lower.lowerNode_safe tolerant_oddHalt hprepared hlower .refl place.body rfl
    place.output fun _ => False.elim
  exact hsafe.error (h oddHalt) rfl

end LoweringContext

end ClassLang
