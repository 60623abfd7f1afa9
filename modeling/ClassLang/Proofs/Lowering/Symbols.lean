import ClassLang.Proofs.Lowering.FlowModule
import ClassLang.Proofs.Lowering.StorageModule

/-!
# Bodies under link names

Generating gives bodies to functions: to those of declarations and to those of lambdas. `Names` says
under which names. The functions that get a body while a top-level statement is generated are those
of the link names of what the statement declares.
-/

namespace ClassLang

open IR (Builder)
open Relation (ReflTransGen)

/-- The name of the function of a lambda. -/
def IsLambdaName (name : String) : Prop :=
  ∃ number : Nat, name = s!"_Tc_lambda.{number}"

/-! ## Functions that get a body -/

/-- Functions that get a body are declared under one of the names, or they are lambdas. -/
structure BodiesUnder (names : String → Prop) (b b' : Builder) : Prop where
  declared : ∀ name id, b.function? name = some id → b'.function? name = some id
  named : ∀ id, (b.module.function id).hasBody = false → (b'.module.function id).hasBody = true →
    ∃ name, b'.function? name = some id ∧ (names name ∨ IsLambdaName name)

namespace BodiesUnder

variable {names names' : String → Prop} {b b' b'' : Builder}

theorem refl (b : Builder) : BodiesUnder names b b :=
  ⟨fun _ _ h => h, fun id hbody hbody' => by simp [hbody] at hbody'⟩

theorem trans (h : BodiesUnder names b b') (h' : BodiesUnder names b' b'') :
    BodiesUnder names b b'' where
  declared name id hid := h'.declared name id (h.declared name id hid)
  named id hbody hbody'' := by
    cases hbody' : (b'.module.function id).hasBody with
    | false => exact h'.named id hbody' hbody''
    | true =>
        obtain ⟨name, hname, hnames⟩ := h.named id hbody hbody'
        exact ⟨name, h'.declared name id hname, hnames⟩

theorem mono (h : BodiesUnder names b b') (hnames : ∀ name, names name → names' name) :
    BodiesUnder names' b b' where
  declared := h.declared
  named id hbody hbody' := by
    obtain ⟨name, hname, h⟩ := h.named id hbody hbody'
    exact ⟨name, hname, h.imp_left (hnames name)⟩

end BodiesUnder

/-- What holds of an output between steps of generating. -/
structure Output.Intact (o : Output) : Prop where
  sane : o.builder.Sane
  registered : o.Registered
  numbered : o.builder.Numbered

/-- Generating code gives bodies to functions under the names only. -/
def naming (names : String → Prop) : Discipline Halt Output where
  inv o := o.Intact
  le o o' := BodiesUnder names o.builder o'.builder
  fails _ _ _ := True
  refl _ := .refl _
  trans := .trans
  fails_trans _ _ := True.intro

namespace LoweringContext

/-- The context with other signatures on record. -/
def withSignatures (ctx : LoweringContext) (signatures : Std.TreeMap Visit Signature Visit.order) :
    LoweringContext :=
  { ctx with typed := { ctx.typed with table := { ctx.typed.table with signatures } } }

/-- The context with no signatures but the one of the visit. -/
def withOnly (ctx : LoweringContext) (visit : Visit) (sig : Signature) : LoweringContext :=
  ctx.withSignatures ((∅ : Std.TreeMap Visit Signature Visit.order).insert visit sig)

variable {ctx : LoweringContext} {visit other : Visit} {sig sig' : Signature}

theorem signature_withOnly_self : (ctx.withOnly visit sig).typed.table.signature visit = .ok sig := by
  simp [TypeTable.signature, withOnly, withSignatures]

theorem eq_of_signature_withOnly
    (h : (ctx.withOnly visit sig).typed.table.signature other = .ok sig') :
    other = visit ∧ sig' = sig := by
  by_cases heq : other = visit
  · subst heq
    rw [signature_withOnly_self] at h
    exact ⟨rfl, (Except.ok.inj h).symm⟩
  · simp [TypeTable.signature, withOnly, withSignatures, getElem?_insert_visit, heq] at h

theorem signature_withSignatures_empty :
    (ctx.withSignatures ∅).typed.table.signature visit ≠ .ok sig := by
  simp [TypeTable.signature, withSignatures]

/-- The code of a node does not depend on the signatures on record: calls have theirs with their
meanings. -/
theorem lower_withSignatures (signatures : Std.TreeMap Visit Signature Visit.order) :
    Lower.lower (ctx.withSignatures signatures) = Lower.lower ctx := by
  have hwithin : ∀ fuel, Lower.lowerWithin (ctx.withSignatures signatures) fuel =
      Lower.lowerWithin ctx fuel := by
    intro fuel
    induction fuel with
    | zero => rfl
    | succ fuel ih =>
        funext node
        show Lower.lowerNode (ctx.withSignatures signatures) (Lower.lowerWithin _ fuel) node = _
        rw [ih]
        rfl
  funext node
  exact congrFun (hwithin _) node

end LoweringContext

namespace Emit

variable {α β : Type} {ctx : LoweringContext} {names names' : String → Prop}

/-- The step gives bodies to functions under the names only. -/
def Names (names : String → Prop) (step : Emit α) : Prop :=
  ∀ o : Output, o.Intact → (naming names).KeepsAt o step fun _ _ => True

namespace Names

/-- Nothing is said of a step that fails. -/
theorem of_success {step : Emit α}
    (h : ∀ o : Output, o.Intact → ∀ a o', step o = .ok a o' →
      o'.Intact ∧ BodiesUnder names o.builder o'.builder) : Names names step := by
  intro o ho
  cases hrun : step o with
  | error e o' => exact .of_error hrun True.intro
  | ok a o' => exact .of_ok hrun (h o ho a o' hrun).1 (h o ho a o' hrun).2 True.intro

theorem run {step : Emit α} (h : Names names step) {o o' : Output} {a : α} (ho : o.Intact)
    (hrun : step o = .ok a o') : o'.Intact ∧ BodiesUnder names o.builder o'.builder :=
  ⟨((h o ho).ok hrun).1, ((h o ho).ok hrun).2.1⟩

/-- What comes next may rely on what the first step found. -/
theorem bind_found {step : Emit α} {next : α → Emit β} {P : α → Prop} (h : Names names step)
    (hfound : ∀ o, (Discipline.onSuccess Halt Output).KeepsAt o step fun a _ => P a)
    (hnext : ∀ a, P a → Names names (next a)) : Names names (step >>= next) :=
  fun o ho => .bind ((h o ho).and (hfound o)) fun a u hu _ ha => hnext a ha.2 u hu

theorem pure (a : α) : Names names (Pure.pure a : Emit α) :=
  fun _ ho => .pure ho True.intro

theorem forM {items : List β} {body : β → Emit PUnit}
    (h : ∀ item ∈ items, Names names (body item)) : Names names (items.forM body) :=
  fun _ ho => (Discipline.forM_keeps (P := fun _ => True) items ho True.intro
    fun item hitem u hu _ _ => h item hitem u hu).trivial

theorem mono {step : Emit α} (h : Names names step) (hnames : ∀ name, names name → names' name) :
    Names names' step :=
  of_success fun _ ho _ _ hrun => ⟨(h.run ho hrun).1, (h.run ho hrun).2.mono hnames⟩

/-- Completed bodies are those of signatures on record, or of lambdas. -/
theorem of_flows {begun : BodyRun → Prop} {step : Emit α} (hflows : Flows ctx True begun step)
    (hregisters : Registers False False step)
    (hnames : ∀ visit sig, ctx.typed.table.signature visit = .ok sig → names sig.linkName) :
    Names names step := by
  refine of_success fun o ho a o' hrun => ?_
  obtain ⟨hsane, hframe, -⟩ := (hflows o ho.sane).ok hrun
  obtain ⟨hregistered, hevolves, -⟩ := (hregisters o ho.registered).ok hrun
  refine ⟨⟨hsane, hregistered, hevolves.numbered ho.numbered⟩, hframe.declared,
    fun id hbody hbody' => ?_⟩
  obtain ⟨run, b, -, rfl, horiginates, -⟩ :=
    (hframe.done id (by simp) hbody hbody').completed True.intro
  rcases horiginates with ⟨node, sig, hsig, hlink, -⟩ | ⟨number, hlink⟩
  · exact ⟨_, hlink, .inl (hnames _ _ hsig)⟩
  · exact ⟨_, hlink, .inr ⟨number, rfl⟩⟩

/-- A step that completes bodies for no signature gives a body to lambdas at most. -/
theorem of_unsigned (ctx : LoweringContext) {step : Emit α}
    (hflows : Flows (ctx.withSignatures ∅) True (fun _ => True) step)
    (hregisters : Registers False False step) :
    Names names step :=
  of_flows hflows hregisters
    fun _ _ hsig => absurd hsig LoweringContext.signature_withSignatures_empty

end Names

/-! ## Declaring and searching -/

theorem declareStatement_names (statement : NodeId) :
    Names names (declareStatement ctx statement) :=
  .of_unsigned ctx (declareStatement_flows statement) (declareStatement_registers statement)

/-- Declaring a module gives none of its declarations a body. -/
theorem declareStatements_names (names : String → Prop) :
    Names names ((ctx.tree.statements ctx.tree.root).forM (declareStatement ctx)) :=
  .forM fun statement _ => declareStatement_names statement

theorem methods_names (decl : NodeId) (walk : InstanceId) :
    Names names (methods ctx decl walk) :=
  .of_unsigned ctx (.of_quiet (methods_quiet decl walk)) (methods_registers decl walk)

theorem typeInstances_names (decl : NodeId) : Names names (typeInstances ctx decl) :=
  .of_unsigned ctx (.of_quiet (typeInstances_quiet decl)) (typeInstances_registers decl)

/-! ## Defining -/

/-- Only for a signature on record a body is generated. -/
theorem defineMethod_signature (visit : Visit) (owner : Option TypeId) (o : Output) :
    (Discipline.onSuccess Halt Output).KeepsAt o (defineMethod ctx visit.node visit.walk owner)
      fun _ _ => ∃ sig, ctx.typed.table.signature visit = .ok sig := by
  unfold defineMethod
  split
  · refine .bind (Discipline.onSuccess_run _ o) fun sig u _ _ hrun => ?_
    exact (Discipline.onSuccess_run _ u).weaken fun _ _ _ _ _ => ⟨sig, (ofExcept_ok hrun).1⟩
  · exact .of_error rfl True.intro

/-- A method gets its body under its link name. -/
theorem defineMethod_names {visit : Visit} {owner : Option TypeId}
    (hchecks : Checks ctx True visit)
    (hlink : ∀ sig, ctx.typed.table.signature visit = .ok sig → names sig.linkName) :
    Names names (defineMethod ctx visit.node visit.walk owner) := by
  have hregisters : Registers False False (defineMethod ctx visit.node visit.walk owner) :=
    defineMethod_registers (LoweringContext.bodiesScoped_of_lax ctx) _ _ _
  cases hsig : ctx.typed.table.signature visit with
  | error e =>
      refine .of_success fun o _ _ _ hrun => ?_
      obtain ⟨-, -, sig, hsig'⟩ := (defineMethod_signature visit owner o).ok hrun
      rw [hsig] at hsig'
      cases hsig'
  | ok sig =>
      -- the signature is the only one that is looked up
      have heq : defineMethod (ctx.withOnly visit sig) visit.node visit.walk owner =
          defineMethod ctx visit.node visit.walk owner := by
        have hlookup : (ctx.withOnly visit sig).typed.table.signature
            { walk := visit.walk, node := visit.node } =
              ctx.typed.table.signature { walk := visit.walk, node := visit.node } :=
          LoweringContext.signature_withOnly_self.trans hsig.symm
        unfold defineMethod
        rw [hlookup, LoweringContext.withOnly, LoweringContext.lower_withSignatures]
        rfl
      rw [← heq] at hregisters ⊢
      have hchecks' : Checks (ctx.withOnly visit sig) True visit := by
        refine fun htrue => ⟨(hchecks htrue).1, fun sig' hsig' => ?_⟩
        obtain ⟨-, rfl⟩ := LoweringContext.eq_of_signature_withOnly hsig'
        exact (hchecks htrue).2 _ hsig
      have hflows : Flows (ctx.withOnly visit sig) True (fun _ => True)
          (defineMethod (ctx.withOnly visit sig) visit.node visit.walk owner) :=
        fun o ho => defineMethod_keeps visit owner hchecks' ho (fun _ _ _ => True.intro)
          fun _ _ _ _ _ => True.intro
      refine .of_flows hflows hregisters fun other sig' hother => ?_
      obtain ⟨-, rfl⟩ := LoweringContext.eq_of_signature_withOnly hother
      exact hlink _ hsig

end Emit

/-- The top-level statement that a declaration stands in. -/
def Declaration.top : Declaration → NodeId
  | .function statement => statement
  | .method decl _ _ _ => decl

/-- The link names of the declarations that have a body and the property. -/
def LoweringContext.LinksOf (ctx : LoweringContext) (D : Declaration → Prop) (name : String) :
    Prop :=
  ∃ d, D d ∧ ctx.typed.Has ctx.tree d ∧ ctx.tree.IsDefinition d.visit.node ∧
    ∃ sig, ctx.typed.table.signature d.visit = .ok sig ∧ sig.linkName = name

theorem LoweringContext.LinksOf.mono {ctx : LoweringContext} {D D' : Declaration → Prop}
    (hD : ∀ d, D d → D' d) (name : String) (h : ctx.LinksOf D name) : ctx.LinksOf D' name := by
  obtain ⟨d, hd, h⟩ := h
  exact ⟨d, hD d hd, h⟩

/-- A declaration is declared by its statement. -/
theorem TypedModule.Has.declares {m : TypedModule} {tree : SyntaxTree} {d : Declaration}
    (h : m.Has tree d) : d.top ∈ tree.statements tree.root ∧ m.Declares tree d.top d.visit := by
  cases d with
  | function statement => exact ⟨h.1, h.2, .inl rfl⟩
  | method decl walk owner visit =>
      obtain ⟨htop, hinstance, ⟨body, statement, hbody, hstatement, hreach⟩, hmethod⟩ := h
      exact ⟨htop, hmethod,
        .inr ⟨body, walk, statement, hbody, hinstance.isInstance, hstatement, hreach⟩⟩

namespace Emit

variable {ctx : LoweringContext} {decl statement : NodeId} {walk : InstanceId} {owner : TypeId}

/-- The methods that are found are those of the module. -/
theorem methods_has (htop : decl ∈ ctx.tree.statements ctx.tree.root)
    (hinstance : ctx.typed.HasInstance decl walk owner) (o : Output) :
    (Discipline.onSuccess Halt Output).KeepsAt o (methods ctx decl walk) fun found _ =>
      ∀ visit : Visit, (visit.walk, visit.node) ∈ found ↔
        ctx.typed.Has ctx.tree (.method decl walk owner visit) := by
  refine (methods_members hinstance.isInstance o).weaken fun found _ _ _ hfound visit => ?_
  rw [hfound visit, and_comm]
  exact ⟨fun h => ⟨htop, hinstance, h⟩, fun h => h.2.2⟩

/-- What typing has checked of every body. -/
theorem checks_of_has (hchecked : ReturnsChecked ctx) {d : Declaration}
    (hd : ctx.typed.Has ctx.tree d) : Checks ctx True d.visit :=
  fun _ => ⟨hchecked.void, hchecked.bodies d.top hd.declares.1 d.visit hd.declares.2⟩

/-- A declaration gets its body under its link name. -/
theorem define_names (hchecked : ReturnsChecked ctx) {d : Declaration} {receiver : Option TypeId}
    (hd : ctx.typed.Has ctx.tree d) (hdef : ctx.tree.IsDefinition d.visit.node) :
    Names (ctx.LinksOf (· = d)) (defineMethod ctx d.visit.node d.visit.walk receiver) :=
  defineMethod_names (checks_of_has hchecked hd) fun sig hsig => ⟨d, rfl, hd, hdef, sig, hsig, rfl⟩

theorem defineMember_names (hchecked : ReturnsChecked ctx) {visit : Visit}
    (hd : ctx.typed.Has ctx.tree (.method decl walk owner visit)) :
    Names (ctx.LinksOf (· = .method decl walk owner visit))
      (defineMember ctx owner (visit.walk, visit.node)) := by
  unfold defineMember
  split
  · next hnode => exact define_names hchecked hd ⟨_, _, _, _, hnode⟩
  · exact .pure _

theorem defineType_names (hchecked : ReturnsChecked ctx)
    (htop : decl ∈ ctx.tree.statements ctx.tree.root)
    (hinstance : ctx.typed.HasInstance decl walk owner) :
    Names (ctx.LinksOf fun d => ∃ visit, d = .method decl walk owner visit)
      (defineType ctx decl walk owner) := by
  rw [defineType_eq]
  refine .bind_found (methods_names decl walk) (methods_has htop hinstance) fun found hfound => ?_
  refine .forM fun item hitem => ?_
  exact (defineMember_names hchecked ((hfound ⟨item.1, item.2⟩).mp hitem)).mono
    (LoweringContext.LinksOf.mono fun d hd => ⟨_, hd⟩)

/-- A statement gives bodies under the link names of what it declares. -/
theorem defineStatement_names (hchecked : ReturnsChecked ctx)
    (hstatement : statement ∈ ctx.tree.statements ctx.tree.root) :
    Names (ctx.LinksOf (·.top = statement)) (defineStatement ctx statement) := by
  have htype : Names (ctx.LinksOf (·.top = statement))
      (forInstances ctx statement (defineType ctx)) := by
    refine .bind_found (typeInstances_names statement) (typeInstances_instances statement)
      fun found hfound => ?_
    refine .forM fun item hitem => ?_
    refine (defineType_names hchecked hstatement ((hfound item).mp hitem)).mono
      (LoweringContext.LinksOf.mono ?_)
    rintro d ⟨visit, rfl⟩
    rfl
  unfold defineStatement
  split
  · next hnode =>
      have hmethod : ctx.tree.IsMethod statement := by simp [SyntaxTree.IsMethod, hnode]
      refine (define_names (d := .function statement) hchecked ⟨hstatement, hmethod⟩
        ⟨_, _, _, _, hnode⟩).mono (LoweringContext.LinksOf.mono ?_)
      rintro d rfl
      rfl
  · exact htype
  · exact htype
  · exact .pure _

end Emit

end ClassLang
