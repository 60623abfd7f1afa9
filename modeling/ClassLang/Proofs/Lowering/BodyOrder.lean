import ClassLang.Proofs.Lowering.BodyRuns
import ClassLang.Proofs.Lowering.LinkNames

/-!
# The order in which bodies are generated

Bodies are generated one after the other: statement by statement, and for a type declaration walk by
walk and method by method. `Emit.Turn` says in which state generating comes to a declaration.
`Emit.Begins` says which runs of bodies begin while a module is generated: one at the turn of every
definition, and those of the lambdas that these come to.
-/

namespace ClassLang

open IR (Build FunctionId)

/-- The statement defines a function or method. -/
def SyntaxTree.IsDefinition (tree : SyntaxTree) (statement : NodeId) : Prop :=
  ∃ name params result body, tree.node statement = .methodDef name params result body

theorem SyntaxTree.IsDefinition.isMethod {tree : SyntaxTree} {statement : NodeId}
    (h : tree.IsDefinition statement) : tree.IsMethod statement := by
  obtain ⟨name, params, result, body, hnode⟩ := h
  simp [IsMethod, hnode]

/-- A definition has no attribute. -/
theorem SyntaxTree.IsDefinition.plainName? {tree : SyntaxTree} {d : Declaration}
    (h : tree.IsDefinition d.visit.node) : ∃ name, d.plainName? tree = some name := by
  obtain ⟨name, params, result, body, hnode⟩ := h
  exact ⟨name, Declaration.plainName?_eq_some_iff.mpr (by simp [SyntaxTree.method?, hnode])⟩

namespace Emit

/-- The part of `defineType` for one of the methods. -/
def defineMember (ctx : LoweringContext) (owner : TypeId) (item : InstanceId × NodeId) :
    Emit Unit :=
  match ctx.tree.node item.2 with
  | .methodDef .. => defineMethod ctx item.2 item.1 (some owner)
  | _ => pure ()

theorem defineType_eq : defineType ctx decl walk owner =
    methods ctx decl walk >>= fun found => found.forM (defineMember ctx owner) :=
  rfl

/-- Generating bodies comes to the declaration: the bodies before it were generated, beginning in
`o₀`. -/
inductive Turn (ctx : LoweringContext) (o₀ : Output) : Declaration → Output → Prop
  | function {statement : NodeId} {o : Output}
      (hstatement : LoopComesTo (ctx.tree.statements ctx.tree.root) (defineStatement ctx) o₀
        statement o)
      (hdef : ctx.tree.IsDefinition statement) : Turn ctx o₀ (.function statement) o
  | method {decl : NodeId} {walk : InstanceId} {owner : TypeId} {visit : Visit}
      {instances : List (InstanceId × TypeId)} {found : List (InstanceId × NodeId)}
      {o₁ o₂ o₃ o₄ o : Output}
      (hstatement : LoopComesTo (ctx.tree.statements ctx.tree.root) (defineStatement ctx) o₀ decl o₁)
      (hinstances : typeInstances ctx decl o₁ = .ok instances o₂)
      (hinstance : LoopComesTo instances (fun item => defineType ctx decl item.1 item.2) o₂
        (walk, owner) o₃)
      (hfound : methods ctx decl walk o₃ = .ok found o₄)
      (hmethod : LoopComesTo found (defineMember ctx owner) o₄ (visit.walk, visit.node) o)
      (hdef : ctx.tree.IsDefinition visit.node) : Turn ctx o₀ (.method decl walk owner visit) o

/-! ## Runs that begin -/

/-- A parameter becomes a local, if it has a name. -/
def bindNamedParam (ctx : LoweringContext) (param : Param × Nat) : Lower Unit :=
  match param.1.name with
  | some name => Lower.bindParam ctx param.2 name param.1.type
  | none => pure ()

/-- The receiver of a method becomes known, and its named parameters become locals. -/
def enterLocals (ctx : LoweringContext) (function : FunctionId) (sig : Signature)
    (owner : Option TypeId) : Lower Unit := do
  let first ← match owner with
    | some _ => do
      Lower.build (Build.setParamName function 0 "self")
      let receiver := (← getThe Output).builder.param function 0
      modify fun b => { b with receiver := some receiver }
      pure 1
    | none => pure 0
  (sig.params.zipIdx first).forM (bindNamedParam ctx)

/-- The part of `defineMethod` before the code of the body. -/
def enterMethod (ctx : LoweringContext) (function : FunctionId) (sig : Signature) (walk : InstanceId)
    (owner : Option TypeId) : Emit Body := do
  let start ← Lower.start ctx function walk owner sig.name sig.result
  return (← (enterLocals ctx function sig owner).run start).2

theorem defineMethod_eq {ctx : LoweringContext} {visit : Visit} {owner : Option TypeId}
    {name : String} {params : List NodeId} {result : Option NodeId} {body : NodeId}
    (hnode : ctx.tree.node visit.node = .methodDef name params result body) :
    defineMethod ctx visit.node visit.walk owner = (do
      let sig ← ofExcept (ctx.typed.table.signature visit)
      let function ← functionFor sig
      let b ← enterMethod ctx function sig visit.walk owner
      let _ ← (Lower.finish ctx (Lower.lower ctx) body).run b) := by
  unfold defineMethod enterMethod enterLocals
  rw [hnode]
  cases owner <;> simp only [bind_assoc, pure_bind, StateT.run_bind] <;> rfl

/-- The run is the one for the body of what a visit defines, if generating comes to it in `u`: it
begins when the function is open that the signature names, and what the signature declares is what
the function returns. -/
structure Enters (ctx : LoweringContext) (visit : Visit) (owner : Option TypeId) (u : Output)
    (run : BodyRun) : Prop where
  code : ∃ name params result, ctx.tree.node visit.node = .methodDef name params result run.node
  fuel : run.fuel = ctx.tree.size + 1
  entered : ∃ sig, ctx.typed.table.signature visit = .ok sig ∧
    u.builder.function? sig.linkName = some run.before.function ∧
    ctx.pool.resolveStrict sig.result = .ok run.before.result ∧
    enterMethod ctx run.before.function sig visit.walk owner u = .ok run.before run.output

/-- The run begins while the module is generated from `o`: when it is the turn of a definition, or in
a run that has begun and comes to a lambda. -/
inductive Begins (ctx : LoweringContext) (o : Output) : BodyRun → Prop
  | definition {o₁ u : Output} {d : Declaration} {run : BodyRun}
      (hdeclare : (ctx.tree.statements ctx.tree.root).forM (declareStatement ctx) o = .ok ⟨⟩ o₁)
      (hturn : Turn ctx o₁ d u) (h : Enters ctx d.visit d.owner? u run) : Begins ctx o run
  | lambda {outer run : BodyRun} (houter : Begins ctx o outer) (h : outer.Encloses ctx run) :
      Begins ctx o run

end Emit

end ClassLang
