import ClassLang.Proofs.Discipline
import ClassLang.Typing.Calculate

/-!
# Where an expansion is requested

A generic type is asked for in class bodies, methods, closures and other expansions. What tells
these places apart is the `Site` of the state: the frames above the module's frame, the current walk
and the declared result of the enclosing method. A step is `SiteFree` if moving the state to another
site before the step is the same as moving it there afterwards, so that the step neither looks at
the site nor changes it. Whatever is done in an isolated frame is free of the site, and so is making
an expansion.
-/

namespace ClassLang

variable {σ : Type}

/-- What tells the places of a module apart at which a step can be made. -/
structure Site where
  /-- The frames above the module's frame, innermost first. -/
  inner : List Scope
  walk : InstanceId
  returnType : Option TypeId
deriving DecidableEq, Repr

/-- The place at which the next step is made. -/
def TypingState.site (s : TypingState σ) : Site where
  inner := s.scopes.inner
  walk := s.walk
  returnType := s.returnType

/-- The state at another place. -/
def TypingState.relocate (s : TypingState σ) (site : Site) : TypingState σ :=
  { s with
    scopes := s.scopes.restore site.inner
    walk := site.walk
    returnType := site.returnType }

/-- Two states agree on everything but their sites. -/
structure TypingState.AgreesElsewhere (s t : TypingState σ) : Prop where
  pool : t.pool = s.pool
  imports : t.imports = s.imports
  base : t.scopes.base = s.scopes.base
  table : t.table = s.table
  templates : t.templates = s.templates
  exports : t.exports = s.exports
  package : t.package = s.package
  pending : t.pending = s.pending

namespace TypingState

variable {s t : TypingState σ}

@[simp] theorem relocate_site (s : TypingState σ) : s.relocate s.site = s :=
  rfl

theorem AgreesElsewhere.of_relocate (s : TypingState σ) (site : Site) :
    s.AgreesElsewhere (s.relocate site) :=
  ⟨rfl, rfl, rfl, rfl, rfl, rfl, rfl, rfl⟩

/-- Two states that agree elsewhere are one state at two sites. -/
theorem AgreesElsewhere.eq_relocate (h : s.AgreesElsewhere t) : t = s.relocate t.site := by
  obtain ⟨pool, imports, ⟨base, inner⟩, table, templates, exports, package, walk, result,
    pending⟩ := t
  obtain ⟨rfl, rfl, hbase, rfl, rfl, rfl, rfl, rfl⟩ := h
  cases hbase
  rfl

end TypingState

namespace Typing

variable {α β : Type}

/-- The result of a run with its final state moved to another site. -/
def relocateResult (site : Site) :
    EStateM.Result Halt (TypingState σ) α → EStateM.Result Halt (TypingState σ) α
  | .ok a s => .ok a (s.relocate site)
  | .error e s => .error e (s.relocate site)

/-- What a run returns or fails with. -/
def outcome : EStateM.Result Halt (TypingState σ) α → Except Halt α
  | .ok a _ => .ok a
  | .error e _ => .error e

/-- The step does the same at every site, and leaves the site alone. -/
def SiteFree (step : Typing σ α) : Prop :=
  ∀ s site, step (s.relocate site) = relocateResult site (step s)

namespace SiteFree

theorem pure (a : α) : SiteFree (Pure.pure a : Typing σ α) :=
  fun _ _ => rfl

theorem fail (e : CompileError) : SiteFree (Typing.fail e : Typing σ α) :=
  fun _ _ => rfl

theorem bind {step : Typing σ β} {next : β → Typing σ α} (h : SiteFree step)
    (hnext : ∀ b, SiteFree (next b)) : SiteFree (step >>= next) := by
  intro s site
  simp only [Bind.bind, EStateM.bind, h s site]
  cases step s with
  | ok b t => exact hnext b t site
  | error e t => rfl

/-- Looking at what is the same at every site. -/
theorem get {next : TypingState σ → Typing σ α} (hnext : ∀ s, SiteFree (next s))
    (hsame : ∀ s site, next (s.relocate site) = next s) :
    SiteFree (MonadState.get >>= next) := by
  intro s site
  show next (s.relocate site) (s.relocate site) = relocateResult site (next s s)
  rw [hsame]
  exact hnext s s site

/-- Changing the state in the same way at every site. -/
theorem modifyGet {f : TypingState σ → α × TypingState σ}
    (h : ∀ s site, f (s.relocate site) = ((f s).1, (f s).2.relocate site)) :
    SiteFree (MonadStateOf.modifyGet f : Typing σ α) := by
  intro s site
  show EStateM.Result.ok (f (s.relocate site)).1 (f (s.relocate site)).2 = _
  rw [h]
  rfl

/-- In an isolated frame every step is free of the site: it begins with the module's frame and the
given one, and what it leaves above the module's frame is thrown away. -/
theorem withIsolatedFrame (walk : InstanceId) (frame : Scope) (step : Typing σ α) :
    SiteFree (Typing.withIsolatedFrame walk frame step) := by
  intro s site
  show within _ _ step (s.relocate site) = relocateResult site (within _ _ step s)
  unfold within
  dsimp only [TypingState.relocate, ScopeChain.restore, ScopeChain.isolate, ScopeChain.push]
  split <;> rfl

/-- A step that is free of the site leaves it alone. -/
theorem site_eq {step : Typing σ α} (h : SiteFree step) (s : TypingState σ) :
    (finalState (step s)).site = s.site := by
  have hsame := h s s.site
  rw [TypingState.relocate_site] at hsame
  rw [hsame]
  cases step s <;> rfl

/-- Two runs of a step that is free of the site, from states that agree elsewhere. -/
theorem agrees {step : Typing σ α} (h : SiteFree step) {s t : TypingState σ}
    (hagrees : s.AgreesElsewhere t) :
    outcome (step t) = outcome (step s) ∧
      (finalState (step s)).AgreesElsewhere (finalState (step t)) := by
  rw [hagrees.eq_relocate, h s t.site]
  cases step s with
  | ok a u => exact ⟨rfl, .of_relocate u _⟩
  | error e u => exact ⟨rfl, .of_relocate u _⟩

end SiteFree

section Expansions

variable (ctx : TypingContext σ) (typeExpr : NodeId → Typing σ TypeId)

/-- Making an expansion: only its declaration looks at scopes, and that is done in an isolated
frame. -/
theorem makeExpansion_siteFree (id : TemplateId) (template : Template) (name : String)
    (arg : TypeId) {make : Typing σ TypeId} (hmake : SiteFree make) : SiteFree (do
      let walk ← modifyGet fun s =>
        let (walk, table) := s.table.freshInstance
        (walk, { s with table })
      let t ← make
      let index ← addExpansion id { args := [arg], type := t, walk }
      modifyScopes (·.bindModule name (.type t))
      modifyTable (·.record { walk, node := template.decl } t)
      withIsolatedFrame walk ((Scope.forType t []).bind template.param (.type arg))
        (declareExpanded ctx typeExpr template.decl t)
      modify fun s => { s with pending := s.pending ++ [(id, index)] }
      pure t) := by
  refine .bind (.modifyGet fun _ _ => rfl) fun walk => .bind hmake fun t => ?_
  refine .bind (.modifyGet fun _ _ => rfl) fun index => .bind (.modifyGet fun _ _ => rfl) fun _ => ?_
  refine .bind (.modifyGet fun _ _ => rfl) fun _ => .bind (.withIsolatedFrame _ _ _) fun _ => ?_
  exact .bind (.modifyGet fun _ _ => rfl) fun _ => .pure t

theorem expand_siteFree (id : TemplateId) (args : List TypeId) :
    SiteFree (expand ctx typeExpr id args) := by
  refine .get (fun s => ?_) fun _ _ => rfl
  generalize s.templates.getD id default = template
  dsimp only
  split
  · exact .pure _
  · split
    · next arg _ =>
        refine .bind (.get (fun _ => .pure _) fun _ _ => rfl) fun name => ?_
        refine .bind (.get (fun _ => .pure _) fun _ _ => rfl) fun spelling => ?_
        have hmake (f : Pool → TypeId × Pool) : SiteFree (makeType f : Typing σ TypeId) :=
          .modifyGet fun _ _ => rfl
        split
        · exact makeExpansion_siteFree ctx typeExpr id template _ arg (hmake _)
        · exact makeExpansion_siteFree ctx typeExpr id template _ arg (hmake _)
        · exact makeExpansion_siteFree ctx typeExpr id template _ arg (.fail _)
    · exact .fail _

/-- Where an expansion is requested does not matter. From two states that agree on everything but
the frames above the module's frame, the current walk and the declared result, the same template and
arguments give the same type or the same error; the states agree again afterwards, and each has its
own frames, walk and declared result as they were. -/
theorem expand_independent_of_site {s t : TypingState σ} (h : s.AgreesElsewhere t)
    (id : TemplateId) (args : List TypeId) :
    outcome (expand ctx typeExpr id args t) = outcome (expand ctx typeExpr id args s) ∧
      (finalState (expand ctx typeExpr id args s)).AgreesElsewhere
        (finalState (expand ctx typeExpr id args t)) ∧
      (finalState (expand ctx typeExpr id args s)).site = s.site ∧
      (finalState (expand ctx typeExpr id args t)).site = t.site := by
  have hfree := expand_siteFree ctx typeExpr id args
  obtain ⟨hsame, hagrees⟩ := hfree.agrees h
  exact ⟨hsame, hagrees, hfree.site_eq s, hfree.site_eq t⟩

end Expansions

/-- A generic class `Node<T>` with a value of type `T` and a pointer to the next node. -/
def nodeContext : TypingContext Unit where
  tree := .ofStatements #[.namedType "T", .ivarDecl "value" 0, .templatedType "Node" [0],
    .pointerType 2, .ivarDecl "next" 3, .seq [1, 4], .classDef "Node" (some "T") 5] [6]
  importer := .none

/-- A state at module level in which `Node` is declared. -/
def nodeAtModule : TypingState Unit :=
  finalState (declareType nodeContext 6 { pool := Pool.initial, imports := () })

/-- The same in a method of another generic class, whose parameter is called `T` as well and stands
for `String`. -/
def nodeInMethod : TypingState Unit :=
  nodeAtModule.relocate {
    inner := [Scope.bindValues {} [("value", .boolean)], Scope.bind {} "T" (.type .string)]
    walk := 4
    returnType := some .string }

/-- In both places `Node<Integer>` is the same type with the same layout: its value is an integer,
not a string. -/
theorem expand_independent_of_site_node :
    nodeAtModule.AgreesElsewhere nodeInMethod ∧
      outcome (expand nodeContext (typeExpr nodeContext) 0 [.integer] nodeInMethod) = .ok 8 ∧
      (finalState (expand nodeContext (typeExpr nodeContext) 0 [.integer]
        nodeInMethod)).pool.ivars 8 = [("value", .integer), ("next", 9)] ∧
      (finalState (expand nodeContext (typeExpr nodeContext) 0 [.integer] nodeInMethod)).site =
        nodeInMethod.site := by
  have hagrees : nodeAtModule.AgreesElsewhere nodeInMethod := .of_relocate _ _
  obtain ⟨hsame, hafter, -, hsite⟩ :=
    expand_independent_of_site nodeContext (typeExpr nodeContext) hagrees 0 [.integer]
  rw [hsame, hafter.pool]
  exact ⟨hagrees, by decide +kernel, by decide +kernel, hsite⟩

end Typing

end ClassLang
