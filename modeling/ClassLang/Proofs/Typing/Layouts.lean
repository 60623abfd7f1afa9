import Mathlib.Data.List.Forall2
import ClassLang.Proofs.Typing.Context
import ClassLang.Proofs.Typing.PoolChanges

/-!
# The layout of a class

The instance variables of a class are those that its body declares, in source order, and those of an
included trait stand in the place of the inclusion (`SyntaxTree.DeclaresIvars`). A run of
`collectIvars` gives just these, under distinct names, each with the type that its type expression
denotes on the way, in the context in which the class is laid out (`collectIvars_laidOut`).

What a type expression denotes depends on the types, the module's frame and the templates that are
there when it is read: its `Environs`. These only grow (`Environs.Precedes`), so a stretch of typing
is told by those at its two ends.
-/

namespace ClassLang

/-- The instance variables that statements declare, each with the node of its type, in source order.
Those that the body of an included trait declares stand in the place of the inclusion. -/
inductive SyntaxTree.DeclaresIvars (tree : SyntaxTree) (trait? : String → Option NodeId) :
    List NodeId → List (String × NodeId) → Prop
  | nil : DeclaresIvars tree trait? [] []
  | ivarDecl {statement type : NodeId} {name : String} {rest : List NodeId}
      {decls : List (String × NodeId)} (hnode : tree.node statement = .ivarDecl name type)
      (h : DeclaresIvars tree trait? rest decls) :
      DeclaresIvars tree trait? (statement :: rest) ((name, type) :: decls)
  | inclusion {statement body : NodeId} {name : String} {rest : List NodeId}
      {inner decls : List (String × NodeId)} (hnode : tree.node statement = .inclusion name)
      (htrait : trait? name = some body)
      (hinner : DeclaresIvars tree trait? (tree.statements body) inner)
      (h : DeclaresIvars tree trait? rest decls) :
      DeclaresIvars tree trait? (statement :: rest) (inner ++ decls)
  | other {statement : NodeId} {rest : List NodeId} {decls : List (String × NodeId)}
      (hivar : ∀ name type, tree.node statement ≠ .ivarDecl name type)
      (hinclusion : ∀ name, tree.node statement ≠ .inclusion name)
      (h : DeclaresIvars tree trait? rest decls) :
      DeclaresIvars tree trait? (statement :: rest) decls

/-- What a type expression is read against, apart from the frames above that of the module. -/
structure Environs where
  pool : Pool
  base : Scope
  templates : List Template

def TypingState.environs {σ : Type} (s : TypingState σ) : Environs :=
  ⟨s.pool, s.scopes.base, s.templates⟩

/-- How the surroundings grow once the names of a module are declared: there are further types, names
of the module and expansions, and nothing that was there changes. -/
structure Environs.Precedes (e f : Environs) : Prop where
  pool : e.pool.Evolves f.pool
  base : ∃ new, f.base = { e.base with names := new ++ e.base.names }
  count : f.templates.length = e.templates.length
  expansions : ∀ id index x, expansionAt? e.templates id index = some x →
    expansionAt? f.templates id index = some x

namespace Environs.Precedes

variable {e f g : Environs}

theorem refl (e : Environs) : e.Precedes e :=
  ⟨.refl _, ⟨[], rfl⟩, rfl, fun _ _ _ h => h⟩

theorem trans (h : e.Precedes f) (h' : f.Precedes g) : e.Precedes g where
  pool := h.pool.trans h'.pool
  base := by
    obtain ⟨new, hnew⟩ := h.base
    obtain ⟨new', hnew'⟩ := h'.base
    exact ⟨new' ++ new, by simp [hnew', hnew]⟩
  count := h'.count.trans h.count
  expansions id index x hx := h'.expansions id index x (h.expansions id index x hx)

end Environs.Precedes

namespace Typing

variable {σ : Type} {ctx : TypingContext σ} {s t u : TypingState σ}

theorem Restores.precedes {l : Licence} (h : Restores l s t) : s.environs.Precedes t.environs where
  pool := h.evolves
  base := h.base.imp fun _ hnew => hnew.1
  count := h.count
  expansions := h.expansions

/-- The context in which type expressions are read is the same. -/
structure SameContext (s t : TypingState σ) : Prop where
  walk : t.walk = s.walk
  inner : t.scopes.inner = s.scopes.inner
  traits : t.scopes.base.traits = s.scopes.base.traits

namespace SameContext

theorem refl (s : TypingState σ) : SameContext s s :=
  ⟨rfl, rfl, rfl⟩

theorem trans (h : SameContext s t) (h' : SameContext t u) : SameContext s u :=
  ⟨h'.walk.trans h.walk, h'.inner.trans h.inner, h'.traits.trans h.traits⟩

theorem findTrait_eq (h : SameContext s t) : t.scopes.findTrait = s.scopes.findTrait := by
  funext name
  simp only [ScopeChain.findTrait, ScopeChain.frames, h.inner, List.findSome?_append,
    List.findSome?_cons, h.traits]

end SameContext

/-- Reading a type expression leaves the context alone. -/
theorem Restores.sameContext (h : Restores .types s t) : SameContext s t := by
  refine ⟨h.walk, ?_, ?_⟩
  · have hinner := h.inner.resolve_right fun ⟨⟨_, hl⟩, _⟩ => by cases hl
    generalize s.scopes.inner = before at hinner ⊢
    generalize t.scopes.inner = after at hinner ⊢
    cases hinner with
    | none => rfl
    | some vars hvars =>
        obtain rfl : vars = [] := List.eq_nil_iff_forall_not_mem.mpr hvars
        rfl
  · obtain ⟨new, hbase, -⟩ := h.base
    rw [hbase]

theorem typeExprWithin_restores {fuel : Nat} {node : NodeId} {r : TypeId}
    (hrun : typeExprWithin ctx fuel node s = .ok r t) : Restores .types s t :=
  have hkeeps : ((restoring ctx).discipline .types).KeepsAt s (typeExprWithin ctx fuel node) _ :=
    (WalkRules.typeExprWithin_keeps fuel).denotes .types node False.elim s True.intro
  (hkeeps.ok hrun).2.1

/-- The type of an instance variable is what the type expression of its declaration denotes when it
is read in this context, between the surroundings `first` and `last`. -/
def DenotedIn (ctx : TypingContext σ) (first last : Environs) (walk : InstanceId)
    (frames : List Scope) (decl : String × NodeId) (ivar : String × TypeId) : Prop :=
  ivar.1 = decl.1 ∧ ∃ fuel u v, first.Precedes u.environs ∧ u.walk = walk ∧
    u.scopes.inner = frames ∧ typeExprWithin ctx fuel decl.2 u = .ok ivar.2 v ∧
      v.environs.Precedes last

/-- A longer stretch contains what a part of it contains. -/
theorem DenotedIn.widen {first first' last last' : Environs} {walk : InstanceId}
    {frames : List Scope} {decl : String × NodeId} {ivar : String × TypeId}
    (h : DenotedIn ctx first last walk frames decl ivar) (hfirst : first'.Precedes first)
    (hlast : last.Precedes last') : DenotedIn ctx first' last' walk frames decl ivar := by
  obtain ⟨hname, fuel, u, v, hu, hwalk, hframes, hrun, hv⟩ := h
  exact ⟨hname, fuel, u, v, hfirst.trans hu, hwalk, hframes, hrun, hv.trans hlast⟩

/-- The instance variables of a class with this body, laid out in this context, between the
surroundings `first` and `last`. -/
structure IvarsLaidOut (ctx : TypingContext σ) (first last : Environs)
    (trait? : String → Option NodeId) (walk : InstanceId) (frames : List Scope) (body : NodeId)
    (ivars : List (String × TypeId)) : Prop where
  declared : ∃ decls, ctx.tree.DeclaresIvars trait? (ctx.tree.statements body) decls ∧
    List.Forall₂ (DenotedIn ctx first last walk frames) decls ivars
  distinct : (ivars.map (·.1)).Nodup

theorem IvarsLaidOut.widen {first first' last last' : Environs} {trait? : String → Option NodeId}
    {walk : InstanceId} {frames : List Scope} {body : NodeId} {ivars : List (String × TypeId)}
    (h : IvarsLaidOut ctx first last trait? walk frames body ivars)
    (hfirst : first'.Precedes first) (hlast : last.Precedes last') :
    IvarsLaidOut ctx first' last' trait? walk frames body ivars :=
  { h with
    declared := by
      obtain ⟨decls, hdecls, hivars⟩ := h.declared
      exact ⟨decls, hdecls, hivars.imp fun _ _ hivar => hivar.widen hfirst hlast⟩ }

/-- What a run of `collectIvarsInto` adds to a layout. -/
structure Collects (ctx : TypingContext σ) (statements : List NodeId) (s t : TypingState σ)
    (before after : List (String × TypeId)) : Prop where
  context : SameContext s t
  grows : s.environs.Precedes t.environs
  added : ∃ decls ivars, after = before ++ ivars ∧
    ctx.tree.DeclaresIvars s.scopes.findTrait statements decls ∧
    List.Forall₂ (DenotedIn ctx s.environs t.environs s.walk s.scopes.inner) decls ivars
  distinct : (before.map (·.1)).Nodup → (after.map (·.1)).Nodup

namespace Collects

variable {statement type : NodeId} {rest : List NodeId}
  {before middle after : List (String × TypeId)}

theorem nil (s : TypingState σ) (before : List (String × TypeId)) :
    Collects ctx [] s s before before :=
  ⟨.refl s, .refl _, ⟨[], [], by simp, .nil, .nil⟩, id⟩

/-- An instance variable is declared that was not there before. -/
theorem ivarDecl {name : String} {r : TypeId} {v w : TypingState σ} {fuel : Nat}
    (hnode : ctx.tree.node statement = .ivarDecl name type)
    (hrun : typeExprWithin ctx fuel type s = .ok r v) (hnew : before.any (·.1 == name) = false)
    (hw : SameContext v w) (henvirons : w.environs = v.environs)
    (h : Collects ctx rest w t (before ++ [(name, r)]) after) :
    Collects ctx (statement :: rest) s t before after := by
  have hread := typeExprWithin_restores hrun
  have hsame := hread.sameContext.trans hw
  obtain ⟨decls, ivars, rfl, hdecls, hivars⟩ := h.added
  rw [hsame.findTrait_eq] at hdecls
  rw [hsame.walk, hsame.inner, henvirons] at hivars
  have hrest := henvirons ▸ h.grows
  have hfirst : DenotedIn ctx s.environs t.environs s.walk s.scopes.inner (name, type) (name, r) :=
    ⟨rfl, fuel, s, v, .refl _, rfl, rfl, hrun, hrest⟩
  refine ⟨hsame.trans h.context, hread.precedes.trans hrest,
    ⟨(name, type) :: decls, (name, r) :: ivars, by simp, .ivarDecl hnode hdecls,
      .cons hfirst (hivars.imp fun _ _ hivar => hivar.widen hread.precedes (.refl _))⟩,
    fun hbefore => ?_⟩
  refine h.distinct ?_
  rw [List.map_append, List.nodup_append]
  refine ⟨hbefore, by simp, fun other hother other' hother' => ?_⟩
  obtain rfl : other' = name := by simpa using hother'
  rintro rfl
  obtain ⟨entry, hentry, rfl⟩ := List.mem_map.mp hother
  simp only [List.any_eq_false] at hnew
  exact hnew entry hentry (by simp)

/-- The instance variables of a trait are collected in the place of its inclusion. -/
theorem inclusion {name : String} {body : NodeId}
    (hnode : ctx.tree.node statement = .inclusion name)
    (htrait : s.scopes.findTrait name = some body)
    (hinner : Collects ctx (ctx.tree.statements body) s u before middle)
    (h : Collects ctx rest u t middle after) : Collects ctx (statement :: rest) s t before after := by
  have hsame := hinner.context
  obtain ⟨inner, ivars, rfl, hinnerDecls, hinnerIvars⟩ := hinner.added
  obtain ⟨decls, ivars', rfl, hdecls, hivars⟩ := h.added
  rw [hsame.findTrait_eq] at hdecls
  rw [hsame.walk, hsame.inner] at hivars
  exact ⟨hsame.trans h.context, hinner.grows.trans h.grows,
    ⟨inner ++ decls, ivars ++ ivars', by simp, .inclusion hnode htrait hinnerDecls hdecls,
      List.rel_append (hinnerIvars.imp fun _ _ hivar => hivar.widen (.refl _) h.grows)
        (hivars.imp fun _ _ hivar => hivar.widen hinner.grows (.refl _))⟩,
    fun hbefore => h.distinct (hinner.distinct hbefore)⟩

theorem other (hivar : ∀ name type, ctx.tree.node statement ≠ .ivarDecl name type)
    (hinclusion : ∀ name, ctx.tree.node statement ≠ .inclusion name)
    (h : Collects ctx rest s t before after) : Collects ctx (statement :: rest) s t before after := by
  obtain ⟨decls, ivars, hafter, hdecls, hivars⟩ := h.added
  exact ⟨h.context, h.grows, ⟨decls, ivars, hafter, .other hivar hinclusion hdecls, hivars⟩,
    h.distinct⟩

end Collects

/-- A successful run of `collectIvarsInto` collects the instance variables that the body declares. -/
theorem collectIvarsInto_collects {bound fuel : Nat} {body : NodeId} {recording : Bool}
    {before after : List (String × TypeId)}
    (hrun : collectIvarsInto ctx (typeExprWithin ctx bound) fuel body recording before s =
      .ok after t) : Collects ctx (ctx.tree.statements body) s t before after := by
  induction fuel generalizing body recording before after s t with
  | zero => cases hrun
  | succ fuel ih =>
      unfold collectIvarsInto at hrun
      generalize ctx.tree.statements body = statements at hrun
      induction statements generalizing before s with
      | nil =>
          cases hrun
          exact .nil _ _
      | cons statement rest ihrest =>
          rw [List.foldlM_cons] at hrun
          obtain ⟨middle, u, hstep, hrun⟩ := bind_eq_ok.mp hrun
          have hrest := ihrest hrun
          cases hnode : ctx.tree.node statement with
          | ivarDecl name type =>
              simp only [hnode] at hstep
              obtain ⟨r, v, htype, hstep⟩ := bind_eq_ok.mp hstep
              cases hnew : before.any (·.1 == name) with
              | true =>
                  simp only [hnew, if_true] at hstep
                  cases hstep
              | false =>
                  simp only [hnew, Bool.false_eq_true, if_false] at hstep
                  cases recording with
                  | true =>
                      cases hstep
                      refine .ivarDecl hnode htype hnew ?_ ?_ hrest
                      · exact ⟨rfl, rfl, rfl⟩
                      · rfl
                  | false =>
                      cases hstep
                      exact .ivarDecl hnode htype hnew (.refl u) rfl hrest
          | inclusion name =>
              simp only [hnode] at hstep
              obtain ⟨traitBody, v, hfind, hinner⟩ := bind_eq_ok.mp hstep
              unfold findTrait at hfind
              rw [get_bind_apply] at hfind
              cases htrait : s.scopes.findTrait name with
              | none => simp only [htrait] at hfind; cases hfind
              | some body =>
                  simp only [htrait] at hfind
                  cases hfind
                  exact .inclusion hnode htrait (ih hinner) hrest
          | _ =>
              simp only [hnode] at hstep
              cases hstep
              exact .other (by simp [hnode]) (by simp [hnode]) hrest

/-- A successful run of `collectIvars` gives the layout of the class. -/
theorem collectIvars_laidOut {bound : Nat} {body : NodeId} {ivars : List (String × TypeId)}
    (hrun : collectIvars ctx (typeExprWithin ctx bound) body s = .ok ivars t) :
    IvarsLaidOut ctx s.environs t.environs s.scopes.findTrait s.walk s.scopes.inner body ivars := by
  have h := collectIvarsInto_collects hrun
  obtain ⟨decls, added, hadded, hdecls, hivars⟩ := h.added
  obtain rfl : ivars = added := by simpa using hadded
  exact ⟨⟨decls, hdecls, hivars⟩, h.distinct (by simp)⟩

/-! ## Layouts of types -/

theorem updatePool_eq_ok {f : Pool → Except CompileError Pool}
    (hrun : updatePool f s = .ok () t) : ∃ q, f s.pool = .ok q ∧ t = { s with pool := q } := by
  unfold updatePool at hrun
  rw [get_bind_apply] at hrun
  cases hq : f s.pool with
  | error e => rw [hq] at hrun; cases hrun
  | ok q =>
      rw [hq] at hrun
      cases hrun
      exact ⟨q, rfl, rfl⟩

/-- Declaring methods changes no layout. -/
theorem declareMethods_ivarList {bound : Nat} {body : NodeId} {owner r : TypeId}
    (hrun : declareMethods ctx (typeExprWithin ctx bound) body owner s = .ok () t)
    (hr : r < s.pool.size) : t.pool.ivarList r = s.pool.ivarList r := by
  have hkeeps : ((changing ctx).discipline .types).KeepsAt s
      (declareMethods ctx (typeExprWithin ctx bound) body owner) fun _ _ => True :=
    WalkRules.declareMethodsWithin_keeps (WalkRules.typeExprWithin_keeps bound) _ body owner
      True.intro (.inl True.intro) False.elim
  exact (hkeeps.ok hrun).2.1.layouts r hr (by simp)

/-- Declaring methods restores the frames. -/
theorem declareMethods_restores {bound : Nat} {body : NodeId} {owner : TypeId}
    (hrun : declareMethods ctx (typeExprWithin ctx bound) body owner s = .ok () t) :
    Restores .types s t :=
  have hkeeps : ((restoring ctx).discipline .types).KeepsAt s
      (declareMethods ctx (typeExprWithin ctx bound) body owner) fun _ _ => True :=
    WalkRules.declareMethodsWithin_keeps (WalkRules.typeExprWithin_keeps bound) _ body owner
      True.intro (.inl True.intro) False.elim
  (hkeeps.ok hrun).2.1

/-- Instance variables are added to the frame of a type, never to that of the module. -/
theorem foldl_addIvar_base (ivars : List (String × TypeId)) (c : ScopeChain) :
    (ivars.foldl (fun c (name, type) => c.addIvar name type) c).base = c.base := by
  induction ivars generalizing c with
  | nil => rfl
  | cons ivar ivars ih => exact ih _

/-- The expansion of a class is laid out where its members are declared. -/
theorem declareExpanded_laidOut {bound : Nat} {decl body : NodeId} {r : TypeId} {name : String}
    {param : Option String} (hnode : ctx.tree.node decl = .classDef name param body)
    (hrun : declareExpanded ctx (typeExprWithin ctx bound) decl r s = .ok () t) :
    IvarsLaidOut ctx s.environs t.environs s.scopes.findTrait s.walk s.scopes.inner body
      (t.pool.ivarList r) := by
  simp only [declareExpanded, hnode] at hrun
  obtain ⟨ivars, u, hcollected, hrun⟩ := bind_eq_ok.mp hrun
  obtain ⟨⟨⟩, v, hframe, hrun⟩ := bind_eq_ok.mp hrun
  obtain ⟨⟨⟩, w, hset, hmethods⟩ := bind_eq_ok.mp hrun
  cases hframe
  obtain ⟨q, hq, rfl⟩ := updatePool_eq_ok hset
  rw [declareMethods_ivarList hmethods (Pool.lt_size_of_setIvars hq), (Pool.ivarList_setIvars hq).1]
  refine (collectIvars_laidOut hcollected).widen (.refl _)
    (.trans ?_ (declareMethods_restores hmethods).precedes)
  exact ⟨(Pool.Change.setIvars hq).evolves, ⟨[], foldl_addIvar_base _ _⟩, rfl, fun _ _ _ h => h⟩

end Typing

end ClassLang
