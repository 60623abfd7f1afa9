import ClassLang.Proofs.Pool.GroundTypes
import ClassLang.Proofs.Session.Memoization
import ClassLang.Proofs.Typing.TypeTerms

/-!
# Written types are canonical

The pool of a session arises by operations from the new one, wherever in the session a compilation
begins. So in all of its pools equality of ground types is equality of positions. While a unit is
typed, a type expression denotes a ground type, and two of them that are read as the same term denote
the same one, whatever happens in between.
-/

namespace ClassLang

open Relation (ReflTransGen)

/-! ## Pools of a session -/

theorem Pool.Passes.changes {ok : Pool → Prop} {p q : Pool} (h : Pool.Passes ok p q) :
    ReflTransGen Pool.Change p q := by
  induction h with
  | refl => exact .refl
  | step _ hchange _ ih => exact ih.tail hchange

/-- Of what is remembered, the pool changes by operations. -/
theorem Typing.Remembers.changes {σ : Type} {ctx : TypingContext σ} {m m' : Memory}
    (h : Typing.Remembers ctx m m') : ReflTransGen Pool.Change m.1 m'.1 := by
  induction h with
  | refl => exact .refl
  | tail _ hstep ih =>
      cases hstep.1 with
      | pool hchange => exact ih.tail hchange
      | template => exact ih
      | expansion => exact ih

/-! ## Moments -/

namespace Typing

variable {σ : Type} {ctx : TypingContext σ} {start s t : TypingState σ}

/-- The steps of typing a unit once its names are declared. The first ones are whole: a statement is
laid out or its signatures are declared, code or a type expression is typed, a template is applied to
the type that was denoted last, or the next expansion in the queue is walked. The others are the
single changes that these are made of, so that the states in which a body or an expansion that is
under way evaluates a type expression are reached as well. -/
inductive TypingStep (ctx : TypingContext σ) : TypingState σ → TypingState σ → Prop
  | layOut {s t : TypingState σ} {statement : NodeId}
      (h : layOutType ctx statement s = .ok () t) : TypingStep ctx s t
  | signatures {s t : TypingState σ} {statement : NodeId}
      (h : declareSignature ctx statement s = .ok () t) : TypingStep ctx s t
  | infer {s t : TypingState σ} {fuel : Nat} {node : NodeId} {r : TypeId}
      (h : inferWithin ctx fuel node s = .ok r t) : TypingStep ctx s t
  | evaluate {s t : TypingState σ} {fuel : Nat} {node : NodeId} {r : TypeId}
      (h : typeExprWithin ctx fuel node s = .ok r t) : TypingStep ctx s t
  | expand {s t u : TypingState σ} {fuel bound : Nat} {node : NodeId} {id : TemplateId}
      {arg r : TypeId} (harg : typeExprWithin ctx fuel node s = .ok arg t)
      (hid : id < t.templates.length)
      (h : expand ctx (typeExprWithin ctx bound) id [arg] t = .ok r u) : TypingStep ctx s u
  | walk {s t : TypingState σ} {id : TemplateId} {index : Nat} {rest : List (TemplateId × Nat)}
      {decl : NodeId} {e : Expansion} (hpending : s.pending = (id, index) :: rest)
      (he : expansionAt? s.templates id index = some (decl, e))
      (h : walkExpansion ctx id index { s with pending := rest } = .ok () t) : TypingStep ctx s t
  /-- The member bodies of the next expansion in the queue are entered. -/
  | enterBodies {s : TypingState σ} {id : TemplateId} {index : Nat}
      {rest : List (TemplateId × Nat)} {decl : NodeId} {e : Expansion}
      (hpending : s.pending = (id, index) :: rest)
      (he : expansionAt? s.templates id index = some (decl, e)) :
      TypingStep ctx s (enterBodies { s with pending := rest } id e)
  /-- A new expansion is made, and its members are to be declared. -/
  | enterExpansion {s t : TypingState σ} {fuel : Nat} {node : NodeId} {id : TemplateId}
      {template : Template} {name : String} {arg r : TypeId} {p : Pool}
      (harg : typeExprWithin ctx fuel node s = .ok arg t) (hid : id < t.templates.length)
      (hnew : Expanding t id template name arg r p) :
      TypingStep ctx s (enterExpansion t id template name arg r p)
  /-- The body of a type, a method, an arm or a lambda is entered. -/
  | push {s : TypingState σ} {frame : Scope} (hframe : frame.BindsValues) :
      TypingStep ctx s { s with scopes := s.scopes.push frame }
  /-- Such a body is left. -/
  | pop {s : TypingState σ} : TypingStep ctx s { s with scopes := s.scopes.pop }
  | bind {s : TypingState σ} {name : String} {r : TypeId} :
      TypingStep ctx s { s with scopes := s.scopes.bind name (.value r) }
  | addIvar {s : TypingState σ} {name : String} {r : TypeId} :
      TypingStep ctx s { s with scopes := s.scopes.addIvar name r }
  | pool {s : TypingState σ} {p : Pool} (h : s.pool.Change p) : TypingStep ctx s { s with pool := p }
  /-- A finding is recorded, which may open the walk of an included trait body. -/
  | record {s : TypingState σ} {table : TypeTable} (h : s.table.Records s.walk table) :
      TypingStep ctx s { s with table }
  /-- An included trait body is entered or left, or the declared result is set or put back. -/
  | setting {s : TypingState σ} {walk : InstanceId} {returnType : Option TypeId} :
      TypingStep ctx s { s with walk, returnType }

/-- Each step leads from one moment to another. -/
theorem Moment.step (h : Moment ctx start s) (hstep : TypingStep ctx s t) : Moment ctx start t := by
  cases hstep with
  | @layOut _ statement hrun =>
      have hkeeps : ((memoizing ctx).discipline .any).KeepsAt s (layOutType ctx statement)
          fun _ _ => True := (memoizingModule ctx).layOutType_keeps statement h.tidy False.elim
      exact (h.next hkeeps hrun).1
  | signatures hrun =>
      exact (h.next ((memoizingModule ctx).declareSignature_keeps _ h.tidy False.elim) hrun).1
  | @infer _ fuel node _ hrun =>
      have hkeeps : (memoizing ctx).Keeps .any (inferWithin ctx fuel node) :=
        WalkRules.inferWithin_keeps fuel node False.elim (fun _ _ => True.intro) True.intro
      exact (h.next (hkeeps s h.tidy) hrun).1
  | evaluate hrun => exact (h.read hrun).1
  | @expand t _ _ bound _ id arg _ harg hid hrun =>
      obtain ⟨ht, _, -, hfound⟩ := h.read harg
      have hargs : ∀ given ∈ [arg], t.pool.Written given :=
        List.forall_mem_singleton.mpr hfound.written
      have hkeeps : ((memoizing ctx).discipline .any).KeepsAt t
          (expand ctx (typeExprWithin ctx bound) id [arg]) fun _ _ => True :=
        (WalkRules.expand_keeps (WalkRules.typeExprWithin_keeps bound) ht.tidy hid hargs).trivial
      exact (ht.next hkeeps hrun).1
  | @walk _ _ _ rest _ _ _ he hrun =>
      have htidy : Tidy { s with pending := rest } := { h.tidy with }
      have htaken : Moment ctx start { s with pending := rest } := ⟨htidy, h.since⟩
      rw [walkExpansion_eq (s := { s with pending := rest }) he] at hrun
      exact (htaken.next (walkBodies_memoized htidy he) hrun).1
  | @enterBodies _ _ rest _ _ _ he =>
      have htidy : Tidy { s with pending := rest } := { h.tidy with }
      exact ⟨htidy.enterBodies he, h.since⟩
  | enterExpansion harg hid hnew =>
      obtain ⟨ht, _, -, hfound⟩ := h.read harg
      exact ⟨ht.tidy.enterExpansion hid hfound.written hnew,
        ht.since.trans (hnew.remembers ht.tidy hid hfound.written)⟩
  | push hframe => exact ⟨h.tidy.push hframe, h.since⟩
  | pop => exact ⟨h.tidy.pop, h.since⟩
  | bind => exact ⟨h.tidy.bind _ _, h.since⟩
  | addIvar => exact ⟨h.tidy.addIvar _ _, h.since⟩
  | pool hchange =>
      obtain ⟨ht, hexpands⟩ := h.tidy.changePool ctx hchange
      exact ⟨ht, h.since.trans hexpands.remembers⟩
  | record hrecords => exact ⟨h.tidy.records hrecords, h.since⟩
  | setting => exact ⟨{ h.tidy with }, h.since⟩

end Typing

namespace Session

variable {γ : Type} {backend : Backend γ} {store : ModuleStore} {fuel : Nat} {tree : SyntaxTree}
  {s : Pool × Session γ}

theorem Reachable.arises (h : Reachable backend store s) : s.1.Arises := by
  induction h with
  | start => exact .refl
  | next h _ ih =>
      exact ih.trans (h.sound.compileWith backend store (store.size + 1) _).passes.changes

/-- Typing a unit begins with nothing expanded. -/
theorem Begins.unexpanded (h : Begins backend store fuel tree s) :
    Typing.Unexpanded ({ pool := s.1, imports := s.2 } : TypingState (Session γ)) :=
  .initial h.sound.pool.initial_evolves h.sound.pool.indexed s.2

/-- While names are declared there is nothing expanded either. -/
theorem Begins.declareTypes (h : Begins backend store fuel tree s) (statements : List NodeId) :
    (Typing.remembering { tree, importer := importerWithin backend store fuel }
      Typing.Unexpanded).KeepsAt ({ pool := s.1, imports := s.2 } : TypingState (Session γ))
        (statements.forM (Typing.declareType { tree, importer := importerWithin backend store fuel }))
        fun _ _ => True :=
  Typing.declareTypes_memoized h.sound.pool.territory (importerWithin_lawful backend store fuel)
    statements (h.sound.confined backend store fuel tree) h.unexpanded

/-- Every compilation, nested ones included, begins with a pool that arises by operations. -/
theorem Begins.arises (h : Begins backend store fuel tree s) : s.1.Arises := by
  induction h with
  | unit h => exact Reachable.arises h
  | imported h _ hbefore _ _ ih =>
      obtain ⟨-, hremembers, -⟩ := (Begins.declareTypes h _).ok hbefore
      exact ih.trans (Typing.Remembers.changes hremembers)

/-- Interning is canonical. In every pool that arises by operations, ground types are equal exactly
if they are the same. While a unit is typed, wherever in a session that begins, the states between
its steps are moments: those while names are declared are, and each further `TypingStep`, be it whole
or one of those that bodies and expansions are made of, leads from one to another. At any moment,
what a type expression denotes is ground; and at any two moments, type expressions that are the same
but for names that are bound to the same types and templates denote the same type. -/
theorem ground_types_canonical :
    (∀ p : Pool, p.Arises → ∀ a b, p.Ground a → p.Ground b → (p.sameType a b = true ↔ a = b)) ∧
    ∀ {γ : Type} (backend : Backend γ) (store : ModuleStore) (fuel : Nat) (tree : SyntaxTree)
      (s : Pool × Session γ), Begins backend store fuel tree s →
      let ctx : TypingContext (Session γ) := { tree, importer := importerWithin backend store fuel }
      let start : TypingState (Session γ) := { pool := s.1, imports := s.2 }
      (∀ before after u, tree.statements tree.root = before ++ after →
        before.forM (Typing.declareType ctx) start = .ok () u → Typing.Moment ctx start u) ∧
      (∀ u v, Typing.Moment ctx start u → Typing.TypingStep ctx u v → Typing.Moment ctx start v) ∧
      (∀ u, Typing.Moment ctx start u → u.pool.Arises) ∧
      (∀ u bound node r v, Typing.Moment ctx start u →
        Typing.typeExprWithin ctx bound node u = .ok r v → v.pool.Ground r) ∧
      ∀ u₁ u₂ bound₁ bound₂ node₁ node₂ r₁ r₂ v₁ v₂,
        Typing.Moment ctx start u₁ → Typing.typeExprWithin ctx bound₁ node₁ u₁ = .ok r₁ v₁ →
        Typing.Moment ctx start u₂ → Typing.typeExprWithin ctx bound₂ node₂ u₂ = .ok r₂ v₂ →
        Typing.Remembers ctx v₁.memory v₂.memory →
        Typing.termOf? ctx bound₁ node₁ u₁ = Typing.termOf? ctx bound₂ node₂ u₂ → r₁ = r₂ := by
  refine ⟨fun p hp a b ha hb => hp.sameType_iff_eq_of_ground ha hb, ?_⟩
  intro γ backend store fuel tree s hbegins ctx start
  have harises (u) (hu : Typing.Moment ctx start u) : u.pool.Arises :=
    hbegins.arises.trans (Typing.Remembers.changes hu.since)
  refine ⟨fun before _ u _ hrun => ?_, fun u v hu hstep => hu.step hstep, harises, ?_, ?_⟩
  · obtain ⟨hu, hremembers, -⟩ := (hbegins.declareTypes before).ok hrun
    exact ⟨hu.toTidy, hremembers⟩
  · intro u bound node r v hu hrun
    obtain ⟨hv, _, -, hfound⟩ := hu.read hrun
    exact (harises v hv).ground_iff.mpr hfound.written
  · intro u₁ u₂ _ _ _ _ r₁ r₂ v₁ v₂ hu₁ hrun₁ hu₂ hrun₂ hlater hterm
    exact hu₁.eq_of_termOf?_eq hu₂ hrun₁ hrun₂ hterm hlater

/-- A unit with a generic class `Box`, and two functions that each take a `*Box<Integer>`. -/
def boxPointersUnit : SyntaxTree :=
  .ofStatements #[.namedType "Integer", .templatedType "Box" [0], .pointerType 1,
    .namedType "Integer", .templatedType "Box" [3], .pointerType 4, .namedType "T",
    .ivarDecl "value" 6, .seq [7], .classDef "Box" (some "T") 8, .typed "a" 2, .seq [],
    .methodDef "first" [10] none 11, .typed "b" 5, .seq [], .methodDef "second" [13] none 14]
    [9, 12, 15]

/-- What `boxPointersUnit` is typed with. -/
def boxPointersContext : TypingContext (Session Unit) where
  tree := boxPointersUnit
  importer := importerWithin Backend.typesOnly {} 1

/-- A new session in which `boxPointersUnit` is typed. -/
def boxPointersStart : TypingState (Session Unit) :=
  { pool := Pool.initial, imports := { output := () } }

/-- Whether a term is that of `*Box<Integer>` in `boxPointersUnit`. -/
def isBoxPointer : TypeTerm → Bool
  | .pointer (.applied id args) => id == 0 && match args with
    | [] => false
    | arg :: rest => rest.isEmpty && match arg with
      | .named t => t == 0
      | _ => false
  | _ => false

theorem isBoxPointer_iff {term : TypeTerm} :
    isBoxPointer term = true ↔ term = .pointer (.applied 0 [.named 0]) := by
  refine ⟨fun h => ?_, fun h => h ▸ rfl⟩
  rcases term with _ | (_ | _ | ⟨id, _ | ⟨_ | _ | _ | _, rest⟩⟩ | _) | _ | _ <;>
    simp_all [isBoxPointer]

/-- The first `*Box<Integer>` makes the type. The second one, which is evaluated after signatures
were declared, denotes the same type. -/
theorem ground_types_canonical_pointers :
    ∃ (u v w x : TypingState (Session Unit)) (r r' : TypeId),
      [9, 12, 15].forM (Typing.declareType boxPointersContext) boxPointersStart = .ok () u ∧
      Typing.typeExprWithin boxPointersContext 4 2 u = .ok r v ∧ u.pool.size < r ∧
      Typing.TypingStep boxPointersContext v w ∧
      Typing.typeExprWithin boxPointersContext 4 5 w = .ok r' x ∧ r = r' ∧ x.pool.Ground r' := by
  have hcomputed : okWith (fun reads _ => (reads.1, reads.2.1.2, isBoxPointer reads.2.1.1,
        isBoxPointer reads.2.2.1))
      ((do
        [9, 12, 15].forM (Typing.declareType boxPointersContext)
        let size := (← get).pool.size
        let first ← Typing.readTypeWithin boxPointersContext 4 2
        Typing.declareSignature boxPointersContext 12
        let second ← Typing.readTypeWithin boxPointersContext 4 5
        pure (size, first, second) : Typing _ _) boxPointersStart) = some (8, 9, true, true) := by
    decide +kernel
  obtain ⟨reads, _, hrun, hreads⟩ := exists_of_okWith hcomputed
  obtain ⟨⟨⟩, u, hnames, hrun⟩ := bind_eq_ok.mp hrun
  rw [get_bind_apply] at hrun
  obtain ⟨⟨term, r⟩, v, hfirst, hrun⟩ := bind_eq_ok.mp hrun
  obtain ⟨⟨⟩, w, hdeclared, hrun⟩ := bind_eq_ok.mp hrun
  obtain ⟨⟨term', r'⟩, x, hsecond, hpure⟩ := bind_eq_ok.mp hrun
  obtain rfl : (u.pool.size, (term, r), term', r') = reads := by cases hpure; rfl
  have hbegins : Begins Backend.typesOnly {} 1 boxPointersUnit (Pool.initial, { output := () }) :=
    .unit (.start ()) boxPointersUnit
  obtain ⟨-, hcanonical⟩ := ground_types_canonical
  obtain ⟨hbefore, hstep, -, hground, hsame⟩ := hcanonical _ _ _ _ _ hbegins
  have hu := hbefore [9, 12, 15] [] u rfl hnames
  have hrun₁ := Typing.typeExprWithin_eq_ok.mpr ⟨term, hfirst⟩
  have hrun₂ := Typing.typeExprWithin_eq_ok.mpr ⟨term', hsecond⟩
  have hv := hstep u v hu (.evaluate hrun₁)
  have hw := hstep v w hv (.signatures hdeclared)
  have hlater : Typing.Remembers boxPointersContext v.memory x.memory :=
    (((Typing.Moment.refl hv.tidy).step (.signatures hdeclared)).step (.evaluate hrun₂)).since
  obtain ⟨hsize, hr, hterm, hterm'⟩ : u.pool.size = 8 ∧ r = 9 ∧ isBoxPointer term ∧
      isBoxPointer term' := by simpa using hreads
  obtain rfl := isBoxPointer_iff.mp hterm
  obtain rfl := isBoxPointer_iff.mp hterm'
  have hsameTerm := (Typing.termOf?_of_read hfirst).trans (Typing.termOf?_of_read hsecond).symm
  exact ⟨u, v, w, x, r, r', hnames, hrun₁, by simp [hsize, hr], .signatures hdeclared, hrun₂,
    hsame u w _ _ _ _ _ _ v x hu hrun₁ hw hrun₂ hlater hsameTerm, hground w _ _ _ x hw hrun₂⟩

end Session

end ClassLang
