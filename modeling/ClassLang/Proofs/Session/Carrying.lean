import ClassLang.Proofs.Session.CaseNames
import ClassLang.Lowering.Generate

/-!
# What goes with the types of a session

While a unit is typed, the pool of types grows, and each import brings about code. What is said of the
output and the types together holds after the unit compiled, if it holds before, stays true while the
pool grows, and is kept by generating one module: `Carried.compileWith`.
-/

namespace ClassLang

namespace Typing

variable {σ : Type} {ctx : TypingContext σ} {p₀ : Pool} {N : TypeId → Prop} {s t : TypingState σ}

theorem typeNamed_confined (hT : p₀.Territory N) (hs : Confined ctx p₀ N s) :
    (confinement ctx p₀ N).KeepsAt s (typeNamed ctx) fun _ _ => True := by
  refine .bind (Discipline.forM_keeps (P := fun _ => True) _ hs True.intro
    fun statement _ u hu _ _ => layOutType_confined hT hu) fun _ u hu _ _ => ?_
  refine .bind (Discipline.forM_keeps (P := fun _ => True) _ hu True.intro
    fun statement _ v hv _ _ => declareSignature_confined hT hv) fun _ v hv _ _ => ?_
  refine .bind (inferWithin_confined hT _ _ v hv) fun _ w hw _ _ => ?_
  refine .bind (drainPending_confined hT _ hw) fun _ x hx _ _ => ?_
  exact .bind_read hx (b := x) rfl (.pure hx True.intro)

/-- What is said of imports and the pool that goes with them holds after statements were declared if
resolving what they import keeps it. -/
theorem declareTypes_keeps_imports (inv : Pool → σ → Prop) (hT : p₀.Territory N)
    (hlawful : ctx.importer.Lawful) (hmono : ∀ {p q imports}, p.Sound → q.Sound → p.Evolves q →
      inv p imports → inv q imports) {statements : List NodeId}
    (hresolve : ∀ statement ∈ statements, ∀ {path dotted u id p imports},
      ctx.tree.node statement = .importModule path → Confined ctx p₀ N u → inv u.pool u.imports →
        ctx.importer.resolve path dotted (u.pool, u.imports) = .ok id (p, imports) → inv p imports)
    (hs : Confined ctx p₀ N s) (hinv : inv s.pool s.imports)
    (hrun : statements.forM (declareType ctx) s = .ok () t) :
    Confined ctx p₀ N t ∧ inv t.pool t.imports := by
  induction statements generalizing s with
  | nil =>
      cases hrun
      exact ⟨hs, hinv⟩
  | cons statement statements ih =>
      obtain ⟨_, v, hstep, hrest⟩ := bind_eq_ok.mp hrun
      obtain ⟨hv, hle, -⟩ := (declareType_confined hT hlawful statement hs).ok hstep
      rw [List.forall_mem_cons] at hresolve
      refine ih hresolve.2 hv ?_ hrest
      by_cases himport : ∃ path, ctx.tree.node statement = .importModule path
      · obtain ⟨path, hnode⟩ := himport
        rw [declareType, hnode] at hstep
        cases hlast : path.getLast? with
        | none =>
            simp only [importPath, hlast] at hstep
            cases hstep
        | some last =>
            simp only [importPath, hlast] at hstep
            obtain ⟨id, w, hpath, hbind⟩ := bind_eq_ok.mp hstep
            cases himported : ctx.importer.resolve path (".".intercalate path)
                (s.pool, s.imports) with
            | error h after => simp [himported] at hpath
            | ok id after =>
                simp only [himported] at hpath
                cases hpath
                cases hbind
                exact hresolve.1 hnode hs hinv himported
      · have hquiet := (declareType_quiet (s := s)
          fun path h => himport ⟨path, h⟩).ok hstep
        rw [show v.imports = s.imports from hquiet.2.1]
        exact hmono hs.pool.sound hv.pool.sound hle.passes.evolves hinv

/-- What is said of imports and the pool that goes with them holds in the end if resolving the imports
of the unit keeps it. -/
theorem calculate_keeps_imports (inv : Pool → σ → Prop) (hT : p₀.Territory N)
    (hlawful : ctx.importer.Lawful) (hmono : ∀ {p q imports}, p.Sound → q.Sound → p.Evolves q →
      inv p imports → inv q imports)
    (hresolve : ∀ statement ∈ ctx.tree.statements ctx.tree.root, ∀ {path dotted u id p imports},
      ctx.tree.node statement = .importModule path → Confined ctx p₀ N u → inv u.pool u.imports →
        ctx.importer.resolve path dotted (u.pool, u.imports) = .ok id (p, imports) → inv p imports)
    (hs : Confined ctx p₀ N s) (hnamed : Named ctx (fun _ _ => True) [] s)
    (hinv : inv s.pool s.imports) {typed : TypedModule} (hrun : calculate ctx s = .ok typed t) :
    inv t.pool t.imports := by
  rw [calculate_eq] at hrun
  obtain ⟨_, u, hdeclare, hrest⟩ := bind_eq_ok.mp hrun
  obtain ⟨hu, hinv'⟩ :=
    declareTypes_keeps_imports inv hT hlawful hmono hresolve hs hinv hdeclare
  obtain ⟨ht, hle, -⟩ := (typeNamed_confined hT hu).ok hrest
  have himports : t.imports = u.imports := by
    have hnames : (Discipline.onSuccess Halt σ).onImports.KeepsAt s
        ((ctx.tree.statements ctx.tree.root).forM (declareType ctx)) fun _ t =>
          Named ctx (fun _ _ => True) ([] ++ ctx.tree.statements ctx.tree.root) t ∧
            ∀ statement ∈ ctx.tree.statements ctx.tree.root, ∀ path,
              ctx.tree.node statement = .importModule path → True :=
      declareTypes_follows (Q := fun _ _ => True) (fun _ _ _ _ => True.intro)
        (fun _ _ _ _ _ _ h => h) _ hnamed True.intro
        fun _ _ _ _ _ => (Discipline.onSuccess_run _ _).weaken fun _ _ _ _ _ => True.intro
    exact ((typeNamed_checks (hnames.ok hdeclare).2.2.1).ok hrest).2.1
  rw [himports]
  exact hmono hu.pool.sound ht.pool.sound hle.passes.evolves hinv'

end Typing

namespace Session

variable {store : ModuleStore} {fuel : Nat} {tree : SyntaxTree}

/-- A unit that compiles was typed, and then its code was generated. -/
theorem exists_of_compileWith {importer : Importer (Session Output)}
    {s after : Pool × Session Output} {typed : TypedModule}
    (hrun : compileWith Backend.code importer tree s = .ok typed after) :
    ∃ t o, Typing.calculate { tree, importer } { pool := s.1, imports := s.2 } = .ok typed t ∧
      Emit.generate { tree, pool := t.pool, typed } t.imports.output = .ok () o ∧
        after = (t.pool, { t.imports with output := o }) := by
  unfold compileWith at hrun
  cases hcalc : Typing.calculate { tree, importer } { pool := s.1, imports := s.2 } with
  | error halt t =>
      simp only [hcalc] at hrun
      cases hrun
  | ok typed' t =>
      simp only [hcalc] at hrun
      cases hgenerate : Backend.code.generate tree t.pool typed' t.imports.output with
      | error halt o =>
          simp only [hgenerate] at hrun
          cases hrun
      | ok _ o =>
          simp only [hgenerate] at hrun
          cases hrun
          exact ⟨t, o, rfl, hgenerate, rfl⟩

/-- It stays true while types are made, and generating a module keeps it. -/
structure Carried (inv : Pool → Output → Prop) : Prop where
  mono : ∀ {p q : Pool} {o : Output}, p.Sound → q.Sound → p.Evolves q → inv p o → inv q o
  generate : ∀ (ctx : LoweringContext) {o o' : Output}, inv ctx.pool o →
    Emit.generate ctx o = .ok () o' → inv ctx.pool o'

/-- Importing keeps what is said of the types and the output. -/
def CarriedBy (importer : Importer (Session Output)) (inv : Pool → Output → Prop) : Prop :=
  ∀ {path dotted p N session id q after}, p.Territory N → importer.ExportsFit p N session →
    inv p session.output → importer.resolve path dotted (p, session) = .ok id (q, after) →
      inv q after.output

namespace Carried

variable {inv : Pool → Output → Prop}

/-- Declaring statements of a unit keeps it, if importing does. -/
theorem declared {p : Pool} {N : TypeId → Prop} {session : Session Output}
    (h : Carried inv) (hkeeps : CarriedBy (importerWithin Backend.code store fuel) inv)
    (hT : p.Territory N) (hfits : (importerWithin Backend.code store fuel).ExportsFit p N session)
    (ho : inv p session.output) {statements : List NodeId} {t : TypingState (Session Output)}
    (hrun : statements.forM (Typing.declareType
        { tree, importer := importerWithin Backend.code store fuel })
      { pool := p, imports := session } = .ok () t) : inv t.pool t.imports.output :=
  (Typing.declareTypes_keeps_imports (fun p session => inv p session.output) hT
    (importerWithin_lawful Backend.code store fuel)
    (fun {_ _ session} => h.mono (o := session.output))
    (fun _ _ _ _ _ _ _ _ _ hu ho hrun => hkeeps (hu.pool.inner hT) hu.exportsFit ho hrun)
    (.initial hT hfits) ho hrun).2

/-- Typing a unit keeps it, if importing does. -/
theorem calculated {p : Pool} {N : TypeId → Prop} {session : Session Output}
    (h : Carried inv) (hkeeps : CarriedBy (importerWithin Backend.code store fuel) inv)
    (hT : p.Territory N) (hfits : (importerWithin Backend.code store fuel).ExportsFit p N session)
    (ho : inv p session.output) {typed : TypedModule} {t : TypingState (Session Output)}
    (hrun : Typing.calculate { tree, importer := importerWithin Backend.code store fuel }
      { pool := p, imports := session } = .ok typed t) : inv t.pool t.imports.output :=
  Typing.calculate_keeps_imports (fun p session => inv p session.output) hT
    (importerWithin_lawful Backend.code store fuel)
    (fun {_ _ session} => h.mono (o := session.output))
    (fun _ _ _ _ _ _ _ _ _ hu ho hrun => hkeeps (hu.pool.inner hT) hu.exportsFit ho hrun)
    (.initial hT hfits)
    (.initial ⟨fun _ _ _ => True.intro, fun _ _ _ _ _ => True.intro⟩) ho hrun

/-- Compiling a unit keeps it, if importing does. -/
theorem compileWith {p q : Pool} {N : TypeId → Prop} {session after : Session Output}
    (h : Carried inv) (hkeeps : CarriedBy (importerWithin Backend.code store fuel) inv)
    (hT : p.Territory N) (hfits : (importerWithin Backend.code store fuel).ExportsFit p N session)
    (ho : inv p session.output) {typed : TypedModule}
    (hrun : compileWith Backend.code (importerWithin Backend.code store fuel) tree (p, session) =
      .ok typed (q, after)) : inv q after.output := by
  obtain ⟨t, o, hcalc, hgenerate, hafter⟩ := exists_of_compileWith hrun
  cases hafter
  exact h.generate { tree, pool := t.pool, typed }
    (h.calculated hkeeps hT hfits ho hcalc) hgenerate

/-- Imports keep it, however deep they nest. -/
theorem importerWithin (h : Carried inv) (store : ModuleStore) (fuel : Nat) :
    CarriedBy (importerWithin Backend.code store fuel) inv := by
  induction fuel with
  | zero =>
      intro path dotted p N session id q after _ _ _ hrun
      cases hrun
  | succ fuel ih =>
      intro path dotted p N session id q after hT hfits ho hrun
      have hcases := resolve_resolved Backend.code store fuel path dotted p session
      rw [hrun] at hcases
      cases hcases with
      | known => exact ho
      | @compiled tree typed after hload hcompile =>
          -- the unit is compiled while its import is in progress, which does not matter here
          let marked : Session Output := { session with inProgress := dotted :: session.inProgress }
          have hfits' : (Session.importerWithin Backend.code store fuel).ExportsFit p N marked := by
            intro id e he
            rw [importerWithin_exports] at he
            exact hfits id e (by rw [importerWithin_exports]; exact he)
          have ho' : inv p marked.output := ho
          have hafter : inv after.1 after.2.output := h.compileWith ih hT hfits' ho' hcompile
          exact hafter

/-- A unit that compiles in a sound state keeps it. -/
theorem compileUnit (h : Carried inv) {s after : Pool × Session Output} (hs : Sound s)
    (ho : inv s.1 s.2.output) {typed : TypedModule}
    (hrun : compileUnit Backend.code store tree s = .ok typed after) : inv after.1 after.2.output :=
  h.compileWith (h.importerWithin store (store.size + 1)) hs.pool.territory hs.exportsFit ho hrun

end Carried

end Session

end ClassLang
