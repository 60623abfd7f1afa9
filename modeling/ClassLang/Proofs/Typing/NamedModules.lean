import ClassLang.Proofs.Typing.CaseNames
import ClassLang.Proofs.Typing.CheckedModules
import ClassLang.Proofs.Typing.MemoizedModules

/-!
# A module builds cases by their names

The steps of typing a module, down to `calculate`. While names are declared there are no expansions
yet, so an import may change the pool in any way, as long as what modules offer goes by its names.
From then on all steps keep the rules of `naming`.
-/

namespace ClassLang

/-- What is promised of whoever compiles imports: if types go by the names under which modules offer
them, then so it is after an import, whether it succeeds or fails. -/
def Importer.KeepsNames {σ : Type} (importer : Importer σ) : Prop :=
  ∀ path dotted p imports N, p.Territory N → importer.ExportsFit p N imports →
    importer.Spelled p imports →
      importer.Spelled (finalState (importer.resolve path dotted (p, imports))).1
        (finalState (importer.resolve path dotted (p, imports))).2

namespace Typing

variable {σ : Type} {ctx : TypingContext σ} {p₀ : Pool} {N : TypeId → Prop} {s t : TypingState σ}

/-- Types go by the names under which modules offer them, also after a failure. -/
def spelling (ctx : TypingContext σ) : Discipline Halt (TypingState σ) where
  inv _ := True
  le _ _ := True
  fails _ _ t := ctx.importer.Spelled t.pool t.imports
  refl _ := trivial
  trans _ _ := trivial
  fails_trans _ h := h

/-! ## Names -/

/-- What holds while names are declared. -/
structure Declaring (ctx : TypingContext σ) (s : TypingState σ) : Prop extends Spelled ctx s where
  none : ∀ id index, expansionAt? s.templates id index = none

namespace Declaring

/-- A module begins without templates. -/
theorem initial {p : Pool} (hbuiltins : Pool.initial.Evolves p) (hindexed : p.Indexed) {imports : σ}
    (himports : ctx.importer.Spelled p imports) : Declaring ctx { pool := p, imports } where
  known := ⟨⟨by simp, by simp⟩, by simp⟩
  builtins := hbuiltins
  indexed := hindexed
  names := ⟨by simp [Scope.Binds], by simp⟩
  exports := by simp [Exports.Spelled]
  imports := himports
  expansions he := by simp [expansionAt?] at he
  targets ht := by simp at ht
  none := by simp [expansionAt?]

/-- Operations on the pool alone, while there are no expansions. -/
theorem passes (h : Declaring ctx s) {ok : Pool → Prop} {q : Pool}
    (hpasses : Pool.Passes ok s.pool q) : Declaring ctx { s with pool := q } := by
  suffices ∀ p q, Pool.Passes ok p q → Declaring ctx { s with pool := p } →
      Declaring ctx { s with pool := q } from this s.pool q hpasses h
  intro p q hpasses
  induction hpasses with
  | refl => exact id
  | step _ hchange _ ih =>
      intro hs
      have hnext := (ih hs).toSpelled.changePool hchange fun {id index decl e} he =>
        absurd ((h.none id index).symm.trans he) (by simp)
      exact { hnext with none := h.none }

/-- A class or data type is declared under its name. -/
theorem nameNew (h : Declaring ctx s) {name : String} {r : TypeId} {q : Pool}
    (hchange : s.pool.Change q) (hr : q.GoesBy name r) :
    Declaring ctx { s with
      pool := q
      scopes := s.scopes.bindModule name (.type r)
      exports := s.exports.setType name r } :=
  have hpasses : Pool.Passes (fun _ => True) s.pool q := .single hchange trivial
  have hmade : Declaring ctx { s with pool := q } := h.passes hpasses
  { hmade.toSpelled.nameType hr with none := h.none }

end Declaring

/-- A class or data type is declared under its name. -/
theorem declareTypeName_spelled {statement : NodeId} {name : String} {f : Pool → TypeId × Pool}
    (hs : Declaring ctx s) (hchange : s.pool.Change (f s.pool).2)
    (hr : (f s.pool).2.GoesBy name (f s.pool).1) :
    (spelling ctx).KeepsAt s (do declareTypeName statement name (← makeType f))
      fun _ t => Declaring ctx t :=
  .of_ok rfl trivial trivial { hs.nameNew hchange hr with }

/-- A generic type is declared as a template. -/
theorem declareTemplate_spelled {statement : NodeId} {name param : String} (hs : Declaring ctx s) :
    (spelling ctx).KeepsAt s (declareTemplate statement name param) fun id t =>
      Declaring ctx t ∧ (t.templates.map (·.decl))[id]? = some statement := by
  let new : Template := { name, param, decl := statement }
  have hcount : s.templates.length < (s.templates ++ [new]).length := by simp
  have hat (id index : Nat) : expansionAt? (s.templates ++ [new]) id index = Option.none :=
    (expansionAt?_append_new name param statement).trans (hs.none id index)
  have hstands {name : String} {r : TypeId} (h : StandsFor s.templates name r) :
      StandsFor (s.templates ++ [new]) name r := by
    obtain ⟨template, hmem, h⟩ := h
    exact ⟨template, List.mem_append_left _ hmem, h⟩
  have hnames : s.scopes.Binds (Spells ctx.tree (s.templates ++ [new]) s.pool) :=
    hs.names.mono fun _ _ hb => hb.mono (.refl _) (by simp) hstands
  refine .of_ok rfl trivial trivial ⟨{ hs with
    known := (hs.known.mono (Nat.le_of_lt hcount)).registerTemplate hcount
    names := hnames.registerTemplate
    expansions := fun he => ?_
    targets := fun ht hbuilt => (hs.targets ht hbuilt).mono (.refl _) hstands
    none := hat }, by simp⟩
  rw [hat] at he
  cases he

/-- An import is bound to the last part of its path. -/
theorem importPath_spelled (hT : p₀.Territory N) (hlawful : ctx.importer.Lawful)
    (hkeeps : ctx.importer.KeepsNames) (path : List String) (hconfined : Confined ctx p₀ N s)
    (hs : Declaring ctx s) :
    (spelling ctx).KeepsAt s (importPath ctx path) fun _ t => Declaring ctx t := by
  unfold importPath
  split
  · exact .of_error rfl hs.imports
  · have hterritory := hconfined.pool.inner hT
    have hfits := hconfined.exportsFit
    obtain ⟨-, hpasses, -⟩ :=
      hlawful path (".".intercalate path) s.pool s.imports _ hterritory hfits
    have himports :=
      hkeeps path (".".intercalate path) s.pool s.imports _ hterritory hfits hs.imports
    refine .bind (P := fun _ t => Declaring ctx t) ?_ fun id t _ _ ht => .of_ok rfl trivial trivial
      { ht with
        known := ht.known.bindModule (by simp)
        names := ht.names.bindModule trivial }
    unfold Discipline.KeepsAt
    cases hresolve : ctx.importer.resolve path (".".intercalate path) (s.pool, s.imports) with
    | error h r =>
        simp only [hresolve] at himports ⊢
        exact himports
    | ok id r =>
        simp only [hresolve] at himports hpasses ⊢
        exact ⟨trivial, trivial, { hs.passes hpasses with imports := himports }⟩

theorem declareType_spelled (hT : p₀.Territory N) (hlawful : ctx.importer.Lawful)
    (hkeeps : ctx.importer.KeepsNames) (statement : NodeId) (hconfined : Confined ctx p₀ N s)
    (hs : Declaring ctx s) :
    (spelling ctx).KeepsAt s (declareType ctx statement) fun _ t => Declaring ctx t := by
  unfold declareType
  split
  · exact .of_ok rfl trivial trivial { hs with }
  · exact importPath_spelled hT hlawful hkeeps _ hconfined hs
  · exact .of_ok rfl trivial trivial { hs with
      known := hs.known.registerTrait
      names := hs.names.registerTrait }
  · exact .bind_read trivial (b := _) rfl (declareTypeName_spelled (f := (·.newReference _)) hs
      (.newReference _ _) (.newReference _ _))
  · exact .bind_read trivial (b := _) rfl (declareTypeName_spelled (f := (·.newData _)) hs
      (.newData _ _) (.newData _ _))
  · exact .bind (declareTemplate_spelled hs) fun _ t _ _ ht => .pure trivial ht.1
  · next hnode =>
      refine .bind (declareTemplate_spelled hs) fun id t _ _ ⟨ht, hid⟩ => ?_
      refine (Discipline.forM_keeps (P := fun u => Declaring ctx u ∧
        (u.templates.map (·.decl))[id]? = some statement) _ trivial ⟨ht, hid⟩ ?_).weaken
          fun _ _ _ _ h => h.1
      rintro ⟨decl, index⟩ hmem u - - ⟨hu, hid⟩
      dsimp only
      split
      · next hcase =>
          -- the case is named as the declaration names it at this index
          obtain ⟨-, -, hindex⟩ := List.mem_zipIdx hmem
          have hat := List.getElem?_eq_some_iff.mpr ⟨_, hindex.symm⟩
          have hname := ctx.tree.caseName?_eq hnode hat hcase
          refine .of_ok rfl trivial trivial ⟨{ hu with
            known := hu.known.bindModule fun _ _ heq => ?_
            names := hu.names.bindModule ⟨statement, hid, hname⟩ }, hid⟩
          cases heq
          simpa using (List.getElem?_eq_some_iff.mp hid).1
      · exact .pure trivial ⟨hu, hid⟩
  · exact .pure trivial hs

/-- All names are declared. -/
theorem declareTypes_spelled (hT : p₀.Territory N) (hlawful : ctx.importer.Lawful)
    (hkeeps : ctx.importer.KeepsNames) (statements : List NodeId) (hconfined : Confined ctx p₀ N s)
    (hs : Declaring ctx s) :
    (spelling ctx).KeepsAt s (statements.forM (declareType ctx)) fun _ t => Declaring ctx t := by
  refine (Discipline.forM_keeps (P := fun t => Confined ctx p₀ N t ∧ Declaring ctx t) statements
    trivial ⟨hconfined, hs⟩ fun statement _ t _ _ ⟨hconfined, ht⟩ => ?_).weaken fun _ _ _ _ h => h.2
  exact ((declareType_spelled hT hlawful hkeeps statement hconfined ht).and
    (declareType_confined hT hlawful statement hconfined).succeeds).weaken
      fun _ _ _ _ h => ⟨h.2.1, h.1⟩

/-! ## Expansions -/

/-- The member bodies of an expansion are walked. -/
theorem walkExpansion_spelled (id : TemplateId) (index : Nat) (hs : SpelledFor ctx .any s) :
    ((naming ctx).discipline .any).KeepsAt s (walkExpansion ctx id index) fun _ _ => True := by
  unfold walkExpansion
  refine .bind_read hs (b := s) rfl ?_
  dsimp only
  split
  · next body expansion _ hexpansion =>
      have he := expansionAt?_eq_some_iff.2 ⟨rfl, hexpansion⟩
      obtain ⟨arg, hargs, harg⟩ := (hs.1.expansions he).arg
      -- the type parameter stands for the argument
      have hstands : StandsFor s.templates (s.templates.getD id default).param arg :=
        .of_expansionAt? he hargs
      have hentered : SpelledFor ctx .any (enterBodies s id expansion) := by
        refine ⟨{ hs.1 with
          known := ⟨hs.1.known.base, fun other hother => ?_⟩
          names := ⟨hs.1.names.base, fun other hother => ?_⟩ }, hs.2⟩ <;>
          rw [List.mem_singleton.mp hother]
        · exact Scope.BindsValues.forType.templatesBelow.bind (by simp)
        · refine (Scope.BindsValues.forType.binds fun _ _ => trivial).bind (.inr ?_)
          rw [hargs]
          exact ⟨harg, hstands⟩
      refine WalkRules.within_keeps ⟨hentered, fun t ht hle => ?_, fun _ h => h⟩
        ((naming ctx).walkMembers_keeps not_false body _ hentered)
      exact ⟨⟨hs.1.goBack ht.1 (l := .any) { hle with }, ht.2⟩, { hle with }⟩
  · exact .pure hs trivial

/-- The queue is worked off. -/
theorem drainPending_spelled (fuel : Nat) (hs : SpelledFor ctx .any s) :
    ((naming ctx).discipline .any).KeepsAt s (drainPending ctx fuel) fun _ _ => True := by
  induction fuel generalizing s with
  | zero =>
      unfold drainPending
      refine .bind_read hs (b := s) rfl ?_
      split
      · exact WalkRules.Keeps.outOfFuel s hs
      · exact .pure hs trivial
  | succ fuel ih =>
      unfold drainPending
      refine .bind_read hs (b := s) rfl ?_
      split
      · exact .pure hs trivial
      · next id index rest _ =>
          let taken : TypingState σ := { s with pending := rest }
          have htaken : SpelledFor ctx .any taken := ⟨{ hs.1 with }, hs.2⟩
          refine .of_later (t := taken) (walkExpansion ctx id index >>= fun _ =>
            drainPending ctx fuel) rfl (.of_frame rfl rfl rfl) ?_
          exact .bind (walkExpansion_spelled id index htaken) fun _ t ht _ _ => ih ht

/-! ## The whole module -/

/-- What keeps the rules of `naming` leaves types go by the names under which modules offer them. -/
theorem spelling_of_keeps {α : Type} {step : Typing σ α} {Q : α → TypingState σ → Prop}
    (hs : SpelledFor ctx .any s) (h : ((naming ctx).discipline .any).KeepsAt s step Q) :
    (spelling ctx).KeepsAt s step fun _ t => SpelledFor ctx .any t := by
  cases hrun : step s with
  | error e t =>
      have hfails : s.pool.Evolves t.pool ∧ t.imports = s.imports := (h.error hrun).1
      refine .of_error hrun ?_
      show ctx.importer.Spelled t.pool t.imports
      rw [hfails.2]
      exact hs.1.imports.mono hfails.1
  | ok a t => exact .of_ok hrun trivial trivial (h.ok hrun).1

/-- Typing a module builds cases by their names. -/
theorem calculate_spelled (hT : p₀.Territory N) (hlawful : ctx.importer.Lawful)
    (hkeeps : ctx.importer.KeepsNames) (hconfined : Confined ctx p₀ N s) (hs : Declaring ctx s) :
    (spelling ctx).KeepsAt s (calculate ctx) fun typed t => typed = t.typed ∧ Spelled ctx t := by
  rw [calculate_eq_drain]
  unfold typeStatements
  have hnames := declareTypes_spelled hT hlawful hkeeps (ctx.tree.statements ctx.tree.root)
    hconfined hs
  refine .bind (P := fun _ t => SpelledFor ctx .any t)
    (.bind hnames fun _ t _ _ ht => ?_) fun _ u _ _ hu => ?_
  · have htyped : SpelledFor ctx .any t :=
      ⟨ht.toSpelled, fun _ _ id index decl e he =>
        absurd ((ht.none id index).symm.trans he) (by simp)⟩
    exact spelling_of_keeps htyped ((naming ctx).typeDeclared_keeps not_false t htyped)
  · refine .bind (spelling_of_keeps hu (drainPending_spelled _ hu)) fun _ w _ _ hw => ?_
    exact .bind_read trivial (b := w) rfl (.pure trivial ⟨rfl, hw.1⟩)

end Typing

end ClassLang
