import ClassLang.Proofs.Typing.WalkedBodies

/-!
# Layouts and signatures keep the rules of a walk

Two more kinds of changes come up while the top-level statements of a module are laid out and get
their signatures: the cases of a data type get names in the module's frame, and functions and types
are exported. `ModuleRules` are rules of a walk that respect these as well. Whatever such rules there
are, laying out a statement and declaring its signatures keep them.
-/

namespace ClassLang.Typing

variable {σ : Type}

/-- If the declaration is that of a plain type, a type of that kind was recorded for it. -/
def OwnerFits (tree : SyntaxTree) (s : TypingState σ) (decl : NodeId) : Prop :=
  (tree.node decl).declaresType = true → ∃ r, s.table.get? ⟨s.walk, decl⟩ = some r ∧
    WalkRules.KindFits (tree.node decl) s.pool r

/-- Rules of a walk that also respect what is done for a whole module. -/
structure ModuleRules (ctx : TypingContext σ) extends WalkRules ctx where
  declaring : declares := by trivial
  layingOut : laysOut := by trivial
  /-- A function is exported. -/
  exports : ∀ {l s} (sig : Signature), inv l s →
    inv l { s with exports := s.exports.addFunction sig } ∧
      le l s { s with exports := s.exports.addFunction sig }
  /-- A case gets its short name in the module's frame, and it is exported. -/
  caseName : ∀ {l s r name}, inv l s → denoted r s → s.pool.caseShortName? r = some name →
    inv l { s with
        scopes := s.scopes.bindModule name (.type r), exports := s.exports.setType name r } ∧
      le l s { s with
        scopes := s.scopes.bindModule name (.type r), exports := s.exports.setType name r }

namespace ModuleRules

open WalkRules (KindFits)

variable {ctx : TypingContext σ} (rules : ModuleRules ctx) {l : Licence} {s : TypingState σ}

/-- Cases get their short names and are exported. -/
theorem nameCases_keeps {variants : List TypeId} (hs : rules.inv l s)
    (hvariants : ∀ r ∈ variants, rules.denoted r s) :
    (rules.discipline l).KeepsAt s (variants.forM fun variant => modify fun s =>
      match s.pool.caseShortName? variant with
      | some name => { s with
          scopes := s.scopes.bindModule name (.type variant)
          exports := s.exports.setType name variant }
      | none => s) fun _ _ => True := by
  refine (Discipline.forM_keeps (P := fun _ => True) variants hs True.intro
    fun variant hvariant t ht hle _ => ?_).trivial
  cases hname : t.pool.caseShortName? variant with
  | none =>
      refine .of_ok (a := ⟨⟩) (t := t) ?_ ht (rules.refl l t) True.intro
      show EStateM.Result.ok () _ = _
      simp only [hname]
  | some name =>
      have hdenoted := rules.denoted_mono hs hle (hvariants variant hvariant)
      obtain ⟨hnamed, hle'⟩ := rules.caseName (l := l) ht hdenoted hname
      refine .of_ok (a := ⟨⟩) (t := { t with
        scopes := t.scopes.bindModule name (.type variant)
        exports := t.exports.setType name variant }) ?_ hnamed hle' True.intro
      show EStateM.Result.ok () _ = _
      simp only [hname]

/-- The type that was recorded for a declaration, if its absence is ruled out. -/
theorem recorded_keeps {statement : NodeId} (hs : rules.inv l s)
    (howner : rules.strict → OwnerFits ctx.tree s statement)
    (hdecl : (ctx.tree.node statement).declaresType = true) :
    (rules.discipline l).KeepsAt s (recorded statement) fun r t =>
      t = s ∧ (rules.strict → KindFits (ctx.tree.node statement) s.pool r) := by
  refine .bind_read hs (b := ⟨s.walk, statement⟩) rfl (.bind_read hs (b := s) rfl ?_)
  refine WalkRules.ofExcept_at hs (fun h => ?_) fun r hr => ⟨rfl, fun h => ?_⟩
  · obtain ⟨r, hr, -⟩ := howner h hdecl
    intro text herror
    simp [TypeTable.typeOf, hr] at herror
  · obtain ⟨r', hr', hfits⟩ := howner h hdecl
    simp only [TypeTable.typeOf, hr', Except.ok.injEq] at hr
    exact hr ▸ hfits

theorem layOutType_keeps {names : String → Prop} (statement : NodeId)
    (hs : rules.inv (.body names) s) (howner : rules.strict → OwnerFits ctx.tree s statement) :
    (rules.discipline (.body names)).KeepsAt s (layOutType ctx statement) fun _ _ => True := by
  unfold layOutType
  split
  · next hnode =>
      refine .bind (rules.recorded_keeps hs howner (by simp [hnode, Node.declaresType])) ?_
      rintro r s hs - ⟨rfl, hfits⟩
      simp only [hnode, KindFits] at hfits
      refine .bind (WalkRules.collectIvarsInto_keeps WalkRules.typeExpr_keeps _ _ _ _ s hs)
        fun ivars t ht hle _ => ?_
      exact WalkRules.Keeps.updatePool ht (fun _ => .setIvars)
        (fun _ _ _ => .inr (.inl rules.layingOut)) fun h =>
        Pool.setIvars_faultless ((hfits h).mono ((rules.followed (rules.follows_of_strict h)).evolves hle))
  · next cases _ hnode =>
      refine .bind (rules.recorded_keeps hs howner (by simp [hnode, Node.declaresType])) ?_
      rintro r s hs - ⟨rfl, hfits⟩
      simp only [hnode, KindFits] at hfits
      have hcases : rules.strict → ∀ decl ∈ cases, (ctx.tree.node decl).isCase := fun h => by
        simpa [hnode, SyntaxTree.kindsFit] using (rules.guarantees h).regular.kind statement
      exact .bind (WalkRules.addCases_keeps WalkRules.typeExpr_keeps r cases hcases hs
        (rules.filling_body r cases hs) hfits)
        fun added t ht _ hadded => rules.nameCases_keeps ht hadded.1
  · exact .pure hs True.intro

theorem declareFunction_keeps {statement : NodeId} (hmethod : ctx.tree.IsMethod statement)
    (name : String) : rules.Keeps l (declareFunction ctx statement name) := by
  refine (WalkRules.signatureOf_keeps WalkRules.typeExpr_keeps (fun _ => hmethod) _).bind
    fun sig => .get fun t => ?_
  dsimp only
  split
  · exact .stop (by simp)
  · intro u hu
    obtain ⟨hexported, hle₁⟩ := rules.exports (l := l) sig hu
    obtain ⟨hrecorded, hle₂⟩ := rules.table (l := l) hexported (.signature statement sig) rfl
      fun _ _ h => .inl h
    exact .of_ok rfl hrecorded (rules.trans hle₁ hle₂) True.intro

theorem declareSignature_keeps (statement : NodeId) (hs : rules.inv .any s)
    (howner : rules.strict → OwnerFits ctx.tree s statement) :
    (rules.discipline .any).KeepsAt s (declareSignature ctx statement) fun _ _ => True := by
  have hmembers (body : NodeId) (hdecl : (ctx.tree.node statement).declaresType = true)
      (htakes : ∀ p r, KindFits (ctx.tree.node statement) p r → p.TakesMethods r) :
      (rules.discipline .any).KeepsAt s (declareSignature.declareIn ctx statement body)
        fun _ _ => True := by
    refine .bind (rules.recorded_keeps hs howner hdecl) ?_
    rintro r s hs - ⟨rfl, hfits⟩
    refine WalkRules.Keeps.withTypeFrame r hs rules.declaring fun t heq ht => ?_
    refine WalkRules.declareMethodsWithin_keeps WalkRules.typeExpr_keeps _ body r ht
      (.inl rules.declaring) fun h => ?_
    rw [heq]
    exact htakes _ _ (hfits h)
  unfold declareSignature
  split
  · next hnode => exact rules.declareFunction_keeps (by simp [SyntaxTree.IsMethod, hnode]) _ s hs
  · next hnode => exact rules.declareFunction_keeps (by simp [SyntaxTree.IsMethod, hnode]) _ s hs
  · next hnode =>
      refine hmembers _ (by simp [hnode, Node.declaresType]) fun p r h => .inl ?_
      simpa [hnode, KindFits] using h
  · next hnode =>
      refine hmembers _ (by simp [hnode, Node.declaresType]) fun p r h => .inr ?_
      simpa [hnode, KindFits] using h
  · exact .pure hs True.intro

section Loose

variable (hloose : ¬ rules.strict)

include hloose

/-- All statements are laid out, get their signatures, and are walked. -/
theorem typeDeclared_keeps : rules.Keeps .any (do
    (ctx.tree.statements ctx.tree.root).forM (layOutType ctx)
    (ctx.tree.statements ctx.tree.root).forM (declareSignature ctx)
    let _ ← infer ctx ctx.tree.root) :=
  (WalkRules.Keeps.forM fun statement _ _ hs =>
    rules.layOutType_keeps statement hs fun h => absurd h hloose).bind fun _ =>
      (WalkRules.Keeps.forM fun statement _ _ hs =>
        rules.declareSignature_keeps statement hs fun h => absurd h hloose).bind fun _ =>
          (WalkRules.inferWithin_keeps _ _ (fun h => absurd h hloose) (fun _ _ => True.intro)
            (rules.inside_of_declares rules.declaring _)).bind fun _ => .pure _

/-- The members of a type's body are walked. -/
theorem walkMembers_keeps (body : NodeId) : rules.Keeps .any (walkMembers ctx (infer ctx) body) :=
  WalkRules.walkMembersWithin_keeps hloose
    (fun body hcode => WalkRules.inferWithin_keeps _ body hcode fun _ _ => True.intro)
    rules.declaring _ _

end Loose

end ModuleRules

end ClassLang.Typing
