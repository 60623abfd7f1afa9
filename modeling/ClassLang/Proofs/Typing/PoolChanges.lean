import ClassLang.Proofs.Typing.Memoization
import ClassLang.Proofs.Typing.WalkedBodies

/-!
# Typing changes the pool by its operations

Whatever is typed, and in whatever state, the pool afterwards comes from the one before by operations
on pools. So what no operation destroys, no typing does. Nothing has to hold of the state for this.
Outside of the second step of typing a module, classes are laid out only once, where expansions are
made: what has a layout keeps it.
-/

namespace ClassLang

open Relation (ReflTransGen)

/-- Entries evolve over a sequence of operations. -/
theorem Pool.evolves_of_changes {p q : Pool} (h : ReflTransGen Pool.Change p q) : p.Evolves q := by
  induction h with
  | refl => exact .refl p
  | tail _ hchange ih => exact ih.trans hchange.evolves

namespace Typing

variable {σ : Type}

/-- How a stretch of typing changes the pool. -/
structure Changes (l : Licence) (s t : TypingState σ) : Prop where
  operations : ReflTransGen Pool.Change s.pool t.pool
  /-- Only the class whose members are declared is laid out. -/
  layouts : ∀ r < s.pool.size, l ≠ .members r → t.pool.ivarList r = s.pool.ivarList r

namespace Changes

variable {l l' : Licence} {s t u : TypingState σ}

theorem refl (l : Licence) (s : TypingState σ) : Changes l s s :=
  ⟨.refl, fun _ _ _ => rfl⟩

theorem trans (h : Changes l s t) (h' : Changes l t u) : Changes l s u where
  operations := h.operations.trans h'.operations
  layouts r hr hl := (h'.layouts r (Nat.lt_of_lt_of_le hr
    (Pool.evolves_of_changes h.operations).size_le) hl).trans (h.layouts r hr hl)

/-- Where no members are declared, no class is laid out. -/
theorem of_keeps (h : Changes l s t) (hl : ∀ r, l ≠ .members r) : Changes l' s t :=
  ⟨h.operations, fun r hr _ => h.layouts r hr (hl r)⟩

/-- What changes the pool otherwise than by `setIvars` keeps all layouts. -/
theorem of_layouts (h : s.pool.Change t.pool) (hlayouts : s.pool.KeepsLayouts t.pool) :
    Changes l s t :=
  ⟨.single h, fun r _ _ => hlayouts r⟩

end Changes

theorem Expanding.keepsLayouts {s : TypingState σ} {id : TemplateId} {template : Template}
    {name : String} {arg r : TypeId} {p : Pool} (h : Expanding s id template name arg r p) :
    s.pool.KeepsLayouts p := by
  rcases h.made with hmade | hmade <;> cases hmade
  · exact .newReference s.pool name
  · exact .newData s.pool name

/-- The rules of a walk that changes the pool by its operations only. -/
def changing (ctx : TypingContext σ) : WalkRules ctx where
  laysOut := False
  inv _ _ := True
  le := Changes
  fails _ s t := ReflTransGen Pool.Change s.pool t.pool
  denoted _ _ := True
  known _ _ := True
  filling _ _ _ _ _ := True
  follows := False
  followed := False.elim
  strict := False
  guarantees := False.elim
  follows_of_strict := id
  refl := .refl
  trans := .trans
  fails_refl _ _ := .refl
  fails_trans hle h := hle.operations.trans h
  denoted_mono _ _ _ := True.intro
  known_mono _ _ _ := True.intro
  types _ := ⟨True.intro, fun _ _ h => ⟨True.intro, h.of_keeps (by simp)⟩, fun _ h => h⟩
  pool _ hpool hlayouts := ⟨True.intro, .single hpool.change, fun r _ hl =>
    (hlayouts r).resolve_right fun h => h.elim id hl⟩
  case _ _ _ _ hadded := ⟨True.intro, .of_layouts (.addCase hadded) (.addCase hadded), True.intro⟩
  filling_body _ _ _ := True.intro
  filling_mono _ _ _ := True.intro
  table _ _ _ _ := ⟨True.intro, .refl, fun _ _ _ => rfl⟩
  target _ _ _ _ _ _ := ⟨True.intro, .refl, fun _ _ _ => rfl⟩
  value _ _ := ⟨True.intro, .refl, fun _ _ _ => rfl⟩
  ivar _ := ⟨True.intro, .refl, fun _ _ _ => rfl⟩
  frame _ _ _ := ⟨True.intro, fun _ _ h => ⟨True.intro, h.operations, fun r hr _ =>
    h.layouts r hr (by simp [Licence.any])⟩, fun _ h => h⟩
  walk _ _ _ := ⟨True.intro, fun _ _ h => ⟨True.intro, h.operations, h.layouts⟩, fun _ h => h⟩
  result _ := ⟨True.intro, fun _ _ h => ⟨True.intro, h.operations, h.layouts⟩, fun _ h => h⟩
  expansion_enters _ _ _ _ := ⟨True.intro, fun _ _ _ _ _ => True.intro⟩
  expansion_leaves {l s id template name arg r p t} _ _ _ hnew _ h _ _ := by
    obtain ⟨hr, -, hevolves⟩ := hnew.type
    refine ⟨True.intro, ⟨.head hnew.change h.operations, fun other hother _ => ?_⟩, True.intro⟩
    have hkept := h.layouts other (Nat.lt_of_lt_of_le hother hevolves.size_le) fun heq => by
      cases heq
      exact absurd hr (Nat.ne_of_lt hother)
    exact hkept.trans (hnew.keepsLayouts other)
  expansion_breaks _ _ _ hnew h := .head hnew.change h
  denoted_name _ _ := True.intro
  denoted_pointer _ _ := True.intro
  denoted_closure _ _ _ := True.intro
  denoted_case _ _ := True.intro
  denoted_expansion _ _ := True.intro
  known_template _ _ := True.intro
  known_case _ _ := True.intro

variable {ctx : TypingContext σ} {s t : TypingState σ}

/-- What keeps these rules changes the pool by its operations. -/
theorem pool_changes_of_keeps {α : Type} {l : Licence} {step : Typing σ α} {a : α}
    (h : (changing ctx).Keeps l step) (hrun : step s = .ok a t) :
    ReflTransGen Pool.Change s.pool t.pool :=
  ((h s True.intro).ok hrun).2.1.operations

theorem inferWithin_changes (ctx : TypingContext σ) (fuel : Nat) (node : NodeId) :
    (changing ctx).Keeps .any (inferWithin ctx fuel node) :=
  WalkRules.inferWithin_keeps fuel node False.elim (fun _ _ => True.intro) True.intro

end Typing

end ClassLang
