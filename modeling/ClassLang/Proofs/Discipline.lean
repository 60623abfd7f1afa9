import Mathlib.Logic.Basic
import Mathlib.Data.List.Forall2

/-!
# Steps that keep a discipline

A `Discipline` says what every step of a computation with state and errors has to respect: an
invariant of the state, a relation between the states before and after, and what may be said when
the step fails. `KeepsAt` is the statement that one step does so from one state, with a
postcondition on its result. The rules below take such statements through sequences and loops, so
each function needs one lemma, made from the lemmas of the functions it calls.
-/

namespace ClassLang

/-- The state that a run ends in, whether it succeeds or fails. -/
def finalState {ε S α : Type} : EStateM.Result ε S α → S
  | .ok _ s => s
  | .error _ s => s

/-- What `f` makes of a run that succeeded. -/
def okWith {ε S α β : Type} (f : α → S → β) : EStateM.Result ε S α → Option β
  | .ok a s => some (f a s)
  | .error _ _ => none

/-- A run of which `f` makes something succeeded. -/
theorem exists_of_okWith {ε S α β : Type} {f : α → S → β} {r : EStateM.Result ε S α} {b : β}
    (h : okWith f r = some b) : ∃ a s, r = .ok a s ∧ f a s = b := by
  cases r with
  | ok a s => exact ⟨a, s, rfl, Option.some.inj h⟩
  | error e s => cases h

/-- What a run stops with, if it fails. -/
def haltOf? {ε S α : Type} : EStateM.Result ε S α → Option ε
  | .ok _ _ => none
  | .error e _ => some e

theorem exists_of_haltOf? {ε S α : Type} {r : EStateM.Result ε S α} {e : ε}
    (h : haltOf? r = some e) : ∃ s, r = .error e s := by
  cases r with
  | ok a s => cases h
  | error e' s => exact ⟨s, by rw [Option.some.inj h]⟩

/-- A sequence succeeds if both steps do. -/
theorem bind_eq_ok {ε S α β : Type} {step : EStateM ε S α} {next : α → EStateM ε S β} {s u : S}
    {b : β} : (step >>= next) s = .ok b u ↔ ∃ a t, step s = .ok a t ∧ next a t = .ok b u := by
  simp only [Bind.bind, EStateM.bind]
  cases step s <;> simp

/-- What comes after a step that succeeded goes on with its result. -/
theorem bind_of_ok {ε S α β : Type} {step : EStateM ε S α} {next : α → EStateM ε S β} {a : α}
    {s t : S} (h : step s = .ok a t) : (step >>= next) s = next a t := by
  simp only [Bind.bind, EStateM.bind, h]

/-- What comes after reading the state goes on with it. -/
theorem get_bind_apply {ε S α : Type} (next : S → EStateM ε S α) (s : S) :
    (get >>= next) s = next s s :=
  rfl

section Loops

variable {ε S β : Type} {s u : S}

/-- A loop over items that begins in `s` comes to an item in `t`. -/
def LoopComesTo (items : List β) (body : β → EStateM ε S PUnit) (s : S) (item : β) (t : S) : Prop :=
  ∃ before after, items = before ++ item :: after ∧ before.forM body s = .ok ⟨⟩ t

/-- A loop goes on with the next item. -/
theorem forM_concat_ok {items : List β} {body : β → EStateM ε S PUnit} {item : β} {t : S}
    (h : items.forM body s = .ok ⟨⟩ t) (hitem : body item t = .ok ⟨⟩ u) :
    (items ++ [item]).forM body s = .ok ⟨⟩ u := by
  induction items generalizing s with
  | nil =>
      cases h
      exact bind_eq_ok.mpr ⟨_, u, hitem, rfl⟩
  | cons first items ih =>
      obtain ⟨_, v, hfirst, hrest⟩ := bind_eq_ok.mp
        (show (body first >>= fun _ => items.forM body) s = .ok ⟨⟩ t from h)
      exact bind_eq_ok.mpr ⟨_, v, hfirst, ih hrest⟩

namespace LoopComesTo

variable {items : List β} {body : β → EStateM ε S PUnit} {item : β} {t : S}

theorem mem (h : LoopComesTo items body s item t) : item ∈ items := by
  obtain ⟨before, after, rfl, -⟩ := h
  simp

/-- A loop that comes to its end comes to all items. -/
theorem of_ok (hrun : items.forM body s = .ok ⟨⟩ u) (hitem : item ∈ items) :
    ∃ t t', LoopComesTo items body s item t ∧ body item t = .ok ⟨⟩ t' := by
  induction items generalizing s with
  | nil => cases hitem
  | cons first items ih =>
      obtain ⟨_, t, hfirst, hrest⟩ := bind_eq_ok.mp
        (show (body first >>= fun _ => items.forM body) s = .ok ⟨⟩ u from hrun)
      rcases List.mem_cons.mp hitem with rfl | hitem
      · exact ⟨s, t, ⟨[], items, rfl, rfl⟩, hfirst⟩
      · obtain ⟨v, v', ⟨before, after, rfl, hbefore⟩, hbody⟩ := ih hrest hitem
        exact ⟨v, v', ⟨first :: before, after, rfl, bind_eq_ok.mpr ⟨_, t, hfirst, hbefore⟩⟩, hbody⟩

end LoopComesTo

end Loops

/-- What steps on states `S` with errors `ε` have to respect. -/
structure Discipline (ε S : Type) where
  /-- What holds of every state between steps. -/
  inv : S → Prop
  /-- How the state may change. -/
  le : S → S → Prop
  /-- What holds when a step that began in the first state fails in the second. -/
  fails : S → ε → S → Prop
  refl : ∀ s, le s s
  trans : ∀ {s t u}, le s t → le t u → le s u
  /-- A failure after some steps is a failure of the whole. -/
  fails_trans : ∀ {s t e u}, le s t → fails t e u → fails s e u

namespace Discipline

variable {ε S α β : Type} (D : Discipline ε S)

/-- From `s` the step respects the discipline, and its result satisfies `Q`. -/
def KeepsAt (s : S) (step : EStateM ε S α) (Q : α → S → Prop) : Prop :=
  match step s with
  | .ok a t => D.inv t ∧ D.le s t ∧ Q a t
  | .error e t => D.fails s e t

/-- A fact that no step of the discipline destroys. -/
def Stable (P : S → Prop) : Prop :=
  ∀ s t, D.inv s → D.le s t → D.inv t → P s → P t

variable {D} {s : S} {Q R : α → S → Prop}

namespace KeepsAt

/-- Returning a value changes nothing. -/
theorem pure {a : α} (hs : D.inv s) (ha : Q a s) : D.KeepsAt s (Pure.pure a) Q :=
  ⟨hs, D.refl s, ha⟩

/-- A sequence keeps the discipline if its first step does, and its second step does from every
state that the first one may lead to. -/
theorem bind {step : EStateM ε S β} {next : β → EStateM ε S α} {P : β → S → Prop}
    (h : D.KeepsAt s step P)
    (hnext : ∀ b t, D.inv t → D.le s t → P b t → D.KeepsAt t (next b) Q) :
    D.KeepsAt s (step >>= next) Q := by
  unfold KeepsAt at h ⊢
  simp only [Bind.bind, EStateM.bind]
  cases hstep : step s with
  | error e t =>
      rw [hstep] at h
      exact h
  | ok b t =>
      rw [hstep] at h
      obtain ⟨hinv, hle, hP⟩ := h
      have hrest := hnext b t hinv hle hP
      unfold KeepsAt at hrest
      cases hresult : next b t with
      | error e u =>
          simp only [hresult] at hrest ⊢
          exact D.fails_trans hle hrest
      | ok a u =>
          simp only [hresult] at hrest ⊢
          exact ⟨hrest.1, D.trans hle hrest.2.1, hrest.2.2⟩

/-- A weaker postcondition is kept as well. -/
theorem weaken {step : EStateM ε S α} (h : D.KeepsAt s step Q)
    (hQ : ∀ a t, D.inv t → D.le s t → Q a t → R a t) : D.KeepsAt s step R := by
  unfold KeepsAt at h ⊢
  cases hstep : step s with
  | error e t =>
      rw [hstep] at h
      exact h
  | ok a t =>
      rw [hstep] at h
      exact ⟨h.1, h.2.1, hQ a t h.1 h.2.1 h.2.2⟩

/-- The postcondition may be dropped. -/
theorem trivial {step : EStateM ε S α} (h : D.KeepsAt s step Q) :
    D.KeepsAt s step fun _ _ => True :=
  h.weaken fun _ _ _ _ _ => True.intro

/-- A step that is known to succeed. -/
theorem of_ok {step : EStateM ε S α} {a : α} {t : S} (hstep : step s = .ok a t) (hinv : D.inv t)
    (hle : D.le s t) (hQ : Q a t) : D.KeepsAt s step Q := by
  unfold KeepsAt
  rw [hstep]
  exact ⟨hinv, hle, hQ⟩

/-- A step that is known to fail. -/
theorem of_error {step : EStateM ε S α} {e : ε} {t : S} (hstep : step s = .error e t)
    (h : D.fails s e t) : D.KeepsAt s step Q := by
  unfold KeepsAt
  rw [hstep]
  exact h

/-- What a successful run says. -/
theorem ok {step : EStateM ε S α} {a : α} {t : S} (h : D.KeepsAt s step Q)
    (hstep : step s = .ok a t) : D.inv t ∧ D.le s t ∧ Q a t := by
  unfold KeepsAt at h
  rwa [hstep] at h

/-- What a failed run says. -/
theorem error {step : EStateM ε S α} {e : ε} {t : S} (h : D.KeepsAt s step Q)
    (hstep : step s = .error e t) : D.fails s e t := by
  unfold KeepsAt at h
  rwa [hstep] at h

/-- A step that runs like another one from a later state. -/
theorem of_later {step : EStateM ε S α} {t : S} (later : EStateM ε S α)
    (hstep : step s = later t) (hle : D.le s t) (h : D.KeepsAt t later Q) : D.KeepsAt s step Q := by
  unfold KeepsAt at h ⊢
  rw [hstep]
  cases hlater : later t with
  | error e u =>
      rw [hlater] at h
      exact D.fails_trans hle h
  | ok a u =>
      rw [hlater] at h
      exact ⟨h.1, D.trans hle h.2.1, h.2.2⟩

/-- A sequence whose first step changes nothing and always succeeds. -/
theorem bind_read {step : EStateM ε S β} {next : β → EStateM ε S α} {b : β} (hs : D.inv s)
    (hstep : step s = .ok b s) (h : D.KeepsAt s (next b) Q) : D.KeepsAt s (step >>= next) Q := by
  refine bind (P := fun c t => c = b ∧ t = s) (of_ok hstep hs (D.refl s) ⟨rfl, rfl⟩) ?_
  rintro c t - - ⟨rfl, rfl⟩
  exact h

end KeepsAt

/-- Nothing but the postcondition of a run that succeeds. -/
def onSuccess (ε S : Type) : Discipline ε S where
  inv _ := True
  le _ _ := True
  fails _ _ _ := True
  refl _ := trivial
  trans _ _ := trivial
  fails_trans _ _ := trivial

/-- A run that succeeds is one. -/
theorem onSuccess_run (step : EStateM ε S α) (s : S) :
    (onSuccess ε S).KeepsAt s step fun a t => step s = .ok a t := by
  unfold KeepsAt
  cases step s with
  | error e t => exact True.intro
  | ok a t => exact ⟨True.intro, True.intro, rfl⟩

/-- What a run says that succeeds. -/
theorem KeepsAt.succeeds {step : EStateM ε S α} (h : D.KeepsAt s step Q) :
    (onSuccess ε S).KeepsAt s step fun a t => D.inv t ∧ D.le s t ∧ Q a t := by
  unfold KeepsAt at h ⊢
  cases hstep : step s with
  | error e t => exact True.intro
  | ok a t =>
      simp only [hstep] at h ⊢
      exact ⟨True.intro, True.intro, h⟩

/-- A postcondition that was proved on its own. -/
theorem KeepsAt.and {step : EStateM ε S α} (h : D.KeepsAt s step Q)
    (h' : (onSuccess ε S).KeepsAt s step R) : D.KeepsAt s step fun a t => Q a t ∧ R a t := by
  unfold KeepsAt at h h' ⊢
  cases hstep : step s with
  | error e t =>
      rw [hstep] at h
      exact h
  | ok a t =>
      simp only [hstep] at h h' ⊢
      exact ⟨h.1, h.2.1, h.2.2, h'.2.2⟩

/-- Steps that respect two disciplines. -/
def prod (D D' : Discipline ε S) : Discipline ε S where
  inv s := D.inv s ∧ D'.inv s
  le s t := D.le s t ∧ D'.le s t
  fails s e t := D.fails s e t ∧ D'.fails s e t
  refl s := ⟨D.refl s, D'.refl s⟩
  trans h h' := ⟨D.trans h.1 h'.1, D'.trans h.2 h'.2⟩
  fails_trans h h' := ⟨D.fails_trans h.1 h'.1, D'.fails_trans h.2 h'.2⟩

/-- A step that respects one discipline and another one respects both. -/
theorem KeepsAt.prod {D' : Discipline ε S} {step : EStateM ε S α} (h : D.KeepsAt s step Q)
    (h' : D'.KeepsAt s step R) : (D.prod D').KeepsAt s step fun a t => Q a t ∧ R a t := by
  unfold KeepsAt at h h' ⊢
  cases hstep : step s with
  | error e t =>
      simp only [hstep] at h h' ⊢
      exact ⟨h, h'⟩
  | ok a t =>
      simp only [hstep] at h h' ⊢
      exact ⟨⟨h.1, h'.1⟩, ⟨h.2.1, h'.2.1⟩, h.2.2, h'.2.2⟩

/-- A step that respects two disciplines respects the second one. -/
theorem KeepsAt.right {D' : Discipline ε S} {step : EStateM ε S α}
    (h : (D.prod D').KeepsAt s step Q) : D'.KeepsAt s step Q := by
  unfold KeepsAt at h ⊢
  cases hstep : step s with
  | error e t =>
      rw [hstep] at h
      exact h.2
  | ok a t =>
      simp only [hstep] at h ⊢
      exact ⟨h.1.2, h.2.1.2, h.2.2⟩

/-! ## Loops -/

/-- A loop keeps the discipline if its body does; `P` is what the body can rely on, and holds
after the loop. -/
theorem forM_keeps {P : S → Prop} {body : β → EStateM ε S PUnit} (items : List β) (hs : D.inv s)
    (hP : P s)
    (hbody : ∀ b ∈ items, ∀ t, D.inv t → D.le s t → P t →
      D.KeepsAt t (body b) fun _ u => P u) :
    D.KeepsAt s (items.forM body) fun _ t => P t := by
  induction items generalizing s with
  | nil => exact .pure hs hP
  | cons b items ih =>
      show D.KeepsAt s (body b >>= fun _ => items.forM body) _
      refine .bind (hbody b (by simp) s hs (D.refl s) hP) fun _ t ht hle hPt => ?_
      refine ih ht hPt fun c hc u hu htu => ?_
      exact hbody c (List.mem_cons_of_mem b hc) u hu (D.trans hle htu)

/-- A loop whose body can rely on what the items before it led to. -/
theorem forM_keeps_reached {body : β → EStateM ε S PUnit} (items : List β) (hs : D.inv s)
    (hbody : ∀ before b after, items = before ++ b :: after → ∀ t, before.forM body s = .ok ⟨⟩ t →
      D.inv t → D.KeepsAt t (body b) fun _ _ => True) :
    D.KeepsAt s (items.forM body) fun _ _ => True := by
  induction items generalizing s with
  | nil => exact .pure hs True.intro
  | cons b items ih =>
      show D.KeepsAt s (body b >>= fun _ => items.forM body) _
      refine .bind ((hbody [] b items rfl s rfl hs).and (onSuccess_run (body b) s)) ?_
      rintro ⟨⟩ t ht - ⟨-, hrun⟩
      refine ih ht fun before c after heq u hreach hu => ?_
      refine hbody (b :: before) c after (by rw [heq, List.cons_append]) u ?_ hu
      show (body b >>= fun _ => before.forM body) s = _
      simp only [bind, EStateM.bind, hrun, hreach]

/-- A loop whose body establishes `P` for each item: afterwards it holds for all of them. -/
theorem forM_keeps_each {P : β → S → Prop} {body : β → EStateM ε S PUnit} (items : List β)
    (hs : D.inv s) (hstable : ∀ b ∈ items, D.Stable (P b))
    (hbody : ∀ b ∈ items, ∀ t, D.inv t → D.le s t → D.KeepsAt t (body b) fun _ => P b) :
    D.KeepsAt s (items.forM body) fun _ t => ∀ b ∈ items, P b t := by
  induction items generalizing s with
  | nil => exact .pure hs (by simp)
  | cons b items ih =>
      show D.KeepsAt s (body b >>= fun _ => items.forM body) _
      refine .bind (hbody b (by simp) s hs (D.refl s)) fun _ t ht hle hb => ?_
      have hrest := ih ht (fun c hc => hstable c (List.mem_cons_of_mem b hc)) fun c hc u hu htu =>
        hbody c (List.mem_cons_of_mem b hc) u hu (D.trans hle htu)
      refine hrest.weaken fun _ u hu htu h c hc => ?_
      rcases List.mem_cons.mp hc with rfl | hc
      · exact hstable c (by simp) t u ht htu hu hb
      · exact h c hc

/-- A loop with an accumulator: `P` relates accumulator and state throughout. -/
theorem foldlM_keeps {P : α → S → Prop} {body : α → β → EStateM ε S α} (items : List β) {a : α}
    (hs : D.inv s) (hP : P a s)
    (hbody : ∀ b ∈ items, ∀ c t, D.inv t → D.le s t → P c t → D.KeepsAt t (body c b) P) :
    D.KeepsAt s (items.foldlM body a) P := by
  induction items generalizing s a with
  | nil => exact .pure hs hP
  | cons b items ih =>
      rw [List.foldlM_cons]
      refine .bind (hbody b (by simp) a s hs (D.refl s) hP) fun c t ht hle hPt => ?_
      refine ih ht hPt fun d hd e u hu htu => ?_
      exact hbody d (List.mem_cons_of_mem b hd) e u hu (D.trans hle htu)

/-- A loop with an accumulator: `P` relates the items so far, accumulator and state throughout. -/
theorem foldlM_keeps_through {P : List β → α → S → Prop} {body : α → β → EStateM ε S α}
    (items done : List β) {a : α} (hs : D.inv s) (hP : P done a s)
    (hbody : ∀ b ∈ items, ∀ done c t, D.inv t → D.le s t → P done c t →
      D.KeepsAt t (body c b) (P (done ++ [b]))) :
    D.KeepsAt s (items.foldlM body a) (P (done ++ items)) := by
  induction items generalizing s a done with
  | nil => exact .pure hs (by simpa using hP)
  | cons b items ih =>
      rw [List.foldlM_cons]
      refine .bind (hbody b (by simp) done a s hs (D.refl s) hP) fun c t ht hle hPt => ?_
      have hrest := ih (done ++ [b]) ht hPt fun d hd before e u hu htu =>
        hbody d (List.mem_cons_of_mem b hd) before e u hu (D.trans hle htu)
      simpa using hrest

/-- A loop that collects results: each one satisfies `P` with its item, also after the loop. -/
theorem mapM_keeps {P : β → α → S → Prop} {body : β → EStateM ε S α} (items : List β)
    (hs : D.inv s) (hstable : ∀ b ∈ items, ∀ a, D.Stable (P b a))
    (hbody : ∀ b ∈ items, ∀ t, D.inv t → D.le s t → D.KeepsAt t (body b) (P b)) :
    D.KeepsAt s (items.mapM body) fun results t =>
      List.Forall₂ (fun b a => P b a t) items results := by
  induction items generalizing s with
  | nil => exact .pure hs .nil
  | cons b items ih =>
      rw [List.mapM_cons]
      refine .bind (hbody b (by simp) s hs (D.refl s)) fun a t ht hle ha => ?_
      have hrest := ih ht (fun c hc => hstable c (List.mem_cons_of_mem b hc)) fun c hc u hu htu =>
        hbody c (List.mem_cons_of_mem b hc) u hu (D.trans hle htu)
      refine .bind hrest fun results u hu htu hresults => ?_
      exact .pure hu (.cons (hstable b (by simp) a t u ht htu hu ha) hresults)

/-- A loop that collects a result for each item: `P` relates those collected so far and the state
throughout, and there are as many of them as items before the next one. -/
theorem mapM_keeps_collecting {P : List α → S → Prop} {body : β → EStateM ε S α} (items : List β)
    (results : List α) (hs : D.inv s) (hP : P results s)
    (hbody : ∀ i b, items[i]? = some b → ∀ collected t, collected.length = results.length + i →
      D.inv t → D.le s t → P collected t → D.KeepsAt t (body b) fun a => P (collected ++ [a])) :
    D.KeepsAt s (items.mapM body) fun more t =>
      P (results ++ more) t ∧ more.length = items.length := by
  induction items generalizing s results with
  | nil => exact .pure hs ⟨by simpa using hP, rfl⟩
  | cons b items ih =>
      rw [List.mapM_cons]
      refine .bind (hbody 0 b rfl results s rfl hs (D.refl s) hP) fun a t ht hle ha => ?_
      have hrest := ih (results ++ [a]) ht ha fun i c hc collected u hlength hu htu =>
        hbody (i + 1) c hc collected u (by simp at hlength; omega) hu (D.trans hle htu)
      refine .bind hrest fun more u hu _ ⟨hmore, hlength⟩ => .pure hu ⟨?_, ?_⟩
      · simpa using hmore
      · simp [hlength]

/-- A loop that collects results and establishes `P` for each item. -/
theorem mapM_keeps_each {P : β → S → Prop} {body : β → EStateM ε S α} (items : List β)
    (hs : D.inv s) (hstable : ∀ b ∈ items, D.Stable (P b))
    (hbody : ∀ b ∈ items, ∀ t, D.inv t → D.le s t → D.KeepsAt t (body b) fun _ => P b) :
    D.KeepsAt s (items.mapM body) fun _ t => ∀ b ∈ items, P b t := by
  refine (mapM_keeps items hs (fun b hb _ => hstable b hb) hbody).weaken fun results t _ _ h => ?_
  clear hstable hbody
  induction h with
  | nil => simp
  | cons hb _ ih => simpa using ⟨hb, ih⟩

/-- A loop that collects results all of which satisfy `P`. -/
theorem mapM_keeps_all {P : α → S → Prop} {body : β → EStateM ε S α} (items : List β)
    (hs : D.inv s) (hstable : ∀ a, D.Stable (P a))
    (hbody : ∀ b ∈ items, ∀ t, D.inv t → D.le s t → D.KeepsAt t (body b) P) :
    D.KeepsAt s (items.mapM body) fun results t => ∀ a ∈ results, P a t := by
  refine (mapM_keeps items hs (fun _ _ => hstable) hbody).weaken fun results t _ _ h => ?_
  clear hbody
  induction h with
  | nil => simp
  | cons ha _ ih => simpa using ⟨ha, ih⟩

/-! ## Steps from every state -/

variable (D) in
/-- From every state the step respects the discipline, and its result satisfies `P`. -/
def Keeps (step : EStateM ε S α) (P : α → Prop) : Prop :=
  ∀ s, D.inv s → D.KeepsAt s step fun a _ => P a

namespace Keeps

variable {step : EStateM ε S α} {P T : α → Prop}

theorem pure {a : α} (ha : P a) : D.Keeps (Pure.pure a) P :=
  fun _ hs => .pure hs ha

theorem bind {P : β → Prop} {first : EStateM ε S β} {next : β → EStateM ε S α}
    (h : D.Keeps first P) (hnext : ∀ b, P b → D.Keeps (next b) T) :
    D.Keeps (first >>= next) T :=
  fun s hs => .bind (h s hs) fun b t ht _ hb => hnext b hb t ht

/-- A step of which nothing is asked is followed by another one. -/
theorem seq {first : EStateM ε S β} {next : β → EStateM ε S α}
    (h : D.Keeps first fun _ => True) (hnext : ∀ b, D.Keeps (next b) T) :
    D.Keeps (first >>= next) T :=
  h.bind fun b _ => hnext b

/-- Looking at the state. -/
theorem get {next : S → EStateM ε S α} (h : ∀ s, D.inv s → D.Keeps (next s) T) :
    D.Keeps (MonadState.get >>= next) T :=
  fun s hs => .bind_read hs rfl (h s hs s hs)

theorem forM {items : List β} {body : β → EStateM ε S PUnit}
    (h : ∀ item ∈ items, D.Keeps (body item) fun _ => True) :
    D.Keeps (items.forM body) fun _ => True :=
  fun _ hs => forM_keeps (P := fun _ => True) items hs True.intro
    fun item hitem t ht _ _ => h item hitem t ht

theorem mapM {items : List β} {body : β → EStateM ε S α}
    (h : ∀ item ∈ items, D.Keeps (body item) fun _ => True) :
    D.Keeps (items.mapM body) fun _ => True :=
  fun _ hs => (mapM_keeps_all (P := fun _ _ => True) items hs (fun _ _ _ _ _ _ _ => True.intro)
    fun item hitem t ht _ => h item hitem t ht).trivial

theorem foldlM {items : List β} {body : α → β → EStateM ε S α} {a : α}
    (h : ∀ a, ∀ item ∈ items, D.Keeps (body a item) fun _ => True) :
    D.Keeps (items.foldlM body a) fun _ => True :=
  fun _ hs => foldlM_keeps (P := fun _ _ => True) items hs True.intro
    fun item hitem a t ht _ _ => h a item hitem t ht

end Keeps

end Discipline

end ClassLang
