import ClassLang.Interner
import Mathlib.Data.List.Dedup

/-!
# Interning from several places at once

A call that interns a text looks it up and, if it has no number, looks again and numbers it. Other
calls may take any number of steps in between. The invariant is that the table of numbers and the
sequence of texts are inverse to each other, and that the pairs in them are those that calls were
answered with: the second look is what keeps two calls on one text from numbering it twice.

The main theorem, `Shared.interleaved_calls_number_texts`, holds of every order of the steps.
-/

namespace ClassLang.Interner

/-! ## One interner -/

/-- The numbers of texts and the texts of numbers are inverse to each other. -/
def Coherent (i : Interner) : Prop :=
  ∀ (s : String) (n : Nat), i.get? s = some n ↔ i.texts[n]? = some s

/-- All texts keep their numbers. -/
def Extends (i j : Interner) : Prop :=
  ∀ (s : String) (n : Nat), i.texts[n]? = some s → j.texts[n]? = some s

variable {i j k : Interner} {s s' : String} {n : Nat}

theorem Extends.refl (i : Interner) : i.Extends i := fun _ _ h => h

theorem Extends.trans (h : i.Extends j) (h' : j.Extends k) : i.Extends k :=
  fun s n hs => h' s n (h s n hs)

theorem lookup_of_getElem? (h : i.texts[n]? = some s) : i.lookup n = s := by
  simp [lookup, h]

theorem lt_size_of_getElem? (h : i.texts[n]? = some s) : n < i.size :=
  (Array.getElem?_eq_some_iff.mp h).1

theorem Extends.size_le (h : i.Extends j) : i.size ≤ j.size := by
  by_contra hlt
  -- the last text of `i` would have no place in `j`
  have hlast : j.size < i.size := by omega
  have hj := lt_size_of_getElem? (h _ _ (Array.getElem?_eq_getElem hlast))
  omega

/-- A text that has a number is not inserted. -/
theorem insert_of_get? (h : i.get? s = some n) : i.insert s = (n, i) := by
  simp only [insert, h]

/-- A text without a number is put behind all others. -/
theorem insert_of_get?_eq_none (h : i.get? s = none) :
    i.insert s = (i.size, { texts := i.texts.push s, numbers := (s, i.size) :: i.numbers }) := by
  simp only [insert, h]

/-- Interning a text that has a number changes nothing. -/
theorem intern_of_get? (h : i.get? s = some n) : i.intern s = (n, i) := by
  simp only [intern, h]

/-- An entry in front of the table is about its own text only. -/
theorem get?_cons (texts : Array String) (numbers : List (String × Nat)) :
    (Interner.mk texts ((s, n) :: numbers)).get? s' =
      if s' = s then some n else (Interner.mk texts numbers).get? s' := by
  by_cases h : s' = s
  · simp [get?, h]
  · have hne : (s' == s) = false := beq_eq_false_iff_ne.mpr h
    simp [get?, List.lookup_cons, hne, h]

namespace Coherent

theorem blank : Coherent Interner.blank := by
  intro s n
  simp [Interner.blank, get?]

/-- Two texts with one number are the same text. -/
theorem injective (h : i.Coherent) (hs : i.get? s = some n) (hs' : i.get? s' = some n) :
    s = s' := by
  have htext := (h s n).mp hs
  rw [(h s' n).mp hs'] at htext
  exact (Option.some.inj htext).symm

/-- No text is there twice. -/
theorem nodup (h : i.Coherent) : i.texts.toList.Nodup := by
  rw [List.nodup_iff_getElem?_ne_getElem?]
  intro m n hmn hn heq
  have htext : i.texts.toList[n]? = some i.texts.toList[n] := List.getElem?_eq_getElem hn
  have hm := (h _ m).mpr (by rw [← Array.getElem?_toList, heq, htext])
  have hn := (h _ n).mpr (by rw [← Array.getElem?_toList, htext])
  rw [hm] at hn
  exact Nat.ne_of_lt hmn (Option.some.inj hn)

/-- A text is inserted where no other one stands, so the table stays inverse to the sequence. -/
theorem insert (h : i.Coherent) (s : String) : (i.insert s).2.Coherent := by
  cases hs : i.get? s with
  | some n =>
      rw [insert_of_get? hs]
      exact h
  | none =>
      rw [insert_of_get?_eq_none hs]
      intro s' n
      rw [get?_cons]
      show (if s' = s then _ else i.get? s') = _ ↔ (i.texts.push s)[n]? = _
      rw [Array.getElem?_push]
      by_cases heq : s' = s
      · subst heq
        have hnew : i.texts[n]? ≠ some s' := fun hn => by
          rw [(h s' n).mpr hn] at hs
          cases hs
        by_cases hn : n = i.texts.size
        · simp [hn, size]
        · simp [hn, hnew, size, Ne.symm hn]
      · by_cases hn : n = i.texts.size
        · -- the next number has no text yet
          have hnone : i.get? s' ≠ some n := fun hget =>
            absurd (lt_size_of_getElem? ((h s' n).mp hget)) (by simp [hn, size])
          subst hn
          simp [heq, hnone, Ne.symm heq]
        · simpa [heq, hn] using h s' n

/-- After `s` was inserted, its number leads to it. -/
theorem getElem?_insert_self (h : i.Coherent) (s : String) :
    (i.insert s).2.texts[(i.insert s).1]? = some s := by
  cases hs : i.get? s with
  | some n =>
      rw [insert_of_get? hs]
      exact (h s n).mp hs
  | none =>
      rw [insert_of_get?_eq_none hs]
      show (i.texts.push s)[i.texts.size]? = _
      simp

end Coherent

theorem Coherent.empty : Coherent Interner.empty := by
  have h : Interner.empty = (Interner.blank.insert "").2 := rfl
  rw [h]
  exact .insert .blank ""

/-- Inserting a text moves no other one. -/
theorem extends_insert (i : Interner) (s : String) : i.Extends (i.insert s).2 := by
  intro s' n hn
  cases hs : i.get? s with
  | some m => rwa [insert_of_get? hs]
  | none =>
      rw [insert_of_get?_eq_none hs]
      show (i.texts.push s)[n]? = _
      have hne : n ≠ i.texts.size := Nat.ne_of_lt (lt_size_of_getElem? hn)
      rw [Array.getElem?_push, if_neg hne]
      exact hn

/-- Only the inserted text may be new. -/
theorem getElem?_insert (i : Interner) (s : String) (h : (i.insert s).2.texts[n]? = some s') :
    i.texts[n]? = some s' ∨ s' = s ∧ n = (i.insert s).1 := by
  cases hs : i.get? s with
  | some m =>
      rw [insert_of_get? hs] at h
      exact .inl h
  | none =>
      rw [insert_of_get?_eq_none hs] at h ⊢
      change (i.texts.push s)[n]? = _ at h
      rw [Array.getElem?_push] at h
      split at h
      · next heq => exact .inr ⟨(Option.some.inj h).symm, heq⟩
      · exact .inl h

/-! ## One step of a call -/

namespace Call

/-- What a step of a call does to an interner. -/
structure Advances (c : Call) (i : Interner) (c' : Call) (j : Interner) : Prop where
  coherent : j.Coherent
  extends_ : i.Extends j
  /-- A text is new only if the call is answered with its number. -/
  new : ∀ s n, j.texts[n]? = some s → i.texts[n]? = some s ∨ c' = done s n
  /-- The number that a call is answered with is that of its text. -/
  answer : ∀ s n, c' = done s n → c ≠ done s n → j.texts[n]? = some s
  /-- What is done stays so. -/
  stays : ∀ s n, c = done s n → c' = done s n
  /-- A call is refused only if all numbers are used. -/
  refuses : ∀ s, c' = refused s → c ≠ refused s → capacity ≤ i.size

/-- A step that leaves the interner alone. -/
theorem Advances.of_same {c c' : Call} (h : i.Coherent)
    (hanswer : ∀ s n, c' = done s n → c ≠ done s n → i.texts[n]? = some s)
    (hstays : ∀ s n, c = done s n → c' = done s n)
    (hrefuses : ∀ s, c' = refused s → c ≠ refused s → capacity ≤ i.size) :
    Advances c i c' i :=
  ⟨h, .refl i, fun _ _ hs => .inl hs, hanswer, hstays, hrefuses⟩

theorem advances (h : i.Coherent) (c : Call) : Advances c i (c.advance i).1 (c.advance i).2 := by
  cases c with
  | done s n => exact .of_same h (by simp [advance]) (by simp [advance]) (by simp [advance])
  | refused s => exact .of_same h (by simp [advance]) (by simp [advance]) (by simp [advance])
  | begun s =>
      cases hs : i.get? s with
      | none =>
          simp only [advance, hs]
          exact .of_same h (by simp) (by simp) (by simp)
      | some n =>
          simp only [advance, hs]
          refine .of_same h (fun s' n' heq _ => ?_) (by simp) (by simp)
          cases heq
          exact (h s n).mp hs
  | missed s =>
      simp only [advance]
      split
      · refine ⟨h.insert s, extends_insert i s, fun s' n hs' => ?_, fun s' n heq _ => ?_, by simp,
          by simp⟩
        · rcases getElem?_insert i s hs' with hold | ⟨rfl, rfl⟩
          · exact .inl hold
          · exact .inr rfl
        · cases heq
          exact h.getElem?_insert_self s
      · next hge =>
          refine .of_same h (by simp) (by simp) fun s' heq _ => ?_
          cases hget : i.get? s with
          | some n =>
              -- a number that was handed out is below the number of texts
              rw [insert_of_get? hget] at hge
              have hlt := lt_size_of_getElem? ((h s n).mp hget)
              omega
          | none =>
              rw [insert_of_get?_eq_none hget] at hge
              exact Nat.le_of_not_lt hge

end Call

/-! ## All orders of steps -/

/-- What is in a list after one position was set, if the position did not hold it or holds it
again. -/
theorem mem_set_iff {α : Type} {l : List α} {k : Nat} {a b x : α} (hk : l[k]? = some a)
    (h : a = x → b = x) : x ∈ l.set k b ↔ x ∈ l ∨ x = b := by
  obtain ⟨hlt, ha⟩ := List.getElem?_eq_some_iff.mp hk
  constructor
  · exact fun hx => List.mem_or_eq_of_mem_set hx
  · rintro (hx | rfl)
    · obtain ⟨m, hm, hx⟩ := List.mem_iff_getElem.mp hx
      refine List.mem_iff_getElem.mpr ⟨m, by simpa using hm, ?_⟩
      rw [List.getElem_set]
      split
      · next heq =>
          subst heq
          exact h (ha ▸ hx)
      · exact hx
    · exact List.mem_set hlt x

namespace Shared

variable {s t u : Shared}

/-- The numbers that were handed out are those that the interner has, and a call is refused only
if none is left. -/
structure Exact (s : Shared) : Prop where
  coherent : s.interner.Coherent
  done_iff : ∀ text n, .done text n ∈ s.calls ↔ s.interner.texts[n]? = some text
  refused : ∀ text, .refused text ∈ s.calls → capacity ≤ s.interner.size

theorem exact_start : Exact start where
  coherent := .empty
  done_iff text n := by
    have htexts : start.interner.texts = #[""] := rfl
    rw [htexts]
    cases n <;> simp [start, eq_comm]
  refused text h := by simp [start] at h

/-- Beginning a call hands nothing out. -/
theorem Exact.call (h : s.Exact) (text : String) : (s.call text).Exact where
  coherent := h.coherent
  done_iff text' n := by
    rw [Shared.call, ← h.done_iff text' n]
    simp
  refused text hmem := h.refused text (by simpa [Shared.call] using hmem)

/-- What a step of the call at a position does. -/
theorem advance_of_getElem? {k : Nat} {c : Call} (hk : s.calls[k]? = some c) :
    s.advance k =
      { interner := (c.advance s.interner).2, calls := s.calls.set k (c.advance s.interner).1 } := by
  simp only [advance, hk]

theorem Exact.advance (h : s.Exact) (k : Nat) :
    (s.advance k).Exact ∧ s.interner.Extends (s.advance k).interner := by
  cases hk : s.calls[k]? with
  | none =>
      simp only [Shared.advance, hk]
      exact ⟨h, .refl _⟩
  | some c =>
      rw [advance_of_getElem? hk]
      have hstep := Call.advances h.coherent c
      have hc : c ∈ s.calls := List.mem_of_getElem? hk
      refine ⟨⟨hstep.coherent, fun text n => ?_, fun text hmem => ?_⟩, hstep.extends_⟩
      · show .done text n ∈ s.calls.set k _ ↔ _
        rw [mem_set_iff hk (hstep.stays text n), h.done_iff text n]
        constructor
        · rintro (hold | hnew)
          · exact hstep.extends_ text n hold
          · by_cases heq : c = .done text n
            · exact hstep.extends_ text n ((h.done_iff text n).mp (heq ▸ hc))
            · exact hstep.answer text n hnew.symm heq
        · exact fun htext => (hstep.new text n htext).imp id Eq.symm
      · refine Nat.le_trans ?_ hstep.extends_.size_le
        rcases List.mem_or_eq_of_mem_set hmem with hold | hnew
        · exact h.refused text hold
        · by_cases heq : c = .refused text
          · exact h.refused text (heq ▸ hc)
          · exact hstep.refuses text hnew.symm heq

/-- Whatever the order of the steps, the numbers handed out are those that the interner has, and no
text moves. -/
theorem Later.exact (h : s.Later t) (hs : s.Exact) :
    t.Exact ∧ s.interner.Extends t.interner := by
  induction h with
  | refl => exact ⟨hs, .refl _⟩
  | @step t u _ hstep ih =>
      obtain ⟨ht, hext⟩ := ih
      cases hstep with
      | call text => exact ⟨ht.call text, hext⟩
      | advance k => exact ⟨(ht.advance k).1, hext.trans (ht.advance k).2⟩

theorem Later.advances (h : s.Later t) (ks : List Nat) : s.Later (ks.foldl Shared.advance t) := by
  induction ks generalizing t with
  | nil => exact h
  | cons k ks ih => exact ih (.step h (.advance k))

theorem mem_interned_iff {text : String} : text ∈ s.interned ↔ ∃ n, .done text n ∈ s.calls := by
  rw [interned, List.mem_filterMap]
  constructor
  · rintro ⟨c, hc, htext⟩
    cases c <;> cases htext
    next n => exact ⟨n, hc⟩
  · rintro ⟨n, hc⟩
    exact ⟨_, hc, rfl⟩

/-- The calls that are done interned the texts that the interner has. -/
theorem Exact.size_eq (h : s.Exact) : s.interner.size = s.interned.dedup.length := by
  have hmem : ∀ text, text ∈ s.interner.texts.toList ↔ text ∈ s.interned.dedup := by
    intro text
    rw [List.mem_dedup, mem_interned_iff, List.mem_iff_getElem?]
    simp only [h.done_iff, Array.getElem?_toList]
  have hperm : s.interner.texts.toList.Perm s.interned.dedup :=
    (List.perm_ext_iff_of_nodup h.coherent.nodup s.interned.nodup_dedup).mpr hmem
  rw [← hperm.length_eq, Array.length_toList, size]

/-- A call that looks again while numbers are left is done. -/
theorem Exact.done_of_missed (h : s.Exact) {k : Nat} {text : String}
    (hk : s.calls[k]? = some (.missed text)) (hsize : s.interner.size < capacity) :
    ∃ n, (s.advance k).calls[k]? = some (.done text n) := by
  have hlt : (s.interner.insert text).1 < capacity := by
    cases hget : s.interner.get? text with
    | none => rwa [insert_of_get?_eq_none hget]
    | some n =>
        rw [insert_of_get? hget]
        exact Nat.lt_trans (lt_size_of_getElem? ((h.coherent text n).mp hget)) hsize
  refine ⟨(s.interner.insert text).1, ?_⟩
  rw [advance_of_getElem? hk]
  simp [Call.advance, hlt, List.getElem?_eq_some_iff.mp hk |>.1]

/-- A call that has begun is done after two steps while numbers are left. -/
theorem Exact.done_of_begun (h : s.Exact) {k : Nat} {text : String}
    (hk : s.calls[k]? = some (.begun text)) (hsize : s.interner.size < capacity) :
    ∃ n, ((s.advance k).advance k).calls[k]? = some (.done text n) := by
  have hlt := (List.getElem?_eq_some_iff.mp hk).1
  cases hget : s.interner.get? text with
  | some n =>
      have hdone : (s.advance k).calls[k]? = some (.done text n) := by
        rw [advance_of_getElem? hk]
        simp [Call.advance, hget, hlt]
      have hlt' := (List.getElem?_eq_some_iff.mp hdone).1
      refine ⟨n, ?_⟩
      rw [advance_of_getElem? hdone]
      simp [Call.advance, hlt']
  | none =>
      have hmissed : (s.advance k).calls[k]? = some (.missed text) := by
        rw [advance_of_getElem? hk]
        simp [Call.advance, hget, hlt]
      refine (h.advance k).1.done_of_missed hmissed ?_
      rw [advance_of_getElem? hk]
      simpa [Call.advance, hget] using hsize

/-- The numbers of texts are a bijection that only grows, in whatever order the steps of any number
of calls come. In a state `s` that a new interner has come to, the numbers handed out are those from
0 to the number of texts; two calls that are done, also in different states, have the same number
exactly if they have the same text; the number of a call leads back to its text from then on; a text
is found exactly under the number that calls on it were answered with, and interning it gives that
number and changes nothing; the empty text has number 0; and there are as many numbers as different
texts that were interned. A call that has begun ends after two steps of its own, unless all numbers
are used. -/
theorem interleaved_calls_number_texts (hs : start.Later s) (ht : s.Later t) :
    (∀ n, (∃ text, .done text n ∈ s.calls) ↔ n < s.interner.size) ∧
      (∀ text text' n n', .done text n ∈ s.calls → .done text' n' ∈ t.calls →
        (n = n' ↔ text = text')) ∧
      (∀ text n, .done text n ∈ s.calls → t.interner.lookup n = text) ∧
      (∀ text n, s.interner.get? text = some n ↔ .done text n ∈ s.calls) ∧
      (∀ text n, .done text n ∈ s.calls → s.interner.intern text = (n, s.interner)) ∧
      (s.interner.get? "" = some 0 ∧ s.interner.lookup 0 = "") ∧
      s.interner.size = s.interned.dedup.length ∧
      (∀ k text, s.calls[k]? = some (.begun text) → s.interner.size < capacity →
        ∃ n, ((s.advance k).advance k).calls[k]? = some (.done text n)) ∧
      (∀ k text, s.calls[k]? = some (.missed text) → s.interner.size < capacity →
        ∃ n, (s.advance k).calls[k]? = some (.done text n)) ∧
      (∀ text, .refused text ∈ s.calls → capacity ≤ s.interner.size) := by
  obtain ⟨hexact, hfirst⟩ := hs.exact exact_start
  obtain ⟨hlater, hext⟩ := ht.exact hexact
  have hget : ∀ text n, s.interner.get? text = some n ↔ .done text n ∈ s.calls := fun text n =>
    (hexact.coherent text n).trans (hexact.done_iff text n).symm
  have hempty : s.interner.texts[0]? = some "" := hfirst "" 0 rfl
  refine ⟨fun n => ⟨?_, fun hn => ?_⟩, fun text text' n n' hdone hdone' => ?_,
    fun text n hdone => ?_, hget, fun text n hdone => intern_of_get? ((hget text n).mpr hdone),
    ⟨(hexact.coherent "" 0).mpr hempty, lookup_of_getElem? hempty⟩, hexact.size_eq,
    fun k text => hexact.done_of_begun, fun k text => hexact.done_of_missed, hexact.refused⟩
  · rintro ⟨text, hdone⟩
    exact lt_size_of_getElem? ((hexact.done_iff text n).mp hdone)
  · exact ⟨_, (hexact.done_iff _ n).mpr (Array.getElem?_eq_getElem hn)⟩
  · -- both numbers are those of the later interner
    have hfound := (hlater.coherent text n).mpr (hext text n ((hexact.done_iff text n).mp hdone))
    have hfound' := (hlater.coherent text' n').mpr ((hlater.done_iff text' n').mp hdone')
    constructor
    · rintro rfl
      exact hlater.coherent.injective hfound hfound'
    · rintro rfl
      exact Option.some.inj (hfound.symm.trans hfound')
  · exact lookup_of_getElem? (hext text n ((hexact.done_iff text n).mp hdone))

/-- Two calls on one text, which both look it up before either numbers it, and one on another text
in between. -/
def race : Shared :=
  [1, 2, 2, 3, 3, 1].foldl advance (((start.call "a").call "a").call "b")

/-- Both calls on the same text are answered with the number of the one that came first. -/
theorem interleaved_calls_number_texts_race :
    start.Later race ∧ race.calls = [.done "" 0, .done "a" 1, .done "a" 1, .done "b" 2] ∧
      race.interner.lookup 2 = "b" ∧ race.interner.size = race.interned.dedup.length := by
  have hbegun : start.Later (((start.call "a").call "a").call "b") :=
    .step (.step (.step .refl (.call "a")) (.call "a")) (.call "b")
  have hrace : start.Later race := hbegun.advances _
  have hcalls : race.calls = [.done "" 0, .done "a" 1, .done "a" 1, .done "b" 2] := by decide
  obtain ⟨-, -, hlookup, -, -, -, hsize, -⟩ := interleaved_calls_number_texts hrace .refl
  exact ⟨hrace, hcalls, hlookup "b" 2 (by rw [hcalls]; simp), hsize⟩

end Shared

end ClassLang.Interner
