import ClassLang.Proofs.Pool.Chains
import ClassLang.Proofs.Pool.Operations

/-!
# Pools that are built up step by step

A `Step` is an operation on types that are in the pool, of which `unify` does not forward a variable
to a type built from it. The pools made in such steps are `Founded`: their entries mention nothing
outside of them, and looking through types comes to an end. Variables may be forwarded to open types
here, so a type may be built from later ones; `Sound` pools are founded as well, but not the other
way round.
-/

namespace ClassLang.Pool

open Relation (TransGen ReflTransGen)

variable {p q : Pool} {t u : TypeId} {d : TypeData}

/-- One operation on types of the pool. An operation that fails changes nothing. -/
inductive Step : Pool → Pool → Prop
  | pointer {p : Pool} {target : TypeId} (htarget : target < p.size) : Step p (p.pointer target).2
  | closure {p : Pool} {params captures : List TypeId} {result : TypeId}
      (hparts : ∀ t ∈ params ++ result :: captures, t < p.size) :
      Step p (p.closure params result captures).2
  | freshVar (p : Pool) : Step p p.freshVar.2
  | derive {p : Pool} {root rhs : TypeId} (op : BinaryOp) (hroot : root < p.size)
      (hrhs : rhs < p.size) : Step p (p.derive root op rhs).2
  | newReference (p : Pool) (name : String) : Step p (p.newReference name).2
  | newData (p : Pool) (name : String) : Step p (p.newData name).2
  | addCase {p q : Pool} {owner added : TypeId} {name shortName : String}
      {fields : List (String × TypeId)} (hfields : ∀ f ∈ fields, f.2 < p.size)
      (h : p.addCase owner name shortName fields = .ok (added, q)) : Step p q
  | setIvars {p q : Pool} {t : TypeId} {ivars : List (String × TypeId)}
      (hivars : ∀ f ∈ ivars, f.2 < p.size) (h : p.setIvars t ivars = .ok q) : Step p q
  | addMethod {p q : Pool} {owner : TypeId} {sig : Signature} (hsig : ∀ t ∈ sig.types, t < p.size)
      (h : p.addMethod owner sig = .ok q) : Step p q
  /-- What the target stands for is not built from the variable. -/
  | unify {p q : Pool} {var target : TypeId} (htarget : target < p.size)
      (hacyclic : ¬ TransGen p.LooksAt var (p.resolve target)) (h : p.unify var target = .ok q) :
      Step p q

/-- The pool `q` comes from `p` by operations on types of the pool. -/
abbrev Grows : Pool → Pool → Prop :=
  ReflTransGen Step

theorem Step.change (h : p.Step q) : p.Change q := by
  cases h with
  | pointer => exact .pointer p _
  | closure => exact .closure p _ _ _
  | freshVar => exact .freshVar p
  | derive => exact .derive p _ _ _
  | newReference => exact .newReference p _
  | newData => exact .newData p _
  | addCase _ h => exact .addCase h
  | setIvars _ h => exact .setIvars h
  | addMethod _ h => exact .addMethod h
  | unify _ _ h => exact .unify h

/-- A variable is forwarded. -/
theorem Grows.unify {r : Pool} (h : p.Grows q) (var target : TypeId) (htarget : target < q.size)
    (hacyclic : ¬ TransGen q.LooksAt var (q.resolve target)) (hr : q.unify var target = .ok r) :
    p.Grows r :=
  h.tail (.unify htarget hacyclic hr)

theorem Grows.evolves (h : p.Grows q) : p.Evolves q := by
  induction h with
  | refl => exact .refl p
  | tail _ hstep ih => exact ih.trans hstep.change.evolves

theorem Grows.indexed (h : p.Grows q) (hp : p.Indexed) : q.Indexed := by
  induction h with
  | refl => exact hp
  | tail _ hstep ih => exact hstep.change.indexed ih

/-- A pool without dangling positions in which looking through types comes to an end. -/
structure Founded (p : Pool) : Prop where
  builtins : initial.Evolves p
  mentions_lt : ∀ {t u}, u ∈ (p.data t).mentions → u < p.size
  ends : WellFounded p.LooksAt

namespace Founded

/-- What a type looks at is in the pool. -/
theorem lt_of_looksAt (h : p.Founded) (hlook : p.LooksAt u t) : u < p.size := by
  refine h.mentions_lt (t := t) ?_
  simp only [TypeData.mentions, List.mem_append]
  exact hlook.elim (fun hu => .inl (.inl hu)) .inr

/-- The types that every pool begins with stay what they are. -/
theorem data_of_builtin (h : p.Founded) (ht : t < Pool.initial.size) :
    p.data t = Pool.initial.data t := by
  have hfixed : ∀ t < Pool.initial.size, (Pool.initial.data t).nominalName? = none ∧
      (Pool.initial.data t).isVar = false := by decide
  exact h.builtins.data_eq_of_fixed ht (hfixed t ht).1 (hfixed t ht).2

theorem data_boolean (h : p.Founded) : p.data TypeId.boolean = .boolean :=
  h.data_of_builtin (by decide)

/-- What a type of the pool stands for is in the pool. -/
theorem resolve_lt_size (h : p.Founded) (ht : t < p.size) : p.resolve t < p.size := by
  suffices ∀ fuel t, t < p.size → p.resolveWithin fuel t < p.size from this _ t ht
  intro fuel
  induction fuel with
  | zero => exact fun t ht => ht
  | succ fuel ih =>
      intro t ht
      unfold resolveWithin
      split
      · next target hd => exact ih target (h.lt_of_looksAt (t := t) (.inr (by simp [hd, TypeData.sources])))
      · next root op rhs hd =>
          have hroot := ih root (h.lt_of_looksAt (t := t) (.inr (by simp [hd, TypeData.sources])))
          dsimp only
          split
          · next operation hop =>
              rcases resultType_of_operator (t := p.resolveWithin fuel root) hop with heq | heq
              · rwa [heq]
              · rw [heq]
                exact Nat.lt_of_lt_of_le (by decide) h.builtins.size_le
          · exact ht
      · exact ht

/-! ## Steps -/

/-- The built-in types are made of each other. -/
theorem initial : Pool.initial.Founded where
  builtins := .refl _
  mentions_lt {t u} hu := by
    have hsmall : ∀ t < Pool.initial.size, ∀ u ∈ (Pool.initial.data t).mentions,
        u < Pool.initial.size := by decide
    refine hsmall t (lt_size_of_data_ne fun hvoid => ?_) u hu
    simp [hvoid, TypeData.mentions, TypeData.parts, TypeData.members, TypeData.sources] at hu
  ends := sound_initial.wellFounded_looksAt

/-- Adding an entry that mentions types of the pool only. -/
theorem appends (h : p.Founded) (hd : ∀ u ∈ d.mentions, u < p.size) (hq : p.Appends d q) :
    q.Founded where
  builtins := h.builtins.trans (.appends hq)
  mentions_lt {t u} hu := by
    rw [hq.size_eq]
    rw [hq.data_eq] at hu
    split at hu
    · exact Nat.lt_succ_of_lt (hd u hu)
    · exact Nat.lt_succ_of_lt (h.mentions_lt hu)
  ends := by
    -- the older entries do not look at the new one
    have hold : ∀ t, t ≠ p.size → Acc q.LooksAt t := by
      intro t
      induction t using h.ends.induction with
      | _ t ih =>
          refine fun ht => .intro t fun u hlook => ?_
          have hlook' : p.LooksAt u t := by
            simpa only [LooksAt, hq.data_eq, if_neg ht] using hlook
          exact ih u hlook' (Nat.ne_of_lt (h.lt_of_looksAt hlook'))
    refine ⟨fun t => ?_⟩
    by_cases ht : t = p.size
    · refine .intro t fun u hlook => hold u (Nat.ne_of_lt (hd u ?_))
      simp only [LooksAt, hq.data_eq, if_pos ht] at hlook
      simp only [TypeData.mentions, List.mem_append]
      exact hlook.elim (fun hu => .inl (.inl hu)) .inr
    · exact hold t ht

/-- Changing what a class or data type mentions, which nothing looks at. -/
theorem set (h : p.Founded) (hb : (p.data t).Becomes d) (hvar : d.isVar = false)
    (hd : ∀ u ∈ d.mentions, u < p.size) : (p.set t d).Founded where
  builtins := h.builtins.trans (.set hb)
  mentions_lt {u v} hv := by
    rw [size_set]
    rw [data_set] at hv
    split at hv
    · exact hd v hv
    · exact h.mentions_lt hv
  ends := by
    refine Subrelation.wf (fun {v u} hlook => ?_) h.ends
    simp only [LooksAt, data_set] at hlook ⊢
    split at hlook
    · next heq =>
        rw [d.sources_of_not_var hvar, hb.parts_eq] at hlook
        exact .inl (heq.1 ▸ hlook.resolve_right List.not_mem_nil)
    · exact hlook

/-- Forwarding an open variable to a type that is not built from it. -/
theorem forward {var target : TypeId} (h : p.Founded) (hd : p.data var = .var none)
    (htarget : target < p.size) (hne : target ≠ var) (hacyclic : ¬ TransGen p.LooksAt var target) :
    (p.set var (.var (some target))).Founded where
  builtins := h.builtins.trans (.set (hd ▸ .forwarded target))
  mentions_lt {u v} hv := by
    rw [size_set]
    rw [data_set] at hv
    split at hv
    · simp only [TypeData.mentions, TypeData.parts, TypeData.members, TypeData.sources,
        List.nil_append, List.mem_singleton] at hv
      exact hv ▸ htarget
    · exact h.mentions_lt hv
  ends := by
    have hlook_of_ne : ∀ {u t}, t ≠ var → (p.set var (.var (some target))).LooksAt u t →
        p.LooksAt u t := fun ht hlook => by
      simpa only [LooksAt, data_set_of_ne p _ ht] using hlook
    -- what does not lead to the variable is as before
    have hapart : ∀ t, t ≠ var → ¬ TransGen p.LooksAt var t →
        Acc (p.set var (.var (some target))).LooksAt t := by
      intro t
      induction t using h.ends.induction with
      | _ t ih =>
          refine fun ht hno => .intro t fun u hlook => ?_
          have hlook' := hlook_of_ne ht hlook
          refine ih u hlook' ?_ fun hu => hno (hu.tail hlook')
          rintro rfl
          exact hno (.single hlook')
    have hvar : Acc (p.set var (.var (some target))).LooksAt var := by
      refine .intro var fun u hlook => ?_
      have hlt : var < p.size := lt_size_of_data_ne (by simp [hd])
      simp only [LooksAt, data_set_self p _ hlt, TypeData.parts, TypeData.sources,
        List.not_mem_nil, List.mem_singleton, false_or] at hlook
      exact hlook ▸ hapart target hne hacyclic
    refine ⟨fun t => ?_⟩
    induction t using h.ends.induction with
    | _ t ih =>
        by_cases ht : t = var
        · exact ht ▸ hvar
        · exact .intro t fun u hlook => ih u (hlook_of_ne ht hlook)

/-- Sharing an entry that mentions types of the pool only. -/
theorem share (h : p.Founded) (hd : ∀ u ∈ d.mentions, u < p.size) : (p.share d).2.Founded := by
  rcases p.share_cases d with ⟨t, -, heq⟩ | ⟨-, -, happends⟩
  · rwa [heq]
  · exact h.appends hd happends

/-- Every step keeps a pool founded. -/
theorem step (h : p.Founded) (hstep : p.Step q) : q.Founded := by
  have hblank : ∀ {d : TypeData}, d.mentions = [] → (p.push d).2.Founded := fun hd =>
    h.appends (by simp [hd]) (.push p _)
  cases hstep with
  | pointer htarget =>
      refine h.share fun u hu => ?_
      simp only [TypeData.mentions, TypeData.parts, TypeData.members, TypeData.sources,
        List.append_nil, List.mem_singleton] at hu
      exact hu ▸ h.resolve_lt_size htarget
  | @closure params captures result hparts =>
      have hmentions : (TypeData.closure params result captures).mentions =
          params ++ result :: captures := by
        simp [TypeData.mentions, TypeData.parts, TypeData.members, TypeData.sources]
      unfold Pool.closure
      split
      · next hempty =>
          obtain rfl := List.isEmpty_iff.mp hempty
          exact h.share (hmentions ▸ hparts)
      · exact h.appends (hmentions ▸ hparts) (.push p _)
  | freshVar => exact hblank rfl
  | derive op hroot hrhs =>
      refine h.appends (fun u hu => ?_) (.push p _)
      simp only [TypeData.mentions, TypeData.parts, TypeData.members, TypeData.sources,
        List.nil_append, List.mem_cons, List.not_mem_nil, or_false] at hu
      exact hu.elim (· ▸ hroot) (· ▸ hrhs)
  | newReference => exact hblank rfl
  | newData => exact hblank rfl
  | @addCase _ owner added name shortName fields hfields hadd =>
      obtain ⟨ownerName, cases, methods, hd, -, rfl⟩ := addCase_cases hadd
      have hlt : owner < p.size := lt_size_of_data_ne (by simp [hd])
      have hpush : (p.push (.variant name shortName cases.length owner fields)).2.Founded := by
        refine h.appends (fun u hu => ?_) (.push p _)
        simp only [TypeData.mentions, TypeData.parts, TypeData.members, TypeData.sources,
          List.nil_append, List.append_nil, List.mem_cons, List.mem_map] at hu
        rcases hu with rfl | ⟨f, hf, rfl⟩
        · exact hlt
        · exact hfields f hf
      have hb : ((p.push (.variant name shortName cases.length owner fields)).2.data owner).Becomes
          (.data ownerName (cases ++ [p.size]) methods) := by
        rw [data_push_of_lt p _ hlt, hd]
        exact .data (List.prefix_append cases _) (List.Subset.refl _)
      refine hpush.set hb rfl fun u hu => ?_
      have hold : u ∈ (p.data owner).mentions ∨ u = p.size := by
        simp only [hd, TypeData.mentions, TypeData.parts, TypeData.members, TypeData.sources,
          List.nil_append, List.append_nil, List.mem_append, List.mem_singleton] at hu ⊢
        tauto
      rw [size_push]
      exact hold.elim (fun hu => Nat.lt_succ_of_lt (h.mentions_lt hu)) (· ▸ Nat.lt_succ_self _)
  | @setIvars _ t ivars hivars hset =>
      obtain ⟨name, old, methods, hd, rfl⟩ := setIvars_cases hset
      refine h.set (hd ▸ .reference (List.Subset.refl _)) rfl fun u hu => ?_
      simp only [TypeData.mentions, TypeData.parts, TypeData.members, TypeData.sources,
        List.nil_append, List.append_nil, List.mem_append, List.mem_map] at hu
      rcases hu with ⟨f, hf, rfl⟩ | hu
      · exact hivars f hf
      · exact h.mentions_lt (t := t) (by simp [hd, TypeData.mentions, TypeData.members, hu])
  | addMethod hsig hadd =>
      obtain ⟨d, hb, rfl, hmentions, -, hvar, -⟩ := addMethod_cases hadd
      refine h.set hb hvar fun u hu => ?_
      rw [hmentions, List.mem_append] at hu
      exact hu.elim h.mentions_lt (hsig u)
  | unify htarget hacyclic hunify =>
      obtain ⟨hd, rfl⟩ := unify_eq hunify
      split
      · exact h
      · next hne => exact h.forward hd (h.resolve_lt_size htarget) hne hacyclic

/-- Every pool that is built up in steps is founded. -/
theorem grows (h : p.Founded) (hgrows : p.Grows q) : q.Founded := by
  induction hgrows with
  | refl => exact h
  | tail _ hstep ih => exact ih.step hstep

end Founded

/-! ## Sound pools -/

/-- A sound pool has evolved from the built-in types. -/
theorem Sound.initial_evolves (h : p.Sound) : Pool.initial.Evolves p where
  size_le := h.initial_size_le
  becomes t ht := by
    rw [(h.builtin t ht).2]
    exact .same _

/-- A sound pool is founded. -/
theorem Sound.founded (h : p.Sound) : p.Founded where
  builtins := h.initial_evolves
  mentions_lt {t u} hu := by
    have ht : t < p.size := lt_size_of_data_ne fun hvoid => by
      simp [hvoid, TypeData.mentions, TypeData.parts, TypeData.members, TypeData.sources] at hu
    simp only [TypeData.mentions, List.mem_append] at hu
    rcases hu with (hu | hu) | hu
    · exact Nat.lt_trans (h.parts_lt hu) ht
    · exact (h.members hu).lt_size
    · cases hd : p.data t with
      | var target =>
          cases target with
          | none => simp [hd, TypeData.sources] at hu
          | some target =>
              simp only [hd, TypeData.sources, List.mem_singleton] at hu
              exact hu ▸ (h.forwarded hd).lt_size
      | derived root op rhs =>
          obtain ⟨hroot, hrhs⟩ := h.derived_lt hd
          simp only [hd, TypeData.sources, List.mem_cons, List.not_mem_nil, or_false] at hu
          rcases hu with rfl | rfl
          · exact Nat.lt_trans hroot ht
          · exact Nat.lt_trans hrhs ht
      | _ => simp [hd, TypeData.sources] at hu
  ends := h.wellFounded_looksAt

end ClassLang.Pool
