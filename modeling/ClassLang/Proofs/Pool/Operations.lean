import ClassLang.Proofs.Pool.Territory

/-!
# Operations inside a territory

Each operation on a pool that a calculation performs, on types of its territory, keeps the
territory. The lemmas here are the only place where the operations are opened.
-/

namespace ClassLang.Pool

variable {p₀ p q r : Pool} {N : TypeId → Prop} {t u : TypeId}

/-! ## Steps -/

/-- One operation that changes a pool. -/
inductive Change : Pool → Pool → Prop
  | pointer (p : Pool) (target : TypeId) : Change p (p.pointer target).2
  | closure (p : Pool) (params : List TypeId) (result : TypeId) (captures : List TypeId) :
      Change p (p.closure params result captures).2
  | freshVar (p : Pool) : Change p p.freshVar.2
  | derive (p : Pool) (root : TypeId) (op : BinaryOp) (rhs : TypeId) :
      Change p (p.derive root op rhs).2
  | newReference (p : Pool) (name : String) : Change p (p.newReference name).2
  | newData (p : Pool) (name : String) : Change p (p.newData name).2
  | addCase {p q : Pool} {owner added : TypeId} {name shortName : String}
      {fields : List (String × TypeId)}
      (h : p.addCase owner name shortName fields = .ok (added, q)) : Change p q
  | setIvars {p q : Pool} {t : TypeId} {ivars : List (String × TypeId)}
      (h : p.setIvars t ivars = .ok q) : Change p q
  | addMethod {p q : Pool} {owner : TypeId} {sig : Signature}
      (h : p.addMethod owner sig = .ok q) : Change p q
  | unify {p q : Pool} {var target : TypeId} (h : p.unify var target = .ok q) : Change p q

/-- The pool `q` comes from `p` by operations after each of which `ok` holds. There are such
operations; nothing ties the pools between to the states that some run went through. -/
inductive Passes (ok : Pool → Prop) : Pool → Pool → Prop
  | refl (p : Pool) : Passes ok p p
  | step {p q r : Pool} (h : Passes ok p q) (hchange : q.Change r) (hok : ok r) : Passes ok p r

/-- Appending a case adds it at the end and to the list of its data type. -/
theorem addCase_cases {owner added : TypeId} {name shortName : String}
    {fields : List (String × TypeId)} (h : p.addCase owner name shortName fields = .ok (added, q)) :
    ∃ ownerName cases methods, p.data owner = .data ownerName cases methods ∧ added = p.size ∧
      q = (p.push (.variant name shortName cases.length owner fields)).2.set owner
        (.data ownerName (cases ++ [p.size]) methods) := by
  unfold addCase at h
  split at h
  · next ownerName cases methods hd =>
      simp only [Except.ok.injEq, Prod.mk.injEq] at h
      exact ⟨ownerName, cases, methods, hd, h.1.symm, h.2.symm⟩
  · cases h

/-- Laying out a class changes its instance variables only. -/
theorem setIvars_cases {ivars : List (String × TypeId)} (h : p.setIvars t ivars = .ok q) :
    ∃ name old methods, p.data t = .reference name old methods ∧
      q = p.set t (.reference name ivars methods) := by
  unfold setIvars at h
  split at h
  · next name old methods hd =>
      cases h
      exact ⟨name, old, methods, hd, rfl⟩
  · cases h

/-- Registering a method adds it to those of its class or data type, none of which has its name. -/
theorem addMethod_eq {owner : TypeId} {sig : Signature} (h : p.addMethod owner sig = .ok q) :
    (∀ m ∈ (p.data owner).methods, m.name ≠ sig.name) ∧
      ((∃ name ivars methods, p.data owner = .reference name ivars methods ∧
          q = p.set owner (.reference name ivars (methods ++ [sig]))) ∨
        ∃ name cases methods, p.data owner = .data name cases methods ∧
          q = p.set owner (.data name cases (methods ++ [sig]))) := by
  have hnew : ∀ {methods : List Signature}, ¬ methods.any (·.name == sig.name) = true →
      ∀ m ∈ methods, m.name ≠ sig.name := fun hany m hm heq =>
    hany (List.any_eq_true.mpr ⟨m, hm, beq_iff_eq.mpr heq⟩)
  unfold addMethod at h
  dsimp only at h
  split at h
  · next name ivars methods hd =>
      split at h
      · cases h
      · next hany =>
          cases h
          exact ⟨by rw [hd]; exact hnew hany, .inl ⟨name, ivars, methods, hd, rfl⟩⟩
  · next name cases methods hd =>
      split at h
      · cases h
      · next hany =>
          cases h
          exact ⟨by rw [hd]; exact hnew hany, .inr ⟨name, cases, methods, hd, rfl⟩⟩
  · cases h

/-- Registering a method adds it to those of its type. -/
theorem addMethod_cases {owner : TypeId} {sig : Signature} (h : p.addMethod owner sig = .ok q) :
    ∃ d, (p.data owner).Becomes d ∧ q = p.set owner d ∧
      d.mentions = (p.data owner).mentions ++ sig.types ∧
      d.members = (p.data owner).members ++ sig.types ∧
      d.isVar = false ∧ d.methods = (p.data owner).methods ++ [sig] := by
  obtain ⟨-, ⟨name, ivars, methods, hd, rfl⟩ | ⟨name, cases, methods, hd, rfl⟩⟩ := addMethod_eq h
  · refine ⟨_, hd ▸ .reference (List.subset_append_left methods [sig]), rfl, ?_⟩
    simp [hd, TypeData.mentions, TypeData.members, TypeData.parts, TypeData.sources,
      TypeData.methods, TypeData.isVar]
  · refine ⟨_, hd ▸ .data (List.prefix_refl cases) (List.subset_append_left methods [sig]), rfl, ?_⟩
    simp [hd, TypeData.mentions, TypeData.members, TypeData.parts, TypeData.sources,
      TypeData.methods, TypeData.isVar]

/-- Forwarding changes an open variable only, and nothing if the target stands for it. -/
theorem unify_eq {var target : TypeId} (h : p.unify var target = .ok q) :
    p.data var = .var none ∧
      q = if p.resolve target = var then p else p.set var (.var (some (p.resolve target))) := by
  unfold unify at h
  dsimp only at h
  split at h
  · next hd =>
      cases h
      exact ⟨hd, rfl⟩
  · cases h
  · cases h

/-- Forwarding changes an open variable only. -/
theorem unify_cases {var target : TypeId} (h : p.unify var target = .ok q) :
    p.data var = .var none ∧ (q = p ∨ q = p.set var (.var (some (p.resolve target)))) := by
  obtain ⟨hd, rfl⟩ := unify_eq h
  refine ⟨hd, ?_⟩
  split
  · exact .inl rfl
  · exact .inr rfl

/-- Every operation lets entries evolve and adds new ones. -/
theorem Change.evolves (h : p.Change q) : p.Evolves q := by
  cases h with
  | pointer target => exact share_evolves p _
  | closure params result captures =>
      unfold Pool.closure
      split
      · exact share_evolves p _
      · exact .push p _
  | freshVar => exact .push p _
  | derive => exact .push p _
  | newReference => exact .push p _
  | newData => exact .push p _
  | addCase h =>
      obtain ⟨ownerName, cases, methods, hd, -, rfl⟩ := addCase_cases h
      refine (Evolves.push p _).trans (.set ?_)
      rw [data_push_of_lt p _ (lt_size_of_data_ne (by simp [hd])), hd]
      exact .data (List.prefix_append cases _) (List.Subset.refl _)
  | setIvars h =>
      obtain ⟨name, old, methods, hd, rfl⟩ := setIvars_cases h
      exact .set (hd ▸ .reference (List.Subset.refl _))
  | addMethod h =>
      obtain ⟨d, hb, rfl, -⟩ := addMethod_cases h
      exact .set hb
  | unify h =>
      obtain ⟨hd, rfl | rfl⟩ := unify_cases h
      · exact .refl q
      · exact .set (hd ▸ .forwarded _)

/-- Every operation keeps the tables in step with the entries. -/
theorem Change.indexed (hchange : p.Change q) (h : p.Indexed) : q.Indexed := by
  cases hchange with
  | pointer => exact h.share _
  | closure params result captures =>
      unfold Pool.closure
      split
      · exact h.share _
      · next hcaptures => exact h.push (TypeData.isShared_closure hcaptures)
  | freshVar => exact h.push rfl
  | derive => exact h.push rfl
  | newReference => exact h.push rfl
  | newData => exact h.push rfl
  | addCase hadd =>
      obtain ⟨ownerName, cases, methods, hd, -, rfl⟩ := addCase_cases hadd
      refine (h.push rfl).set ?_
      rw [data_push_of_lt p _ (lt_size_of_data_ne (by simp [hd])), hd]
      exact .data (List.prefix_append cases _) (List.Subset.refl _)
  | setIvars hset =>
      obtain ⟨name, old, methods, hd, rfl⟩ := setIvars_cases hset
      exact h.set (hd ▸ .reference (List.Subset.refl _))
  | addMethod hadd =>
      obtain ⟨d, hb, rfl, -⟩ := addMethod_cases hadd
      exact h.set hb
  | unify hunify =>
      obtain ⟨hd, rfl | rfl⟩ := unify_cases hunify
      · exact h
      · exact h.set (hd ▸ .forwarded _)

namespace Passes

variable {ok : Pool → Prop}

/-- Sequences of operations compose. -/
theorem trans (h : Passes ok p q) (h' : Passes ok q r) : Passes ok p r := by
  induction h' with
  | refl => exact h
  | step _ hchange hok ih => exact ih.step hchange hok

/-- A single operation. -/
theorem single (hchange : p.Change q) (hok : ok q) : Passes ok p q :=
  .step (.refl p) hchange hok

/-- What holds after each operation may be weakened. -/
theorem mono {ok' : Pool → Prop} (h : Passes ok p q) (hok : ∀ r, ok r → ok' r) :
    Passes ok' p q := by
  induction h with
  | refl => exact .refl p
  | step _ hchange hr ih => exact ih.step hchange (hok _ hr)

/-- Operations let entries evolve. -/
theorem evolves (h : Passes ok p q) : p.Evolves q := by
  induction h with
  | refl => exact .refl p
  | step _ hchange _ ih => exact ih.trans hchange.evolves

end Passes

/-! ## Making types -/

namespace Kept

/-- A shared entry whose parts are in the territory is in it, and sharing it keeps the
territory. -/
theorem share {d : TypeData} (hT : p₀.Territory N) (h : p₀.Kept N p) (hd : p.Admits N d)
    (hparts : d.parts ≠ []) :
    p₀.Kept N (p.share d).2 ∧ (p.share d).1 < (p.share d).2.size ∧ N (p.share d).1 ∧
      (p.share d).2.data (p.share d).1 = d := by
  rcases p.share_cases d with ⟨t, hfound, heq⟩ | ⟨-, hnew, happends⟩
  · have hdata := h.sound.indexed.data_of_shared? hfound
    have hlt : t < p.size := lt_size_of_data_ne fun hvoid => by
      simp [← hdata, hvoid, TypeData.parts] at hparts
    rw [heq]
    refine ⟨h, hlt, ?_, hdata⟩
    by_cases ht : p₀.size ≤ t
    · exact hT.later t ht
    · have hsame := h.agrees.data_eq t (Nat.lt_of_not_le ht)
      have hd₀ : p₀.data t = d := hsame ▸ hdata
      refine hT.composite t (Nat.lt_of_not_le ht) (hd₀ ▸ hparts) fun u hu => ?_
      exact hd.mentions u (by rw [hd₀] at hu; simp [TypeData.mentions, hu])
  · refine ⟨h.appends hd happends (h.sound.indexed.share d), ?_, ?_, ?_⟩ <;> rw [hnew]
    · simp [happends.size_eq]
    · exact h.mem_later hT (Nat.le_refl _)
    · rw [happends.data_eq, if_pos rfl]

/-- The pointer to a type of the territory. -/
theorem pointer (hT : p₀.Territory N) (h : p₀.Kept N p) (hlt : t < p.size) (ht : N t) :
    p₀.Kept N (p.pointer t).2 ∧ (p.pointer t).1 < (p.pointer t).2.size ∧ N (p.pointer t).1 ∧
      (p.pointer t).2.data (p.pointer t).1 = .pointer (p.resolve t) := by
  refine h.share hT ⟨?_, ?_, ?_, ?_, ?_, ?_⟩ (by simp [TypeData.parts])
  · simpa [TypeData.parts] using h.sound.resolve_lt_size hlt
  · simp [TypeData.sources]
  · simp
  · simp [TypeData.members]
  · simp
  · simpa [TypeData.mentions, TypeData.parts, TypeData.members, TypeData.sources]
      using h.resolve_mem hT ht

/-- A closure made of types of the territory. -/
theorem closure (hT : p₀.Territory N) (h : p₀.Kept N p) {params captures : List TypeId}
    {result : TypeId} (hlt : ∀ u ∈ params ++ result :: captures, u < p.size ∧ N u)
    (hparams : ∀ u ∈ params, p.Closed u ∨ ∃ target, p.data u = .var target) :
    p₀.Kept N (p.closure params result captures).2 ∧
      (p.closure params result captures).1 < (p.closure params result captures).2.size ∧
      N (p.closure params result captures).1 ∧
      (p.closure params result captures).2.data (p.closure params result captures).1 =
        .closure params result captures := by
  have hadmits : p.Admits N (.closure params result captures) := by
    refine ⟨fun u hu => (hlt u hu).1, by simp [TypeData.sources], by simp,
      by simp [TypeData.members], ?_, ?_⟩
    · rintro _ _ _ heq
      cases heq
      exact hparams
    · intro u hu
      refine (hlt u ?_).2
      simpa [TypeData.mentions, TypeData.parts, TypeData.members, TypeData.sources] using hu
  unfold Pool.closure
  split
  · next hc =>
      rw [List.isEmpty_iff] at hc
      subst hc
      exact h.share hT hadmits (by simp [TypeData.parts])
  · next hc =>
      refine ⟨h.push hadmits ?_, by simp, h.mem_later hT (Nat.le_refl _), data_push_self p _⟩
      exact TypeData.isShared_closure hc

/-- An entry that mentions nothing yet may always be added. -/
theorem push_blank {d : TypeData} (h : p₀.Kept N p) (hd : d.mentions = [])
    (hforwarded : ∀ target, d ≠ .var (some target)) : p₀.Kept N (p.push d).2 := by
  have hnil : d.parts = [] ∧ d.members = [] ∧ d.sources = [] := by
    simpa [TypeData.mentions, and_assoc] using hd
  refine h.push ⟨by simp [hnil.1], by simp [hnil.2.2], hforwarded, by simp [hnil.2.1], ?_,
    by simp [hd]⟩ ?_
  · rintro params result captures rfl
    simp [TypeData.parts] at hnil
  · unfold TypeData.isShared
    split <;> simp [TypeData.parts] at hnil ⊢

/-- The type of an operator on types of the territory. -/
theorem derive (h : p₀.Kept N p) {op : BinaryOp} (ht : t < p.size ∧ N t) (hu : u < p.size ∧ N u) :
    p₀.Kept N (p.derive t op u).2 := by
  refine h.push ⟨by simp [TypeData.parts], ?_, by simp, by simp [TypeData.members], by simp, ?_⟩ rfl
  · simpa [TypeData.sources] using ⟨ht.1, hu.1⟩
  · simpa [TypeData.mentions, TypeData.parts, TypeData.members, TypeData.sources]
      using ⟨ht.2, hu.2⟩

/-! ## Changing declared types -/

/-- A new case with closed fields. -/
theorem addCase (hT : p₀.Territory N) (h : p₀.Kept N p) {owner added : TypeId}
    {name shortName : String} {fields : List (String × TypeId)} (howner : p₀.size ≤ owner)
    (hfields : ∀ f ∈ fields, p.Closed f.2 ∧ N f.2)
    (hq : p.addCase owner name shortName fields = .ok (added, q)) :
    p₀.Kept N q ∧ q.Closed added ∧ p₀.size ≤ added := by
  have hevolves : p.Evolves q := (Change.addCase hq).evolves
  obtain ⟨ownerName, cases, methods, hd, rfl, rfl⟩ := addCase_cases hq
  have hlt : owner < p.size := lt_size_of_data_ne (by simp [hd])
  have hclosed : p.Closed owner :=
    .of_no_parts hlt (by simp [hd, TypeData.isVar]) (by simp [hd, TypeData.parts])
  set d : TypeData := .variant name shortName cases.length owner fields with hvariant
  have hmembers (u : TypeId) (hu : u ∈ d.members) : p.Closed u ∧ N u := by
    simp only [hvariant, TypeData.members, List.mem_cons, List.mem_map] at hu
    rcases hu with rfl | ⟨f, hf, rfl⟩
    · exact ⟨hclosed, hT.later _ howner⟩
    · exact hfields f hf
  have hpush : p₀.Kept N (p.push d).2 := by
    refine h.push ⟨by simp [hvariant, TypeData.parts], by simp [hvariant, TypeData.sources],
      by simp [hvariant], fun u hu => (hmembers u hu).1, by simp [hvariant], fun u hu => ?_⟩ rfl
    have hu : u ∈ d.members := by
      simpa [TypeData.mentions, hvariant, TypeData.parts, TypeData.sources] using hu
    exact (hmembers u hu).2
  have hdata : (p.push d).2.data owner = .data ownerName cases methods := by
    rw [data_push_of_lt p d hlt, hd]
  have hnew : (p.push d).2.Closed p.size := by
    refine .of_no_parts (by simp) ?_ ?_ <;>
      rw [data_push, if_pos rfl] <;> rfl
  have hold (u : TypeId) (hu : u ∈ (TypeData.data ownerName cases methods).members) :
      (p.push d).2.Closed u ∧ N u := by
    refine ⟨hpush.sound.members (t := owner) (hdata ▸ hu), h.respects owner (hT.later _ howner) u ?_⟩
    simp [TypeData.mentions, hd, hu]
  have hadded (u : TypeId)
      (hu : u ∈ (TypeData.data ownerName (cases ++ [p.size]) methods).members) :
      (p.push d).2.Closed u ∧ N u := by
    simp only [TypeData.members, List.append_assoc, List.mem_append, List.mem_singleton] at hu
    rcases hu with hu | rfl | hu
    · exact hold u (by simp [TypeData.members, hu])
    · exact ⟨hnew, h.mem_later hT (Nat.le_refl _)⟩
    · exact hold u (by simp only [TypeData.members, List.mem_append]; exact .inr hu)
  have hb : ((p.push d).2.data owner).Becomes (.data ownerName (cases ++ [p.size]) methods) :=
    hdata ▸ .data (List.prefix_append cases _) (List.Subset.refl _)
  refine ⟨hpush.set hT howner hb (fun u hu => (hadded u hu).1) (by simp) fun u hu => ?_,
    hnew.mono (.set hb), h.agrees.size_le⟩
  exact (hadded u (by simpa [TypeData.mentions, TypeData.parts, TypeData.sources] using hu)).2

/-- A layout with closed instance variables. -/
theorem setIvars (hT : p₀.Territory N) (h : p₀.Kept N p) {ivars : List (String × TypeId)}
    (ht : p₀.size ≤ t) (hivars : ∀ f ∈ ivars, p.Closed f.2 ∧ N f.2)
    (hq : p.setIvars t ivars = .ok q) : p₀.Kept N q := by
  obtain ⟨name, old, methods, hd, rfl⟩ := setIvars_cases hq
  have hmembers (u : TypeId) (hu : u ∈ (TypeData.reference name ivars methods).members) :
      p.Closed u ∧ N u := by
    simp only [TypeData.members, List.mem_append, List.mem_map] at hu
    rcases hu with ⟨f, hf, rfl⟩ | hu
    · exact hivars f hf
    · have hold : u ∈ (p.data t).members := by
        rw [hd]
        simp only [TypeData.members, List.mem_append]
        exact .inr hu
      exact ⟨h.sound.members hold, h.respects t (hT.later t ht) u (by simp [TypeData.mentions, hold])⟩
  refine h.set hT ht (hd ▸ .reference (List.Subset.refl _)) (fun u hu => (hmembers u hu).1) (by simp)
    fun u hu => (hmembers u ?_).2
  simpa [TypeData.mentions, TypeData.parts, TypeData.sources] using hu

/-- A method with a closed signature. -/
theorem addMethod (hT : p₀.Territory N) (h : p₀.Kept N p) {sig : Signature} (ht : p₀.size ≤ t)
    (hsig : ∀ u ∈ sig.types, p.Closed u ∧ N u) (hq : p.addMethod t sig = .ok q) :
    p₀.Kept N q := by
  obtain ⟨d, hb, rfl, hmentions, hmembers, hvar, -⟩ := addMethod_cases hq
  refine h.set hT ht hb ?_ ?_ ?_
  · intro u hu
    rw [hmembers, List.mem_append] at hu
    exact hu.elim h.sound.members fun hu => (hsig u hu).1
  · rintro target rfl
    cases hvar
  · intro u hu
    rw [hmentions, List.mem_append] at hu
    exact hu.elim (h.respects t (hT.later t ht) u) fun hu => (hsig u hu).2

/-- A variable of the territory is forwarded to a closed type. -/
theorem unify (hT : p₀.Territory N) (h : p₀.Kept N p) {var target : TypeId} (hvar : N var)
    (htarget : p.Closed target ∧ N target) (hq : p.unify var target = .ok q) : p₀.Kept N q := by
  obtain ⟨hd, rfl | rfl⟩ := unify_cases hq
  · exact h
  · rw [htarget.1.resolve_eq]
    have hlate : p₀.size ≤ var := by
      by_contra hlt
      have hclosed := (hT.closed var (Nat.lt_of_not_le hlt) hvar).isVar_eq_false
      rw [← h.agrees.data_eq var (Nat.lt_of_not_le hlt), hd] at hclosed
      cases hclosed
    refine h.set hT hlate (hd ▸ .forwarded _) (by simp [TypeData.members]) ?_ ?_
    · rintro _ heq
      cases heq
      exact htarget.1
    · simpa [TypeData.mentions, TypeData.parts, TypeData.members, TypeData.sources]
        using htarget.2

end Kept

/-! ## Methods -/

/-- Entries evolve, and no type has more methods than before. All operations but `addMethod` leave it
at that. -/
structure AddsNoMethod (p q : Pool) : Prop where
  evolves : p.Evolves q
  methods : ∀ t, (q.data t).methods ⊆ (p.data t).methods

namespace AddsNoMethod

theorem refl (p : Pool) : p.AddsNoMethod p :=
  ⟨.refl p, fun _ => List.Subset.refl _⟩

theorem trans (h : p.AddsNoMethod q) (h' : q.AddsNoMethod r) : p.AddsNoMethod r :=
  ⟨h.evolves.trans h'.evolves, fun t => List.Subset.trans (h'.methods t) (h.methods t)⟩

theorem appends {d : TypeData} (hd : d.methods = []) (hq : p.Appends d q) : p.AddsNoMethod q := by
  refine ⟨.appends hq, fun t => ?_⟩
  rw [hq.data_eq]
  split
  · simp [hd]
  · exact List.Subset.refl _

theorem push {d : TypeData} (hd : d.methods = []) : p.AddsNoMethod (p.push d).2 :=
  .appends hd (.push p d)

theorem set {d : TypeData} (hb : (p.data t).Becomes d) (hd : d.methods ⊆ (p.data t).methods) :
    p.AddsNoMethod (p.set t d) := by
  refine ⟨.set hb, fun u => ?_⟩
  rw [data_set]
  split
  · next heq => exact heq.1 ▸ hd
  · exact List.Subset.refl _

theorem share {d : TypeData} (hd : d.methods = []) : p.AddsNoMethod (p.share d).2 := by
  rcases p.share_cases d with ⟨t, -, heq⟩ | ⟨-, -, happends⟩
  · rw [heq]
    exact .refl p
  · exact .appends hd happends

theorem pointer (target : TypeId) : p.AddsNoMethod (p.pointer target).2 :=
  .share rfl

theorem closure (params : List TypeId) (result : TypeId) (captures : List TypeId) :
    p.AddsNoMethod (p.closure params result captures).2 := by
  unfold Pool.closure
  split
  · exact .share rfl
  · exact .push rfl

theorem addCase {owner added : TypeId} {name shortName : String} {fields : List (String × TypeId)}
    (h : p.addCase owner name shortName fields = .ok (added, q)) : p.AddsNoMethod q := by
  obtain ⟨ownerName, cases, methods, hd, -, rfl⟩ := addCase_cases h
  have hlt : owner < p.size := lt_size_of_data_ne (by simp [hd])
  have hdata : (p.push (.variant name shortName cases.length owner fields)).2.data owner =
      .data ownerName cases methods := by
    rw [data_push_of_lt p _ hlt, hd]
  refine (AddsNoMethod.push (p := p) rfl).trans (.set ?_ ?_) <;> rw [hdata]
  · exact .data (List.prefix_append cases _) (List.Subset.refl _)
  · exact List.Subset.refl _

theorem setIvars {ivars : List (String × TypeId)} (h : p.setIvars t ivars = .ok q) :
    p.AddsNoMethod q := by
  obtain ⟨name, old, methods, hd, rfl⟩ := setIvars_cases h
  refine .set ?_ ?_ <;> rw [hd]
  · exact .reference (List.Subset.refl _)
  · exact List.Subset.refl _

theorem unify {var target : TypeId} (h : p.unify var target = .ok q) : p.AddsNoMethod q := by
  obtain ⟨hd, rfl | rfl⟩ := unify_cases h
  · exact .refl _
  · exact .set (hd ▸ .forwarded _) (by simp [TypeData.methods])

end AddsNoMethod

/-- The names of a type's methods. -/
def methodNames (p : Pool) (t : TypeId) : List String :=
  (p.data t).methods.map (·.name)

theorem Evolves.methodNames_subset (h : p.Evolves q) (t : TypeId) :
    p.methodNames t ⊆ q.methodNames t :=
  List.map_subset _ (h.methods_subset t)

/-- Registering a method adds it to a class or data type that has none of its name. -/
theorem addMethod_registers {owner : TypeId} {sig : Signature} (h : p.addMethod owner sig = .ok q) :
    (∃ name, (p.data owner).nominalName? = some name) ∧ sig.name ∉ p.methodNames owner ∧
      sig ∈ (q.data owner).methods := by
  obtain ⟨hnew, -⟩ := addMethod_eq h
  have hname : ∃ name, (p.data owner).nominalName? = some name := by
    obtain ⟨-, ⟨name, _, _, hd, -⟩ | ⟨name, _, _, hd, -⟩⟩ := addMethod_eq h <;>
      exact ⟨name, by rw [hd]; rfl⟩
  refine ⟨hname, fun hmem => ?_, ?_⟩
  · obtain ⟨m, hm, heq⟩ := List.mem_map.mp hmem
    exact hnew m hm heq
  · obtain ⟨d, -, rfl, -, -, -, hmethods⟩ := addMethod_cases h
    obtain ⟨name, hname⟩ := hname
    have hlt : owner < p.size := lt_size_of_data_ne fun hvoid => by
      simp [hvoid, TypeData.nominalName?] at hname
    rw [data_set_self p d hlt, hmethods]
    simp

/-- Registering a method adds that one only. -/
theorem addMethod_methods {owner : TypeId} {sig : Signature} (h : p.addMethod owner sig = .ok q)
    (t : TypeId) : (q.data t).methods ⊆ (p.data t).methods ++ [sig] := by
  obtain ⟨d, -, rfl, -, -, -, hmethods⟩ := addMethod_cases h
  rw [data_set]
  split
  · next heq => exact heq.1 ▸ hmethods ▸ List.Subset.refl _
  · exact List.subset_append_left _ _

end ClassLang.Pool
