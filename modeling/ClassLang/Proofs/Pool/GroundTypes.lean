import ClassLang.Proofs.Pool.Written

/-!
# Ground types

A type is ground if it is built in, a class, data type or case, a pointer to a ground type, or a
closure without captures over ground types. In every pool that comes about by operations on pools
these are the types that can be written down, since only the built-in positions have built-in kinds.
Equality of ground types is equality of positions (`sameType_iff_eq_of_ground`), whatever variables
and other closures there are besides.
-/

namespace ClassLang

open Relation (ReflTransGen)

/-- Whether an entry is of one of the kinds that are built in. -/
def TypeData.isBuiltin : TypeData → Bool
  | integer | boolean | char | void | string | typeRecord | dynamic => true
  | _ => false

/-- No entry changes into one of a built-in kind. -/
theorem TypeData.Becomes.isBuiltin_eq {d d' : TypeData} (h : d.Becomes d') :
    d'.isBuiltin = d.isBuiltin := by
  cases h <;> rfl

namespace Pool

variable {p q : Pool} {t u : TypeId} {d : TypeData}

/-- Types made of built-in and declared ones. -/
inductive Ground (p : Pool) : TypeId → Prop
  | builtin {t : TypeId} (h : t.isBuiltin = true) : Ground p t
  | nominal {t : TypeId} {name : String} (h : (p.data t).nominalName? = some name) : Ground p t
  | pointer {t target : TypeId} (hd : p.data t = .pointer target) (h : Ground p target) : Ground p t
  | closure {t : TypeId} {params : List TypeId} {result : TypeId}
      (hd : p.data t = .closure params result []) (hparams : ∀ u ∈ params, Ground p u)
      (hresult : Ground p result) : Ground p t

/-- Entries of built-in kinds stand at the built-in positions only. -/
def BuiltinsApart (p : Pool) : Prop :=
  ∀ t : TypeId, t < p.size → (p.data t).isBuiltin = true → t.isBuiltin = true

namespace BuiltinsApart

theorem initial : Pool.initial.BuiltinsApart := by
  unfold BuiltinsApart
  decide

theorem appends (h : p.BuiltinsApart) (hd : d.isBuiltin = false) (hq : p.Appends d q) :
    q.BuiltinsApart := by
  intro t ht
  rw [hq.size_eq] at ht
  rw [hq.data_eq]
  split
  · simp [hd]
  · next hne => exact h t (Nat.lt_of_le_of_ne (Nat.le_of_lt_succ ht) hne)

theorem set (h : p.BuiltinsApart) (hb : (p.data t).Becomes d) : (p.set t d).BuiltinsApart := by
  intro u hu
  rw [size_set] at hu
  rw [data_set]
  split
  · next heq =>
      obtain ⟨rfl, -⟩ := heq
      rw [hb.isBuiltin_eq]
      exact h u hu
  · exact h u hu

theorem share (h : p.BuiltinsApart) (hd : d.isBuiltin = false) : (p.share d).2.BuiltinsApart := by
  obtain ⟨_, -, heq⟩ | ⟨-, -, hq⟩ := p.share_cases d
  · rwa [heq]
  · exact h.appends hd hq

theorem change (h : p.BuiltinsApart) (hchange : p.Change q) : q.BuiltinsApart := by
  cases hchange with
  | pointer => exact h.share rfl
  | closure params result captures =>
      unfold Pool.closure
      split
      · exact h.share rfl
      · exact h.appends rfl (.push p _)
  | freshVar => exact h.appends rfl (.push p _)
  | derive => exact h.appends rfl (.push p _)
  | newReference => exact h.appends rfl (.push p _)
  | newData => exact h.appends rfl (.push p _)
  | addCase hadd =>
      obtain ⟨ownerName, cases, methods, hd, -, rfl⟩ := addCase_cases hadd
      refine (h.appends rfl (.push p _)).set ?_
      rw [data_push_of_lt p _ (lt_size_of_data_ne (by simp [hd])), hd]
      exact .data (List.prefix_append cases _) (List.Subset.refl _)
  | setIvars hset =>
      obtain ⟨name, old, methods, hd, rfl⟩ := setIvars_cases hset
      exact h.set (hd ▸ .reference (List.Subset.refl _))
  | addMethod hadd =>
      obtain ⟨d, hb, rfl, -⟩ := addMethod_cases hadd
      exact h.set hb
  | unify hunify =>
      obtain ⟨hd, rfl | rfl⟩ := unify_cases hunify
      · exact h
      · exact h.set (hd ▸ .forwarded _)

end BuiltinsApart

/-- The pools that come about by operations, in whatever order and with whatever arguments. -/
def Arises : Pool → Prop :=
  ReflTransGen Change initial

namespace Arises

theorem evolves (h : p.Arises) : initial.Evolves p := by
  induction h with
  | refl => exact .refl _
  | tail _ hchange ih => exact ih.trans hchange.evolves

theorem indexed (h : p.Arises) : p.Indexed := by
  induction h with
  | refl => exact .initial
  | tail _ hchange ih => exact hchange.indexed ih

theorem builtinsApart (h : p.Arises) : p.BuiltinsApart := by
  induction h with
  | refl => exact .initial
  | tail _ hchange ih => exact ih.change hchange

/-- Ground types are those that can be written down. -/
theorem ground_iff (h : p.Arises) : p.Ground t ↔ p.Written t := by
  constructor
  · intro ht
    induction ht with
    | builtin ht =>
        refine .builtin h.evolves (Nat.lt_trans (of_decide_eq_true ht) (by decide))
    | nominal hname => exact .of_nominalName hname
    | pointer hd _ ih =>
        refine .intro (lt_size_of_data_ne (by simp [hd])) (by rw [hd]; rfl) (by simp [hd]) ?_
        simpa [hd, TypeData.parts] using ih
    | closure hd _ _ ihparams ihresult =>
        refine .intro (lt_size_of_data_ne (by simp [hd])) (by rw [hd]; rfl) ?_ fun u hu => ?_
        · intro params result captures hd'
          cases hd.symm.trans hd'
          rfl
        · rw [hd] at hu
          obtain hu | rfl := by simpa [TypeData.parts] using hu
          · exact ihparams u hu
          · exact ihresult
  · intro ht
    induction ht with
    | @intro t hlt known captures _ ih =>
        cases hd : p.data t with
        | pointer target => exact .pointer hd (ih target (by simp [hd, TypeData.parts]))
        | closure params result captured =>
            obtain rfl := captures _ _ _ hd
            exact .closure hd (fun u hu => ih u (by simp [hd, TypeData.parts, hu]))
              (ih result (by simp [hd, TypeData.parts]))
        | reference | data | variant => exact .nominal (by rw [hd]; rfl)
        | var | derived => simp [hd, TypeData.isVar] at known
        | _ => exact .builtin (h.builtinsApart t hlt (by rw [hd]; rfl))

/-- Ground types are equal only if they are the same. -/
theorem sameType_iff_eq_of_ground (h : p.Arises) (ht : p.Ground t) (hu : p.Ground u) :
    p.sameType t u = true ↔ t = u := by
  rw [h.ground_iff] at ht hu
  constructor
  · intro hsame
    exact h.indexed.interned.eq_of_sameType ht hu hsame (sameType_of_resolve_eq rfl)
  · rintro rfl
    exact sameType_of_resolve_eq rfl

end Arises

end Pool

end ClassLang
