import Mathlib.Data.List.Forall2
import ClassLang.Proofs.Semantics.Evaluation
import ClassLang.Proofs.Typing.ArgumentOrder

/-!
# Arguments of evaluated calls

Typing puts the arguments of a call in the order of the parameters once, by their positions in the
call. The evaluation looks for the argument of each parameter instead. Both find the same.
-/

namespace ClassLang.ScalarFunction

variable {α γ : Type}

/-- The argument of a parameter is found by how arguments are passed. -/
theorem argument?_map (items : List γ) (label : γ → Option String) (g : γ → α) (name : String)
    (index : Nat) : argument? (items.map fun x => (label x, g x)) name index =
      ((items.find? (label · == some name)).or (items.filter (label · |>.isNone))[index]?).map g := by
  unfold argument?
  rw [List.find?_map, List.filter_map, List.getElem?_map]
  cases hfind : items.find? (label · == some name) with
  | some x => simp only [Function.comp_def, hfind, Option.map_some, Option.some_or]
  | none => simp only [Function.comp_def, hfind, Option.map_none, Option.none_or, Option.map_map]

/-- The argument of a parameter has a position in the call. -/
theorem argument?_position (args : List (Option String × α)) (name : String) (index : Nat) :
    argument? args name index =
      (argument? (args.zipIdx.map fun arg => (arg.1.1, arg.2)) name index).bind fun position =>
        args[position]?.map (·.2) := by
  have hargs : args = args.zipIdx.map fun arg => (arg.1.1, arg.1.2) := by
    conv_lhs => rw [← List.zipIdx_map_fst 0 args]
  rw [argument?_map]
  conv_lhs => rw [hargs, argument?_map]
  cases hfound : (args.zipIdx.find? (·.1.1 == some name)).or
      (args.zipIdx.filter (·.1.1 |>.isNone))[index]? with
  | none => rfl
  | some arg =>
      have hmem : arg ∈ args.zipIdx := by
        rcases Option.or_eq_some_iff.mp hfound with h | ⟨-, h⟩
        · exact List.mem_of_find?_eq_some h
        · exact List.mem_of_mem_filter (List.mem_of_getElem? h)
      have hat := List.mem_zipIdx_iff_getElem?.mp hmem
      simp [hat]

/-- Where the parameters have different names, and arguments different values, the argument of a
parameter is the one that is placed on it. -/
theorem argument?_eq {sig : Signature} {args : List (Option String × α)} {ordered : OrderedArgs α}
    (h : orderArguments sig args = .ok ordered) {names : List String}
    (hnames : sig.params.map (·.name) = names.map some) (hnodup : names.Nodup)
    (hvalues : (args.map (·.2)).Nodup) {i : Nat} {name : String} (hi : names[i]? = some name) :
    argument? args name i = ordered.fixed[i]? := by
  obtain ⟨placed, hplaced, hfixed, hextra, -⟩ := orderArguments_ok h
  have hfilled : placed.Filled sig args := by
    simpa using Placement.Filled.start.foldlM hplaced
  obtain ⟨hlength, hperm⟩ := orderArguments_places h
  have hall : (ordered.fixed ++ ordered.extra).Nodup := hperm.nodup_iff.mpr hvalues
  have hname : ∀ {j : Nat} {name : String}, (sig.params[j]?.map (·.name)) = some (some name) ↔
      names[j]? = some name := fun {j name} => by
    rw [← List.getElem?_map, hnames, List.getElem?_map]
    simp
  have hslot : ∀ {name : String} {j : Nat}, sig.params.findIdx? (·.name == some name) = some j →
      names[j]? = some name := fun hj => by
    obtain ⟨hlt, heq, -⟩ := List.findIdx?_eq_some_iff_getElem.mp hj
    rw [← hname, List.getElem?_eq_getElem hlt]
    exact congrArg some (beq_iff_eq.mp heq)
  have hlt : i < sig.arity := by
    have hlength : (names.map some).length = names.length := List.length_map _
    rw [Signature.arity, ← List.length_map, hnames, hlength]
    exact (List.getElem?_eq_some_iff.mp hi).1
  have hsame : ∀ {name : String} {j : Nat}, names[j]? = some name → names[i]? = some name → j = i :=
    fun hj hi => (List.getElem?_inj (List.getElem?_eq_some_iff.mp hj).1 hnodup).mp (hj.trans hi.symm)
  unfold argument?
  split
  · next label value hfind =>
      obtain rfl : label = some name := by simpa using List.find?_some hfind
      obtain ⟨slot, hfound, hfull⟩ := hfilled.named name value (List.mem_of_find?_eq_some hfind)
      rw [← hsame (hslot hfound) hi, getElem?_of_mapM_id hfixed hfull]
  · next hnone =>
      show ((args.filter (·.1.isNone))[i]?).map (·.2) = _
      rw [← List.getElem?_map]
      show (positionals args)[i]? = _
      cases hpositional : (positionals args)[i]? with
      | some value =>
          have hfull := hfilled.positional i value hpositional
          rw [if_pos hlt] at hfull
          exact (getElem?_of_mapM_id hfixed hfull).symm
      | none =>
          -- what stands on the parameter was passed some other way
          exfalso
          have hat : i < ordered.fixed.length := hlength ▸ hlt
          have hfixed_i := List.getElem?_eq_getElem hat
          have hunique : ∀ {j : Nat}, ordered.fixed[j]? = some ordered.fixed[i] → j = i := fun hj =>
            (List.getElem?_inj (List.getElem?_eq_some_iff.mp hj).1 (List.nodup_append.mp hall).1).mp
              (hj.trans hfixed_i.symm)
          have hmem : ordered.fixed[i] ∈ args.map (·.2) :=
            hperm.mem_iff.mp (List.mem_append_left _ (List.getElem_mem hat))
          obtain ⟨⟨label, value⟩, harg, hvalue⟩ := List.mem_map.mp hmem
          cases label with
          | none =>
              have hpos : value ∈ positionals args :=
                List.mem_map.mpr ⟨_, List.mem_filter.mpr ⟨harg, rfl⟩, rfl⟩
              obtain ⟨j, hj⟩ := List.mem_iff_getElem?.mp hpos
              have hfull := hfilled.positional j value hj
              split at hfull
              · have hji := hunique ((getElem?_of_mapM_id hfixed hfull).trans (congrArg some hvalue))
                rw [hji, hpositional] at hj
                cases hj
              · rw [hextra] at hfull
                exact (List.nodup_append.mp hall).2.2 _ (List.getElem_mem hat) _
                  (List.mem_of_getElem? hfull) hvalue.symm
          | some name' =>
              obtain ⟨slot, hfound, hfull⟩ := hfilled.named name' value harg
              have hji := hunique ((getElem?_of_mapM_id hfixed hfull).trans (congrArg some hvalue))
              have hname' := hslot hfound
              rw [hji, hi] at hname'
              cases hname'
              exact List.find?_eq_none.mp hnone _ harg (by simp)

/-- A call of a function with a fixed number of parameters has no further arguments. -/
theorem extra_eq_nil {sig : Signature} {args : List (Option String × α)} {ordered : OrderedArgs α}
    (h : orderArguments sig args = .ok ordered) (hvarargs : sig.varargs = false) :
    ordered.extra = [] := by
  obtain ⟨-, -, -, -, hcount⟩ := orderArguments_ok h
  obtain ⟨hlength, hperm⟩ := orderArguments_places h
  have hsum := hperm.length_eq
  rw [List.length_append, List.length_map, hlength] at hsum
  simp only [hvarargs, Bool.not_false, and_true, not_or, Nat.not_lt] at hcount
  exact List.eq_nil_of_length_eq_zero (by simp only [Signature.arity] at hcount; omega)

theorem mapM_eq_of_forall₂ {β : Type} {g : α → Option γ} {g' : β → Option γ} {xs : List α}
    {ys : List β} (h : List.Forall₂ (fun x y => g x = g' y) xs ys) : xs.mapM g = ys.mapM g' := by
  induction h with
  | nil => rfl
  | cons hhead _ ih => rw [List.mapM_cons, List.mapM_cons, hhead, ih]

/-- The values of the parameters are the arguments that are placed on them. -/
theorem bind?_eq (f : ScalarFunction) {sig : Signature} {args : List (Option String × Scalar)}
    {ordered : OrderedArgs Nat}
    (h : orderArguments sig (args.zipIdx.map fun arg => (arg.1.1, arg.2)) = .ok ordered)
    (hnames : sig.params.map (·.name) = f.params.map fun param => some param.1)
    (hnodup : (f.params.map (·.1)).Nodup) :
    f.bind? args = (ordered.fixed.zip f.params).mapM fun (position, param) =>
      args[position]?.bind fun arg => arg.2.passTo param.2 := by
  have hvalues : ((args.zipIdx.map fun arg => (arg.1.1, arg.2)).map (·.2)).Nodup := by
    rw [List.map_map]
    exact (List.zipIdx_map_snd 0 args).symm ▸ List.nodup_range'
  have hlength : ordered.fixed.length = f.params.length := by
    rw [(orderArguments_places h).1, ← List.length_map (·.name), hnames, List.length_map]
  refine mapM_eq_of_forall₂ (List.forall₂_iff_get.mpr ⟨by simp [hlength], fun i hi hi' => ?_⟩)
  have hlt : i < f.params.length := by simpa using hi
  have hname : (f.params.map (·.1))[i]? = some f.params[i].1 := by simp [hlt]
  have hfound := argument?_eq h (by rw [hnames, List.map_map]; rfl) hnodup hvalues hname
  rw [List.getElem?_eq_getElem (hlength ▸ hlt)] at hfound
  simp only [List.get_eq_getElem, List.getElem_zipIdx, List.getElem_zip, Nat.zero_add]
  rw [argument?_position, hfound, Option.bind_some]
  cases args[ordered.fixed[i]]? <;> rfl

end ClassLang.ScalarFunction
