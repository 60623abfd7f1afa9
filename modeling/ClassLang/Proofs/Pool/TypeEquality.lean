import ClassLang.Proofs.Pool.StrictResolution

/-!
# Equal types have the same shape

The shape of a type is what is left of it when everything it stands for is looked up: the shapes of
its parts if it stands for a closure, and a position otherwise. `sameType` compares shapes, so it is
an equivalence, and how a type converts to another one depends on their shapes only.
-/

namespace ClassLang

/-- A type with everything looked up that it stands for. -/
inductive Shape where
  | position (t : TypeId)
  | closure (params : List Shape) (result : Shape) (captures : List Shape)

namespace Pool

open Relation (ReflTransGen)

/-- `shape` with a bound on the nesting of closures. -/
def shapeWithin (p : Pool) : Nat → TypeId → Shape
  | fuel, t =>
    match p.view t with
    | .closure params result captures =>
      match fuel with
      | 0 => .position (p.resolve t)
      | fuel + 1 =>
        .closure (params.map (p.shapeWithin fuel)) (p.shapeWithin fuel result)
          (captures.map (p.shapeWithin fuel))
    | _ => .position (p.resolve t)

/-- The shape of a type. -/
def shape (p : Pool) (t : TypeId) : Shape :=
  p.shapeWithin p.size t

variable {p : Pool} {a a' b b' c t u : TypeId} {as bs : List TypeId} {fuel : Nat}
variable {params captures params' captures' : List TypeId} {result result' : TypeId}

/-- Equal types and conversions by shapes. -/
structure ComparesShapes (p : Pool) : Prop where
  /-- The shape of a closure is made of those of its parts. -/
  shape_closure : ∀ t params result captures, p.view t = .closure params result captures →
    p.shape t = .closure (params.map p.shape) (p.shape result) (captures.map p.shape)
  shape_other : ∀ t, (∀ params result captures, p.view t ≠ .closure params result captures) →
    p.shape t = .position (p.resolve t)
  sameType_iff : ∀ a b, p.sameType a b = true ↔ p.shape a = p.shape b
  equivalence : Equivalence fun a b => p.sameType a b = true
  identity_iff : ∀ a b, p.conversion? a b = some .identity ↔ p.sameType a b = true
  conversion_congr : ∀ a a' b b', p.sameType a a' = true → p.sameType b b' = true →
    p.conversion? a b = p.conversion? a' b'
  canConvert_refl : ∀ a, p.canConvert a a = true
  canConvert_trans : ∀ a b c, p.canConvert a b = true → p.canConvert b c = true →
    p.canConvert a c = true

/-! ## Bounds -/

/-- There are no more types to reach than the pool has. -/
theorem depth_le_size (p : Pool) (t : TypeId) : p.depth t ≤ p.size := by
  classical
  exact (Finset.card_le_card (Finset.filter_subset _ _)).trans_eq (Finset.card_range _)

/-- Types that stand for the same position have the same shape. -/
theorem shapeWithin_of_resolve_eq (h : p.resolve a = p.resolve b) (fuel : Nat) :
    p.shapeWithin fuel a = p.shapeWithin fuel b := by
  unfold shapeWithin
  rw [view, view, h]

/-- The shape of what is no closure is its position. -/
theorem shapeWithin_of_ne (h : ∀ params result captures, p.view t ≠ .closure params result captures)
    (fuel : Nat) : p.shapeWithin fuel t = .position (p.resolve t) := by
  unfold shapeWithin
  split
  · next params result captures hd => exact absurd hd (h params result captures)
  · rfl

theorem shape_of_ne (h : ∀ params result captures, p.view t ≠ .closure params result captures) :
    p.shape t = .position (p.resolve t) :=
  shapeWithin_of_ne h _

/-- Lists are equal entry by entry if their shapes are. -/
theorem forall₂_iff_map_eq {P : TypeId → TypeId → Prop} {f : TypeId → Shape}
    (h : ∀ x ∈ as, ∀ y, P x y ↔ f x = f y) : List.Forall₂ P as bs ↔ as.map f = bs.map f := by
  induction as generalizing bs with
  | nil => cases bs <;> simp
  | cons a as ih =>
      rw [List.forall_mem_cons] at h
      cases bs with
      | nil => simp
      | cons b bs => simp [List.forall₂_cons, h.1, ih h.2]

/-- Only equal types convert without change. -/
theorem conversion?_eq_identity_iff :
    p.conversion? a b = some .identity ↔ p.sameType a b = true := by
  unfold conversion?
  constructor
  · intro h
    by_contra hsame
    rw [if_neg hsame] at h
    split at h <;> first | cases h | (split at h <;> cases h)
  · intro hsame
    rw [if_pos hsame]

namespace Founded

/-- What a closure is made of reaches less than the closure. -/
theorem depth_part_lt (h : p.Founded) (hu : u ∈ (p.view t).parts) :
    p.depth (p.resolve u) < p.depth (p.resolve t) :=
  Nat.lt_of_le_of_lt (h.resolve_spec u).2
    (depth_lt_depth h.ends (h.lt_of_looksAt (t := p.resolve t) (.inl hu)) (.inl hu))

/-- Two bounds that a depth does not exceed give the same shape. -/
theorem shapeWithin_congr (h : p.Founded) {fuel fuel' : Nat} (hfuel : p.depth (p.resolve t) ≤ fuel)
    (hfuel' : p.depth (p.resolve t) ≤ fuel') : p.shapeWithin fuel t = p.shapeWithin fuel' t := by
  induction fuel generalizing t fuel' with
  | zero =>
      refine (shapeWithin_of_ne (fun params result captures hd => ?_) _).trans
        (shapeWithin_of_ne (fun params result captures hd => ?_) _).symm <;>
      · have := h.depth_part_lt (t := t) (u := result) (by simp [hd, TypeData.parts])
        omega
  | succ fuel ih =>
      unfold shapeWithin
      cases hd : p.view t with
      | closure params result captures =>
          have hpart (u : TypeId) (hu : u ∈ params ++ result :: captures) :
              p.depth (p.resolve u) < p.depth (p.resolve t) :=
            h.depth_part_lt (by rw [hd]; exact hu)
          have hresult := hpart result (by simp)
          obtain ⟨fuel', rfl⟩ := Nat.exists_eq_succ_of_ne_zero (n := fuel') (by omega)
          have hsame (u : TypeId) (hu : u ∈ params ++ result :: captures) :
              p.shapeWithin fuel u = p.shapeWithin fuel' u :=
            ih (by have := hpart u hu; omega) (by have := hpart u hu; omega)
          simp only [hsame result (by simp),
            List.map_congr_left fun u (hu : u ∈ params) => hsame u (by simp [hu]),
            List.map_congr_left fun u (hu : u ∈ captures) => hsame u (by simp [hu])]
      | _ => rfl

/-- The shape of a closure is made of those of its parts. -/
theorem shape_closure (h : p.Founded) (hd : p.view t = .closure params result captures) :
    p.shape t = .closure (params.map p.shape) (p.shape result) (captures.map p.shape) := by
  have hpart (u : TypeId) (hu : u ∈ params ++ result :: captures) :
      p.depth (p.resolve u) < p.depth (p.resolve t) :=
    h.depth_part_lt (by rw [hd]; exact hu)
  have hsize := p.depth_le_size (p.resolve t)
  have hresult := hpart result (by simp)
  obtain ⟨fuel, hfuel⟩ := Nat.exists_eq_succ_of_ne_zero (n := p.size) (by omega)
  have hsame (u : TypeId) (hu : u ∈ params ++ result :: captures) :
      p.shapeWithin fuel u = p.shape u :=
    h.shapeWithin_congr (by have := hpart u hu; omega) (p.depth_le_size _)
  rw [shape, hfuel]
  unfold shapeWithin
  simp only [hd, hsame result (by simp),
    List.map_congr_left fun u (hu : u ∈ params) => hsame u (by simp [hu]),
    List.map_congr_left fun u (hu : u ∈ captures) => hsame u (by simp [hu])]

/-! ## Equality -/

/-- Types of one shape stand for the same position, or for closures with parts of the same shapes. -/
theorem shape_eq_cases (h : p.Founded) (hshape : p.shape a = p.shape b) :
    p.resolve a = p.resolve b ∨ ∃ params result captures params' result' captures',
      p.view a = .closure params result captures ∧ p.view b = .closure params' result' captures' ∧
        params.map p.shape = params'.map p.shape ∧ p.shape result = p.shape result' ∧
        captures.map p.shape = captures'.map p.shape := by
  by_cases ha : ∃ params result captures, p.view a = .closure params result captures <;>
    by_cases hb : ∃ params result captures, p.view b = .closure params result captures
  · obtain ⟨params, result, captures, ha⟩ := ha
    obtain ⟨params', result', captures', hb⟩ := hb
    rw [h.shape_closure ha, h.shape_closure hb, Shape.closure.injEq] at hshape
    exact .inr ⟨params, result, captures, params', result', captures', ha, hb, hshape⟩
  · obtain ⟨params, result, captures, ha⟩ := ha
    rw [h.shape_closure ha, shape_of_ne fun _ _ _ hd => hb ⟨_, _, _, hd⟩] at hshape
    cases hshape
  · obtain ⟨params, result, captures, hb⟩ := hb
    rw [h.shape_closure hb, shape_of_ne fun _ _ _ hd => ha ⟨_, _, _, hd⟩] at hshape
    cases hshape
  · rw [shape_of_ne fun _ _ _ hd => ha ⟨_, _, _, hd⟩,
      shape_of_ne fun _ _ _ hd => hb ⟨_, _, _, hd⟩, Shape.position.injEq] at hshape
    exact .inl hshape

/-- A bound that a depth does not exceed is enough to compare shapes. -/
theorem sameTypeWithin_iff (h : p.Founded) (hfuel : p.depth (p.resolve a) ≤ fuel) :
    p.sameTypeWithin fuel a b = true ↔ p.shape a = p.shape b := by
  induction fuel using Nat.strong_induction_on generalizing a b with
  | _ fuel ih =>
      -- parts of a closure are compared within a bound that is smaller by one
      have hparts (nested : Nat) (hnested : fuel = nested + 1) {params captures : List TypeId}
          {result : TypeId} (ha : p.view a = .closure params result captures) (u : TypeId)
          (hu : u ∈ params ++ result :: captures) (v : TypeId) :
          p.sameTypeWithin nested u v = true ↔ p.shape u = p.shape v := by
        have := h.depth_part_lt (t := a) (u := u) (by rw [ha]; exact hu)
        exact ih nested (by omega) (by omega)
      constructor
      · intro hsame
        rcases sameTypeWithin_cases hsame with heq | ⟨params, result, captures, params', result',
          captures', nested, hnested, ha, hb, hparams, hresult, hcaptures⟩
        · exact shapeWithin_of_resolve_eq heq _
        have hpart := hparts nested hnested ha
        rw [h.shape_closure (t := a) ha, h.shape_closure (t := b) hb,
          (hpart result (by simp) result').1 hresult,
          (forall₂_iff_map_eq fun x (hx : x ∈ params) => hpart x (by simp [hx])).1 hparams,
          (forall₂_iff_map_eq fun x (hx : x ∈ captures) => hpart x (by simp [hx])).1 hcaptures]
      · intro hshape
        rcases h.shape_eq_cases hshape with heq | ⟨params, result, captures, params', result',
          captures', ha, hb, hparams, hresult, hcaptures⟩
        · exact sameTypeWithin_of_resolve_eq heq fuel
        have hdepth := h.depth_part_lt (t := a) (u := result) (by rw [ha]; simp [TypeData.parts])
        obtain ⟨nested, rfl⟩ := Nat.exists_eq_succ_of_ne_zero (n := fuel) (by omega)
        have hpart := hparts nested rfl ha
        exact sameTypeWithin_of_closures ha hb
          ((forall₂_iff_map_eq fun x hx => hpart x (by simp [hx])).2 hparams)
          ((hpart result (by simp) result').2 hresult)
          ((forall₂_iff_map_eq fun x hx => hpart x (by simp [hx])).2 hcaptures)

/-- Types are equal exactly if they have the same shape. -/
theorem sameType_iff (h : p.Founded) : p.sameType a b = true ↔ p.shape a = p.shape b :=
  h.sameTypeWithin_iff (p.depth_le_size _)

/-- Lists of types are equal exactly if they have the same shapes. -/
theorem sameTypes_iff (h : p.Founded) : p.sameTypes as bs = true ↔ as.map p.shape = bs.map p.shape := by
  rw [← forall₂_iff_map_eq (P := fun x y => p.sameType x y = true) fun _ _ _ => h.sameType_iff,
    List.forall₂_iff_zip]
  simp [sameTypes]

theorem sameType_equivalence (h : p.Founded) : Equivalence fun a b => p.sameType a b = true where
  refl _ := sameType_of_resolve_eq rfl
  symm hab := h.sameType_iff.2 (h.sameType_iff.1 hab).symm
  trans hab hbc := h.sameType_iff.2 ((h.sameType_iff.1 hab).trans (h.sameType_iff.1 hbc))

/-! ## Conversions -/

/-- Shapes decide equality, so equal types may take each other's place. -/
theorem sameType_congr (h : p.Founded) (ha : p.shape a = p.shape a') (hb : p.shape b = p.shape b') :
    p.sameType a b = p.sameType a' b' := by
  rw [Bool.eq_iff_iff, h.sameType_iff, h.sameType_iff, ha, hb]

theorem sameTypes_congr (h : p.Founded) {as' bs' : List TypeId}
    (has : as.map p.shape = as'.map p.shape) (hbs : bs.map p.shape = bs'.map p.shape) :
    p.sameTypes as bs = p.sameTypes as' bs' := by
  rw [Bool.eq_iff_iff, h.sameTypes_iff, h.sameTypes_iff, has, hbs]

/-- Equal types convert to others alike. -/
theorem conversion?_congr_left (h : p.Founded) (hsame : p.sameType a a' = true) (b : TypeId) :
    p.conversion? a b = p.conversion? a' b := by
  have hequal := h.sameType_congr (h.sameType_iff.1 hsame) (rfl : p.shape b = p.shape b)
  unfold conversion?
  rw [hequal]
  rcases h.shape_eq_cases (h.sameType_iff.1 hsame) with heq | ⟨params, result, captures, params', result',
    captures', ha, ha', hparams, hresult, -⟩
  · rw [view, heq, ← view]
  · simp only [ha, ha']
    cases p.view b with
    | closure wanted wantedResult =>
        simp only [h.sameTypes_congr hparams (rfl : wanted.map p.shape = _),
          h.sameType_congr hresult (rfl : p.shape wantedResult = _)]
    | _ => rfl

/-- Others convert to equal types alike. -/
theorem conversion?_congr_right (h : p.Founded) (hsame : p.sameType b b' = true) (a : TypeId) :
    p.conversion? a b = p.conversion? a b' := by
  have hequal := h.sameType_congr (rfl : p.shape a = p.shape a) (h.sameType_iff.1 hsame)
  unfold conversion?
  rw [hequal]
  rcases h.shape_eq_cases (h.sameType_iff.1 hsame) with heq | ⟨params, result, captures, params', result',
    captures', hb, hb', hparams, hresult, -⟩
  · rw [show p.view b = p.view b' by rw [view, heq, ← view]]
  · simp only [hb, hb']
    cases p.view a with
    | closure given givenResult =>
        simp only [h.sameTypes_congr (rfl : given.map p.shape = _) hparams,
          h.sameType_congr (rfl : p.shape givenResult = _) hresult]
    | _ => rfl

/-- Coercions compose. -/
theorem coerces_trans (h : p.Founded) {d d' d'' : TypeData} (hd : p.Coerces d d')
    (hd' : p.Coerces d' d'') : p.Coerces d d'' := by
  cases hd with
  | wrap known hvoid => cases hd' with | wrap => exact .wrap known hvoid
  | widen => cases hd' with | wrap => exact .wrap rfl (by simp)
  | cast hparams hresult =>
      cases hd' with
      | wrap => exact .wrap rfl (by simp)
      | cast hparams' hresult' =>
          refine .cast (h.sameTypes_iff.2 ?_) (h.sameType_equivalence.trans hresult hresult')
          exact (h.sameTypes_iff.1 hparams).trans (h.sameTypes_iff.1 hparams')

theorem canConvert_trans (h : p.Founded) (hab : p.canConvert a b = true)
    (hbc : p.canConvert b c = true) : p.canConvert a c = true := by
  rcases canConvert_iff.1 hab with hsame | hcoerce
  · rwa [canConvert, h.conversion?_congr_left hsame, ← canConvert]
  rcases canConvert_iff.1 hbc with hsame' | hcoerce'
  · rwa [canConvert, ← h.conversion?_congr_right hsame', ← canConvert]
  · exact canConvert_iff.2 (.inr (h.coerces_trans hcoerce hcoerce'))

/-- **Equality of types is equality of shapes, and conversions respect it**, in every pool in which no
variable was forwarded to a type built from itself. -/
theorem comparesShapes (h : p.Founded) : p.ComparesShapes where
  shape_closure _ _ _ _ := h.shape_closure
  shape_other _ := shape_of_ne
  sameType_iff _ _ := h.sameType_iff
  equivalence := h.sameType_equivalence
  identity_iff _ _ := conversion?_eq_identity_iff
  conversion_congr _ a' b _ ha hb :=
    (h.conversion?_congr_left ha b).trans (h.conversion?_congr_right hb a')
  canConvert_refl _ := canConvert_iff.2 (.inl (sameType_of_resolve_eq rfl))
  canConvert_trans _ _ _ := h.canConvert_trans

end Founded

/-- The closures from Integer to Boolean, without and with a capture, each made once with a variable
that was then forwarded to Integer. -/
def closuresPool : Pool :=
  (((Pool.initial.freshVar.2.closure [8] .boolean []).2.closure [8] .boolean [.string]).2.set 8
    (.var (some .integer))).closure [.integer] .boolean [] |>.2

/-- The closures without captures are equal, at different positions, and the one with a capture is
cast to either. -/
theorem comparesShapes_closures :
    closuresPool.Founded ∧ closuresPool.ComparesShapes ∧ closuresPool.resolve 9 ≠ 11 ∧
      closuresPool.shape 9 = closuresPool.shape 11 ∧
      closuresPool.conversion? 10 9 = some .castClosure ∧
      closuresPool.conversion? 10 9 = closuresPool.conversion? 10 11 := by
  have hopen : Pool.initial.Grows
      ((Pool.initial.freshVar.2.closure [8] .boolean []).2.closure [8] .boolean [.string]).2 :=
    ((ReflTransGen.single (.freshVar _)).tail (.closure (by decide))).tail (.closure (by decide))
  have hgrows : Pool.initial.Grows closuresPool :=
    (hopen.unify 8 .integer (by decide) (not_looksAt_of_blank rfl rfl) rfl).tail
      (.closure (by decide))
  have hfounded := Founded.initial.grows hgrows
  have hcompares := hfounded.comparesShapes
  have hsame : closuresPool.sameType 9 11 = true := by decide +kernel
  exact ⟨hfounded, hcompares, by decide, (hcompares.sameType_iff 9 11).1 hsame, by decide +kernel,
    hcompares.conversion_congr 10 10 9 11 (hcompares.equivalence.refl 10) hsame⟩

end Pool

end ClassLang
