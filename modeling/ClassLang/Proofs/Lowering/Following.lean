import ClassLang.Proofs.Lowering.GrowthSteps

/-!
# Generating parts

Generating a node makes code for the current block and for new blocks, and comes to an end in one of
these. `Lower.Follows` says so of a step that generates parts, by comparing two ways to generate
them: if the second way does the same as the first whenever what comes of it is in the final output
`F`, then the whole does the same. So whatever a part is generated to is still there at the end.
-/

namespace ClassLang

open IR (BlockRef Build Builder FunctionId HasOperands KeepsAdding Ty Value below_cons below_nil)
open IR.HasOperands (Below)

variable [CaseTags]

/-- From block `c₀` of function `f` in `o₀` building has come to some block of the function. On the
way the `blocks` were made. -/
structure Output.Since (f : FunctionId) (c₀ : Nat) (o₀ : Output) (blocks : List Nat) (o : Output) :
    Prop where
  extends_ : o₀.Extends o
  shaped : o.Shaped
  origin : c₀ < (o₀.builder.module.function f).blocks.size
  place : ∃ c, o.builder.At f c ∧ o₀.builder.Proceeds f c₀ c o.builder
  made : ∀ k ∈ blocks, (o₀.builder.module.function f).blocks.size ≤ k ∧
    k < (o.builder.module.function f).blocks.size

namespace Output.Since

variable {f : FunctionId} {c c₀ : Nat} {o₀ o o' : Output} {blocks : List Nat}

theorem refl (hat : o.builder.At f c) (hshaped : o.Shaped) : Since f c o [] o :=
  ⟨.refl o, hshaped, hat.block_lt, ⟨c, hat, .refl f c _⟩, by simp⟩

/-- Code was added to the current block. -/
theorem adds (h : Since f c₀ o₀ blocks o) (hadds : ∀ c, o.builder.At f c → o.Adds f c o') :
    Since f c₀ o₀ blocks o' ∧ o.Grows o' := by
  obtain ⟨c, hat, hproceeds⟩ := h.place
  have hadds := hadds c hat
  refine ⟨⟨h.extends_.trans hadds.toExtends, hadds.shaped h.shaped, h.origin,
    ⟨c, hadds.builder.at_, hproceeds.trans hadds.builder.proceeds⟩, fun k hk => ?_⟩, hadds.grows⟩
  have hle := (hadds.builder.proceeds.grows.functions f).blocks
  exact ⟨(h.made k hk).1, Nat.lt_of_lt_of_le (h.made k hk).2 hle⟩

/-- A block that was made on the way is not the entry. -/
theorem ne_entry (h : Since f c₀ o₀ blocks o) {k : Nat} (hk : k ∈ blocks) : k ≠ 0 := by
  have := (h.made k hk).1
  have := h.origin
  omega

end Output.Since

omit [CaseTags] in
theorem Output.Grows.next_le {o o' : Output} (h : o.Grows o') (f : FunctionId) :
    o.builder.next f ≤ o'.builder.next f :=
  (h.builder.functions f).next

namespace Lower

variable {α β : Type} {F : Output} {f : FunctionId} {n c₀ : Nat} {o₀ : Output} {blocks : List Nat}

/-- What a step gives and leaves, if building comes from `o₀` and has made the `blocks`. -/
structure Arrives [HasOperands α] (f : FunctionId) (c₀ : Nat) (o₀ : Output) (blocks : List Nat)
    (b : Body) (o : Output) (r : α) (b' : Body) (o' : Output) : Prop where
  stays : b.Stays b'
  since : Output.Since f c₀ o₀ blocks o'
  grows : o.Grows o'
  body : Below (o'.builder.next f) b'
  result : Below (o'.builder.next f) r

/-- From anywhere on the way from `o₀` where the numbers below `n` are given out, the first step goes
on, and the second one does the same if what comes of it is in `F`. -/
def FollowsFrom [HasOperands α] (F : Output) (f : FunctionId) (n c₀ : Nat) (o₀ : Output)
    (blocks : List Nat) (step step' : Lower α) : Prop :=
  ∀ b o, b.function = f → Output.Since f c₀ o₀ blocks o → n ≤ o.builder.next f →
    Below (o.builder.next f) b → ∀ r b' o', step.run b o = .ok (r, b') o' →
      Arrives f c₀ o₀ blocks b o r b' o' ∧ (o'.Grows F → step'.run b o = .ok (r, b') o')

/-- The second step does the same as the first one if what comes of it is in `F`. -/
def Follows [HasOperands α] (F : Output) (f : FunctionId) (step step' : Lower α) : Prop :=
  ∀ n c₀ o₀ blocks, FollowsFrom F f n c₀ o₀ blocks step step'

namespace FollowsFrom

variable [HasOperands α] [HasOperands β]

theorem mono {step step' : Lower α} {n' : Nat} (h : FollowsFrom F f n c₀ o₀ blocks step step')
    (hle : n ≤ n') : FollowsFrom F f n' c₀ o₀ blocks step step' :=
  fun b o hb ho hn => h b o hb ho (Nat.le_trans hle hn)

theorem of_adds {step : Lower α} (h : Adds f n step) :
    FollowsFrom F f n c₀ o₀ blocks step step := by
  intro b o hb ho hn hbelow r b' o' hrun
  obtain ⟨c, hat, -⟩ := ho.place
  obtain ⟨hstays, -, hbody, hresult⟩ := h b c o hb hat ho.shaped hn hbelow r b' o' hrun
  obtain ⟨hsince, hgrows⟩ := ho.adds fun c hat =>
    (h b c o hb hat ho.shaped hn hbelow r b' o' hrun).2.1
  exact ⟨⟨hstays, hsince, hgrows, hbody, hresult⟩, fun _ => hrun⟩

theorem pure {a : α} (h : Below n a) :
    FollowsFrom F f n c₀ o₀ blocks (Pure.pure a) (Pure.pure a) :=
  of_adds (.pure h)

theorem done : FollowsFrom F f n c₀ o₀ blocks (Pure.pure ⟨⟩ : Lower PUnit) (Pure.pure ⟨⟩) :=
  of_adds .done

/-- What comes after a step may use what the step gives. -/
theorem bind {step step' : Lower α} {next next' : α → Lower β}
    (h : FollowsFrom F f n c₀ o₀ blocks step step')
    (hnext : ∀ a n', n ≤ n' → Below n' a →
      FollowsFrom F f n' c₀ o₀ blocks (next a) (next' a)) :
    FollowsFrom F f n c₀ o₀ blocks (step >>= next) (step' >>= next') := by
  intro b o hb ho hn hbelow r b' o' hrun
  obtain ⟨a, b₁, o₁, hstep, hrest⟩ := bind_ok hrun
  obtain ⟨ha, hstep'⟩ := h b o hb ho hn hbelow a b₁ o₁ hstep
  obtain ⟨hr, hrest'⟩ := hnext a _ (Nat.le_trans hn (ha.grows.next_le f)) ha.result b₁ o₁
    (ha.stays.function.trans hb) ha.since (Nat.le_refl _) ha.body r b' o' hrest
  refine ⟨⟨ha.stays.trans hr.stays, hr.since, ha.grows.trans hr.grows, hr.body, hr.result⟩,
    fun hF => ?_⟩
  exact run_bind_ok (hstep' (hr.grows.trans hF)) (hrest' hF)

/-- What comes after a step does not depend on what it gives. -/
theorem andThen {step step' : Lower α} {next next' : α → Lower β}
    (h : FollowsFrom F f n c₀ o₀ blocks step step')
    (hnext : ∀ a, FollowsFrom F f n c₀ o₀ blocks (next a) (next' a)) :
    FollowsFrom F f n c₀ o₀ blocks (step >>= next) (step' >>= next') :=
  h.bind fun a _ hle _ => (hnext a).mono hle

/-- A step that adds code, and what comes after it. -/
theorem adds_bind {step : Lower α} {next next' : α → Lower β} (h : Adds f n step)
    (hnext : ∀ a n', n ≤ n' → Below n' a →
      FollowsFrom F f n' c₀ o₀ blocks (next a) (next' a)) :
    FollowsFrom F f n c₀ o₀ blocks (step >>= next) (step >>= next') :=
  (of_adds h).bind hnext

theorem adds_andThen {step : Lower α} {next next' : α → Lower β} (h : Adds f n step)
    (hnext : ∀ a, FollowsFrom F f n c₀ o₀ blocks (next a) (next' a)) :
    FollowsFrom F f n c₀ o₀ blocks (step >>= next) (step >>= next') :=
  (of_adds h).andThen hnext

theorem get_bind {next next' : Body → Lower α}
    (h : ∀ b : Body, b.function = f → ∀ n', n ≤ n' → Below n' b →
      FollowsFrom F f n' c₀ o₀ blocks (next b) (next' b)) :
    FollowsFrom F f n c₀ o₀ blocks (get >>= next) (get >>= next') :=
  fun b o hb ho hn hbelow => h b hb _ hn hbelow b o hb ho (Nat.le_refl _) hbelow

theorem ite {p : Prop} [Decidable p] {yes yes' no no' : Lower α}
    (hyes : FollowsFrom F f n c₀ o₀ blocks yes yes')
    (hno : FollowsFrom F f n c₀ o₀ blocks no no') :
    FollowsFrom F f n c₀ o₀ blocks (if p then yes else no) (if p then yes' else no') := by
  by_cases hp : p
  · simpa only [if_pos hp] using hyes
  · simpa only [if_neg hp] using hno

theorem forM {γ : Type} {items : List γ} {body body' : γ → Lower PUnit}
    (h : ∀ item, FollowsFrom F f n c₀ o₀ blocks (body item) (body' item)) :
    FollowsFrom F f n c₀ o₀ blocks (items.forM body) (items.forM body') := by
  induction items with
  | nil => exact done
  | cons item items ih => exact (h item).andThen fun _ => ih

theorem mapM {γ : Type} {items : List γ} {body body' : γ → Lower α}
    (h : ∀ item, FollowsFrom F f n c₀ o₀ blocks (body item) (body' item)) :
    FollowsFrom F f n c₀ o₀ blocks (items.mapM body) (items.mapM body') := by
  induction items with
  | nil => exact pure below_nil
  | cons item items ih =>
      rw [List.mapM_cons, List.mapM_cons]
      refine (h item).bind fun first n' hle hfirst => ?_
      refine (ih.mono hle).bind fun rest n'' hle' hrest => ?_
      exact pure (below_cons (hfirst.mono hle') hrest)

/-- A loop that hands on a result. -/
theorem foldlM {γ : Type} {items : List γ} {body body' : α → γ → Lower α}
    (h : ∀ a item n', n ≤ n' → Below n' a →
      FollowsFrom F f n' c₀ o₀ blocks (body a item) (body' a item)) {a : α} (ha : Below n a) :
    FollowsFrom F f n c₀ o₀ blocks (items.foldlM body a) (items.foldlM body' a) := by
  induction items generalizing a n with
  | nil => exact pure ha
  | cons item items ih =>
      rw [List.foldlM_cons, List.foldlM_cons]
      exact (h a item n (Nat.le_refl _) ha).bind fun a n' hle ha =>
        ih (fun a item n'' hle' => h a item n'' (Nat.le_trans hle hle')) ha

/-! ### Blocks -/

/-- A new block. -/
theorem block_bind {label : String} {next next' : BlockRef → Lower α}
    (h : ∀ k, FollowsFrom F f n c₀ o₀ (k :: blocks) (next ⟨f, k⟩) (next' ⟨f, k⟩)) :
    FollowsFrom F f n c₀ o₀ blocks (block label >>= next) (block label >>= next') := by
  intro b o hb ho hn hbelow r b' o' hrun
  obtain ⟨ref, b₁, o₁, hblock, hrest⟩ := bind_ok hrun
  have hrunBlock : (block label).run b o = .ok (ref, b₁) o₁ := hblock
  obtain ⟨c, hat, -⟩ := ho.place
  obtain ⟨href, hadds, hsize, -⟩ := o.builder.appendBlock_adds hat label
  subst hb
  cases hblock
  have hadds' : ∀ c, o.builder.At b.function c → o.Adds b.function c
      { o with builder := ((Build.appendBlock b.function label).run o.builder).2 } :=
    fun c hat => let hadds := (o.builder.appendBlock_adds hat label).2.1
      ⟨.of_build o hadds.proceeds.grows.toEnlarges, hadds⟩
  obtain ⟨hsince, hgrows⟩ := ho.adds hadds'
  have hmade : Output.Since b.function c₀ o₀ ((o.builder.module.function b.function).blocks.size ::
      blocks) { o with builder := ((Build.appendBlock b.function label).run o.builder).2 } := by
    refine { hsince with made := fun k hk => ?_ }
    rcases List.mem_cons.mp hk with rfl | hk
    · obtain ⟨c', -, hproceeds⟩ := ho.place
      exact ⟨(hproceeds.grows.functions _).blocks, by rw [hsize]; exact Nat.lt_succ_self _⟩
    · exact hsince.made k hk
  have hnext := hgrows.next_le b.function
  obtain ⟨hr, hrest'⟩ := h _ b _ rfl hmade (Nat.le_trans hn hnext) (hbelow.mono hnext) r b' o' hrest
  refine ⟨{ hr with
    since := { hr.since with made := fun k hk => hr.since.made k (List.mem_cons_of_mem _ hk) }
    grows := hgrows.trans hr.grows }, fun hF => ?_⟩
  exact run_bind_ok hrunBlock (hrest' hF)

/-- Building goes on in a block that was made on the way. -/
theorem positionAtEnd {k : Nat} (hk : k ∈ blocks) : FollowsFrom F f n c₀ o₀ blocks
    (build (Build.positionAtEnd ⟨f, k⟩)) (build (Build.positionAtEnd ⟨f, k⟩)) := by
  rintro b o - ho - hbelow _ _ _ ⟨⟩
  obtain ⟨c, hat, hproceeds⟩ := ho.place
  have hgrows : o.builder.Grows (Build.positionAtEnd ⟨f, k⟩ |>.run o.builder).2 :=
    .of_module rfl rfl rfl
  have hshaped := ho.shaped.builder
  have hsince : Output.Since f c₀ o₀ blocks
      { o with builder := (Build.positionAtEnd ⟨f, k⟩ |>.run o.builder).2 } := by
    refine ⟨ho.extends_.trans (.of_build o hgrows.toEnlarges), ⟨⟨hshaped.functions, hshaped.declared⟩,
      ho.shaped.constants⟩, ho.origin, ⟨k, ⟨hat.function_lt, (ho.made k hk).2, rfl, rfl⟩, ?_⟩,
      ho.made⟩
    exact ⟨⟨hproceeds.grows.trans hgrows, fun _ => ⟨hshaped.functions, hshaped.declared⟩,
      hproceeds.others⟩, .inr (ho.made k hk).1, hproceeds.rest⟩
  exact ⟨⟨.refl b, hsince, ⟨.of_build o _, hgrows⟩, hbelow, trivial⟩, fun _ => rfl⟩

theorem moveBlockToEnd {k : Nat} (hk : k ∈ blocks) : FollowsFrom F f n c₀ o₀ blocks
    (build (Build.moveBlockToEnd ⟨f, k⟩)) (build (Build.moveBlockToEnd ⟨f, k⟩)) := by
  rintro b o - ho - hbelow _ _ _ ⟨⟩
  obtain ⟨hsince, hgrows⟩ := ho.adds fun c hat =>
    let hadds := (o.builder.moveBlockToEnd_adds hat (ho.ne_entry hk)).1
    ⟨.of_build o hadds.proceeds.grows.toEnlarges, hadds⟩
  exact ⟨⟨.refl b, hsince, hgrows, hbelow.mono (hgrows.next_le f), trivial⟩, fun _ => rfl⟩

theorem jump (target : BlockRef) : FollowsFrom F f n c₀ o₀ blocks
    (build (Build.jump target)) (build (Build.jump target)) :=
  of_adds (.build (.jump target))

end FollowsFrom

/-! ### Places -/

/-- Building of the body goes on in block `c` of function `f`. -/
structure Site (f : FunctionId) (c : Nat) (b : Body) (o : Output) : Prop where
  function : b.function = f
  at_ : o.builder.At f c
  shaped : o.Shaped
  below : Below (o.builder.next f) b

omit [CaseTags] in
/-- Steps of building one after the other. -/
theorem build_bind (step : Build α) (next : α → Build β) :
    build (step >>= next) = (do
      let a ← build step
      build (next a)) :=
  rfl

end Lower

end ClassLang
