import ClassLang.Proofs.Lowering.Settled

/-!
# Detours through blocks

A branch, a loop or a `case` takes building through blocks of its own. All of them can only be
reached with what was written where the construct began, so that is their account, and wherever
building is on such a detour, what was written at its start is written.
-/

namespace ClassLang

open IR (BlockRef Build Builder FunctionId KeepsCovered Value)

/-- A block other than the entry, with its account. -/
structure Place.Prepared (f : FunctionId) (k : Nat) (slots : Set Nat) (p : Place) (o : Output) :
    Prop where
  ne_entry : k ≠ 0
  block_lt : k < (o.builder.module.function f).blocks.size
  account : p.accounts f k = slots

/-- The place where a detour begins, with the body and the output there. -/
structure Origin where
  place : Place
  body : Body
  output : Output

/-- What is written where a detour begins. -/
def Origin.written (f : FunctionId) (s : Origin) : Set Nat :=
  s.output.builder.written s.place.accounts f s.place.block

/-- The body is under construction somewhere on a detour from `start`, on which names in `touched`
were bound. The account of the `blocks` is what was written at the start. -/
def Body.Detour (own : FunctionId → Prop) (walk : InstanceId) (f : FunctionId) (start : Origin)
    (blocks : List Nat) (touched : List String) (b : Body) (o : Output) : Prop :=
  ∃ p, Body.Moves own walk f touched start.place start.body start.output p b o ∧
    ∀ k ∈ blocks, p.Prepared f k (start.written f) o

/-- The step goes on with a detour. -/
def Lower.Detours {α : Type} (own : FunctionId → Prop) (walk : InstanceId) (f : FunctionId)
    (start : Origin) (blocks : List Nat) (touched touched' : List String) (step : Lower α) : Prop :=
  ∀ b o, b.Detour own walk f start blocks touched o →
    succeeding.KeepsAt o (step.run b) fun r o' => r.2.Detour own walk f start blocks touched' o'

variable {own : FunctionId → Prop} {walk : InstanceId} {f : FunctionId} {start : Origin}
  {blocks : List Nat} {touched touched' touched'' names gains : List String} {p p' : Place}
  {b b' : Body} {o o' : Output} {α β : Type}

/-- A block that was made stays as it is. -/
theorem Place.Prepared.kept {k c : Nat} {slots : Set Nat} (h : p.Prepared f k slots o)
    (hdevelops : o.builder.Develops o'.builder) :
    Place.Prepared f k slots ⟨p.accounts, c⟩ o' :=
  ⟨h.ne_entry, Nat.lt_of_lt_of_le h.block_lt (hdevelops f).blocks, h.account⟩

theorem Body.Moves.prepared {k : Nat} {slots : Set Nat}
    (h : Body.Moves own walk f touched p b o p' b' o') (hk : p.Prepared f k slots o) :
    p'.Prepared f k slots o' where
  ne_entry := hk.ne_entry
  block_lt := Nat.lt_of_lt_of_le hk.block_lt (h.develops f).blocks
  account := (h.accounts f k hk.block_lt).trans hk.account

/-- Going on without binding names. -/
theorem Body.Moves.on {p'' : Place} {b'' : Body} {o'' : Output}
    (h : Body.Moves own walk f touched p b o p' b' o')
    (h' : Body.Moves own walk f [] p' b' o' p'' b'' o'') :
    Body.Moves own walk f touched p b o p'' b'' o'' := by
  rw [← List.append_nil touched]
  exact h.trans h'

/-- Some of the blocks may be forgotten. -/
theorem Body.Detour.drop {blocks' : List Nat} (h : b.Detour own walk f start blocks touched o)
    (hsub : blocks' ⊆ blocks) : b.Detour own walk f start blocks' touched o := by
  obtain ⟨p, hmoves, hblocks⟩ := h
  exact ⟨p, hmoves, fun k hk => hblocks k (hsub hk)⟩

/-- Control may go from anywhere on a detour to a prepared block. -/
theorem Body.Moves.admits {k : Nat}
    (h : Body.Moves own walk f touched start.place start.body start.output p b o)
    (hk : p.Prepared f k (start.written f) o) :
    o.builder.Admits p.accounts f p.block k :=
  ⟨hk.block_lt, hk.account ▸ h.written⟩

/-- Building goes on in the same block or in one of the prepared ones. -/
theorem Body.Detour.enter
    (hmoves : Body.Moves own walk f touched start.place start.body start.output p b o)
    (hblocks : ∀ k ∈ blocks, p.Prepared f k (start.written f) o) {k : Nat}
    (hk : k = p.block ∨ k ∈ blocks) {builder : Builder}
    (hrun : builder.Standing own p.accounts f k ∧ o.builder.Develops builder) :
    b.Detour own walk f start blocks touched { o with builder } := by
  refine ⟨⟨p.accounts, k⟩, ⟨{ hmoves.stands with
    standing := hrun.1
    exitBlock := Nat.lt_of_lt_of_le hmoves.stands.exitBlock (hrun.2 f).blocks },
    hmoves.develops.trans hrun.2, hmoves.accounts, ?_, hmoves.scope⟩,
    fun j hj => (hblocks j hj).kept hrun.2⟩
  rcases hk with rfl | hk
  · exact hmoves.written.trans
      (hrun.2.written_subset (fun _ _ _ => rfl) hmoves.stands.standing.at_.block_lt)
  · -- at the start of a prepared block its account is all that is known to be written
    exact fun slot hslot => .inl ((hblocks k hk).account ▸ hslot)

namespace Lower

namespace Detours

theorem pure (a : α) : Detours own walk f start blocks touched touched (Pure.pure a) :=
  fun _ _ h => .pure True.intro h

theorem bind {step : Lower α} {next : α → Lower β}
    (h : Detours own walk f start blocks touched touched' step)
    (hnext : ∀ a, Detours own walk f start blocks touched' touched'' (next a)) :
    Detours own walk f start blocks touched touched'' (step >>= next) :=
  fun b o hb => bind_keeps (h b o hb) fun a b' o' _ _ hb' => hnext a b' o' hb'

theorem pure_bind {a : α} {next : α → Lower β}
    (h : Detours own walk f start blocks touched touched' (next a)) :
    Detours own walk f start blocks touched touched' (Pure.pure a >>= next) :=
  h

/-- More names may be bound. -/
theorem touches {step : Lower α} (h : Detours own walk f start blocks touched touched' step)
    (hsub : touched' ⊆ touched'') : Detours own walk f start blocks touched touched'' step := by
  intro b o hb
  refine (h b o hb).weaken ?_
  rintro r o' - - ⟨p, hmoves, hblocks⟩
  exact ⟨p, hmoves.mono hsub, hblocks⟩

theorem ite {c : Prop} [Decidable c] {yes no : Lower α}
    (hyes : Detours own walk f start blocks touched touched' yes)
    (hno : Detours own walk f start blocks touched touched' no) :
    Detours own walk f start blocks touched touched' (if c then yes else no) := by
  split
  · exact hyes
  · exact hno

theorem forM {items : List β} {body : β → Lower PUnit}
    (h : ∀ item ∈ items, Detours own walk f start blocks touched touched (body item)) :
    Detours own walk f start blocks touched touched (items.forM body) := by
  induction items with
  | nil => exact pure _
  | cons item items ih =>
      exact (h item (by simp)).bind fun _ => ih fun i hi => h i (List.mem_cons_of_mem _ hi)

/-- Nothing is asked of a step that fails. -/
theorem broken {text : String} :
    Detours own walk f start blocks touched touched' (Lower.broken text : Lower α) :=
  fun _ _ _ => .of_error rfl True.intro

/-- A part of the construct may read the names that were settled at the start, except those that
were bound since then. -/
theorem part {step : Lower α} (hstart : start.body.Settled f start.place names start.output)
    (h : Settles own walk f (untouched names touched) gains touched' step) :
    Detours own walk f start blocks touched (touched ++ touched') step := by
  rintro b o ⟨p, hmoves, hblocks⟩
  refine (h p b o hmoves.stands (hmoves.settled hstart)).weaken ?_
  rintro r o' - - ⟨p', hmoves', -⟩
  exact ⟨p', hmoves.trans hmoves', fun k hk => hmoves'.prepared (hblocks k hk)⟩

theorem of_plain {step : Lower α} (h : Plain own walk f step) :
    Detours own walk f start blocks touched touched step := by
  rintro b o ⟨p, hmoves, hblocks⟩
  refine (h p b o hmoves.stands).weaken ?_
  rintro ⟨a, _⟩ o' - - ⟨rfl, hstanding, hdevelops⟩
  have hmoves' := Body.Moves.of_stands hmoves.stands hstanding hdevelops
  exact ⟨p, hmoves.on hmoves', fun k hk => hmoves'.prepared (hblocks k hk)⟩

/-- Two steps that are taken as one. -/
theorem bind_bind {γ : Type} {first : Lower α} {second : α → Lower β} {next : β → Lower γ}
    (h : Detours own walk f start blocks touched touched' (first >>= second))
    (hnext : ∀ r, Detours own walk f start blocks touched' touched'' (next r)) :
    Detours own walk f start blocks touched touched'' (do
      let a ← first
      let r ← second a
      next r) := by
  rw [← bind_assoc]
  exact h.bind hnext

/-- A step that begins with the recorded type of a node. -/
theorem typeOf_bind {ctx : LoweringContext} {node : NodeId} {next : TypeId → Lower α}
    (hnext : ∀ t, ctx.recordedType walk node = .ok t →
      Detours own walk f start blocks touched touched' (next t)) :
    Detours own walk f start blocks touched touched' (typeOf ctx node >>= next) := by
  intro b o hb
  obtain ⟨p, hmoves, -⟩ := id hb
  exact typeOf_bind_keeps fun t ht => hnext t (hmoves.stands.walk ▸ ht) b o hb

/-- A detour begins where names are settled, and its end is a place where those are settled that
were not bound since. -/
theorem settles {step : Lower α}
    (h : ∀ start : Origin, start.body.Settled f start.place names start.output →
      Detours own walk f start [] [] touched step) : Settles own walk f names [] touched step := by
  intro p b o hb hsettled
  have hstart : b.Detour own walk f ⟨p, b, o⟩ [] [] o :=
    ⟨p, .of_stands hb hb.standing (.refl _), by simp⟩
  refine (h ⟨p, b, o⟩ hsettled b o hstart).weaken ?_
  rintro r o' - - ⟨p', hmoves, -⟩
  exact ⟨p', hmoves, by simp [Body.Settled]⟩

/-! ## The scope -/

/-- Reading the body tells which names are bound as at the start. -/
theorem get_bind {next : Body → Lower α}
    (h : ∀ b : Body, (∀ name, name ∉ touched →
        b.scope.lookup name = start.body.scope.lookup name) →
      Detours own walk f start blocks touched touched' (next b)) :
    Detours own walk f start blocks touched touched' (get >>= next) := by
  intro b o hb
  obtain ⟨p, hmoves, -⟩ := id hb
  exact h b hmoves.scope b o hb

/-- The scope becomes what it was at the start. -/
theorem restore {outer : List (String × Storage)}
    (h : ∀ name, outer.lookup name = start.body.scope.lookup name) :
    Detours own walk f start blocks touched []
      (modify fun b => { b with scope := outer } : Lower PUnit) := by
  rintro b o ⟨p, hmoves, hblocks⟩
  refine .of_ok rfl True.intro True.intro ⟨p, ?_, hblocks⟩
  exact { hmoves with
    stands := { hmoves.stands with }
    scope := fun name _ => h name }

/-! ## Blocks -/

/-- A new block, whose account is what was written at the start. -/
theorem block_keeps (label : String) (h : b.Detour own walk f start blocks touched o) :
    succeeding.KeepsAt o ((block label).run b) fun r o' =>
      ∃ k, r.1 = ⟨f, k⟩ ∧ r.2.Detour own walk f start (k :: blocks) touched o' := by
  obtain ⟨p, hmoves, hblocks⟩ := h
  have hb := hmoves.stands
  let k := (o.builder.module.function f).blocks.size
  let o₁ := { o with builder := ((Build.appendBlock f label).run o.builder).2 }
  obtain ⟨hstanding, hdevelops, hlt⟩ := hb.standing.appendBlock label (start.written f)
  have hnew : Body.Moves own walk f [] p b o ⟨p.accounts.set f k (start.written f), p.block⟩ b o₁ :=
    .stay hb hstanding hdevelops (o.builder.keepsAccounts_set p.accounts f (start.written f))
  refine get_bind_keeps ?_
  rw [hb.function]
  refine .of_ok rfl True.intro True.intro ⟨k, rfl, _, hmoves.on hnew,
    List.forall_mem_cons.mpr ⟨⟨?_, hlt, ?_⟩, fun j hj => ?_⟩⟩
  · exact Nat.ne_of_gt (Nat.zero_lt_of_lt hb.exitBlock)
  · exact IR.Accounts.set_self _ _ _ _
  · exact hnew.prepared (hblocks j hj)

theorem block_bind {label : String} {next : BlockRef → Lower α}
    (h : ∀ k, Detours own walk f start (k :: blocks) touched touched' (next ⟨f, k⟩)) :
    Detours own walk f start blocks touched touched' (block label >>= next) := by
  intro b o hb
  refine bind_keeps (block_keeps label hb) ?_
  rintro _ b' o' - - ⟨k, rfl, hb'⟩
  exact (h k b' o' hb').weaken fun _ _ _ _ hr => hr.drop (List.subset_cons_self _ _)

/-- Steps of building one after the other. -/
theorem build_bind {step : Build α} {next : α → Build β}
    (h : Detours own walk f start blocks touched touched' (do
      let a ← build step
      build (next a))) :
    Detours own walk f start blocks touched touched' (build (step >>= next)) :=
  h

/-- Building goes on in a prepared block. -/
theorem positionAtEnd {k : Nat} (hk : k ∈ blocks) :
    Detours own walk f start blocks touched touched (build (Build.positionAtEnd ⟨f, k⟩)) := by
  rintro b o ⟨p, hmoves, hblocks⟩
  refine .of_ok rfl True.intro True.intro (.enter hmoves hblocks (.inr hk) ?_)
  exact hmoves.stands.standing.positionAtEnd (hblocks k hk).block_lt

theorem moveBlockToEnd {k : Nat} (hk : k ∈ blocks) :
    Detours own walk f start blocks touched touched (build (Build.moveBlockToEnd ⟨f, k⟩)) := by
  rintro b o ⟨p, hmoves, hblocks⟩
  refine .of_ok rfl True.intro True.intro (.enter hmoves hblocks (.inl rfl) ?_)
  exact hmoves.stands.standing.moveBlockToEnd (hblocks k hk).ne_entry

/-- Going to a prepared block, which asks for what was written at the start. -/
theorem jump {k : Nat} (hk : k ∈ blocks) :
    Detours own walk f start blocks touched touched (build (Build.jump ⟨f, k⟩)) := by
  rintro b o ⟨p, hmoves, hblocks⟩
  obtain ⟨hstanding, hdevelops, -⟩ :=
    hmoves.stands.standing.jump (hmoves.admits (hblocks k hk))
  exact .of_ok rfl True.intro True.intro (.enter hmoves hblocks (.inl rfl) ⟨hstanding, hdevelops⟩)

theorem branch (cond : Value) {yes no : Nat} (hyes : yes ∈ blocks) (hno : no ∈ blocks) :
    Detours own walk f start blocks touched touched
      (build (Build.branch cond ⟨f, yes⟩ ⟨f, no⟩)) := by
  rintro b o ⟨p, hmoves, hblocks⟩
  obtain ⟨hstanding, hdevelops, -⟩ :=
    hmoves.stands.standing.branch cond (hmoves.admits (hblocks yes hyes))
      (hmoves.admits (hblocks no hno))
  exact .of_ok rfl True.intro True.intro (.enter hmoves hblocks (.inl rfl) ⟨hstanding, hdevelops⟩)

end Detours

end Lower

end ClassLang
