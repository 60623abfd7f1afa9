import ClassLang.Proofs.Lowering.Flow

/-!
# Generating keeps the flow

Generating a node in an open block keeps the flow of control, and if the node has a value the current
block is open afterwards: `Lower.Flows`. Each construct has one lemma, from what the lemmas of its
parts say; `lowerWithin_flows` is the induction on the nesting. A lambda is generated as a function of
its own, which is done when the enclosing body goes on.
-/

namespace ClassLang

open IR (BlockRef Build Builder FunctionId KeepsStraight Op Value)

/-- The run that a postcondition is about. -/
theorem Discipline.KeepsAt.recall {ε σ α : Type} {D : Discipline ε σ} {s : σ}
    {step : EStateM ε σ α} {Q : α → σ → Prop} (h : D.KeepsAt s step Q) :
    D.KeepsAt s step fun a t => Q a t ∧ step s = .ok a t := by
  cases hstep : step s with
  | error e t => exact .of_error hstep (h.error hstep)
  | ok a t =>
      obtain ⟨hinv, hle, hQ⟩ := h.ok hstep
      exact .of_ok hstep hinv hle ⟨hQ, rfl⟩

variable {ctx : LoweringContext} {tracked : Prop} {begun : BodyRun → Prop} {S : Stage} {α β : Type}

/-- The flow with the current block open. -/
structure Running (tracked : Prop) (S : Stage) (pending : List Nat) (c : Nat)
    (b : Body) (o : Output) : Prop where
  flow : Flow tracked S pending c b o.builder
  isOpen : ((S.code o.builder).block c).Open

/-- The flow with the current block ended. -/
structure Halted (tracked : Prop) (S : Stage) (pending : List Nat) (c : Nat)
    (b : Body) (o : Output) : Prop where
  flow : Flow tracked S pending c b o.builder
  ended : ((S.code o.builder).block c).endsOnce = true

namespace Lower

/-- From an open block the step keeps the flow, and the current block is open afterwards if the
result says so. -/
def Flows (ctx : LoweringContext) (tracked : Prop) (begun : BodyRun → Prop) (S : Stage)
    (opens : α → Prop) (step : Lower α) : Prop :=
  ∀ pending c b o, Running tracked S pending c b o →
    (flowing ctx tracked begun (some S.function)).KeepsAt o (step.run b) fun r o' =>
      ∃ c', Flow tracked S pending c' r.2 o'.builder ∧
        (opens r.1 → ((S.code o'.builder).block c').Open)

/-- The step keeps the flow and leaves an open block. -/
abbrev RunsOn (ctx : LoweringContext) (tracked : Prop) (begun : BodyRun → Prop) (S : Stage)
    (step : Lower α) : Prop :=
  Flows ctx tracked begun S (fun _ => True) step

/-- A sequence of two steps of a body. -/
theorem bind_keeps {D : Discipline Halt Output} {o : Output} {b : Body} {step : Lower α}
    {next : α → Lower β} {P : α × Body → Output → Prop} {Q : β × Body → Output → Prop}
    (h : D.KeepsAt o (step.run b) P)
    (hnext : ∀ a b' o', D.inv o' → D.le o o' → P (a, b') o' → D.KeepsAt o' ((next a).run b') Q) :
    D.KeepsAt o ((step >>= next).run b) Q :=
  Discipline.KeepsAt.bind h fun r o' => hnext r.1 r.2 o'

theorem pure_bind_keeps {D : Discipline Halt Output} {o : Output} {b : Body} {a : α}
    {next : α → Lower β} {Q : β × Body → Output → Prop} (h : D.KeepsAt o ((next a).run b) Q) :
    D.KeepsAt o ((pure a >>= next).run b) Q :=
  h

theorem get_bind_keeps {D : Discipline Halt Output} {o : Output} {b : Body} {next : Body → Lower β}
    {Q : β × Body → Output → Prop} (h : D.KeepsAt o ((next b).run b) Q) :
    D.KeepsAt o ((get >>= next).run b) Q :=
  h

theorem output_bind_keeps {D : Discipline Halt Output} {o : Output} {b : Body}
    {next : Output → Lower β} {Q : β × Body → Output → Prop} (h : D.KeepsAt o ((next o).run b) Q) :
    D.KeepsAt o ((getThe Output >>= next).run b) Q :=
  h

/-- Two steps that do not look at the body, taken as one. -/
theorem lift_bind_keeps {γ : Type} {D : Discipline Halt Output} {o : Output} {b : Body}
    {first : Emit α} {second : α → Emit β} {next : β → Lower γ} {P : β → Output → Prop}
    {Q : γ × Body → Output → Prop} (h : D.KeepsAt o (first >>= second) P)
    (hnext : ∀ r o', D.inv o' → D.le o o' → P r o' → D.KeepsAt o' ((next r).run b) Q) :
    D.KeepsAt o ((do
      let a ← (liftM first : Lower α)
      let r ← (liftM (second a) : Lower β)
      next r).run b) Q := by
  have hrun : (do
      let a ← (liftM first : Lower α)
      let r ← (liftM (second a) : Lower β)
      next r).run b = (first >>= second) >>= fun r => (next r).run b := by
    simp
  rw [hrun]
  exact .bind h hnext

/-- Straight code stays in the block. -/
theorem Straight.keeps {step : Lower α} (h : Straight S.function step) {pending : List Nat}
    {c : Nat} {b : Body} {o : Output} (hr : Running tracked S pending c b o) :
    (flowing ctx tracked begun (some S.function)).KeepsAt o (step.run b) fun r o' =>
      Running tracked S pending c r.2 o' := by
  have hrun := h b hr.flow.function c o ⟨hr.flow.sane, hr.flow.at_⟩
  unfold Discipline.KeepsAt at hrun ⊢
  cases hstep : step.run b o with
  | error e o' =>
      rw [hstep] at hrun
      exact hrun
  | ok r o' =>
      simp only [hstep] at hrun ⊢
      obtain ⟨⟨hsane, -⟩, hstraight, hsame⟩ := hrun
      obtain ⟨hflow, hopen⟩ := hr.flow.straight hr.isOpen hstraight hsame
      exact ⟨hsane, .of_straight hstraight, hflow, hopen⟩

namespace Flows

variable {opens : α → Prop}

theorem of_straight {step : Lower α} (h : Straight S.function step) :
    Flows ctx tracked begun S opens step :=
  fun _ c _ _ hr => (h.keeps hr).weaken fun _ _ _ _ h' => ⟨c, h'.flow, fun _ => h'.isOpen⟩

theorem pure (a : α) : Flows ctx tracked begun S opens (Pure.pure a) :=
  of_straight (.pure a)

theorem broken (text : String) : Flows ctx tracked begun S opens (Lower.broken text : Lower α) :=
  of_straight (.broken text)

theorem mismatch (text : String) : Flows ctx tracked begun S opens (Lower.mismatch text : Lower α) :=
  of_straight (.mismatch text)

/-- Nothing that follows a broken invariant is reached. -/
theorem broken_bind {text : String} {next : β → Lower α} :
    Flows ctx tracked begun S opens ((Lower.broken text : Lower β) >>= next) := by
  intro pending c b o hr
  exact .of_error rfl ⟨hr.flow.sane, fun path h => by cases h⟩

theorem pure_bind {a : β} {next : β → Lower α} (h : Flows ctx tracked begun S opens (next a)) :
    Flows ctx tracked begun S opens (Pure.pure a >>= next) :=
  fun pending c b o hr => h pending c b o hr

theorem bind {step : Lower β} {next : β → Lower α} (h : RunsOn ctx tracked begun S step)
    (hnext : ∀ b, Flows ctx tracked begun S opens (next b)) :
    Flows ctx tracked begun S opens (step >>= next) := by
  intro pending c b o hr
  refine .bind (h pending c b o hr) ?_
  rintro ⟨a, b'⟩ u _ _ ⟨c', hflow, hopen⟩
  exact hnext a pending c' b' u ⟨hflow, hopen True.intro⟩

/-- A step that always leaves an open block. -/
theorem weaken {step : Lower α} (h : RunsOn ctx tracked begun S step) :
    Flows ctx tracked begun S opens step := by
  intro pending c b o hr
  refine (h pending c b o hr).weaken ?_
  rintro r o' - - ⟨c', hflow, hopen⟩
  exact ⟨c', hflow, fun _ => hopen True.intro⟩

theorem ite {p : Prop} [Decidable p] {yes no : Lower α} (hyes : Flows ctx tracked begun S opens yes)
    (hno : Flows ctx tracked begun S opens no) :
    Flows ctx tracked begun S opens (if p then yes else no) := by
  split
  · exact hyes
  · exact hno

theorem mapM {items : List β} {body : β → Lower α}
    (h : ∀ item ∈ items, RunsOn ctx tracked begun S (body item)) :
    RunsOn ctx tracked begun S (items.mapM body) := by
  induction items with
  | nil => exact pure _
  | cons item items ih =>
      rw [List.mapM_cons]
      refine (h item (by simp)).bind fun _ => ?_
      exact (ih fun i hi => h i (List.mem_cons_of_mem _ hi)).bind fun _ => pure _

theorem forM {items : List β} {body : β → Lower PUnit}
    (h : ∀ item ∈ items, RunsOn ctx tracked begun S (body item)) :
    RunsOn ctx tracked begun S (items.forM body) := by
  induction items with
  | nil => exact pure _
  | cons item items ih =>
      show RunsOn ctx tracked begun S (body item >>= fun _ => items.forM body)
      exact (h item (by simp)).bind fun _ => ih fun i hi => h i (List.mem_cons_of_mem _ hi)

end Flows

/-! ## Steps at block ends -/

section Blocks

variable {pending : List Nat} {c : Nat} {b : Body} {o : Output}

/-- A step of building that keeps a known flow. -/
theorem build_keeps {step : Build α} {Q : α × Body → Output → Prop}
    (h : let r := step.run o.builder
      r.2.Sane ∧ Frame ctx tracked begun (some S.function) o.builder r.2 ∧
        Q (r.1, b) { o with builder := r.2 }) :
    (flowing ctx tracked begun (some S.function)).KeepsAt o ((build step).run b) Q :=
  .of_ok rfl h.1 h.2.1 h.2.2

/-- A new block is pending. -/
theorem block_keeps (h : Flow tracked S pending c b o.builder) (label : String) :
    (flowing ctx tracked begun (some S.function)).KeepsAt o ((block label).run b) fun r o' =>
      ∃ k, r = (⟨S.function, k⟩, b) ∧ k ∉ pending ∧ (tracked → 1 < k) ∧
        Flow tracked S (k :: pending) c b o'.builder ∧
        (((S.code o.builder).block c).Open → ((S.code o'.builder).block c).Open) := by
  show (flowing ctx tracked begun (some S.function)).KeepsAt o
    ((build (Build.appendBlock b.function label)).run b) _
  rw [h.function]
  obtain ⟨k, hk, hnot, hlt, hflow, hopen, hframe⟩ := h.append label
  exact build_keeps ⟨hflow.sane, hframe, k, by rw [hk], hnot, hlt, hflow, hopen⟩

theorem terminated_keeps (h : Flow tracked S pending c b o.builder) :
    (flowing ctx tracked begun (some S.function)).KeepsAt o (terminated.run b) fun r o' =>
      o' = o ∧ r = (o.builder.isTerminated, b) :=
  .of_ok rfl h.sane (.refl _) ⟨rfl, rfl⟩

/-- A jump to a block behind the exit block does not go there. -/
theorem exit_not_mem_jump {k : Nat} (hk : tracked → 1 < k) :
    tracked → (⟨S.function, 1⟩ : BlockRef) ∉ (Op.jump ⟨S.function, k⟩).successors := by
  intro ht hmem
  have hlt := hk ht
  have hblock : 1 = k := by simpa [Op.successors] using hmem
  omega

/-- Going to a block other than the exit block. -/
theorem jump_keeps (h : Running tracked S pending c b o) {k : Nat} (hk : tracked → 1 < k) :
    (flowing ctx tracked begun (some S.function)).KeepsAt o
      ((build (Build.jump ⟨S.function, k⟩)).run b) fun r o' =>
        r.2 = b ∧ Halted tracked S pending c b o' := by
  obtain ⟨hflow, hends, hframe⟩ := h.flow.terminate h.isOpen (.jump ⟨S.function, k⟩) rfl rfl
    (exit_not_mem_jump hk)
  exact build_keeps ⟨hflow.sane, hframe, rfl, hflow, hends⟩

/-- Going to one of two blocks, and on in the first. -/
theorem branch_keeps {yes no : Nat} (h : Running tracked S (yes :: pending) c b o)
    (cond : Value) (hnot : yes ∉ pending) (hyes : tracked → 1 < yes) (hno : tracked → 1 < no) :
    (flowing ctx tracked begun (some S.function)).KeepsAt o ((build do
        Build.branch cond ⟨S.function, yes⟩ ⟨S.function, no⟩
        Build.positionAtEnd ⟨S.function, yes⟩).run b)
      fun r o' => r.2 = b ∧ Running tracked S pending yes b o' := by
  obtain ⟨hflow, hends, hframe⟩ := h.flow.branch h.isOpen cond hyes hno
  obtain ⟨hflow', hopen, hframe'⟩ := hflow.position hnot (fun ht => Nat.ne_of_gt (hyes ht)) hends
  exact build_keeps ⟨hflow'.sane, hframe.trans hframe', rfl, hflow', hopen⟩

/-- Going on in a pending block. -/
theorem position_keeps {k : Nat} (h : Halted tracked S (k :: pending) c b o)
    (hnot : k ∉ pending) (hk : tracked → 1 < k) :
    (flowing ctx tracked begun (some S.function)).KeepsAt o
      ((build (Build.positionAtEnd ⟨S.function, k⟩)).run b)
      fun r o' => r.2 = b ∧ Running tracked S pending k b o' := by
  obtain ⟨hflow, hopen, hframe⟩ := h.flow.position hnot (fun ht => Nat.ne_of_gt (hk ht)) h.ended
  exact build_keeps ⟨hflow.sane, hframe, rfl, hflow, hopen⟩

/-- Going on in a pending block that moves to the end. -/
theorem enter_keeps {k : Nat} (h : Halted tracked S (k :: pending) c b o)
    (hnot : k ∉ pending) (hk : tracked → 1 < k) :
    (flowing ctx tracked begun (some S.function)).KeepsAt o ((build do
        Build.moveBlockToEnd ⟨S.function, k⟩
        Build.positionAtEnd ⟨S.function, k⟩).run b)
      fun r o' => r.2 = b ∧ Running tracked S pending k b o' := by
  obtain ⟨hflow, hopen, hframe⟩ := h.flow.enter hnot hk h.ended
  exact build_keeps ⟨hflow.sane, hframe, rfl, hflow, hopen⟩

/-- Going to a pending block that moves to the end, and on in it. -/
theorem jump_enter_keeps {k : Nat} (h : Running tracked S (k :: pending) c b o)
    (hnot : k ∉ pending) (hk : tracked → 1 < k) :
    (flowing ctx tracked begun (some S.function)).KeepsAt o ((build do
        Build.jump ⟨S.function, k⟩
        Build.moveBlockToEnd ⟨S.function, k⟩
        Build.positionAtEnd ⟨S.function, k⟩).run b)
      fun r o' => r.2 = b ∧ Running tracked S pending k b o' := by
  obtain ⟨hflow, hends, hframe⟩ := h.flow.terminate h.isOpen (.jump ⟨S.function, k⟩) rfl rfl
    (exit_not_mem_jump hk)
  obtain ⟨hflow', hopen, hframe'⟩ := hflow.enter hnot hk hends
  exact build_keeps ⟨hflow'.sane, hframe.trans hframe', rfl, hflow', hopen⟩

/-- Going to a pending block, and on in it. -/
theorem jump_position_keeps {k : Nat} (h : Running tracked S (k :: pending) c b o)
    (hnot : k ∉ pending) (hk : tracked → 1 < k) :
    (flowing ctx tracked begun (some S.function)).KeepsAt o ((build do
        Build.jump ⟨S.function, k⟩
        Build.positionAtEnd ⟨S.function, k⟩).run b)
      fun r o' => r.2 = b ∧ Running tracked S pending k b o' := by
  obtain ⟨hflow, hends, hframe⟩ := h.flow.terminate h.isOpen (.jump ⟨S.function, k⟩) rfl rfl
    (exit_not_mem_jump hk)
  obtain ⟨hflow', hopen, hframe'⟩ := hflow.position hnot (fun ht => Nat.ne_of_gt (hk ht)) hends
  exact build_keeps ⟨hflow'.sane, hframe.trans hframe', rfl, hflow', hopen⟩

/-! ## Returning -/

/-- The type of a node is the recorded one. -/
theorem typeOf_keeps (h : Running tracked S pending c b o) (node : NodeId) :
    (flowing ctx tracked begun (some S.function)).KeepsAt o ((typeOf ctx node).run b) fun r o' =>
      ctx.recordedType b.walk node = .ok r.1 ∧ r.2 = b ∧ o' = o := by
  refine ((typeOf_straight ctx node).keeps h).recall.weaken ?_
  rintro ⟨t, b'⟩ o' - - ⟨-, hrun⟩
  exact ofExcept_ok ((typeOf_run node b o).symm.trans hrun)

/-- Leaving without a value. -/
theorem returnVoid_keeps (h : Running tracked S pending c b o)
    (hvoid : tracked → S.result = .void) :
    (flowing ctx tracked begun (some S.function)).KeepsAt o (returnVoid.run b) fun r o' =>
      Halted tracked S pending c r.2 o' := by
  show (flowing ctx tracked begun (some S.function)).KeepsAt o ((build (Build.jump b.exit)).run b) _
  obtain ⟨hflow, hends, hframe⟩ := h.flow.end_block h.isOpen (.jump b.exit) rfl rfl [] (by simp)
    (fun ht hresult => absurd (hvoid ht) hresult) (fun _ _ => rfl) (by simp)
  simp only [List.append_nil] at hflow
  exact build_keeps ⟨hflow.sane, hframe, hflow, hends⟩

/-- Leaving with a value, converted to the result. -/
theorem returnValue_keeps (h : Running tracked S pending c b o) {t : TypeId} {value : Value}
    (hresult : S.result ≠ .void)
    (hrecords : tracked → ∀ site b' o', (convert ctx value t S.result).run b o = .ok (site.1, b') o' →
      o'.builder.currentBlock = some site.2 → S.records site) :
    (flowing ctx tracked begun (some S.function)).KeepsAt o ((returnValue ctx value t).run b)
      fun r o' => Halted tracked S pending c r.2 o' := by
  refine get_bind_keeps (bind_keeps ((convert_straight ctx value t b.result).keeps h).recall ?_)
  rintro converted b' u - - ⟨hr, hrun⟩
  rw [h.flow.result] at hrun
  obtain ⟨hflow, hends, hframe⟩ := hr.flow.end_block hr.isOpen (.jump S.exit) rfl rfl
    [(converted, ⟨S.function, c⟩)]
    (by simpa using fun ht => hrecords ht (converted, ⟨S.function, c⟩) b' u hrun hr.flow.at_.block)
    (fun ht _ => by simp [Op.successors, (hr.flow.exit_tracked ht).1])
    (fun _ hvoid => absurd hvoid hresult) (by simp)
  refine output_bind_keeps ?_
  rw [hr.flow.at_.block]
  rw [← hr.flow.exit] at hflow hends hframe
  exact build_keeps ⟨hflow.sane, hframe, hflow, hends⟩

/-! ## Meeting again -/

/-- The pending blocks with the one where branches meet, if it was made. -/
def awaiting (merge : Option BlockRef) (pending : List Nat) : List Nat :=
  match merge with
  | some merge => merge.block :: pending
  | none => pending

/-- The block where branches meet is a further pending block of the function. -/
def Meets (tracked : Prop) (S : Stage) (merge : Option BlockRef) (pending : List Nat) : Prop :=
  ∀ target ∈ merge, target.function = S.function ∧ target.block ∉ pending ∧
    (tracked → 1 < target.block)

theorem Meets.of_cons {merge : Option BlockRef} {k : Nat}
    (h : Meets tracked S merge (k :: pending)) : Meets tracked S merge pending := by
  intro target htarget
  obtain ⟨hfunction, hnot, hlt⟩ := h target htarget
  exact ⟨hfunction, fun hmem => hnot (List.mem_cons_of_mem k hmem), hlt⟩

/-- Another pending block is not the one where the branches meet. -/
theorem Meets.not_mem_awaiting {merge : Option BlockRef} {k : Nat}
    (h : Meets tracked S merge (k :: pending)) (hk : k ∉ pending) :
    k ∉ awaiting merge pending := by
  cases merge with
  | none => exact hk
  | some target =>
      obtain ⟨-, hnot, -⟩ := h target rfl
      simp only [List.mem_cons, not_or] at hnot
      simp [awaiting, hk, Ne.symm hnot.1]

theorem mem_awaiting_cons (merge : Option BlockRef) (k j : Nat) :
    j ∈ k :: awaiting merge pending ↔ j ∈ awaiting merge (k :: pending) := by
  cases merge with
  | none => rfl
  | some target => simp [awaiting, or_left_comm]

theorem mem_cons_three (i j k n : Nat) :
    n ∈ i :: j :: k :: pending ↔ n ∈ k :: j :: i :: pending := by
  simp only [List.mem_cons]
  tauto

/-- Leaving for the block where the branches meet, which is made on first use. -/
theorem joinAt_keeps {merge : Option BlockRef} (hmerge : Meets tracked S merge pending)
    (h : Flow tracked S (awaiting merge pending) c b o.builder) :
    (flowing ctx tracked begun (some S.function)).KeepsAt o ((joinAt merge).run b) fun r o' =>
      r.2 = b ∧ Meets tracked S r.1 pending ∧
        Halted tracked S (awaiting r.1 pending) c b o' := by
  refine bind_keeps (terminated_keeps h) ?_
  rintro _ _ u hu - ⟨rfl, heq⟩
  cases heq
  cases hended : u.builder.isTerminated with
  | true => exact .pure hu ⟨rfl, hmerge, h, h.endsOnce_of_isTerminated hended⟩
  | false =>
      have hopen := h.open_of_isTerminated hended
      cases merge with
      | some target =>
          obtain ⟨function, k⟩ := target
          obtain ⟨rfl, hnot, hlt⟩ := hmerge _ rfl
          refine pure_bind_keeps (bind_keeps (jump_keeps ⟨h, hopen⟩ hlt) ?_)
          rintro _ _ v hv - ⟨rfl, hhalted⟩
          exact .pure hv ⟨rfl, hmerge, hhalted⟩
      | none =>
          refine bind_keeps (block_keeps h "if.end") ?_
          rintro _ _ v - - ⟨k, heq, hnot, hlt, hflow, hopen'⟩
          cases heq
          refine bind_keeps (jump_keeps ⟨hflow, hopen' hopen⟩ hlt) ?_
          rintro _ _ w hw - ⟨rfl, hhalted⟩
          refine .pure hw ⟨rfl, fun target htarget => ?_, hhalted⟩
          cases htarget
          exact ⟨rfl, hnot, hlt⟩

/-- Going on where the branches meet, if they do. -/
theorem meet_keeps {merge : Option BlockRef} : Meets tracked S merge pending →
    Halted tracked S (awaiting merge pending) c b o →
    (flowing ctx tracked begun (some S.function)).KeepsAt o ((match merge with
      | some merge => build do
        Build.moveBlockToEnd merge
        Build.positionAtEnd merge
      | none => pure () : Lower Unit).run b) fun r o' =>
        ∃ c', Flow tracked S pending c' r.2 o'.builder ∧
          (False → ((S.code o'.builder).block c').Open) := by
  intro hmerge h
  cases merge with
  | none => exact .pure h.flow.sane ⟨c, h.flow, False.elim⟩
  | some target =>
      obtain ⟨function, k⟩ := target
      obtain ⟨rfl, hnot, hlt⟩ := hmerge _ rfl
      refine (enter_keeps h hnot hlt).weaken ?_
      rintro ⟨_, _⟩ v - - ⟨rfl, hr⟩
      exact ⟨k, hr.flow, False.elim⟩

end Blocks

/-! ## Constructs -/

/-- Every `return` in the code of the node fits the function under construction. -/
def Fits (ctx : LoweringContext) (tracked : Prop) (S : Stage) (node : NodeId) : Prop :=
  tracked → ctx.tree.ReturnsFit S.expected node

/-- All nodes that fit keep the flow of the function they are generated for. -/
def Lowers (ctx : LoweringContext) (tracked : Prop) (begun : BodyRun → Prop) (S : Stage)
    (lower : Generator) : Prop :=
  ∀ node, Fits ctx tracked S node →
    Flows ctx tracked begun S (fun value => value.isSome = true) (lower node)

/-- A statement without a value. -/
theorem Flows.valueless {step : Lower Unit} (h : Flows ctx tracked begun S (fun _ => False) step) :
    Flows ctx tracked begun S (fun value : Option Value => value.isSome = true) (do
      step
      Pure.pure none) := by
  intro pending c b o hr
  refine .bind (h pending c b o hr) ?_
  rintro ⟨_, b'⟩ u hu - ⟨c', hflow, -⟩
  exact .pure hu ⟨c', hflow, fun hsome => by cases hsome⟩

section Constructs

variable {lower : Generator} (hlower : Lowers ctx tracked begun S lower)

include hlower

/-- A node that must have a value: the block is open afterwards. -/
theorem lowerValue_keeps {node : NodeId} (hnode : Fits ctx tracked S node) {pending : List Nat}
    {c : Nat} {b : Body} {o : Output} (hr : Running tracked S pending c b o) :
    (flowing ctx tracked begun (some S.function)).KeepsAt o
      ((lowerValue lower node).run b) fun r o' =>
        (lower node).run b o = .ok (some r.1, r.2) o' ∧
          ∃ c', Running tracked S pending c' r.2 o' := by
  refine .bind (hlower node hnode pending c b o hr).recall ?_
  rintro ⟨value, b'⟩ u hu - ⟨⟨c', hflow, hopen⟩, hrun⟩
  cases value with
  | none => exact .of_error rfl ⟨hu, fun path h => by cases h⟩
  | some value => exact .pure hu ⟨hrun, c', hflow, hopen rfl⟩

theorem lowerValue_flows {node : NodeId} (hnode : Fits ctx tracked S node) :
    RunsOn ctx tracked begun S (lowerValue lower node) := by
  intro pending c b o hr
  refine (lowerValue_keeps hlower hnode hr).weaken ?_
  rintro ⟨value, b'⟩ u - - ⟨-, c', hr'⟩
  exact ⟨c', hr'.flow, fun _ => hr'.isOpen⟩

/-! ### Expressions -/

theorem lowerBinary_flows {node lhs rhs : NodeId} {op : BinaryOp} (hl : Fits ctx tracked S lhs)
    (hr : Fits ctx tracked S rhs) :
    RunsOn ctx tracked begun S (lowerBinary ctx lower node op lhs rhs) := by
  refine (Flows.of_straight (typeOf_straight ctx lhs)).bind fun lhsType => ?_
  refine (Flows.of_straight (typeOf_straight ctx rhs)).bind fun rhsType => ?_
  refine (lowerValue_flows hlower hl).bind fun l => (lowerValue_flows hlower hr).bind fun r => ?_
  refine (Flows.of_straight (convert_straight ctx _ _ _)).bind fun r => .of_straight ?_
  split
  · exact .lift (.fail (by simp))
  · split
    · exact .build (.binary _ _ _ _)
    · exact .broken _
  · split
    · exact .build (.compareOf _ _ _ _ _)
    · exact .broken _
  · exact .broken _

theorem lowerVar_flows {node value : NodeId} {name : String} (hvalue : Fits ctx tracked S value) :
    RunsOn ctx tracked begun S (lowerVar ctx lower node name value) := by
  refine (Flows.of_straight (typeOf_straight ctx value)).bind fun valueType => ?_
  refine (Flows.of_straight (typeOf_straight ctx node)).bind fun varType => ?_
  refine (lowerValue_flows hlower hvalue).bind fun v => .of_straight ?_
  refine (convert_straight ctx _ _ _).bind fun v => ?_
  exact (bindLocal_straight ctx _ _ _).bind fun _ => .pure _

theorem lowerAssign_flows {target value : NodeId} (hvalue : Fits ctx tracked S value) :
    RunsOn ctx tracked begun S (lowerAssign ctx lower target value) := by
  refine (Flows.of_straight (typeOf_straight ctx value)).bind fun valueType => ?_
  refine (Flows.of_straight (typeOf_straight ctx target)).bind fun targetType => ?_
  refine (lowerValue_flows hlower hvalue).bind fun v => .of_straight ?_
  refine (convert_straight ctx _ _ _).bind fun converted => ?_
  have hend : ∀ _ : PUnit, Straight S.function (pure v) := fun _ => .pure v
  dsimp only
  split
  · exact (ivarSlot_straight ctx _).bind fun slot => (Straight.build (.store _ _)).bind hend
  · refine .get_bind fun b _ => ?_
    split
    · exact (Straight.build (.store _ _)).bind hend
    · exact Straight.bind (.mismatch _) hend
    · exact Straight.bind (.broken _) hend
  · exact Straight.bind (.broken _) hend

/-! ### Calls and constructions -/

theorem lowerArgs_flows {sig : Signature} {args : List NodeId}
    (hargs : ∀ arg ∈ args, Fits ctx tracked S arg) :
    RunsOn ctx tracked begun S (lowerArgs ctx lower sig args) := by
  refine (Flows.of_straight (.lift (.ofExcept (orderArguments_free _ _)))).bind fun ordered => ?_
  refine (Flows.mapM fun arg harg => ?_).bind fun lowered => .of_straight ?_
  · refine (lowerValue_flows hlower (hargs arg harg)).bind fun value => .of_straight ?_
    exact (typeOf_straight ctx arg).bind fun _ => .pure _
  · refine (Straight.mapM fun item => convert_straight ctx _ _ _).bind fun fixed => ?_
    refine (Straight.mapM fun item => ?_).bind fun extra => .pure _
    exact .ite (convert_straight ctx _ _ _) (.pure _)

theorem callFunction_flows {sig : Signature} {receiver : Option Value} {args : List NodeId}
    (hargs : ∀ arg ∈ args, Fits ctx tracked S arg) :
    RunsOn ctx tracked begun S (callFunction ctx lower sig receiver args) := by
  refine (Flows.of_straight (.lift (Emit.functionFor_quiet sig))).bind fun function => ?_
  refine (lowerArgs_flows hlower hargs).bind fun values => ?_
  exact .of_straight (.build (.call _ _ _))

theorem lowerElement_flows {node receiver : NodeId} {method : String} {index : Nat}
    (hreceiver : Fits ctx tracked S receiver) :
    RunsOn ctx tracked begun S (lowerElement ctx lower node receiver method index) := by
  refine (Flows.of_straight (typeOf_straight ctx receiver)).bind fun receiverType => ?_
  refine (Flows.of_straight (typeOf_straight ctx node)).bind fun resultType => ?_
  refine (lowerValue_flows hlower hreceiver).bind fun object => .of_straight ?_
  refine (Straight.lift (Emit.layout_lays _).quiet).bind fun struct => ?_
  refine (Straight.lift (Emit.valueType_lays _).quiet).bind fun type => .build ?_
  exact (KeepsStraight.structField _ _ _ _).bind fun _ => .load _ _ _

theorem callClosure_flows {name : String} {sig : Signature} {args : List NodeId}
    (hargs : ∀ arg ∈ args, Fits ctx tracked S arg) :
    RunsOn ctx tracked begun S (callClosure ctx lower name sig args) := by
  refine (Flows.of_straight (loadLocal_straight name)).bind fun closure => ?_
  refine (Flows.of_straight (.lift (Emit.closureLayout_lays _ _ _).quiet)).bind fun header => ?_
  refine (Flows.of_straight (.lift (Emit.closureFnType_lays _ _).quiet)).bind fun type => ?_
  refine (lowerArgs_flows hlower hargs).bind fun values => .of_straight (.build ?_)
  refine (KeepsStraight.structField _ _ _ _).bind fun _ => ?_
  exact (KeepsStraight.load _ _ _).bind fun _ => .callIndirect _ _ _ _

theorem constructObject_flows {t : TypeId} {init : Option Signature} {args : List NodeId}
    {onStack : Bool} (hargs : ∀ arg ∈ args, Fits ctx tracked S arg) :
    RunsOn ctx tracked begun S (constructObject ctx lower t init args onStack) := by
  refine (Flows.of_straight (.lift (Emit.layout_lays t).quiet)).bind fun struct => ?_
  refine (Flows.of_straight (allocate_straight _ _ _)).bind fun object => ?_
  dsimp only
  cases init with
  | some init =>
      refine (Flows.of_straight (.lift (Emit.functionFor_quiet init))).bind fun function => ?_
      refine (lowerArgs_flows hlower hargs).bind fun values => .of_straight ?_
      exact (Straight.build (.call _ _ _)).bind fun _ => .pure _
  | none => exact .ite .broken_bind (.pure object)

theorem constructCase_flows {t : TypeId} {sig : Signature} {args : List NodeId} {onStack : Bool}
    (hargs : ∀ arg ∈ args, Fits ctx tracked S arg) :
    RunsOn ctx tracked begun S (constructCase ctx lower t sig args onStack) := by
  refine (Flows.of_straight (.lift (Emit.caseParts_lays t).quiet)).bind fun parts => ?_
  refine (lowerArgs_flows hlower hargs).bind fun values => .of_straight ?_
  refine (Straight.lift (Emit.layout_lays t).quiet).bind fun struct => ?_
  refine (Straight.lift (Emit.dataLayout_lays _).quiet).bind fun envelopeStruct => ?_
  refine (allocate_straight _ _ _).bind fun object => (Straight.build ?_).bind fun _ => .pure _
  refine (KeepsStraight.structField _ _ _ _).bind fun envelope => ?_
  refine (KeepsStraight.structField _ _ _ _).bind fun tagSlot => ?_
  refine (KeepsStraight.store _ _).bind fun _ => .forM fun item => ?_
  exact (KeepsStraight.structField _ _ _ _).bind fun slot => .store _ _

theorem lowerConstruction_flows {node : NodeId} {args : List NodeId} {onStack : Bool}
    (hargs : ∀ arg ∈ args, Fits ctx tracked S arg) :
    RunsOn ctx tracked begun S (lowerConstruction ctx lower node args onStack) := by
  refine (Flows.of_straight (target_straight ctx node)).bind fun found => ?_
  split
  · exact constructObject_flows hlower hargs
  · exact constructCase_flows hlower hargs
  · exact .broken _

theorem lowerUnary_flows {op : UnaryOp} {operand : NodeId} (hoperand : Fits ctx tracked S operand) :
    RunsOn ctx tracked begun S (lowerUnary ctx lower op operand) := by
  unfold lowerUnary
  cases op with
  | not =>
      refine (lowerValue_flows hlower hoperand).bind fun value => ?_
      exact .of_straight (.build (.not _ _))
  | stack =>
      have hparts : ∀ part ∈ ctx.tree.inlineParts operand, Fits ctx tracked S part :=
        fun part hpart ht => (hoperand ht).part hpart
      dsimp only
      split
      · next receiver method args hnode =>
          refine lowerConstruction_flows hlower fun arg harg => hparts arg ?_
          simp [SyntaxTree.inlineParts, hnode, harg]
      · next name typeArgs args hnode =>
          refine lowerConstruction_flows hlower fun arg harg => hparts arg ?_
          simp [SyntaxTree.inlineParts, hnode, harg]
      · exact .mismatch _

theorem lowerCall_flows {node : NodeId} {receiver : Option NodeId} {method : String}
    {args : List NodeId} (hreceiver : ∀ object ∈ receiver, Fits ctx tracked S object)
    (hargs : ∀ arg ∈ args, Fits ctx tracked S arg) :
    RunsOn ctx tracked begun S (lowerCall ctx lower node receiver method args) := by
  refine (Flows.of_straight (target_straight ctx node)).bind fun found => ?_
  have hconstruct : RunsOn ctx tracked begun S (do
      return some (← lowerConstruction ctx lower node args false)) :=
    (lowerConstruction_flows hlower hargs).bind fun _ => .pure _
  split
  · exact callFunction_flows hlower hargs
  · cases receiver with
    | none => exact .broken_bind
    | some object =>
        refine .pure_bind ((lowerValue_flows hlower (hreceiver object rfl)).bind fun object => ?_)
        exact callFunction_flows hlower hargs
  · refine (Flows.of_straight receiver_straight).bind fun object => ?_
    exact callFunction_flows hlower hargs
  · cases receiver with
    | none => exact .broken_bind
    | some object =>
        refine .pure_bind ((lowerElement_flows hlower (hreceiver object rfl)).bind fun _ => ?_)
        exact .pure _
  · exact callClosure_flows hlower hargs
  · exact hconstruct
  · exact hconstruct
  · split
    · next object =>
        refine (lowerValue_flows hlower (hargs object (by simp))).bind fun object => .of_straight ?_
        exact Straight.getOutput.bind fun o => (Straight.build (.call _ _ _)).bind fun _ => .pure _
    · exact .broken _
  · exact .broken _

/-! ### Control flow -/

theorem lowerSeq_flows {statements : List NodeId}
    (h : ∀ statement ∈ statements, Fits ctx tracked S statement) :
    Flows ctx tracked begun S (fun value => value.isSome = true)
      (lowerSeq lower statements) := by
  -- a value is kept only while the block that it was generated in is open
  suffices ∀ (last : Option Value) pending c b o, Flow tracked S pending c b o.builder →
      (last.isSome = true → ((S.code o.builder).block c).Open) →
      (flowing ctx tracked begun (some S.function)).KeepsAt o
        ((statements.foldlM (fun last statement => do
        if ← terminated then pure last else lower statement) last).run b) fun r o' =>
          ∃ c', Flow tracked S pending c' r.2 o'.builder ∧
            (r.1.isSome = true → ((S.code o'.builder).block c').Open) from
    fun pending c b o hr => this none pending c b o hr.flow fun _ => hr.isOpen
  intro last pending c b o hflow hopen
  induction statements generalizing last c b o with
  | nil => exact .pure hflow.sane ⟨c, hflow, hopen⟩
  | cons statement statements ih =>
      rw [List.foldlM_cons]
      have hrest := ih fun s hs => h s (List.mem_cons_of_mem _ hs)
      refine bind_keeps (P := fun r o' => ∃ c', Flow tracked S pending c' r.2 o'.builder ∧
        (r.1.isSome = true → ((S.code o'.builder).block c').Open)) ?_ ?_
      · refine bind_keeps (terminated_keeps hflow) ?_
        rintro _ _ u hu - ⟨rfl, heq⟩
        cases heq
        cases hended : u.builder.isTerminated with
        | true => exact .pure hu ⟨c, hflow, hopen⟩
        | false =>
            exact hlower statement (h statement (by simp)) pending c b u
              ⟨hflow, hflow.open_of_isTerminated hended⟩
      · rintro value b' u - - ⟨c', hflow', hopen'⟩
        exact hrest value c' b' u hflow' hopen'

theorem condition_flows {cond : NodeId} (h : Fits ctx tracked S cond) :
    RunsOn ctx tracked begun S (condition ctx lower cond) := by
  refine (Flows.of_straight (typeOf_straight ctx cond)).bind fun t => ?_
  refine (lowerValue_flows hlower h).bind fun value => .of_straight ?_
  exact .ite (.build (.compareOf _ _ _ _ _)) (.pure _)

theorem lowerBranch_flows {cond yes : NodeId} {no : Option NodeId}
    (hcond : Fits ctx tracked S cond) (hyes : Fits ctx tracked S yes)
    (hno : ∀ no' ∈ no, Fits ctx tracked S no') :
    Flows ctx tracked begun S (fun _ => False) (lowerBranch ctx lower cond yes no) := by
  intro pending c b o hr
  refine bind_keeps (condition_flows hlower hcond pending c b o hr) ?_
  rintro value b o - - ⟨c, hflow, hopen⟩
  refine bind_keeps (block_keeps hflow "if.then") ?_
  rintro _ _ o - - ⟨y, heq, hy, hy1, hflow, hopen'⟩
  cases heq
  have hopen := hopen' (hopen True.intro)
  cases no with
  | none =>
      refine bind_keeps (block_keeps hflow "if.end") ?_
      rintro _ _ o - - ⟨m, heq, hm, hm1, hflow, hopen'⟩
      cases heq
      simp only [List.mem_cons, not_or] at hm
      have hmeets : Meets tracked S (some ⟨S.function, m⟩) pending := by
        intro target htarget
        cases htarget
        exact ⟨rfl, hm.2, hm1⟩
      have hflow := hflow.of_mem_iff (y :: m :: pending) (by simp [or_left_comm])
      refine pure_bind_keeps (bind_keeps (branch_keeps ⟨hflow, hopen' hopen⟩ value
        (by simp [hy, Ne.symm hm.1]) hy1 hm1) ?_)
      rintro _ _ o - - ⟨rfl, hr⟩
      refine bind_keeps (hlower yes hyes (m :: pending) y _ o hr) ?_
      rintro _ b o - - ⟨c, hflow, -⟩
      refine bind_keeps (joinAt_keeps hmeets hflow) ?_
      rintro merge _ o - - ⟨rfl, hmeets, hhalted⟩
      exact pure_bind_keeps (meet_keeps hmeets hhalted)
  | some no =>
      refine bind_keeps (block_keeps hflow "if.else") ?_
      rintro _ _ o - - ⟨n, heq, hn, hn1, hflow, hopen'⟩
      cases heq
      simp only [List.mem_cons, not_or] at hn
      have hmeets : Meets tracked S none (n :: pending) := fun _ h => by cases h
      have hflow := hflow.of_mem_iff (y :: n :: pending) (by simp [or_left_comm])
      refine pure_bind_keeps (bind_keeps (branch_keeps ⟨hflow, hopen' hopen⟩ value
        (by simp [hy, Ne.symm hn.1]) hy1 hn1) ?_)
      rintro _ _ o - - ⟨rfl, hr⟩
      refine bind_keeps (hlower yes hyes (n :: pending) y _ o hr) ?_
      rintro _ b o - - ⟨c, hflow, -⟩
      refine bind_keeps (joinAt_keeps hmeets hflow) ?_
      rintro merge _ o - - ⟨rfl, hmeets, hhalted⟩
      -- the second branch starts in its own block, the meeting point stays pending
      have hflow := hhalted.flow.of_mem_iff (n :: awaiting merge pending)
        (mem_awaiting_cons merge n)
      refine bind_keeps (position_keeps ⟨hflow, hhalted.ended⟩ (hmeets.not_mem_awaiting hn.2) hn1) ?_
      rintro _ _ o - - ⟨rfl, hr⟩
      refine bind_keeps (hlower no (hno no rfl) _ n _ o hr) ?_
      rintro _ b o - - ⟨c, hflow, -⟩
      refine bind_keeps (joinAt_keeps hmeets.of_cons hflow) ?_
      rintro merge _ o - - ⟨rfl, hmeets, hhalted⟩
      exact meet_keeps hmeets hhalted

theorem lowerLoop_flows {cond body : NodeId} (hcond : Fits ctx tracked S cond)
    (hbody : Fits ctx tracked S body) :
    Flows ctx tracked begun S (fun _ => False) (lowerLoop ctx lower cond body) := by
  intro pending c b o hr
  refine bind_keeps (block_keeps hr.flow "while.cond") ?_
  rintro _ _ o - - ⟨k₁, heq, h₁, hlt₁, hflow, hopen₁⟩
  cases heq
  refine bind_keeps (block_keeps hflow "while.body") ?_
  rintro _ _ o - - ⟨k₂, heq, h₂, hlt₂, hflow, hopen₂⟩
  cases heq
  refine bind_keeps (block_keeps hflow "while.end") ?_
  rintro _ _ o - - ⟨k₃, heq, h₃, hlt₃, hflow, hopen₃⟩
  cases heq
  have hopen := hopen₃ (hopen₂ (hopen₁ hr.isOpen))
  simp only [List.mem_cons, not_or] at h₂ h₃
  have hflow := hflow.of_mem_iff (k₁ :: k₂ :: k₃ :: pending) (mem_cons_three k₁ k₂ k₃)
  refine bind_keeps (jump_position_keeps ⟨hflow, hopen⟩
    (by simp [h₁, Ne.symm h₂.1, Ne.symm h₃.2.1]) hlt₁) ?_
  rintro _ _ o - - ⟨rfl, hr⟩
  refine bind_keeps (condition_flows hlower hcond _ k₁ _ o hr) ?_
  rintro value b o - - ⟨c, hflow, hopen⟩
  refine bind_keeps (branch_keeps ⟨hflow, hopen True.intro⟩ value
    (by simp [h₂.2, Ne.symm h₃.1]) hlt₂ hlt₃) ?_
  rintro _ _ o - - ⟨rfl, hr⟩
  refine bind_keeps (hlower body hbody _ k₂ _ o hr) ?_
  rintro _ b o - - ⟨c, hflow, -⟩
  have hend : ∀ o, Halted tracked S (k₃ :: pending) c b o →
      (flowing ctx tracked begun (some S.function)).KeepsAt o ((build do
        Build.moveBlockToEnd ⟨S.function, k₃⟩
        Build.positionAtEnd ⟨S.function, k₃⟩).run b) fun r o' =>
          ∃ c', Flow tracked S pending c' r.2 o'.builder ∧
            (False → ((S.code o'.builder).block c').Open) := by
    intro o hhalted
    refine (enter_keeps hhalted h₃.2.2 hlt₃).weaken ?_
    rintro ⟨_, _⟩ o - - ⟨rfl, hr⟩
    exact ⟨k₃, hr.flow, False.elim⟩
  refine bind_keeps (terminated_keeps hflow) ?_
  rintro _ _ o - - ⟨rfl, heq⟩
  cases heq
  cases hended : o.builder.isTerminated with
  | true => exact hend o ⟨hflow, hflow.endsOnce_of_isTerminated hended⟩
  | false =>
      refine bind_keeps (jump_keeps ⟨hflow, hflow.open_of_isTerminated hended⟩ hlt₁) ?_
      rintro _ _ o - - ⟨rfl, hhalted⟩
      exact hend o hhalted

theorem lowerReturn_flows {value : Option NodeId} (hbare : value = none → tracked → S.result = .void)
    (hvalue : ∀ value' ∈ value, Fits ctx tracked S value')
    (hrecords : tracked → ∀ value' ∈ value, ∀ b o site,
      Converts ctx lower ⟨value', b, o⟩ S.result site → S.records site) :
    Flows ctx tracked begun S (fun _ => False) (lowerReturn ctx lower value) := by
  intro pending c b o hr
  unfold lowerReturn
  cases value with
  | none =>
      refine (returnVoid_keeps hr (hbare rfl)).weaken ?_
      rintro ⟨_, b⟩ o - - hhalted
      exact ⟨c, hhalted.flow, False.elim⟩
  | some value =>
      refine bind_keeps (P := fun r o' => r = (decide (b.result = .void), b) ∧ o' = o)
        (.of_ok rfl hr.flow.sane (.refl _) ⟨rfl, rfl⟩) ?_
      rintro _ _ o hsane - ⟨heq, rfl⟩
      cases heq
      by_cases hvoid : b.result = .void
      · rw [decide_eq_true hvoid]
        exact .of_error rfl ⟨hsane, fun path h => by cases h⟩
      · have hresult : S.result ≠ .void := fun h => hvoid (hr.flow.result.trans h)
        rw [decide_eq_false hvoid]
        refine bind_keeps (typeOf_keeps hr value) ?_
        rintro t _ _ - - ⟨htype, rfl, rfl⟩
        refine bind_keeps (lowerValue_keeps hlower (hvalue value rfl) hr) ?_
        rintro v b' o' - - ⟨hrun, c, hr'⟩
        refine bind_keeps (terminated_keeps hr'.flow) ?_
        rintro _ _ _ - - ⟨rfl, heq⟩
        cases heq
        rw [hr'.flow.at_.isTerminated, hr'.isOpen.isTerminated]
        refine (returnValue_keeps hr' hresult fun ht site b₁ o₁ hconvert hblock => ?_).weaken ?_
        · exact hrecords ht value rfl _ _ site
            ⟨t, v, b', _, b₁, o₁, htype, hrun, hconvert, hblock⟩
        · rintro ⟨_, b⟩ o - - hhalted
          exact ⟨c, hhalted.flow, False.elim⟩

/-! ### Case -/

theorem lowerArm_flows {value : Value} {tag : Option Value} {k : Nat} {arm : NodeId}
    (hk : tracked → 1 < k)
    (harm : ∀ matched body, ctx.tree.node arm = .arm matched body → Fits ctx tracked S body) :
    RunsOn ctx tracked begun S
      (lowerArm ctx lower value tag ⟨S.function, k⟩ arm) := by
  unfold lowerArm
  split
  · next matched body hnode =>
      split
      · next type binder fields hpattern =>
          refine (Flows.of_straight (typeOf_straight ctx matched)).bind fun t => ?_
          have hrest : ∀ found, RunsOn ctx tracked begun S (do
              let armBlock ← block "when"
              let nextBlock ← block "when.next"
              build do
                Build.branch found armBlock nextBlock
                Build.positionAtEnd armBlock
              let outer := (← get).scope
              bindPattern ctx value t tag.isNone binder fields
              let _ ← lower body
              modify fun b => { b with scope := outer }
              if !(← terminated) then build (Build.jump ⟨S.function, k⟩)
              build (Build.positionAtEnd nextBlock)) := by
            intro found pending c b o hr
            refine bind_keeps (block_keeps hr.flow "when") ?_
            rintro _ _ o - - ⟨y, heq, hy, hy1, hflow, hopen₁⟩
            cases heq
            refine bind_keeps (block_keeps hflow "when.next") ?_
            rintro _ _ o - - ⟨n, heq, hn, hn1, hflow, hopen₂⟩
            cases heq
            simp only [List.mem_cons, not_or] at hn
            have hflow := hflow.of_mem_iff (y :: n :: pending) (by simp [or_left_comm])
            refine bind_keeps (branch_keeps ⟨hflow, hopen₂ (hopen₁ hr.isOpen)⟩ found
              (by simp [hy, Ne.symm hn.1]) hy1 hn1) ?_
            rintro _ b o - - ⟨rfl, hr⟩
            have hnext : ∀ c b o, Halted tracked S (n :: pending) c b o →
                (flowing ctx tracked begun (some S.function)).KeepsAt o
                  ((build (Build.positionAtEnd ⟨S.function, n⟩)).run b) fun r o' =>
                    ∃ c', Flow tracked S pending c' r.2 o'.builder ∧
                      (True → ((S.code o'.builder).block c').Open) := by
              intro c b o hhalted
              refine (position_keeps hhalted hn.2 hn1).weaken ?_
              rintro ⟨_, _⟩ o - - ⟨rfl, hr⟩
              exact ⟨n, hr.flow, fun _ => hr.isOpen⟩
            refine bind_keeps (P := fun r o' => r.2 = b ∧ o' = o)
              (.of_ok rfl hr.flow.sane (.refl _) ⟨rfl, rfl⟩) ?_
            rintro outer _ o - - ⟨rfl, rfl⟩
            refine bind_keeps ((bindPattern_straight ctx _ _ _ _ _).keeps hr) ?_
            rintro _ b o - - hr
            refine bind_keeps (hlower body (harm matched body hnode) _ y b o hr) ?_
            rintro _ b o hsane - ⟨c, hflow, -⟩
            -- the names of the pattern go out of scope, which the flow does not depend on
            refine bind_keeps (P := fun r o' => Flow tracked S (n :: pending) c r.2 o'.builder)
              (.of_ok rfl hsane (.refl _) (hflow.of_same ⟨rfl, rfl, rfl, rfl, rfl⟩)) ?_
            rintro _ b o - - hflow
            refine bind_keeps (terminated_keeps hflow) ?_
            rintro _ _ o - - ⟨rfl, heq⟩
            cases heq
            cases hended : o.builder.isTerminated with
            | true => exact hnext c b o ⟨hflow, hflow.endsOnce_of_isTerminated hended⟩
            | false =>
                refine bind_keeps (jump_keeps ⟨hflow, hflow.open_of_isTerminated hended⟩ hk) ?_
                rintro _ _ o - - ⟨rfl, hhalted⟩
                exact hnext c _ o hhalted
          cases tag with
          | some tag => exact (Flows.of_straight (tagMatches_straight ctx _ _)).bind hrest
          | none => exact (Flows.of_straight (dynamicHolds_straight ctx _ _)).bind hrest
      · exact .broken _
  · exact .broken _

theorem lowerSelect_flows {cond : NodeId} {arms : List NodeId} (hcond : Fits ctx tracked S cond)
    (harms : ∀ arm ∈ arms, ∀ matched body, ctx.tree.node arm = .arm matched body →
      Fits ctx tracked S body) :
    Flows ctx tracked begun S (fun _ => False) (lowerSelect ctx lower cond arms) := by
  refine (Flows.of_straight (typeOf_straight ctx cond)).bind fun t => ?_
  refine (lowerValue_flows hlower hcond).bind fun value => ?_
  have hrest : ∀ tag, Flows ctx tracked begun S (fun _ => False) (do
      let endBlock ← block "case.end"
      arms.forM (lowerArm ctx lower value tag endBlock)
      build do
        Build.jump endBlock
        Build.moveBlockToEnd endBlock
        Build.positionAtEnd endBlock) := by
    intro tag pending c b o hr
    refine bind_keeps (block_keeps hr.flow "case.end") ?_
    rintro _ _ o - - ⟨k, heq, hnot, hk, hflow, hopen⟩
    cases heq
    have hloop : RunsOn ctx tracked begun S
        (arms.forM (lowerArm ctx lower value tag ⟨S.function, k⟩)) :=
      .forM fun arm harm => lowerArm_flows hlower hk (harms arm harm)
    refine bind_keeps (hloop (k :: pending) c b o ⟨hflow, hopen hr.isOpen⟩) ?_
    rintro _ b o - - ⟨c, hflow, hopen⟩
    refine (jump_enter_keeps ⟨hflow, hopen True.intro⟩ hnot hk).weaken ?_
    rintro ⟨_, _⟩ o - - ⟨rfl, hr⟩
    exact ⟨k, hr.flow, False.elim⟩
  dsimp only
  refine .ite (.pure_bind (hrest none)) ?_
  refine (Flows.of_straight (.lift (Emit.layout_lays _).quiet)).bind fun envelope => ?_
  refine (Flows.of_straight (.build ?_)).bind hrest
  refine (KeepsStraight.structField _ _ _ _).bind fun slot => ?_
  exact (KeepsStraight.load _ _ _).bind fun _ => .pure _

end Constructs

end Lower

end ClassLang
