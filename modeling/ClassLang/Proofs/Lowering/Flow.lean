import Mathlib.Data.List.Perm.Basic
import ClassLang.Proofs.Lowering.BodyRuns
import ClassLang.Proofs.Lowering.StraightSteps
import ClassLang.Proofs.Syntax.Returns

/-!
# The flow of control in a body under construction

While a body is generated, some blocks are pending: they were made as targets and are still open. All
other blocks but the current one have ended. `Flow` is this invariant. It is parameterised by a
proposition `tracked`: if it holds, the invariant also keeps account of the edges to the exit block,
which are those of the recorded return sites.

A function whose body is complete is `Done`. Steps of generating a body change other functions only
in that they make some of them `Done`: this is `Frame`.
-/

namespace ClassLang

open IR (BlockRef Build Builder FunctionId Op Value)

/-! ## The exit block -/

/-- The instructions return one of the values that come in from the sites; without sites they are
never reached. -/
def IR.ReturnsSites (id : FunctionId) (sites : List (Value × BlockRef))
    (instructions : List IR.Instruction) : Prop :=
  match sites with
  | [] => instructions.map (·.op) = [.unreachable]
  | [(value, _)] => instructions.map (·.op) = [.ret (some value)]
  | _ => ∃ phi ret type, instructions = [phi, ret] ∧ phi.op = .phi type sites ∧
      ret.op = .ret (some (.result id phi.id type))

/-- The exit block of function `id`, block 1, against the return sites: every block but the exit
block goes on to others. Without a result the exit block returns; with one, the sites are the
predecessors of the exit block, each once, and the exit block returns their values. -/
structure IR.Function.ExitProtocol (f : IR.Function) (id : FunctionId) (noResult : Prop)
    (sites : List (Value × BlockRef)) : Prop where
  layout : f.layout.Perm (List.range f.blocks.size)
  entry : f.entryBlock? = some 0
  leaves : ∀ k, (∃ op, (f.block k).terminator? = some op ∧ op.leaves = true) ↔ k = 1
  void : noResult → sites = [] ∧ (f.block 1).instructions.map (·.op) = [.ret none]
  predecessors : ¬ noResult →
    (sites.map (·.2)).Perm ((f.predecessors ⟨id, 1⟩).map fun k => ⟨id, k⟩) ∧
      (f.predecessors ⟨id, 1⟩).Nodup
  merge : ¬ noResult → IR.ReturnsSites id sites (f.block 1).instructions

/-! ## Completed bodies -/

section Completed

variable (ctx : LoweringContext)

/-- The declaration that the function of a body stands for: a method or function with a recorded
signature, or a lambda, whose type says what it returns. -/
def Originates (builder : Builder) (b : Body) : Prop :=
  (∃ node sig, ctx.typed.table.signature { walk := b.walk, node } = .ok sig ∧
    builder.function? sig.linkName = some b.function ∧
    ctx.pool.resolveStrict sig.result = .ok b.result) ∨
  ∃ number : Nat, builder.function? s!"_Tc_lambda.{number}" = some b.function

variable {ctx} in
/-- Declarations are not forgotten. -/
theorem Originates.of_declared {builder builder' : Builder} {b : Body} (h : Originates ctx builder b)
    (hdeclared : ∀ name id, builder.function? name = some id → builder'.function? name = some id) :
    Originates ctx builder' b := by
  refine h.imp ?_ ?_
  · rintro ⟨node, sig, hsig, hlink, hresult⟩
    exact ⟨node, sig, hsig, hdeclared _ _ hlink, hresult⟩
  · rintro ⟨number, hname⟩
    exact ⟨number, hdeclared _ _ hname⟩

/-- The run that ended with the body made its function what it is. Its exit block obeys the protocol
with the return sites that were recorded, and their values are those that the run brings to it. -/
structure Completed (builder : Builder) (run : BodyRun) (b : Body) : Prop where
  finished : ∃ o, run.EndsIn ctx b o ∧ o.builder.module.function run.before.function =
    builder.module.function run.before.function
  protocol : (builder.module.function run.before.function).ExitProtocol run.before.function
    (run.before.result = .void) b.returnSites
  values : ∀ site ∈ b.returnSites, run.Returns ctx site

/-- All blocks of the function have ended once. If that is `tracked`, it was completed by a run that
has `begun`. -/
structure Done (tracked : Prop) (begun : BodyRun → Prop) (id : FunctionId) (builder : Builder) :
    Prop where
  blocks : ∀ k, k < (builder.module.function id).blocks.size →
    ((builder.module.function id).block k).endsOnce = true
  completed : tracked → ∃ (run : BodyRun) (b : Body), begun run ∧ run.before.function = id ∧
    Originates ctx builder run.before ∧ Completed ctx builder run b

variable {ctx} {tracked : Prop} {begun : BodyRun → Prop} {id : FunctionId}
  {builder builder' : Builder}

/-- A function stays done if it does not change and no declaration is forgotten. -/
theorem Done.of_function_eq (h : Done ctx tracked begun id builder)
    (hfunction : builder'.module.function id = builder.module.function id)
    (hdeclared : ∀ name id, builder.function? name = some id → builder'.function? name = some id) :
    Done ctx tracked begun id builder' where
  blocks := by
    rw [hfunction]
    exact h.blocks
  completed htracked := by
    obtain ⟨run, b, hbegun, rfl, horiginates, hcompleted⟩ := h.completed htracked
    refine ⟨run, b, hbegun, rfl, horiginates.of_declared hdeclared, ?_, ?_, hcompleted.values⟩
    · rw [hfunction]
      exact hcompleted.finished
    · rw [hfunction]
      exact hcompleted.protocol

end Completed

/-! ## Frames -/

/-- What generating may do to functions other than its `own`: those with a body stay as they are, and
those that get a body are done. -/
structure Frame (ctx : LoweringContext) (tracked : Prop) (begun : BodyRun → Prop)
    (own : Option FunctionId) (b b' : Builder) : Prop where
  declared : ∀ name id, b.function? name = some id → b'.function? name = some id
  kept : ∀ id, own ≠ some id → (b.module.function id).hasBody = true →
    b'.module.function id = b.module.function id
  done : ∀ id, own ≠ some id → (b.module.function id).hasBody = false →
    (b'.module.function id).hasBody = true → Done ctx tracked begun id b'

namespace Frame

variable {ctx : LoweringContext} {tracked : Prop} {begun : BodyRun → Prop}
  {own : Option FunctionId} {b b' b'' : Builder}

/-- A step that changes nothing but its own function. -/
theorem of_others (hdeclared : b'.declared = b.declared)
    (h : ∀ id, own ≠ some id → b'.module.function id = b.module.function id) :
    Frame ctx tracked begun own b b' where
  declared name id hid := by rwa [Builder.function?, hdeclared]
  kept id hid _ := h id hid
  done id hid hbody hbody' := by
    rw [h id hid, hbody] at hbody'
    cases hbody'

theorem refl (b : Builder) : Frame ctx tracked begun own b b :=
  of_others rfl fun _ _ => rfl

theorem trans (h : Frame ctx tracked begun own b b') (h' : Frame ctx tracked begun own b' b'') :
    Frame ctx tracked begun own b b'' where
  declared name id hid := h'.declared name id (h.declared name id hid)
  kept id hid hbody := by
    have hsame := h.kept id hid hbody
    rw [h'.kept id hid (hsame ▸ hbody), hsame]
  done id hid hbody hbody'' := by
    by_cases hbody' : (b'.module.function id).hasBody = true
    · have hdone := h.done id hid hbody hbody'
      exact hdone.of_function_eq (h'.kept id hid hbody') h'.declared
    · exact h'.done id hid (by simpa using hbody') hbody''

theorem of_straight {f : FunctionId} {c : Nat} (h : b.Straight f c b') :
    Frame ctx tracked begun (some f) b b' :=
  of_others h.declared fun g hg => h.others g fun heq => hg (heq ▸ rfl)

/-- Once the own function is done, nothing is left that is under construction. -/
theorem close {f : FunctionId} (h : Frame ctx tracked begun (some f) b b')
    (hbody : (b.module.function f).hasBody = false) (hdone : Done ctx tracked begun f b') :
    Frame ctx tracked begun own b b' where
  declared := h.declared
  kept id _ hid := by
    refine h.kept id (fun heq => ?_) hid
    cases heq
    rw [hbody] at hid
    cases hid
  done id _ hid hid' := by
    by_cases heq : id = f
    · exact heq ▸ hdone
    · exact h.done id (fun h' => heq (Option.some.inj h').symm) hid hid'

end Frame

/-- Generating in a body of function `f`, or outside of bodies: other functions stay or become
done. -/
def flowing (ctx : LoweringContext) (tracked : Prop) (begun : BodyRun → Prop)
    (own : Option FunctionId) : Discipline Halt Output where
  inv o := o.builder.Sane
  le o o' := Frame ctx tracked begun own o.builder o'.builder
  fails := FailsSanely
  refl _ := .refl _
  trans := .trans
  fails_trans _ h := h

/-! ## Edges to the exit block -/

/-- A function under construction with what its body is generated for. -/
structure Stage where
  function : FunctionId
  walk : InstanceId
  exit : BlockRef
  /-- What the function returns. -/
  result : TypeId
  /-- The declared result that typing checked every `return` against; none in a lambda. -/
  expected : Option TypeId
  /-- A `return` without a value stands in functions that return nothing. -/
  bare : expected = some .void → result = .void
  /-- The blocks that the generated code is responsible for. -/
  watched : Nat → Prop
  /-- What every recorded return site satisfies. -/
  records : Value × BlockRef → Prop

/-- The account of the edges to the exit block, block 1: it is empty and pending, nothing else
leaves the function, and the edges that lead to it are those of the return sites. -/
structure Tracked (S : Stage) (pending : List Nat)
    (sites : List (Value × BlockRef)) (f : IR.Function) : Prop where
  layout : f.layout.Perm (List.range f.blocks.size)
  entry : f.entryBlock? = some 0
  pending : 1 ∈ pending
  empty : (f.block 1).instructions = []
  stays : ∀ k, ∀ i ∈ (f.block k).instructions, i.op.leaves = false
  own : ∀ site ∈ sites, site.2.function = S.function
  values : ∀ site ∈ sites, S.records site
  edges : S.result ≠ .void → ∀ k,
    (f.block k).successors.count ⟨S.function, 1⟩ = (sites.map (·.2.block)).count k
  once : (sites.map (·.2.block)).Nodup
  void : S.result = .void → sites = []

/-- What ends a block and does not leave the function. -/
theorem leaves_eq_false_of_not_terminator {op : Op} (h : op.isTerminator = false) :
    op.leaves = false := by
  cases op <;> first | rfl | cases h

theorem successors_eq_of_instructions {bl bl' : IR.Block}
    (h : bl'.instructions = bl.instructions) : bl'.successors = bl.successors := by
  simp [IR.Block.successors, IR.Block.terminator?, h]

namespace Tracked

variable {S : Stage} {pending pending' : List Nat}
  {sites : List (Value × BlockRef)} {f f' : IR.Function}

/-- Blocks may be added and moved, as long as they keep their instructions. -/
theorem of_instructions (h : Tracked S pending sites f)
    (hinstructions : ∀ k, (f'.block k).instructions = (f.block k).instructions)
    (hlayout : f'.layout.Perm (List.range f'.blocks.size)) (hentry : f'.entryBlock? = some 0)
    (hpending : 1 ∈ pending') : Tracked S pending' sites f' where
  layout := hlayout
  entry := hentry
  pending := hpending
  empty := by rw [hinstructions, h.empty]
  stays k := by
    rw [hinstructions]
    exact h.stays k
  own := h.own
  values := h.values
  edges hresult k := by
    rw [successors_eq_of_instructions (hinstructions k)]
    exact h.edges hresult k
  once := h.once
  void := h.void

/-- Straight code adds no edges. -/
theorem grow (h : Tracked S pending sites f) {c : Nat} (hc : c ∉ pending)
    (hopen : (f.block c).Open) (hblocks : f'.blocks.size = f.blocks.size)
    (hlayout : f'.layout = f.layout)
    (hgrows : ∀ k, IR.Block.Grows (f.entryBlock? = some k) (k = c) (f.block k) (f'.block k)) :
    Tracked S pending sites f' where
  layout := by rw [hlayout, hblocks]; exact h.layout
  entry := by rw [IR.Function.entryBlock?, hlayout]; exact h.entry
  pending := h.pending
  empty := by
    rw [(hgrows 1).instructions_eq (by simp [h.entry]) fun heq => hc (heq ▸ h.pending), h.empty]
  stays k := (hgrows k).forall_mem (fun _ => leaves_eq_false_of_not_terminator) (h.stays k)
  own := h.own
  values := h.values
  edges hresult k := by
    rw [(hgrows k).successors_eq fun heq => heq ▸ hopen]
    exact h.edges hresult k
  once := h.once
  void := h.void

/-- The current block ends, with the return sites that its edge to the exit block stands for. -/
theorem end_block (h : Tracked S pending sites f) {c : Nat} (hc : c ∉ pending)
    (hopen : (f.block c).Open) (hblocks : f'.blocks.size = f.blocks.size)
    (hlayout : f'.layout = f.layout) {i : IR.Instruction} (hi : i.op.isTerminator = true)
    (hstays : i.op.leaves = false)
    (hself : (f'.block c).instructions = (f.block c).instructions ++ [i])
    (hothers : ∀ k, k ≠ c → f'.block k = f.block k) {added : List (Value × BlockRef)}
    (hadded : ∀ site ∈ added, site.2 = ⟨S.function, c⟩ ∧ S.records site)
    (hcount : S.result ≠ .void → i.op.successors.count ⟨S.function, 1⟩ = added.length)
    (hvoid : S.result = .void → added = []) (hone : added.length ≤ 1) :
    Tracked S pending (sites ++ added) f' := by
  have hexit : 1 ≠ c := fun heq => hc (heq ▸ h.pending)
  have hsuccessors : (f'.block c).successors = i.op.successors := by
    simp [IR.Block.successors, IR.Block.terminator?_append hself, hi]
  have hblock : ∀ site ∈ added, site.2.block = c := fun site hsite => by
    rw [(hadded site hsite).1]
  have hmap : added.map (·.2.block) = List.replicate added.length c :=
    List.eq_replicate_iff.mpr ⟨by simp, by
      rintro _ hmem
      obtain ⟨site, hsite, rfl⟩ := List.mem_map.mp hmem
      exact hblock site hsite⟩
  -- the current block was open, so it stands in no site yet
  have hfresh : S.result ≠ .void → c ∉ sites.map (·.2.block) := by
    intro hresult
    rw [← List.count_eq_zero, ← h.edges hresult c, hopen.successors]
    rfl
  refine ⟨by rw [hlayout, hblocks]; exact h.layout,
    by rw [IR.Function.entryBlock?, hlayout]; exact h.entry, h.pending,
    by rw [hothers 1 hexit, h.empty], fun k => ?_, ?_, ?_, fun hresult k => ?_, ?_, fun hresult => ?_⟩
  · by_cases hk : k = c
    · subst hk
      intro j hj
      rw [hself, List.mem_append, List.mem_singleton] at hj
      rcases hj with hj | rfl
      · exact h.stays k j hj
      · exact hstays
    · rw [hothers k hk]
      exact h.stays k
  · intro site hsite
    rcases List.mem_append.mp hsite with hsite | hsite
    · exact h.own site hsite
    · rw [(hadded site hsite).1]
  · intro site hsite
    rcases List.mem_append.mp hsite with hsite | hsite
    · exact h.values site hsite
    · exact (hadded site hsite).2
  · rw [List.map_append, List.count_append, hmap]
    by_cases hk : k = c
    · subst hk
      rw [hsuccessors, hcount hresult, List.count_eq_zero.mpr (hfresh hresult)]
      simp
    · rw [hothers k hk, h.edges hresult k, List.count_replicate]
      simp [Ne.symm hk]
  · by_cases hresult : S.result = .void
    · simpa [hvoid hresult] using h.once
    · rw [List.map_append, List.nodup_append]
      refine ⟨h.once, ?_, ?_⟩
      · rw [hmap]
        exact List.nodup_replicate.mpr hone
      · rintro a ha b hb rfl
        obtain ⟨site, hsite, rfl⟩ := List.mem_map.mp hb
        exact hfresh hresult (hblock site hsite ▸ ha)
  · rw [h.void hresult, hvoid hresult]
    rfl

end Tracked

/-! ## The invariant -/

/-- The function under construction. -/
abbrev Stage.code (S : Stage) (builder : Builder) : IR.Function :=
  builder.module.function S.function

/-- Building goes on in block `c`. The pending blocks are open, and all other blocks that the code is
responsible for have ended, except perhaps the current one. -/
structure Flow (tracked : Prop) (S : Stage) (pending : List Nat) (c : Nat)
    (b : Body) (builder : Builder) : Prop where
  function : b.function = S.function
  walk : b.walk = S.walk
  result : b.result = S.result
  sane : builder.Sane
  at_ : builder.At S.function c
  current : c ∉ pending
  pending_lt : ∀ k ∈ pending, k < (S.code builder).blocks.size
  pending_open : ∀ k ∈ pending, ((S.code builder).block k).Open
  ended : ∀ k, k < (S.code builder).blocks.size → S.watched k → k ∉ pending → k ≠ c →
    ((S.code builder).block k).endsOnce = true
  own : ((S.code builder).block c).endsOnce = true ∨ ((S.code builder).block c).Open
  exit : b.exit = S.exit
  exit_tracked : tracked → S.exit = ⟨S.function, 1⟩ ∧
    Tracked S pending b.returnSites (S.code builder)

namespace Flow

variable {ctx : LoweringContext} {tracked : Prop} {begun : BodyRun → Prop} {S : Stage}
  {pending : List Nat} {c : Nat} {b b' : Body} {builder builder' : Builder}

/-- Whether the current block has ended is known. -/
theorem endsOnce_of_isTerminated (h : Flow tracked S pending c b builder)
    (ht : builder.isTerminated = true) : ((S.code builder).block c).endsOnce = true := by
  rcases h.own with hends | hopen
  · exact hends
  · rw [h.at_.isTerminated, hopen.isTerminated] at ht
    cases ht

theorem open_of_isTerminated (h : Flow tracked S pending c b builder)
    (ht : builder.isTerminated = false) : ((S.code builder).block c).Open := by
  rcases h.own with hends | hopen
  · rw [h.at_.isTerminated, IR.Block.isTerminated_of_endsOnce hends] at ht
    cases ht
  · exact hopen

/-- Scope and receiver do not matter. -/
theorem of_same (h : Flow tracked S pending c b builder) (hsame : b.Same b') :
    Flow tracked S pending c b' builder :=
  { h with
    function := hsame.function.trans h.function
    walk := hsame.walk.trans h.walk
    result := hsame.result.trans h.result
    exit := hsame.exit.trans h.exit
    exit_tracked := fun ht => by rw [hsame.returnSites]; exact h.exit_tracked ht }

/-- Straight code in the current block. -/
theorem straight (h : Flow tracked S pending c b builder)
    (hopen : ((S.code builder).block c).Open) (hs : builder.Straight S.function c builder')
    (hsame : b.Same b') :
    Flow tracked S pending c b' builder' ∧ ((S.code builder').block c).Open := by
  have hopen' := (hs.grows c).isOpen hopen
  refine ⟨Flow.of_same ?_ hsame, hopen'⟩
  exact {
    h with
    sane := hs.sane h.sane
    at_ := hs.at_ h.at_
    pending_lt := fun k hk => hs.blocks.symm ▸ h.pending_lt k hk
    pending_open := fun k hk => (hs.grows k).isOpen (h.pending_open k hk)
    ended := fun k hlt hwatched hk hne =>
      (hs.grows k).endsOnce hne (h.ended k (hs.blocks ▸ hlt) hwatched hk hne)
    own := .inr hopen'
    exit_tracked := fun ht =>
      ⟨(h.exit_tracked ht).1, (h.exit_tracked ht).2.grow h.current hopen hs.blocks hs.layout hs.grows⟩ }

/-- The current block ends, with the return sites that its edge to the exit block stands for. -/
theorem end_block (h : Flow tracked S pending c b builder)
    (hopen : ((S.code builder).block c).Open) (op : Op) (hop : op.isTerminator = true)
    (hstays : op.leaves = false) (added : List (Value × BlockRef))
    (hadded : ∀ site ∈ added, site.2 = ⟨S.function, c⟩ ∧ (tracked → S.records site))
    (hcount : tracked → S.result ≠ .void → op.successors.count ⟨S.function, 1⟩ = added.length)
    (hvoid : tracked → S.result = .void → added = []) (hone : added.length ≤ 1) :
    let builder' := ((Build.terminate op).run builder).2
    Flow tracked S pending c { b with returnSites := b.returnSites ++ added } builder' ∧
      ((S.code builder').block c).endsOnce = true ∧
      Frame ctx tracked begun (some S.function) builder builder' := by
  obtain ⟨i, hi, hx⟩ := IR.terminate_extends h.at_ hopen op
  have hends := hopen.endsOnce (hi ▸ hop) hx.self
  intro builder'
  refine ⟨?_, hends, .of_others hx.declared fun g hg => hx.others g fun heq => hg (heq ▸ rfl)⟩
  refine { h with
    sane := hx.sane h.sane
    at_ := hx.at_ h.at_
    pending_lt := fun k hk => hx.blocks.symm ▸ h.pending_lt k hk
    pending_open := fun k hk => ?_
    ended := fun k hk hwatched hpending hne => ?_
    own := .inl hends
    exit_tracked := fun ht => ⟨(h.exit_tracked ht).1, ?_⟩ }
  · rw [Stage.code, hx.rest k fun heq => h.current (heq ▸ hk)]
    exact h.pending_open k hk
  · rw [Stage.code, hx.rest k hne]
    exact h.ended k (hx.blocks ▸ hk) hwatched hpending hne
  · exact (h.exit_tracked ht).2.end_block h.current hopen hx.blocks hx.layout (hi ▸ hop)
      (hi ▸ hstays) hx.self hx.rest
      (fun site hsite => ⟨(hadded site hsite).1, (hadded site hsite).2 ht⟩)
      (fun hr => by rw [hi]; exact hcount ht hr) (hvoid ht) hone

/-- The current block ends with an operation that does not lead to the exit block. -/
theorem terminate (h : Flow tracked S pending c b builder)
    (hopen : ((S.code builder).block c).Open) (op : Op) (hop : op.isTerminator = true)
    (hstays : op.leaves = false) (htargets : tracked → ⟨S.function, 1⟩ ∉ op.successors) :
    let builder' := ((Build.terminate op).run builder).2
    Flow tracked S pending c b builder' ∧ ((S.code builder').block c).endsOnce = true ∧
      Frame ctx tracked begun (some S.function) builder builder' := by
  obtain ⟨hflow, hends, hframe⟩ : _ ∧ _ ∧ Frame ctx tracked begun (some S.function) builder _ :=
    h.end_block hopen op hop hstays [] (by simp)
      (fun ht _ => List.count_eq_zero.mpr (htargets ht)) (fun _ _ => rfl) (by simp)
  exact ⟨by simpa using hflow, hends, hframe⟩

/-- A new block is pending. -/
theorem append (h : Flow tracked S pending c b builder) (label : String) :
    let r := (Build.appendBlock S.function label).run builder
    ∃ k, r.1 = ⟨S.function, k⟩ ∧ k ∉ pending ∧ (tracked → 1 < k) ∧
      Flow tracked S (k :: pending) c b r.2 ∧
      (((S.code builder).block c).Open → ((S.code r.2).block c).Open) ∧
      Frame ctx tracked begun (some S.function) builder r.2 := by
  intro r
  obtain ⟨href, hr, hcursor, hblock, hsize, hlayout⟩ :=
    builder.appendBlock_run h.at_.function_lt label
  have hsize : (S.code r.2).blocks.size = (S.code builder).blocks.size + 1 := hsize
  have hne : ∀ k, k < (S.code builder).blocks.size → k ≠ (S.code builder).blocks.size :=
    fun k hk => Nat.ne_of_lt hk
  refine ⟨(S.code builder).blocks.size, href, fun hmem => hne _ (h.pending_lt _ hmem) rfl,
    fun ht => h.pending_lt 1 (h.exit_tracked ht).2.pending, ?_, hr.isOpen,
    .of_others hr.declared fun g hg => hr.others g fun heq => hg (heq ▸ rfl)⟩
  refine { h with
    sane := hr.sane h.sane (Nat.zero_lt_of_lt h.at_.block_lt)
    at_ := ⟨hr.size ▸ h.at_.function_lt, Nat.lt_of_lt_of_le h.at_.block_lt hr.blocks,
      hcursor.trans h.at_.cursor, hblock.trans h.at_.block⟩
    current := ?_, pending_lt := ?_, pending_open := ?_, ended := ?_
    own := h.own.imp hr.endsOnce hr.isOpen
    exit_tracked := fun ht => ⟨(h.exit_tracked ht).1,
      (h.exit_tracked ht).2.of_instructions hr.instructions ?_ ?_ ?_⟩ }
  · simp [hne c h.at_.block_lt, h.current]
  · intro k hk
    rcases List.mem_cons.mp hk with rfl | hk
    · omega
    · exact Nat.lt_of_lt_of_le (h.pending_lt k hk) hr.blocks
  · intro k hk
    rcases List.mem_cons.mp hk with rfl | hk
    · refine .of_nil ?_
      rw [hr.instructions]
      exact IR.Function.block_of_le (Nat.le_refl _)
    · exact hr.isOpen (h.pending_open k hk)
  · intro k hk hwatched hpending hc
    simp only [List.mem_cons, not_or] at hpending
    exact hr.endsOnce (h.ended k (by omega) hwatched hpending.2 hc)
  · rw [hlayout, hsize, List.range_succ]
    exact (h.exit_tracked ht).2.layout.append_right _
  · have hentry := (h.exit_tracked ht).2.entry
    rw [IR.Function.entryBlock?, hlayout, List.head?_append]
    rw [IR.Function.entryBlock?] at hentry
    simp [hentry]
  · exact List.mem_cons_of_mem _ (h.exit_tracked ht).2.pending

/-- A block other than the entry moves to the end. -/
theorem move (h : Flow tracked S pending c b builder) {k : Nat}
    (hk : k < (S.code builder).blocks.size) (hpos : tracked → k ≠ 0) :
    let builder' := ((Build.moveBlockToEnd ⟨S.function, k⟩).run builder).2
    Flow tracked S pending c b builder' ∧
      (((S.code builder).block c).endsOnce = true → ((S.code builder').block c).endsOnce = true) ∧
      Frame ctx tracked begun (some S.function) builder builder' := by
  intro builder'
  obtain ⟨hr, hcursor, hblock, hsize, hlayout⟩ := builder.moveBlockToEnd_run h.at_.function_lt k
  refine ⟨?_, hr.endsOnce,
    .of_others hr.declared fun g hg => hr.others g fun heq => hg (heq ▸ rfl)⟩
  refine { h with
    sane := hr.sane h.sane (Nat.zero_lt_of_lt h.at_.block_lt)
    at_ := ⟨hr.size ▸ h.at_.function_lt, Nat.lt_of_lt_of_le h.at_.block_lt hr.blocks,
      hcursor.trans h.at_.cursor, hblock.trans h.at_.block⟩
    pending_lt := fun k hk => Nat.lt_of_lt_of_le (h.pending_lt k hk) hr.blocks
    pending_open := fun k hk => hr.isOpen (h.pending_open k hk)
    ended := fun k hk hwatched hpending hc =>
      hr.endsOnce (h.ended k (hsize ▸ hk) hwatched hpending hc)
    own := h.own.imp hr.endsOnce hr.isOpen
    exit_tracked := fun ht => ⟨(h.exit_tracked ht).1,
      (h.exit_tracked ht).2.of_instructions hr.instructions ?_ ?_ (h.exit_tracked ht).2.pending⟩ }
  · have hmem : k ∈ (S.code builder).layout := by
      rw [(h.exit_tracked ht).2.layout.mem_iff, List.mem_range]
      exact hk
    rw [hlayout, hsize]
    refine .trans ?_ (h.exit_tracked ht).2.layout
    exact (List.perm_append_singleton k _).trans (List.perm_cons_erase hmem).symm
  · -- the entry is the head of the layout and is not the block that moves
    have hentry := (h.exit_tracked ht).2.entry
    rw [IR.Function.entryBlock?] at hentry ⊢
    rw [hlayout]
    obtain ⟨rest, hrest⟩ := List.head?_eq_some_iff.mp hentry
    rw [Stage.code] at hrest
    simp [hrest, Ne.symm (hpos ht)]

/-- Building goes on in a pending block, once the current one has ended. -/
theorem position {k : Nat} (h : Flow tracked S (k :: pending) c b builder)
    (hk : k ∉ pending) (hexit : tracked → k ≠ 1)
    (hends : ((S.code builder).block c).endsOnce = true) :
    let builder' := ((Build.positionAtEnd ⟨S.function, k⟩).run builder).2
    Flow tracked S pending k b builder' ∧ ((S.code builder').block k).Open ∧
      Frame ctx tracked begun (some S.function) builder builder' := by
  intro builder'
  have hopen := h.pending_open k (by simp)
  refine ⟨?_, hopen, .of_others rfl fun _ _ => rfl⟩
  exact {
    h with
    sane := ⟨h.sane.declared, h.sane.layout⟩
    at_ := ⟨h.at_.function_lt, h.pending_lt k (by simp), rfl, rfl⟩
    current := hk
    pending_lt := fun j hj => h.pending_lt j (List.mem_cons_of_mem k hj)
    pending_open := fun j hj => h.pending_open j (List.mem_cons_of_mem k hj)
    ended := fun j hj hwatched hpending hne => by
      by_cases hc : j = c
      · exact hc ▸ hends
      · exact h.ended j hj hwatched (by simp [hne, hpending]) hc
    own := .inr hopen
    exit_tracked := fun ht => ⟨(h.exit_tracked ht).1, (h.exit_tracked ht).2.of_instructions (fun _ => rfl)
      (h.exit_tracked ht).2.layout (h.exit_tracked ht).2.entry (by
        have hmem := (h.exit_tracked ht).2.pending
        rw [List.mem_cons] at hmem
        exact hmem.resolve_left fun heq => hexit ht heq.symm)⟩ }

/-- What happens to other functions does not matter. -/
theorem of_code (h : Flow tracked S pending c b builder) (hsane : builder'.Sane)
    (hat : builder'.At S.function c) (hcode : S.code builder' = S.code builder) :
    Flow tracked S pending c b builder' where
  function := h.function
  walk := h.walk
  result := h.result
  sane := hsane
  at_ := hat
  current := h.current
  pending_lt := by rw [hcode]; exact h.pending_lt
  pending_open := by rw [hcode]; exact h.pending_open
  ended := by rw [hcode]; exact h.ended
  own := by rw [hcode]; exact h.own
  exit := h.exit
  exit_tracked := by rw [hcode]; exact h.exit_tracked

/-- Other `return`s may be expected, and less may be asked of the sites that are recorded. -/
theorem restage (h : Flow tracked S pending c b builder) (expected : Option TypeId)
    (bare : expected = some .void → S.result = .void) {records : Value × BlockRef → Prop}
    (hrecords : ∀ site, S.records site → records site) :
    Flow tracked { S with expected, bare, records } pending c b builder :=
  { h with exit_tracked := fun ht => ⟨(h.exit_tracked ht).1, {
      (h.exit_tracked ht).2 with
      values := fun site hsite => hrecords site ((h.exit_tracked ht).2.values site hsite) }⟩ }

/-- The order of the pending blocks does not matter. -/
theorem of_mem_iff (h : Flow tracked S pending c b builder) (pending' : List Nat)
    (hmem : ∀ k, k ∈ pending' ↔ k ∈ pending) : Flow tracked S pending' c b builder :=
  { h with
    current := fun hc => h.current ((hmem c).mp hc)
    pending_lt := fun k hk => h.pending_lt k ((hmem k).mp hk)
    pending_open := fun k hk => h.pending_open k ((hmem k).mp hk)
    ended := fun k hk hwatched hpending =>
      h.ended k hk hwatched fun hk' => hpending ((hmem k).mpr hk')
    exit_tracked := fun ht => ⟨(h.exit_tracked ht).1, (h.exit_tracked ht).2.of_instructions
      (fun _ => rfl) (h.exit_tracked ht).2.layout (h.exit_tracked ht).2.entry
      ((hmem 1).mpr (h.exit_tracked ht).2.pending)⟩ }

/-- Building goes on in a pending block that moves to the end. -/
theorem enter {k : Nat} (h : Flow tracked S (k :: pending) c b builder) (hk : k ∉ pending)
    (hexit : tracked → 1 < k) (hends : ((S.code builder).block c).endsOnce = true) :
    let builder' := ((do
      Build.moveBlockToEnd ⟨S.function, k⟩
      Build.positionAtEnd ⟨S.function, k⟩ : Build Unit).run builder).2
    Flow tracked S pending k b builder' ∧ ((S.code builder').block k).Open ∧
      Frame ctx tracked begun (some S.function) builder builder' := by
  obtain ⟨hmoved, hends', hframe⟩ := h.move (h.pending_lt k (by simp)) fun ht => by
    have := hexit ht
    omega
  obtain ⟨hflow, hopen, hframe'⟩ := hmoved.position hk (fun ht => by
    have := hexit ht
    omega) (hends' hends)
  exact ⟨hflow, hopen, hframe.trans hframe'⟩

/-- The current block ends in a branch to blocks other than the exit block. -/
theorem branch (h : Flow tracked S pending c b builder)
    (hopen : ((S.code builder).block c).Open) (cond : Value) {yes no : Nat}
    (hyes : tracked → 1 < yes) (hno : tracked → 1 < no) :
    let builder' := ((Build.branch cond ⟨S.function, yes⟩ ⟨S.function, no⟩).run builder).2
    Flow tracked S pending c b builder' ∧ ((S.code builder').block c).endsOnce = true ∧
      Frame ctx tracked begun (some S.function) builder builder' := by
  have hended : builder.isTerminated = false := by rw [h.at_.isTerminated, hopen.isTerminated]
  have hexit : ∀ k, (tracked → 1 < k) → tracked → (⟨S.function, 1⟩ : BlockRef) ≠ ⟨S.function, k⟩ := by
    intro k hk ht heq
    have hlt := hk ht
    have hblock : 1 = k := congrArg BlockRef.block heq
    omega
  have hrun : (Build.branch cond ⟨S.function, yes⟩ ⟨S.function, no⟩).run builder =
      ((if cond.isInt then Build.terminate (.branch cond ⟨S.function, yes⟩ ⟨S.function, no⟩)
        else do
          Build.misuse
          Build.jump ⟨S.function, no⟩ : Build Unit).run builder) := by
    show (if builder.isTerminated then Build.misuse else _ : Build Unit).run builder = _
    rw [hended]
    rfl
  rw [hrun]
  cases hint : cond.isInt with
  | true =>
      exact h.terminate hopen (.branch cond _ _) rfl rfl fun ht => by
        simp [Op.successors, hexit yes hyes ht, hexit no hno ht]
  | false =>
      -- a misuse is counted, and control goes on in the second block
      obtain ⟨hflow, hopen'⟩ := h.straight hopen
        ((IR.KeepsQuiet.misuse builder).straight S.function c) (.refl b)
      obtain ⟨hflow', hends, hframe⟩ := hflow.terminate hopen' (.jump ⟨S.function, no⟩) rfl rfl
        fun ht => by simp [Op.successors, hexit no hno ht]
      have hcounted : Frame ctx tracked begun (some S.function) builder
          (Build.misuse.run builder).2 :=
        .of_others rfl fun _ _ => rfl
      exact ⟨hflow', hends, hcounted.trans hframe⟩

end Flow

end ClassLang
