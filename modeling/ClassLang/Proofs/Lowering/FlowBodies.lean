import Mathlib.Data.List.Nodup
import ClassLang.Proofs.Lowering.FlowBelow

/-!
# Complete bodies

A function is opened with an empty entry and exit block. When its code is generated the exit block is
the only one that is still open; it gets its instructions last, and the function is `Done`. The bodies
of lambdas are completed while the enclosing body is under construction, so `lowerWithin_flows`, the
induction on the nesting of nodes, stands at the end.
-/

namespace ClassLang

open IR (BlockRef Build Builder FunctionId Op Value)

/-! ## Predecessors -/

/-- If each block stands in the layout once, it is a predecessor once for each of its edges. -/
theorem IR.Function.count_predecessors {f : IR.Function}
    (h : f.layout.Perm (List.range f.blocks.size)) (target : BlockRef) (k : Nat) :
    (f.predecessors target).count k = (f.block k).successors.count target := by
  have hcount : ∀ layout : List Nat, (layout.flatMap fun number =>
      ((f.block number).successors.filter (· == target)).map fun _ => number).count k =
        layout.count k * (f.block k).successors.count target := by
    intro layout
    induction layout with
    | nil => simp
    | cons number layout ih =>
        rw [List.flatMap_cons, List.count_append, ih, List.map_const', List.count_replicate,
          List.count_cons]
        by_cases hk : number = k
        · subst hk
          simp [List.count_eq_length_filter, Nat.add_mul, Nat.add_comm]
        · simp [hk]
  rw [predecessors, hcount, h.count_eq]
  by_cases hk : k < f.blocks.size
  · rw [List.count_eq_one_of_mem List.nodup_range (List.mem_range.mpr hk), Nat.one_mul]
  · have hopen : (f.block k).Open := .of_nil (block_of_le (Nat.le_of_not_lt hk))
    rw [hopen.successors]
    simp

variable {ctx : LoweringContext} {tracked : Prop} {begun : BodyRun → Prop} {S : Stage}

/-! ## The exit block -/

/-- The code of the body is generated: the exit block is the current one, and all others have
ended. -/
structure Closing (tracked : Prop) (S : Stage) (b : Body)
    (builder : Builder) : Prop where
  function : b.function = S.function
  walk : b.walk = S.walk
  result : b.result = S.result
  sane : builder.Sane
  at_ : builder.At S.function 1
  isOpen : ((S.code builder).block 1).Open
  ended : ∀ k, k < (S.code builder).blocks.size → k ≠ 1 →
    ((S.code builder).block k).endsOnce = true
  exit_tracked : tracked → Tracked S [1] b.returnSites (S.code builder)

/-- The body is complete: all blocks have ended, and the exit block obeys the protocol. -/
structure Finished (tracked : Prop) (S : Stage) (b : Body)
    (builder : Builder) : Prop where
  function : b.function = S.function
  walk : b.walk = S.walk
  result : b.result = S.result
  blocks : ∀ k, k < (S.code builder).blocks.size → ((S.code builder).block k).endsOnce = true
  protocol : tracked →
    (S.code builder).ExitProtocol S.function (S.result = .void) b.returnSites
  values : tracked → ∀ site ∈ b.returnSites, S.records site

/-- The edges to the exit block are those of the sites. -/
theorem Tracked.predecessors {pending : List Nat} {sites : List (Value × BlockRef)}
    {f : IR.Function} (h : Tracked S pending sites f) (hresult : S.result ≠ .void) :
    (sites.map (·.2)).Perm ((f.predecessors ⟨S.function, 1⟩).map fun k => ⟨S.function, k⟩) ∧
      (f.predecessors ⟨S.function, 1⟩).Nodup := by
  have hperm : (sites.map (·.2.block)).Perm (f.predecessors ⟨S.function, 1⟩) := by
    rw [List.perm_iff_count]
    intro k
    rw [IR.Function.count_predecessors h.layout, h.edges hresult k]
  have hmap : sites.map (·.2) = (sites.map (·.2.block)).map fun k => ⟨S.function, k⟩ := by
    rw [List.map_map]
    refine List.map_congr_left fun site hsite => ?_
    show site.2 = ⟨S.function, site.2.block⟩
    rw [← h.own site hsite]
  exact ⟨hmap ▸ hperm.map _, hperm.nodup_iff.mp h.once⟩

/-- What leaves the function leads to no block. -/
theorem successors_of_leaves {op : Op} (h : op.leaves = true) : op.successors = [] := by
  cases op <;> first | rfl | cases h

/-- While edges are tracked no block leaves the function. -/
theorem Tracked.leaves_terminator {pending : List Nat} {sites : List (Value × BlockRef)}
    {f : IR.Function} (h : Tracked S pending sites f) {k : Nat} {op : Op}
    (hop : (f.block k).terminator? = some op) : op.leaves = false := by
  rw [IR.Block.terminator?] at hop
  split at hop
  · next i hi =>
      have hstays := h.stays k i (List.mem_of_getLast? hi)
      split at hop
      · cases hop
        exact hstays
      · cases hop
  · cases hop

/-- Once the exit block has its instructions, it obeys the protocol. -/
theorem Tracked.exitProtocol {pending : List Nat} {sites : List (Value × BlockRef)}
    {f f' : IR.Function} (h : Tracked S pending sites f) (hblocks : f'.blocks.size = f.blocks.size)
    (hlayout : f'.layout = f.layout) {before : List IR.Instruction} {last : IR.Instruction}
    (hself : (f'.block 1).instructions = before ++ [last])
    (hothers : ∀ k, k ≠ 1 → f'.block k = f.block k) (hlast : last.op.isTerminator = true)
    (hleaves : last.op.leaves = true)
    (hvoid : S.result = .void → (before ++ [last]).map (·.op) = [.ret none])
    (hmerge : S.result ≠ .void → IR.ReturnsSites S.function sites (before ++ [last])) :
    f'.ExitProtocol S.function (S.result = .void) sites := by
  have hend : (f'.block 1).terminator? = some last.op := by
    rw [IR.Block.terminator?_append hself, if_pos hlast]
  have hsuccessors : ∀ k, (f'.block k).successors = (f.block k).successors := by
    intro k
    by_cases hk : k = 1
    · subst hk
      rw [(IR.Block.Open.of_nil h.empty).successors, IR.Block.successors, hend]
      exact successors_of_leaves hleaves
    · rw [hothers k hk]
  have hpredecessors : f'.predecessors ⟨S.function, 1⟩ = f.predecessors ⟨S.function, 1⟩ := by
    simp only [IR.Function.predecessors, hlayout, hsuccessors]
  refine ⟨?_, ?_, fun k => ⟨?_, ?_⟩, fun hr => ⟨h.void hr, ?_⟩, fun hr => ?_, fun hr => ?_⟩
  · rw [hlayout, hblocks]
    exact h.layout
  · rw [IR.Function.entryBlock?, hlayout]
    exact h.entry
  · rintro ⟨op, hop, hleaves⟩
    by_contra hk
    rw [hothers k hk] at hop
    rw [h.leaves_terminator hop] at hleaves
    cases hleaves
  · rintro rfl
    exact ⟨last.op, hend, hleaves⟩
  · rw [hself]
    exact hvoid hr
  · rw [hpredecessors]
    exact h.predecessors hr
  · rw [hself]
    exact hmerge hr

namespace Closing

variable {b : Body} {builder builder' : Builder}

theorem of_quiet (h : Closing tracked S b builder) (hq : builder.Quiet builder') :
    Closing tracked S b builder' := by
  have hs := hq.straight S.function 1
  have hcode : S.code builder' = S.code builder := by
    simp [Stage.code, IR.Module.function, hq.functions]
  refine { h with
    sane := hs.sane h.sane
    at_ := hs.at_ h.at_
    isOpen := ?_, ended := ?_, exit_tracked := ?_ }
  · rw [hcode]
    exact h.isOpen
  · rw [hcode]
    exact h.ended
  · rw [hcode]
    exact h.exit_tracked

/-- The exit block gets its instructions. -/
theorem close (h : Closing tracked S b builder) (before : List IR.Instruction)
    (last : IR.Instruction) (hx : builder.Extends S.function 1 (before ++ [last]) builder')
    (hbefore : ∀ i ∈ before, i.op.isTerminator = false) (hlast : last.op.isTerminator = true)
    (hleaves : last.op.leaves = true)
    (hvoid : S.result = .void → (before ++ [last]).map (·.op) = [.ret none])
    (hmerge : S.result ≠ .void → IR.ReturnsSites S.function b.returnSites (before ++ [last])) :
    builder'.Sane ∧ Frame ctx tracked begun (some S.function) builder builder' ∧
      Finished tracked S b builder' := by
  have hopen : IR.Block.Open { (S.code builder).block 1 with
      instructions := ((S.code builder).block 1).instructions ++ before } := by
    intro i hi
    rcases List.mem_append.mp hi with hi | hi
    · exact h.isOpen i hi
    · exact hbefore i hi
  have hself : ((S.code builder').block 1).instructions =
      (((S.code builder).block 1).instructions ++ before) ++ [last] := by
    rw [Stage.code, hx.self, List.append_assoc]
  refine ⟨hx.sane h.sane,
    .of_others hx.declared fun g hg => hx.others g fun heq => hg (heq ▸ rfl), ?_⟩
  refine ⟨h.function, h.walk, h.result, fun k hk => ?_, fun ht => ?_, fun ht =>
    (h.exit_tracked ht).values⟩
  · by_cases hk1 : k = 1
    · subst hk1
      exact hopen.endsOnce hlast hself
    · rw [Stage.code, hx.rest k hk1]
      exact h.ended k (hx.blocks ▸ hk) hk1
  · have htracked := h.exit_tracked ht
    refine htracked.exitProtocol hx.blocks hx.layout ?_ hx.rest hlast hleaves hvoid hmerge
    rw [hself, htracked.empty, List.nil_append]

end Closing

/-- Building goes on in the exit block, which is the last one that is pending. -/
theorem Flow.closing {c : Nat} {b : Body} {builder : Builder}
    (h : Flow tracked S [1] c b builder) (hall : ∀ k, S.watched k)
    (hends : ((S.code builder).block c).endsOnce = true) :
    let builder' := ((do
      Build.moveBlockToEnd ⟨S.function, 1⟩
      Build.positionAtEnd ⟨S.function, 1⟩ : Build Unit).run builder).2
    Closing tracked S b builder' ∧ Frame ctx tracked begun (some S.function) builder builder' := by
  intro builder'
  obtain ⟨hmoved, hends', hframe⟩ := h.move (h.pending_lt 1 (by simp)) fun _ => Nat.one_ne_zero
  have hsame : Frame ctx tracked begun (some S.function)
      ((Build.moveBlockToEnd ⟨S.function, 1⟩).run builder).2 builder' :=
    .of_others rfl fun _ _ => rfl
  refine ⟨⟨h.function, h.walk, h.result, ⟨hmoved.sane.declared, hmoved.sane.layout⟩,
    ⟨hmoved.at_.function_lt, hmoved.pending_lt 1 (by simp), rfl, rfl⟩,
    hmoved.pending_open 1 (by simp), fun k hk hk1 => ?_, fun ht => (hmoved.exit_tracked ht).2⟩,
    hframe.trans hsame⟩
  by_cases hc : k = c
  · exact hc ▸ hends' hends
  · exact hmoved.ended k hk (hall k) (by simp [hk1]) hc

/-- A step that touches no function. -/
theorem Emit.Quiet.keeps {α : Type} {own : Option FunctionId} {step : Emit α} (h : Emit.Quiet step)
    {o : Output} (hsane : o.builder.Sane) :
    (flowing ctx tracked begun own).KeepsAt o step fun _ o' => o.builder.Quiet o'.builder := by
  have hrun := h o hsane
  unfold Discipline.KeepsAt at hrun ⊢
  cases hstep : step o with
  | error e o' =>
      rw [hstep] at hrun
      exact hrun
  | ok a o' =>
      simp only [hstep] at hrun ⊢
      refine ⟨hrun.1, .of_others hrun.2.1.declared fun g _ => ?_, hrun.2.1⟩
      simp [IR.Module.function, hrun.2.1.functions]

/-! ## Opening a function -/

/-- A function that got an empty entry and an empty exit block. -/
structure IR.Function.Opened (f : IR.Function) : Prop where
  size : f.blocks.size = 2
  layout : f.layout = [0, 1]
  empty : ∀ k, (f.block k).instructions = []

theorem IR.Builder.open_run (b : Builder) {f : FunctionId} (hsane : b.Sane)
    (hlt : f < b.module.functions.size) (hbody : (b.module.function f).hasBody = false) :
    let r := (do
      let entry ← Build.appendBlock f "entry"
      let exit ← Build.appendBlock f "exit"
      Build.setCurrentFunction f
      Build.positionAtEnd entry
      pure exit : Build BlockRef).run b
    r.1 = ⟨f, 1⟩ ∧ r.2.Sane ∧ r.2.At f 0 ∧ (r.2.module.function f).Opened ∧
      r.2.declared = b.declared ∧ ∀ g, g ≠ f → r.2.module.function g = b.module.function g := by
  intro r
  have hnone : (b.module.function f).blocks.size = 0 := by
    simpa [IR.Function.hasBody, Array.isEmpty] using hbody
  obtain ⟨hentry, hr₁, -, -, hsize₁, hlayout₁⟩ := b.appendBlock_run hlt "entry"
  obtain ⟨hexit, hr₂, -, -, hsize₂, hlayout₂⟩ := IR.Builder.appendBlock_run
    ((Build.appendBlock f "entry").run b).2 (hr₁.size ▸ hlt) "exit"
  rw [hnone] at hentry hsize₁ hlayout₁
  rw [hsize₁] at hexit hsize₂ hlayout₂
  rw [hlayout₁, hsane.layout f hbody] at hlayout₂
  have hothers : ∀ g, g ≠ f → r.2.module.function g = b.module.function g :=
    fun g hg => (hr₂.others g hg).trans (hr₁.others g hg)
  have hsize : r.2.module.functions.size = b.module.functions.size := hr₂.size.trans hr₁.size
  have hblocks : (r.2.module.function f).blocks.size = 2 := hsize₂
  refine ⟨hexit, hsane.of_others rfl hsize hothers (by omega),
    ⟨hsize ▸ hlt, by omega, congrArg _ (congrArg _ hentry), congrArg _ hentry⟩,
    ⟨hblocks, hlayout₂, fun k => ?_⟩, rfl, hothers⟩
  rw [show ((r.2.module.function f).block k).instructions = _ from hr₂.instructions k,
    hr₁.instructions k]
  exact IR.Function.block_of_le (by omega)

/-- Nothing is generated yet. -/
theorem IR.Function.Opened.untouched {f : IR.Function} (h : f.Opened) : Tracked S [1] [] f where
  layout := by rw [h.layout, h.size]; exact .refl _
  entry := by rw [IR.Function.entryBlock?, h.layout]; rfl
  pending := by simp
  empty := h.empty 1
  stays k := by simp [h.empty]
  own := by simp
  values := by simp
  edges _ k := by
    have hopen : (f.block k).Open := .of_nil (h.empty k)
    rw [hopen.successors]
    rfl
  once := by simp
  void _ := rfl

namespace Lower

/-- The end of a body is reached in an open block. -/
theorem fallThrough_keeps {pending : List Nat} {c : Nat} {b₀ b : Body} {o₀ o : Output}
    {lower : Generator} {value : Option Value} {body : NodeId}
    (hrun : (lower body).run b₀ o₀ = .ok (value, b) o) (hwalk : b₀.walk = S.walk)
    (hrecords : tracked → ∀ site, Converts ctx lower ⟨body, b₀, o₀⟩ S.result site → S.records site)
    (h : Running tracked S pending c b o) :
    (flowing ctx tracked begun (some S.function)).KeepsAt o ((fallThrough ctx value body).run b)
      fun r o' => Halted tracked S pending c r.2 o' := by
  show (flowing ctx tracked begun (some S.function)).KeepsAt o
    ((if b.result = .void then returnVoid else _ : Lower Unit).run b) _
  by_cases hvoid : b.result = .void
  · rw [if_pos hvoid]
    exact returnVoid_keeps h fun _ => h.flow.result.symm.trans hvoid
  · rw [if_neg hvoid]
    cases value with
    | none => exact .of_error rfl ⟨h.flow.sane, fun path h => by cases h⟩
    | some value =>
        refine bind_keeps (typeOf_keeps h body) ?_
        rintro t _ _ - - ⟨htype, rfl, rfl⟩
        rw [h.flow.walk, ← hwalk] at htype
        refine returnValue_keeps h (fun hv => hvoid (h.flow.result.trans hv)) ?_
        intro ht site b' o' hconvert hblock
        exact hrecords ht site ⟨t, value, _, _, b', o', htype, hrun, hconvert, hblock⟩

/-- The instructions of the exit block. -/
theorem exitCode_keeps {b : Body} {o : Output} (h : Closing tracked S b o.builder) :
    (flowing ctx tracked begun (some S.function)).KeepsAt o
      ((if b.result = .void then build Build.retVoid
      else do
        let type ← Emit.valueType ctx b.result
        build do
          match ← Build.phi type b.returnSites "return_value" with
          | some value => Build.ret value
          | none => Build.unreachable : Lower Unit).run b)
      fun r o' => Finished tracked S r.2 o'.builder := by
  by_cases hvoid : b.result = .void
  · rw [if_pos hvoid]
    obtain ⟨i, hi, hx⟩ := IR.terminate_extends h.at_ h.isOpen (.ret none)
    have hresult : S.result = .void := h.result.symm.trans hvoid
    exact build_keeps (h.close [] i hx (by simp) (by rw [hi]; rfl) (by rw [hi]; rfl)
      (by simp [hi]) fun hr => absurd hresult hr)
  · rw [if_neg hvoid]
    have hresult : S.result ≠ .void := fun hr => hvoid (h.result.trans hr)
    refine bind_keeps (P := fun r o' => r.2 = b ∧ Closing tracked S b o'.builder) ?_ ?_
    · refine .bind ((Emit.valueType_lays b.result).quiet.keeps h.sane) fun type o' ho' _ hq => ?_
      exact .pure ho' ⟨rfl, h.of_quiet hq⟩
    · rintro type b o' - - ⟨rfl, hc⟩
      rcases hsites : b.returnSites with - | ⟨⟨value, site⟩, - | ⟨next, rest⟩⟩
      · obtain ⟨i, hi, hx⟩ := IR.terminate_extends hc.at_ hc.isOpen .unreachable
        exact build_keeps (hc.close [] i hx (by simp) (by rw [hi]; rfl) (by rw [hi]; rfl)
          (fun hr => absurd hr hresult) fun _ => by rw [hsites]; simp [IR.ReturnsSites, hi])
      · obtain ⟨i, hi, hx⟩ := IR.terminate_extends hc.at_ hc.isOpen (.ret (some value))
        exact build_keeps (hc.close [] i hx (by simp) (by rw [hi]; rfl) (by rw [hi]; rfl)
          (fun hr => absurd hr hresult) fun _ => by rw [hsites]; simp [IR.ReturnsSites, hi])
      · -- two sites or more: their values are merged, and the merged one is returned
        let merge : Op := .phi type ((value, site) :: next :: rest)
        obtain ⟨phi, hphi, hvalue, hx⟩ := IR.insert_extends hc.at_ "return_value" merge
        have hopen : ((S.code ((Build.insert "return_value" merge).run o'.builder).2).block 1).Open :=
          ((IR.KeepsStraight.insert _ rfl 1 _ hc.at_).grows 1).isOpen hc.isOpen
        obtain ⟨ret, hret, hx'⟩ := IR.terminate_extends (hx.at_ hc.at_) hopen
          (.ret (some (.result S.function phi.id type)))
        rw [← show _ = Value.result S.function phi.id type from hvalue] at hret hx'
        refine build_keeps (hc.close [phi] ret (hx.trans hx') (by simp [hphi, merge, Op.isTerminator])
          (by rw [hret]; rfl) (by rw [hret]; rfl) (fun hr => absurd hr hresult) fun _ => ?_)
        rw [hsites]
        exact ⟨phi, ret, type, rfl, hphi, hret.trans (by rw [hvalue]; rfl)⟩

/-- Only the node of the body is generated by the parameter. -/
theorem finish_run_congr {lower lower' : Generator} {body : NodeId} {b : Body} {o : Output}
    (h : (lower body).run b o = (lower' body).run b o) :
    (finish ctx lower body).run b o = (finish ctx lower' body).run b o := by
  unfold finish
  rw [StateT.run_bind, StateT.run_bind]
  show EStateM.bind _ _ o = EStateM.bind _ _ o
  rw [EStateM.bind, EStateM.bind, h]

/-- The code of a body without the exit block: when the end is reached the value is returned. -/
def runBody (ctx : LoweringContext) (lower : NodeId → Lower (Option Value)) (body : NodeId) :
    Lower Unit := do
  let value ← lower body
  if !(← terminated) then fallThrough ctx value body

/-- The code of the exit block. -/
def exitBlock (ctx : LoweringContext) : Lower Unit := do
  let b ← get
  build do
    Build.moveBlockToEnd b.exit
    Build.positionAtEnd b.exit
  if b.result = .void then build Build.retVoid
  else
    let type ← Emit.valueType ctx b.result
    build do
      match ← Build.phi type b.returnSites "return_value" with
      | some value => Build.ret value
      | none => Build.unreachable

theorem finish_eq (lower : NodeId → Lower (Option Value)) (body : NodeId) :
    finish ctx lower body = runBody ctx lower body >>= fun _ => exitBlock ctx := by
  rw [finish, runBody, bind_assoc]
  refine bind_congr fun value => ?_
  rw [bind_assoc]
  refine bind_congr fun ended => ?_
  cases ended <;> rfl

/-- The code of a body comes to an end in every block. -/
theorem runBody_keeps {lower : Generator} {body : NodeId} {c : Nat} {b : Body} {o : Output}
    (hbody : (flowing ctx tracked begun (some S.function)).KeepsAt o ((lower body).run b) fun r o' =>
      ∃ c', Flow tracked S [1] c' r.2 o'.builder ∧
        (r.1.isSome = true → ((S.code o'.builder).block c').Open))
    (hrecords : tracked → ∀ site, Converts ctx lower ⟨body, b, o⟩ S.result site → S.records site)
    (hr : Running tracked S [1] c b o) :
    (flowing ctx tracked begun (some S.function)).KeepsAt o ((runBody ctx lower body).run b)
      fun r o' => ∃ c', Halted tracked S [1] c' r.2 o' := by
  refine bind_keeps hbody.recall ?_
  rintro value b' o' - - ⟨⟨c', hflow, hopen⟩, hrun⟩
  refine bind_keeps (terminated_keeps hflow) ?_
  rintro _ _ o' ho' - ⟨rfl, heq⟩
  cases heq
  cases hended : o'.builder.isTerminated with
  | true => exact .pure ho' ⟨c', hflow, hflow.endsOnce_of_isTerminated hended⟩
  | false =>
      refine (fallThrough_keeps hrun hr.flow.walk hrecords
        ⟨hflow, hflow.open_of_isTerminated hended⟩).weaken ?_
      exact fun _ _ _ _ hhalted => ⟨c', hhalted⟩

/-- The exit block completes a body. -/
theorem exitBlock_keeps {c : Nat} {b : Body} {o : Output} (hexit : S.exit = ⟨S.function, 1⟩)
    (hall : ∀ k, S.watched k) (h : Halted tracked S [1] c b o) :
    (flowing ctx tracked begun (some S.function)).KeepsAt o ((exitBlock ctx).run b)
      fun r o' => Finished tracked S r.2 o'.builder := by
  obtain ⟨hclosing, hframe⟩ := h.flow.closing hall h.ended
  rw [← hexit, ← h.flow.exit] at hclosing hframe
  refine get_bind_keeps (bind_keeps (P := fun r o' => r.2 = b ∧ Closing tracked S b o'.builder)
    (build_keeps ⟨hclosing.sane, hframe, rfl, hclosing⟩) ?_)
  rintro _ b o' - - ⟨rfl, hclosing⟩
  exact exitCode_keeps hclosing

/-- The code of a body, then the exit block. -/
theorem finish_keeps {lower : Generator} {body : NodeId} {c : Nat} {b : Body} {o : Output}
    (hbody : (flowing ctx tracked begun (some S.function)).KeepsAt o ((lower body).run b) fun r o' =>
      ∃ c', Flow tracked S [1] c' r.2 o'.builder ∧
        (r.1.isSome = true → ((S.code o'.builder).block c').Open))
    (hrecords : tracked → ∀ site, Converts ctx lower ⟨body, b, o⟩ S.result site → S.records site)
    (hexit : S.exit = ⟨S.function, 1⟩) (hall : ∀ k, S.watched k)
    (hr : Running tracked S [1] c b o) :
    (flowing ctx tracked begun (some S.function)).KeepsAt o ((finish ctx lower body).run b)
      fun r o' => Finished tracked S r.2 o'.builder := by
  rw [finish_eq]
  refine bind_keeps (runBody_keeps hbody hrecords hr) ?_
  rintro ⟨⟩ b o - - ⟨c, hhalted⟩
  exact exitBlock_keeps hexit hall hhalted

/-- A function without a body is opened: its entry is the current block, its exit is pending. -/
theorem start_keeps {function : FunctionId} {walk : InstanceId} {owner : Option TypeId}
    {name : String} {result : TypeId} {o : Output} (hsane : o.builder.Sane)
    (hlt : function < o.builder.module.functions.size) :
    (flowing ctx tracked begun (some function)).KeepsAt o (start ctx function walk owner name result)
      fun b o' => (o.builder.module.function function).hasBody = false ∧
        ctx.pool.resolveStrict result = .ok b.result ∧
        ∀ S : Stage, S.function = function → S.walk = walk → S.exit = ⟨function, 1⟩ →
          S.result = b.result → Running tracked S [1] 0 b o' := by
  refine .bind_read hsane rfl ?_
  cases hbody : (o.builder.module.function function).hasBody with
  | true => exact .of_error rfl ⟨hsane, fun path h => by cases h⟩
  | false =>
      refine .bind ((Emit.resolve_lays result).quiet.keeps hsane).recall ?_
      rintro result' o' hsane' - ⟨hq, hrun⟩
      have hresolved : ctx.pool.resolveStrict result = .ok result' := (Emit.ofExcept_ok hrun).1
      have hsame : o'.builder.module.function function = o.builder.module.function function := by
        simp [IR.Module.function, hq.functions]
      obtain ⟨hexit, hsane'', hat, hopened, hdeclared, hothers⟩ :=
        o'.builder.open_run hsane' (hq.functions ▸ hlt) (hsame ▸ hbody)
      refine .bind (P := fun exit o'' => exit = ⟨function, 1⟩ ∧ o''.builder.Sane ∧
        o''.builder.At function 0 ∧ (o''.builder.module.function function).Opened)
        (.of_ok rfl hsane'' ?_ ⟨hexit, hsane'', hat, hopened⟩) ?_
      · exact .of_others hdeclared fun g hg => hothers g fun heq => hg (heq ▸ rfl)
      · rintro exit o'' ho'' - ⟨rfl, -, hat, hopened⟩
        refine .pure ho'' ⟨rfl, hresolved, ?_⟩
        rintro S rfl rfl hexit hresult
        have hopen : ∀ k, ((S.code o''.builder).block k).Open := fun k => .of_nil (hopened.empty k)
        refine ⟨⟨rfl, rfl, hresult.symm, ho'', hat, by simp, ?_, fun k _ => hopen k, ?_,
          .inr (hopen 0), hexit.symm, fun _ => ⟨hexit, hopened.untouched⟩⟩, hopen 0⟩
        · simp [hopened.size]
        · intro k hk _ hpending h0
          rw [Stage.code, hopened.size] at hk
          simp only [List.mem_singleton] at hpending
          omega

end Lower

/-! ## Declaring a function -/

/-- A function is declared under the name, perhaps anew and then without a body. -/
structure IR.Builder.Declares (name : String) (id : FunctionId) (b b' : Builder) : Prop where
  found : b'.function? name = some id
  declared : ∀ name' id', b.function? name' = some id' → b'.function? name' = some id'
  kept : ∀ g, g < b.module.functions.size → b'.module.function g = b.module.function g
  fresh : ∀ g, b.module.functions.size ≤ g → (b'.module.function g).hasBody = false
  size : b.module.functions.size ≤ b'.module.functions.size
  cursor : b'.cursor = b.cursor
  block : b'.currentBlock = b.currentBlock
  sane : b'.Sane

theorem IR.Builder.declareFunction_run {b : Builder} (hsane : b.Sane) (name : String)
    (type : IR.FnType) :
    let r := (Build.declareFunction name type).run b
    b.Declares name r.1 r.2 := by
  intro r
  cases hname : b.function? name with
  | some id =>
      have hr : r = (id, b) := by
        simp only [r, Build.run_declareFunction, hname]
      rw [hr]
      exact ⟨hname, fun _ _ h => h, fun _ _ => rfl, fun g hg => IR.Module.hasBody_of_le hg,
        Nat.le_refl _, rfl, rfl, hsane⟩
  | none =>
      let unique := b.module.symbols.take name
      have hr : r = (b.module.functions.size, { b with
          module := { b.module with
            functions := b.module.functions.push (.declared unique.1 type)
            symbols := unique.2 }
          declared := (name, b.module.functions.size) :: b.declared }) := by
        simp only [r, Build.run_declareFunction, hname, unique]
      have hkept : ∀ g, g < b.module.functions.size →
          r.2.module.function g = b.module.function g := by
        intro g hg
        simp [hr, IR.Module.function, Array.getD_eq_getD_getElem?, Array.getElem?_push,
          Nat.ne_of_lt hg]
      have hnew : ∀ g, b.module.functions.size ≤ g →
          (r.2.module.function g).blocks = #[] ∧ (r.2.module.function g).layout = [] := by
        intro g hg
        simp only [hr, IR.Module.function, Array.getD_eq_getD_getElem?, Array.getElem?_push]
        split
        · exact ⟨rfl, rfl⟩
        · rw [Array.getElem?_eq_none hg]
          exact ⟨rfl, rfl⟩
      have hlookup : ∀ name' id', b.function? name' = some id' →
          r.2.function? name' = some id' := by
        intro name' id' h
        have hne : (name' == name) = false := beq_eq_false_iff_ne.mpr fun heq => by
          rw [heq, hname] at h
          cases h
        have hlookup : b.declared.lookup name' = some id' := h
        simp [hr, IR.Builder.function?, List.lookup_cons, hne, hlookup]
      have hsize : r.2.module.functions.size = b.module.functions.size + 1 := by simp [hr]
      refine ⟨by simp [hr, IR.Builder.function?], hlookup, hkept, fun g hg => ?_,
        by omega, by rw [hr], by rw [hr], ⟨fun name' id' h => ?_, fun g hg => ?_⟩⟩
      · simp [IR.Function.hasBody, (hnew g hg).1]
      · simp only [hr, IR.Builder.function?, List.lookup_cons] at h
        rw [hsize]
        split at h
        · cases h
          exact Nat.lt_succ_self _
        · exact Nat.lt_succ_of_lt (hsane.declared name' id' h)
      · by_cases hlt : g < b.module.functions.size
        · rw [hkept g hlt] at hg ⊢
          exact hsane.layout g hg
        · exact (hnew g (Nat.le_of_not_lt hlt)).2

namespace IR.Builder.Declares

variable {name : String} {id : FunctionId} {builder builder' : Builder}

theorem frame (h : builder.Declares name id builder') {own : Option FunctionId} :
    Frame ctx tracked begun own builder builder' where
  declared := h.declared
  kept g _ hbody := h.kept g (IR.Module.lt_of_hasBody hbody)
  done g _ hbody hbody' := by
    by_cases hlt : g < builder.module.functions.size
    · rw [h.kept g hlt, hbody] at hbody'
      cases hbody'
    · rw [h.fresh g (Nat.le_of_not_lt hlt)] at hbody'
      cases hbody'

theorem flow (h : builder.Declares name id builder') {pending : List Nat} {c : Nat} {b : Body}
    (hflow : Flow tracked S pending c b builder) : Flow tracked S pending c b builder' := by
  have hcode := h.kept S.function hflow.at_.function_lt
  exact hflow.of_code h.sane ⟨Nat.lt_of_lt_of_le hflow.at_.function_lt h.size,
    hcode ▸ hflow.at_.block_lt, h.cursor.trans hflow.at_.cursor,
    h.block.trans hflow.at_.block⟩ hcode

end IR.Builder.Declares

/-! ## Bodies of functions -/

/-- The stage of a whole function. -/
def Stage.whole (function : FunctionId) (walk : InstanceId) (result : TypeId)
    (expected : Option TypeId) (bare : expected = some .void → result = .void)
    (records : Value × BlockRef → Prop) : Stage where
  function
  walk
  exit := ⟨function, 1⟩
  result
  expected
  bare
  watched _ := True
  records

/-- A function is done once its body is complete. -/
theorem BodyRun.finish_keeps (run : BodyRun) {c : Nat}
    (hr : Running tracked S [1] c run.before run.output) (hexit : S.exit = ⟨S.function, 1⟩)
    (hall : ∀ k, S.watched k) (hrecords : S.records = run.Returns ctx)
    (hbegun : tracked → begun run) (horiginates : Originates ctx run.output.builder run.before)
    (hbody : (flowing ctx tracked begun (some S.function)).KeepsAt run.output
      ((Lower.lowerWithin ctx run.fuel run.node).run run.before) fun r o' =>
        ∃ c', Flow tracked S [1] c' r.2 o'.builder ∧
          (r.1.isSome = true → ((S.code o'.builder).block c').Open)) :
    (flowing ctx tracked begun (some S.function)).KeepsAt run.output
      ((Lower.finish ctx (Lower.lowerWithin ctx run.fuel) run.node).run run.before) fun _ o' =>
        Done ctx tracked begun S.function o'.builder := by
  have hvalue : tracked → ∀ site, Converts ctx (Lower.lowerWithin ctx run.fuel) run.start S.result
      site → S.records site := by
    intro _ site hsite
    rw [← hr.flow.result] at hsite
    rw [hrecords]
    exact .fallThrough hsite
  refine (Lower.finish_keeps hbody hvalue hexit hall hr).recall.weaken ?_
  rintro ⟨⟨⟩, b⟩ o - hframe ⟨hfinished, hrun⟩
  refine ⟨hfinished.blocks, fun ht =>
    ⟨run, b, hbegun ht, hr.flow.function, ?_, ⟨o, hrun, rfl⟩, ?_, ?_⟩⟩
  · exact horiginates.of_declared hframe.declared
  · rw [hr.flow.function, hr.flow.result]
    exact hfinished.protocol ht
  · rw [← hrecords]
    exact hfinished.values ht

/-- A function that had no body and is done is nobody's own. -/
theorem flowing_close {α : Type} {g : FunctionId} {own : Option FunctionId} {o : Output}
    {step : Emit α} {Q : α → Output → Prop}
    (h : (flowing ctx tracked begun (some g)).KeepsAt o step fun a o' =>
      (o.builder.module.function g).hasBody = false ∧ Done ctx tracked begun g o'.builder ∧ Q a o') :
    (flowing ctx tracked begun own).KeepsAt o step Q := by
  unfold Discipline.KeepsAt at h ⊢
  cases hstep : step o with
  | error e o' =>
      rw [hstep] at h
      exact h
  | ok a o' =>
      simp only [hstep] at h ⊢
      obtain ⟨hinv, hle, hbody, hdone, hQ⟩ := h
      exact ⟨hinv, hle.close hbody hdone, hQ⟩

namespace Lower

/-- Declaring a function does not touch the current one. -/
theorem declare_keeps {pending : List Nat} {c : Nat} {b : Body} {o : Output}
    (hr : Running tracked S pending c b o) (name : String) (type : IR.FnType) :
    (flowing ctx tracked begun (some S.function)).KeepsAt o
      ((build (Build.declareFunction name type)).run b) fun r o' =>
        r.2 = b ∧ o'.builder.function? name = some r.1 ∧
          Running tracked S pending c b o' := by
  have hd := IR.Builder.declareFunction_run hr.flow.sane name type
  refine build_keeps ⟨hd.sane, hd.frame, rfl, hd.found, hd.flow hr.flow, ?_⟩
  rw [Stage.code, hd.kept S.function hr.flow.at_.function_lt]
  exact hr.isOpen

/-- Building goes on where it was before another function was completed. -/
theorem restore_keeps {pending : List Nat} {c : Nat} {b : Body} {o o' : Output}
    (hr : Running tracked S pending c b o) (hsane : o'.builder.Sane)
    (hcode : S.code o'.builder = S.code o.builder) :
    (flowing ctx tracked begun (some S.function)).KeepsAt o'
      ((build (Build.restore o.builder.position)).run b) fun r o'' =>
        r.2 = b ∧ Running tracked S pending c b o'' := by
  let resumed : Builder := { o'.builder with
    currentFunction := o.builder.currentFunction
    cursor := some (.atEnd ⟨S.function, c⟩)
    currentBlock := some ⟨S.function, c⟩ }
  have hrun : (Build.restore o.builder.position).run o'.builder = ((), resumed) := by
    simp only [Build.restore, Builder.position, hr.flow.at_.block]
    rfl
  have hbody : (o'.builder.module.function S.function).hasBody = true :=
    (congrArg _ hcode).trans hr.flow.at_.hasBody
  have hsane' : resumed.Sane := ⟨hsane.declared, hsane.layout⟩
  have hblock : c < (S.code o'.builder).blocks.size := by
    rw [hcode]
    exact hr.flow.at_.block_lt
  have hflow : Flow tracked S pending c b resumed :=
    hr.flow.of_code hsane' ⟨IR.Module.lt_of_hasBody hbody, hblock, rfl, rfl⟩ hcode
  have hframe : Frame ctx tracked begun (some S.function) o'.builder resumed :=
    .of_others rfl fun _ _ => rfl
  refine build_keeps ?_
  simp only [hrun]
  refine ⟨hsane', hframe, trivial, hflow, ?_⟩
  show ((S.code o'.builder).block c).Open
  rw [hcode]
  exact hr.isOpen

section Lambda

variable {lower : Generator} {walk : InstanceId} {body : NodeId}

/-- The body of a lambda: parameters and captured values become locals before its code begins. -/
theorem lambdaBody_keeps {struct : IR.Ty} {params : List (NodeId × TypeId)}
    {captures : List (String × TypeId)} {b : Body} {o : Output}
    (hfinish : ∀ b' o', Frame ctx tracked begun (some S.function) o.builder o'.builder →
      Running tracked S [1] 0 b' o' →
      (flowing ctx tracked begun (some S.function)).KeepsAt o' ((finish ctx lower body).run b')
        fun _ u => Done ctx tracked begun S.function u.builder)
    (hr : Running tracked S [1] 0 b o) :
    (flowing ctx tracked begun (some S.function)).KeepsAt o
      ((lambdaBody ctx lower struct params captures body).run b)
      fun _ u => Done ctx tracked begun S.function u.builder := by
  refine get_bind_keeps ?_
  rw [hr.flow.function]
  refine bind_keeps ((Straight.build (.setParamName 0 "closure")).keeps hr) ?_
  rintro _ b₁ o₁ - hle₁ hr
  refine bind_keeps (Straight.getOutput.keeps hr) ?_
  rintro _ b₂ o₂ - hle₂ hr
  refine bind_keeps (Straight.keeps (.forM fun item => ?_) hr) ?_
  · obtain ⟨⟨param, t⟩, index⟩ := item
    dsimp only
    split
    · exact bindParam_straight ctx _ _ _
    · exact bindParam_straight ctx _ _ _
    · exact .broken _
  rintro _ b₃ o₃ - hle₃ hr
  refine bind_keeps (Straight.keeps (.forM fun item => ?_) hr) ?_
  · refine (Straight.lift (Emit.valueType_lays _).quiet).bind fun type => ?_
    refine (Straight.build ?_).bind fun value => bindLocal_straight ctx _ _ _
    exact (IR.KeepsStraight.structField _ _ _ _).bind fun _ => .load _ _ _
  rintro _ b₄ o₄ - hle₄ hr
  exact hfinish b₄ o₄ (Frame.trans hle₁ (Frame.trans hle₂ (Frame.trans hle₃ hle₄))) hr

/-- The code of the lambda's body completes the function of the lambda, wherever it begins. -/
def Finishes (ctx : LoweringContext) (tracked : Prop) (begun : BodyRun → Prop) (walk : InstanceId)
    (lower : Generator) (node body : NodeId) : Prop :=
  ∀ t paramTypes result captureTypes, ctx.recordedType walk node = .ok t →
    ctx.pool.view t = .closure paramTypes result captureTypes →
    ∀ (number : Nat) S b o, S.exit = ⟨S.function, 1⟩ → (∀ k, S.watched k) → S.walk = walk →
      S.expected = none → (∀ site, ¬ S.records site) →
      ctx.pool.resolveStrict result = .ok S.result →
      o.builder.function? s!"_Tc_lambda.{number}" = some S.function →
      Running tracked S [1] 0 b o →
      (flowing ctx tracked begun (some S.function)).KeepsAt o ((finish ctx lower body).run b)
        fun _ o' => Done ctx tracked begun S.function o'.builder

/-- The function of a lambda is done when the enclosing body goes on. -/
theorem lambdaFunction_keeps {own : Option FunctionId} {node : NodeId} {t result : TypeId}
    {paramTypes captureTypes : List TypeId} {number : Nat} {g : FunctionId} {struct : IR.Ty}
    {params : List (NodeId × TypeId)} {captures : List (String × TypeId)}
    (hfinish : Finishes ctx tracked begun walk lower node body)
    (htype : ctx.recordedType walk node = .ok t)
    (hview : ctx.pool.view t = .closure paramTypes result captureTypes) {o : Output}
    (hsane : o.builder.Sane) (hname : o.builder.function? s!"_Tc_lambda.{number}" = some g) :
    (flowing ctx tracked begun own).KeepsAt o (do
      let inner ← start ctx g walk none s!"_Tc_lambda.{number}" result
      (lambdaBody ctx lower struct params captures body).run inner)
      fun _ o' => (o.builder.module.function g).hasBody = false ∧ o'.builder.Sane ∧
        Frame ctx tracked begun (some g) o.builder o'.builder := by
  refine flowing_close (g := g) ?_
  refine .bind (start_keeps hsane (hsane.declared _ _ hname)) ?_
  rintro inner o₁ - hframe₁ ⟨hnone, hresolved, hstage⟩
  let S := Stage.whole g walk inner.result none (fun h => by cases h) fun _ => False
  have hr : Running tracked S [1] 0 inner o₁ := hstage S rfl rfl rfl rfl
  refine (lambdaBody_keeps (S := S) (fun b o' hframe hr => ?_) hr).weaken ?_
  · exact hfinish t paramTypes result captureTypes htype hview number S b o' rfl (fun _ => True.intro)
      rfl rfl (fun _ h => h) hresolved (hframe.declared _ _ (hframe₁.declared _ _ hname)) hr
  · rintro ⟨_, b⟩ o₂ hsane₂ hframe₂ hdone
    exact ⟨hnone, hdone, hnone, hsane₂, Frame.trans hframe₁ hframe₂⟩

/-- A lambda is a closure of a function of its own. -/
theorem lowerLambda_flows {node : NodeId} {params : List NodeId} {captures : List String}
    (hfinish : Finishes ctx tracked begun S.walk lower node body) :
    RunsOn ctx tracked begun S (lowerLambda ctx lower node params captures body) := by
  intro pending c b o hr
  refine bind_keeps (typeOf_keeps hr node) ?_
  rintro t _ _ - - ⟨htype, rfl, rfl⟩
  rw [hr.flow.walk] at htype
  split
  · next paramTypes result captureTypes hview =>
      refine bind_keeps (Straight.keeps (.lift (Emit.layout_lays t).quiet) hr) ?_
      rintro struct b o - - hr
      refine bind_keeps (Straight.keeps (.lift (Emit.closureFnType_lays _ _).quiet) hr) ?_
      rintro type b o - - hr
      have hnext : (flowing ctx tracked begun (some S.function)).KeepsAt o (nextLambdaName.run b)
          fun r o' => (∃ number : Nat, r = (s!"_Tc_lambda.{number}", b)) ∧
            Running tracked S pending c b o' :=
        .of_ok rfl hr.flow.sane (.refl _) ⟨⟨o.nextLambda, rfl⟩, hr.flow, hr.isOpen⟩
      refine bind_keeps hnext ?_
      rintro _ _ o - - ⟨⟨number, heq⟩, hr⟩
      cases heq
      refine bind_keeps (declare_keeps hr _ type) ?_
      rintro g b o - - ⟨rfl, hname, hr⟩
      refine bind_keeps (P := fun r o' => r = (o, b) ∧ o' = o)
        (.of_ok rfl hr.flow.sane (.refl _) ⟨rfl, rfl⟩) ?_
      rintro _ _ o - - ⟨heq, rfl⟩
      cases heq
      refine get_bind_keeps ?_
      rw [hr.flow.walk]
      refine lift_bind_keeps (lambdaFunction_keeps hfinish htype hview hr.flow.sane hname) ?_
      rintro _ o' - - ⟨hnone, hsane, hframe⟩
      have hown : some g ≠ some S.function := fun heq => by
        rw [Option.some.inj heq, hr.flow.at_.hasBody] at hnone
        cases hnone
      refine bind_keeps (restore_keeps hr hsane
        (hframe.kept S.function hown hr.flow.at_.hasBody)) ?_
      rintro _ b o - - ⟨rfl, hr⟩
      refine (show RunsOn ctx tracked begun S _ from .of_straight ?_) pending c b o hr
      refine (allocate_straight _ _ _).bind fun object => ?_
      refine (Straight.build ?_).bind fun _ => ?_
      · exact (IR.KeepsStraight.structField _ _ _ _).bind fun _ => .store _ _
      refine Straight.bind (.forM fun item => ?_) fun _ => .pure _
      refine (loadLocal_straight _).bind fun value => .build ?_
      exact (IR.KeepsStraight.structField _ _ _ _).bind fun _ => .store _ _
  · exact .of_error rfl ⟨hr.flow.sane, fun path h => by cases h⟩

end Lambda

/-! ## The induction -/

/-- A node, from what is known of its parts. -/
theorem lowerNode_flows {lower : Generator} (hlower : Lowers ctx tracked begun S lower)
    {node : NodeId} (hnode : Fits ctx tracked S node)
    (hrecords : tracked → ∀ value, ctx.tree.node node = .ret (some value) → ∀ b o site,
      Converts ctx lower ⟨value, b, o⟩ S.result site → S.records site)
    (hlambda : ∀ params captures body, ctx.tree.node node = .lambda params captures body →
      Finishes ctx tracked begun S.walk lower node body) :
    Flows ctx tracked begun S (fun value => value.isSome = true) (lowerNode ctx lower node) := by
  have hvalue : ∀ {step : Lower Value}, RunsOn ctx tracked begun S step →
      Flows ctx tracked begun S (fun value => value.isSome = true) (do return some (← step)) :=
    fun h => h.bind fun _ => .pure _
  have hparts : ∀ part ∈ ctx.tree.inlineParts node, Fits ctx tracked S part :=
    fun part hpart ht => (hnode ht).part hpart
  unfold SyntaxTree.inlineParts at hparts
  unfold lowerNode
  cases hkind : ctx.tree.node node with
  | seq statements =>
      rw [hkind] at hparts
      exact lowerSeq_flows hlower hparts
  | number n => exact .ite (.pure _) (.mismatch _)
  | bool b => exact .pure _
  | text s => exact hvalue (.of_straight (.lift (Emit.stringLiteral_lays _).quiet))
  | ident name => exact hvalue (.of_straight (lowerIdent_straight ctx _ _))
  | ivar name => exact hvalue (.of_straight (lowerIvar_straight ctx _))
  | selfRef => exact hvalue (.of_straight receiver_straight)
  | typed | varargs | namedType | pointerType | templatedType | closureType => exact .pure _
  | methodDef | methodDec | classDef | dataDef | caseDef | ivarDecl | traitDef | inclusion
  | importModule | package => exact .mismatch _
  | var name type value =>
      rw [hkind] at hparts
      exact hvalue (lowerVar_flows hlower (hparts value (by simp)))
  | assign target value =>
      rw [hkind] at hparts
      exact hvalue (lowerAssign_flows hlower (hparts value (by simp)))
  | call receiver method args =>
      rw [hkind] at hparts
      exact (lowerCall_flows hlower
        (fun object hobject => hparts object (by simp [Option.mem_def.mp hobject]))
        fun arg harg => hparts arg (by simp [harg])).weaken
  | namedArg name value =>
      rw [hkind] at hparts
      exact hlower value (hparts value (by simp))
  | templatedInstance name typeArgs args =>
      rw [hkind] at hparts
      exact hvalue (lowerConstruction_flows hlower hparts)
  | binary op lhs rhs =>
      rw [hkind] at hparts
      exact hvalue (lowerBinary_flows hlower (hparts lhs (by simp)) (hparts rhs (by simp)))
  | unary op operand =>
      rw [hkind] at hparts
      exact hvalue (lowerUnary_flows hlower (hparts operand (by simp)))
  | branch cond yes no =>
      rw [hkind] at hparts
      exact (lowerBranch_flows hlower (hparts cond (by simp)) (hparts yes (by simp))
        fun no' hno => hparts no' (by simp [Option.mem_def.mp hno])).valueless
  | loop cond body =>
      rw [hkind] at hparts
      exact (lowerLoop_flows hlower (hparts cond (by simp)) (hparts body (by simp))).valueless
  | select cond arms =>
      rw [hkind] at hparts
      refine (lowerSelect_flows hlower (hparts cond (by simp)) ?_).valueless
      intro arm harm matched body hbody
      exact hparts body (List.mem_cons_of_mem _ (List.mem_filterMap.mpr ⟨arm, harm, by simp [hbody]⟩))
  | arm | pattern => exact .broken _
  | ret value =>
      rw [hkind] at hparts
      refine (lowerReturn_flows hlower ?_ (fun v hv => hparts v (by simp [Option.mem_def.mp hv]))
        ?_).valueless
      · rintro rfl ht
        exact S.bare ((hnode ht).bare hkind)
      · rintro ht value' hvalue' b o site
        exact hrecords ht value' (by rw [hkind, Option.mem_def.mp hvalue']) b o site
  | lambda params captures body =>
      exact hvalue (lowerLambda_flows (hlambda params captures body hkind))

/-- Generating at the place is part of a run that has begun, and the stage is one of it. -/
def PartOfRun (ctx : LoweringContext) (begun : BodyRun → Prop) (S : Stage) (fuel : Nat)
    (place : CodePlace) : Prop :=
  ∃ run : BodyRun, begun run ∧ run.Reaches ctx fuel place ∧
    run.before.function = S.function ∧ run.before.result = S.result ∧
      ∀ site, run.Returns ctx site → S.records site

theorem PartOfRun.part {fuel : Nat} {place next : CodePlace} (h : PartOfRun ctx begun S (fuel + 1) place)
    (hnext : ctx.Visits fuel place next) : PartOfRun ctx begun S fuel next := by
  obtain ⟨run, hbegun, hreaches, h⟩ := h
  exact ⟨run, hbegun, hreaches.part hnext, h⟩

/-- With the given nesting, generating in a run that has begun keeps the flow. -/
def LowersWithin (ctx : LoweringContext) (tracked : Prop) (begun : BodyRun → Prop) (fuel : Nat) :
    Prop :=
  ∀ S node, Fits ctx tracked S node → ∀ pending c b o, Running tracked S pending c b o →
    (tracked → PartOfRun ctx begun S fuel ⟨node, b, o⟩) →
    (flowing ctx tracked begun (some S.function)).KeepsAt o ((lowerWithin ctx fuel node).run b)
      fun r o' => ∃ c', Flow tracked S pending c' r.2 o'.builder ∧
        (r.1.isSome = true → ((S.code o'.builder).block c').Open)

section Induction

variable {fuel : Nat} (hlowers : LowersWithin ctx tracked begun fuel) {node : NodeId} {b : Body}
  {o : Output}

include hlowers

/-- The parts that a run comes to. -/
theorem lowers_onlyVisited (hbelongs : tracked → PartOfRun ctx begun S (fuel + 1) ⟨node, b, o⟩) :
    Lowers ctx tracked begun S (Emit.onlyVisited
      (fun lower => (lowerNode ctx lower node).run b) (lowerWithin ctx fuel) o) := by
  intro part hfits pending c b' o' hr
  by_cases hvisits : ctx.Visits fuel ⟨node, b, o⟩ ⟨part, b', o'⟩
  · refine .of_later _ (Emit.onlyVisited_of_visits hvisits) (.refl _) ?_
    exact hlowers S part hfits pending c b' o' hr fun ht => (hbelongs ht).part hvisits
  · exact .of_error (Emit.onlyVisited_of_not_visits hvisits)
      ⟨hr.flow.sane, fun path h => by cases h⟩

/-- The body of a lambda, if the run comes to it. -/
theorem finishes_onlyVisited
    (hencloses : tracked → ∀ outer run, begun outer → outer.Encloses ctx run → begun run)
    {walk : InstanceId} (hwalk : b.walk = walk)
    (hbelongs : tracked → PartOfRun ctx begun S (fuel + 1) ⟨node, b, o⟩) {params : List NodeId}
    {captures : List String} {body : NodeId}
    (hnode : ctx.tree.node node = .lambda params captures body)
    (hfits : tracked → ctx.tree.ReturnsFit none body) :
    Finishes ctx tracked begun walk (Emit.onlyVisited
      (fun lower => (lowerNode ctx lower node).run b) (lowerWithin ctx fuel) o) node body := by
  intro t paramTypes result captureTypes htype hview number S' b' o' hexit hall hwalk' hexpected
    hrecords hresult hname hr
  by_cases hvisits : ctx.Visits fuel ⟨node, b, o⟩ ⟨body, b', o'⟩
  · let run : BodyRun := ⟨fuel, body, b', o'⟩
    have hbegun : tracked → begun run := by
      intro ht
      obtain ⟨outer, houter, hreaches, -⟩ := hbelongs ht
      exact hencloses ht outer run houter (.lambda hreaches hnode hvisits (hwalk ▸ htype) hview
        (by rw [hr.flow.result]; exact hresult))
    let S'' : Stage := { S' with records := run.Returns ctx }
    have hr' : Running tracked S'' [1] 0 b' o' :=
      ⟨hr.flow.restage S'.expected S'.bare fun site hsite => absurd hsite (hrecords site), hr.isOpen⟩
    refine .of_later _ (finish_run_congr (Emit.onlyVisited_of_visits hvisits)) (.refl _) ?_
    refine run.finish_keeps (S := S'') hr' hexit hall rfl hbegun
      (.inr ⟨number, by rw [hr.flow.function]; exact hname⟩) ?_
    exact hlowers S'' body (fun ht => hexpected ▸ hfits ht) [1] 0 b' o' hr' fun ht =>
      ⟨run, hbegun ht, .code, hr.flow.function, hr.flow.result, fun _ h => h⟩
  · exact bind_keeps (P := fun _ _ => False) (.of_error (Emit.onlyVisited_of_not_visits hvisits)
      ⟨hr.flow.sane, fun path h => by cases h⟩) fun _ _ _ _ _ h => h.elim

omit hlowers in
/-- Generating keeps the flow, however deep nodes nest. -/
theorem lowerWithin_flows
    (hencloses : tracked → ∀ outer run, begun outer → outer.Encloses ctx run → begun run)
    (fuel : Nat) : LowersWithin ctx tracked begun fuel := by
  induction fuel with
  | zero =>
      intro S node _ pending c b o hr _
      exact .of_error rfl ⟨hr.flow.sane, fun path h => by cases h⟩
  | succ fuel ih =>
      intro S node hnode pending c b o hr hbelongs
      -- parts are generated only at the places that the run visits
      refine .of_later _ ((lowerNode_determined ctx node b).run_onlyVisited).symm (.refl _) ?_
      refine lowerNode_flows (lowers_onlyVisited ih hbelongs) hnode ?_ ?_ pending c b o hr
      · intro ht value hkind b' o' site hconverts
        obtain ⟨run, hbegun, hreaches, hfunction, hresult, hrecords⟩ := hbelongs ht
        have hvisits : ctx.Visits fuel ⟨node, b, o⟩ ⟨value, b', o'⟩ := by
          obtain ⟨_, _, _, _, _, _, -, hrun, -⟩ := hconverts
          exact Emit.visits_of_onlyVisited hrun
        refine hrecords site (.ret hreaches (hr.flow.function.trans hfunction.symm) hkind hvisits ?_)
        rw [hresult]
        exact hconverts.congr (Emit.onlyVisited_of_visits hvisits)
      · intro params captures body hkind
        exact finishes_onlyVisited ih hencloses hr.flow.walk hbelongs hkind fun ht =>
          (hnode ht).lambda hkind

end Induction

end Lower

end ClassLang
