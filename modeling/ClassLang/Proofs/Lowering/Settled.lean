import ClassLang.Proofs.Lowering.FlowBelow
import ClassLang.Proofs.Lowering.InitializationSteps
import ClassLang.Proofs.Lowering.Storage

/-!
# Names that are settled

A local is settled at a place of its function if its slot is written on every path there, so that
it can be read. The accounts of the blocks make this precise: `Body.Settled`. Generating a part of a
body takes building to another place; the slots that were written are still written there, and a
name that is not declared anew is bound to the same storage, so it is still settled.
-/

namespace ClassLang

open IR (Accounts Build Builder FunctionId KeepsCovered Ty Value)

/-! ## Places in a body -/

/-- Where building goes on in a function, with the accounts of all blocks. -/
structure Place where
  accounts : Accounts
  block : Nat

/-- The body of function `f` is under construction at the place. -/
structure Body.Stands (own : FunctionId → Prop) (walk : InstanceId) (f : FunctionId) (p : Place)
    (b : Body) (o : Output) : Prop where
  function : b.function = f
  walk : b.walk = walk
  standing : o.builder.Standing own p.accounts f p.block
  exit : b.exit = ⟨f, 1⟩
  exitAccount : p.accounts f 1 = ∅
  exitBlock : 1 < (o.builder.module.function f).blocks.size

/-- The names are those of locals that can be read, or of something that is no local. -/
def Body.Settled (f : FunctionId) (p : Place) (names : List String) (b : Body) (o : Output) :
    Prop :=
  ∀ name ∈ names, ∀ address type, b.scope.lookup name = some (.slot address type) →
    o.builder.Readable p.accounts f p.block address

/-- Building went on from one place to another: what was written is written there, and only the
names in `touched` may be bound to other storage. -/
structure Body.Moves (own : FunctionId → Prop) (walk : InstanceId) (f : FunctionId)
    (touched : List String) (p : Place) (b : Body) (o : Output) (p' : Place) (b' : Body)
    (o' : Output) : Prop where
  stands : b'.Stands own walk f p' o'
  develops : o.builder.Develops o'.builder
  accounts : o.builder.KeepsAccounts p.accounts p'.accounts
  written : o.builder.written p.accounts f p.block ⊆ o'.builder.written p'.accounts f p'.block
  scope : ∀ name, name ∉ touched → b'.scope.lookup name = b.scope.lookup name

/-- The names that are not touched. -/
def untouched (names touched : List String) : List String :=
  names.filter fun name => name ∉ touched

variable {own : FunctionId → Prop} {walk : InstanceId} {f : FunctionId}
  {touched touched' names names' gains gains' : List String} {p p' p'' : Place}
  {b b' b'' : Body} {o o' o'' : Output}

theorem mem_untouched {name : String} : name ∈ untouched names touched ↔
    name ∈ names ∧ name ∉ touched := by
  simp [untouched]

theorem untouched_nil (names : List String) : untouched names [] = names := by
  simp [untouched]

theorem Body.Settled.mono (h : b.Settled f p names o) (hsub : names' ⊆ names) :
    b.Settled f p names' o :=
  fun name hname => h name (hsub hname)

theorem Body.Settled.append (h : b.Settled f p names o) (h' : b.Settled f p names' o) :
    b.Settled f p (names ++ names') o :=
  fun name hname => (List.mem_append.mp hname).elim (h name) (h' name)

namespace Body.Moves

theorem trans (h : Moves own walk f touched p b o p' b' o')
    (h' : Moves own walk f touched' p' b' o' p'' b'' o'') :
    Moves own walk f (touched ++ touched') p b o p'' b'' o'' where
  stands := h'.stands
  develops := h.develops.trans h'.develops
  accounts g k hk := by
    rw [h'.accounts g k (Nat.lt_of_lt_of_le hk (h.develops g).blocks), h.accounts g k hk]
  written := h.written.trans h'.written
  scope name hname := by
    rw [List.mem_append, not_or] at hname
    rw [h'.scope name hname.2, h.scope name hname.1]

theorem mono (h : Moves own walk f touched p b o p' b' o') (hsub : touched ⊆ touched') :
    Moves own walk f touched' p b o p' b' o' :=
  { h with scope := fun name hname => h.scope name fun hmem => hname (hsub hmem) }

/-- Names that are not touched stay settled. -/
theorem settled (h : Moves own walk f touched p b o p' b' o') (hsettled : b.Settled f p names o) :
    b'.Settled f p' (untouched names touched) o' := by
  intro name hname address type hlookup
  obtain ⟨hname, hnot⟩ := mem_untouched.mp hname
  rw [h.scope name hnot] at hlookup
  exact (hsettled name hname address type hlookup).moved h.develops h.written

/-- Building on without leaving the block or binding names, with accounts for new blocks. -/
theorem stay {accounts' : Accounts} (h : b.Stands own walk f p o)
    (hstanding : o'.builder.Standing own accounts' f p.block)
    (hdevelops : o.builder.Develops o'.builder)
    (haccounts : o.builder.KeepsAccounts p.accounts accounts') :
    Moves own walk f [] p b o ⟨accounts', p.block⟩ b o' where
  stands := { h with
    standing := hstanding
    exitAccount := (haccounts f 1 h.exitBlock).trans h.exitAccount
    exitBlock := Nat.lt_of_lt_of_le h.exitBlock (hdevelops f).blocks }
  develops := hdevelops
  accounts := haccounts
  written := hdevelops.written_subset haccounts h.standing.at_.block_lt
  scope _ _ := rfl

theorem of_stands (h : b.Stands own walk f p o) (hstanding : o'.builder.Standing own p.accounts f
    p.block) (hdevelops : o.builder.Develops o'.builder) : Moves own walk f [] p b o p b o' :=
  stay h hstanding hdevelops fun _ _ _ => rfl

/-- A name is bound to some storage. -/
theorem bind (h : b.Stands own walk f p o) (name : String) (storage : Storage) :
    Moves own walk f [name] p b o p { b with scope := (name, storage) :: b.scope } o where
  stands := { h with }
  develops := .refl _
  accounts _ _ _ := rfl
  written := fun _ h => h
  scope other hother := by
    rw [List.lookup_cons, beq_eq_false_iff_ne.mpr fun heq => hother (by simp [heq])]

end Body.Moves

/-! ## Steps of generating a body -/

variable {α β : Type}

/-- Steps of which only successful runs count. -/
abbrev succeeding : Discipline Halt Output := .onSuccess Halt Output

/-- The step leads from a place where `names` are settled to one where `gains` are, and binds no
names but those in `touched`. -/
def Lower.Settles (own : FunctionId → Prop) (walk : InstanceId) (f : FunctionId)
    (names gains touched : List String) (step : Lower α) : Prop :=
  ∀ p b o, b.Stands own walk f p o → b.Settled f p names o →
    succeeding.KeepsAt o (step.run b) fun r o' =>
      ∃ p', Body.Moves own walk f touched p b o p' r.2 o' ∧ r.2.Settled f p' gains o'

/-- The step stays in its block and leaves the body as it is. -/
def Lower.Plain (own : FunctionId → Prop) (walk : InstanceId) (f : FunctionId) (step : Lower α) :
    Prop :=
  ∀ p b o, b.Stands own walk f p o →
    succeeding.KeepsAt o (step.run b) fun r o' =>
      r.2 = b ∧ o'.builder.Standing own p.accounts f p.block ∧ o.builder.Develops o'.builder

namespace Lower

namespace Plain

theorem pure (a : α) : Plain own walk f (Pure.pure a) :=
  fun _ _ _ h => .pure True.intro ⟨rfl, h.standing, .refl _⟩

theorem bind {step : Lower α} {next : α → Lower β} (h : Plain own walk f step)
    (hnext : ∀ a, Plain own walk f (next a)) : Plain own walk f (step >>= next) := by
  intro p b o hb
  refine bind_keeps (h p b o hb) ?_
  rintro a _ o' - - ⟨rfl, hstanding, hdevelops⟩
  have hmoves := Body.Moves.of_stands hb hstanding hdevelops
  refine (hnext a p _ o' hmoves.stands).weaken fun _ _ _ _ hr => ?_
  exact ⟨hr.1, hr.2.1, hdevelops.trans hr.2.2⟩

/-- A step of generating that does not look at the body. -/
theorem lift {step : Emit α} (h : Emit.Quiet step) : Plain own walk f (liftM step) := by
  intro p b o hb
  have hrun := (h o hb.standing.covered.sane).succeeds
  refine .bind hrun fun a u _ _ hu => .pure True.intro ⟨rfl, ?_⟩
  exact hb.standing.quiet hu.2.1

theorem build {step : Build α} (h : KeepsCovered own f step) :
    Plain own walk f (Lower.build step) := by
  intro p b o hb
  obtain ⟨hstanding, hdevelops, -⟩ := h p.accounts p.block o.builder hb.standing
  exact .of_ok rfl True.intro True.intro ⟨rfl, hstanding, hdevelops⟩

/-- Reading the body tells the function and the walk. -/
theorem get_bind {next : Body → Lower α}
    (h : ∀ b : Body, b.function = f → b.walk = walk → Plain own walk f (next b)) :
    Plain own walk f (get >>= next) :=
  fun p b o hb => h b hb.function hb.walk p b o hb

theorem getOutput : Plain own walk f (getThe Output : Lower Output) :=
  lift Emit.Quiet.get

theorem mismatch (text : String) : Plain own walk f (Lower.mismatch text : Lower α) :=
  lift (.fail (by simp))

theorem broken (text : String) : Plain own walk f (Lower.broken text : Lower α) :=
  lift (.broken text)

theorem ite {c : Prop} [Decidable c] {yes no : Lower α} (hyes : Plain own walk f yes)
    (hno : Plain own walk f no) : Plain own walk f (if c then yes else no) := by
  split
  · exact hyes
  · exact hno

theorem mapM {items : List β} {body : β → Lower α} (h : ∀ item, Plain own walk f (body item)) :
    Plain own walk f (items.mapM body) := by
  induction items with
  | nil => exact pure _
  | cons item items ih =>
      rw [List.mapM_cons]
      exact (h item).bind fun _ => ih.bind fun _ => pure _

/-- Names that are settled stay settled. -/
theorem settles {step : Lower α} (h : Plain own walk f step) :
    Settles own walk f names names [] step := by
  intro p b o hb hsettled
  refine (h p b o hb).weaken ?_
  rintro ⟨a, _⟩ o' - - ⟨rfl, hstanding, hdevelops⟩
  have hmoves := Body.Moves.of_stands hb hstanding hdevelops
  refine ⟨p, hmoves, ?_⟩
  rw [← untouched_nil names]
  exact hmoves.settled hsettled

end Plain

namespace Settles

/-- Less is asked for, and more names may be touched. -/
theorem weaken {step : Lower α} (h : Settles own walk f names gains touched step)
    (hgains : gains' ⊆ gains) (htouched : touched ⊆ touched') :
    Settles own walk f names gains' touched' step := by
  intro p b o hb hsettled
  refine (h p b o hb hsettled).weaken ?_
  rintro r o' - - ⟨p', hmoves, hgained⟩
  exact ⟨p', hmoves.mono htouched, hgained.mono hgains⟩

/-- After the first step the names it gains are settled, and those that it does not touch. -/
theorem bind {step : Lower α} {next : α → Lower β} (h : Settles own walk f names gains touched step)
    (hnext : ∀ a, Settles own walk f (gains ++ untouched names touched) gains' touched' (next a)) :
    Settles own walk f names gains' (touched ++ touched') (step >>= next) := by
  intro p b o hb hsettled
  refine bind_keeps (h p b o hb hsettled) ?_
  rintro a b' o' - - ⟨p', hmoves, hgained⟩
  refine (hnext a p' b' o' hmoves.stands (hgained.append (hmoves.settled hsettled))).weaken ?_
  rintro r o'' - - ⟨p'', hmoves', hgained'⟩
  exact ⟨p'', hmoves.trans hmoves', hgained'⟩

/-- More names may be settled before. -/
theorem given {step : Lower α} (h : Settles own walk f names gains touched step)
    (hsub : names ⊆ names') : Settles own walk f names' gains touched step :=
  fun p b o hb hsettled => h p b o hb (hsettled.mono hsub)

/-- After a step that binds nothing the same names are settled. -/
theorem bind_settled {step : Lower α} {next : α → Lower β}
    (h : Settles own walk f names names [] step)
    (hnext : ∀ a, Settles own walk f names gains touched (next a)) :
    Settles own walk f names gains touched (step >>= next) :=
  h.bind fun a => (hnext a).given (List.subset_append_left _ _)

theorem after_plain {step : Lower α} {next : α → Lower β} (h : Plain own walk f step)
    (hnext : ∀ a, Settles own walk f names gains touched (next a)) :
    Settles own walk f names gains touched (step >>= next) :=
  h.settles.bind_settled hnext

/-- A step at the end that binds nothing. -/
theorem then_settled {step : Lower α} {next : α → Lower β}
    (h : Settles own walk f names gains touched step)
    (hnext : ∀ a names, Settles own walk f names names [] (next a)) :
    Settles own walk f names gains touched (step >>= next) := by
  rw [← List.append_nil touched]
  exact h.bind fun a => (hnext a _).weaken (List.subset_append_left _ _) (by simp)

theorem then_plain {step : Lower α} {next : α → Lower β}
    (h : Settles own walk f names gains touched step) (hnext : ∀ a, Plain own walk f (next a)) :
    Settles own walk f names gains touched (step >>= next) :=
  h.then_settled fun a _ => (hnext a).settles

/-- More names may be touched. -/
theorem touches {step : Lower α} (h : Settles own walk f names gains touched step)
    (hsub : touched ⊆ touched') : Settles own walk f names gains touched' step :=
  h.weaken (List.Subset.refl _) hsub

/-- Nothing is asked for. -/
theorem forget {step : Lower α} (h : Settles own walk f names gains touched step) :
    Settles own walk f names [] touched step :=
  h.weaken (List.nil_subset _) (List.Subset.refl _)

/-- A change of the body that binds nothing. -/
theorem update {change : Body → Body} (h : ∀ b : Body, (change b).function = b.function ∧
      (change b).walk = b.walk ∧ (change b).exit = b.exit ∧ (change b).scope = b.scope) :
    Settles own walk f names names [] (modify change : Lower PUnit) := by
  intro p b o hb hsettled
  obtain ⟨hfunction, hwalk, hexit, hscope⟩ := h b
  refine .of_ok rfl True.intro True.intro ⟨p, ⟨⟨?_, ?_, hb.standing, ?_, hb.exitAccount,
    hb.exitBlock⟩, .refl _, fun _ _ _ => rfl, fun _ h => h, fun name _ => ?_⟩, ?_⟩
  · exact hfunction.trans hb.function
  · exact hwalk.trans hb.walk
  · exact hexit.trans hb.exit
  · exact congrArg _ hscope
  · intro name hname address type hlookup
    exact hsettled name hname address type (hscope ▸ hlookup)

/-- Reading the body tells the function and the walk. -/
theorem get_bind {next : Body → Lower α} (h : ∀ b : Body, b.function = f → b.walk = walk →
      Settles own walk f names gains touched (next b)) :
    Settles own walk f names gains touched (get >>= next) :=
  fun p b o hb hsettled => h b hb.function hb.walk p b o hb hsettled

theorem ite {c : Prop} [Decidable c] {yes no : Lower α}
    (hyes : Settles own walk f names gains touched yes)
    (hno : Settles own walk f names gains touched no) :
    Settles own walk f names gains touched (if c then yes else no) := by
  split
  · exact hyes
  · exact hno

/-- Nothing is asked of a step that fails. -/
theorem fails {step : Lower α} (h : ∀ b o, ∃ e o', step.run b o = .error e o') :
    Settles own walk f names gains touched step := by
  intro p b o _ _
  obtain ⟨e, o', hrun⟩ := h b o
  exact .of_error hrun True.intro

theorem mismatch {text : String} :
    Settles own walk f names gains touched (Lower.mismatch text : Lower α) :=
  fails fun _ o => ⟨_, o, rfl⟩

theorem broken {text : String} :
    Settles own walk f names gains touched (Lower.broken text : Lower α) :=
  fails fun _ o => ⟨_, o, rfl⟩

theorem broken_bind {text : String} {next : α → Lower β} :
    Settles own walk f names gains touched ((Lower.broken text : Lower α) >>= next) :=
  fails fun _ o => ⟨_, o, rfl⟩

theorem pure_bind {a : α} {next : α → Lower β}
    (h : Settles own walk f names gains touched (next a)) :
    Settles own walk f names gains touched (Pure.pure a >>= next) :=
  fun p b o hb hsettled => h p b o hb hsettled

/-- A loop each round of which reads names that are settled. -/
theorem forM {items : List β} {body : β → Lower PUnit}
    (h : ∀ item ∈ items, Settles own walk f names names [] (body item)) :
    Settles own walk f names names [] (items.forM body) := by
  induction items with
  | nil => exact (Plain.pure _).settles
  | cons item items ih =>
      exact (h item (by simp)).bind_settled fun _ => ih fun i hi => h i (List.mem_cons_of_mem _ hi)

/-- Two steps that bind names. A name that both bind is settled by the second. -/
theorem bind_binds {step : Lower α} {next : α → Lower β} {bound bound' : List String}
    (h : Settles own walk f names bound bound step)
    (hnext : ∀ a names, Settles own walk f names bound' bound' (next a)) :
    Settles own walk f names (bound ++ bound') (bound ++ bound') (step >>= next) := by
  intro p b o hb hsettled
  refine bind_keeps (h p b o hb hsettled) ?_
  rintro a b' o' - - ⟨p', hmoves, hbound⟩
  refine (hnext a bound p' b' o' hmoves.stands hbound).weaken ?_
  rintro r o'' - - ⟨p'', hmoves', hbound'⟩
  refine ⟨p'', hmoves.trans hmoves', fun name hname => ?_⟩
  -- a name that is bound again is settled by the later storage, others keep theirs
  by_cases hagain : name ∈ bound'
  · exact hbound' name hagain
  · have hfirst := (List.mem_append.mp hname).resolve_right hagain
    exact hmoves'.settled hbound name (mem_untouched.mpr ⟨hfirst, hagain⟩)

/-- A loop over numbered items each round of which binds names. -/
theorem forM_zipIdx_binds {items : List β} {first : Nat} {body : β × Nat → Lower PUnit}
    (binds : β → List String)
    (h : ∀ item index names, Settles own walk f names (binds item) (binds item)
      (body (item, index))) :
    Settles own walk f names (items.flatMap binds) (items.flatMap binds)
      ((items.zipIdx first).forM body) := by
  induction items generalizing first names with
  | nil => exact (Plain.pure _).settles.weaken (by simp) (by simp)
  | cons item items ih => exact (h item first names).bind_binds fun _ names => ih

end Settles

/-- Nothing is asked for after a step that binds nothing. -/
theorem Plain.settles_nil {step : Lower α} (h : Plain own walk f step) :
    Settles own walk f names [] touched step :=
  h.settles.weaken (List.nil_subset _) (List.nil_subset _)

/-! ## Locals, conversion and returning -/

variable {ctx : LoweringContext}

theorem typeOf_plain (node : NodeId) : Plain own walk f (typeOf ctx node) :=
  .get_bind fun _ _ _ => (Plain.lift (.ofExcept (TypeTable.typeOf_free _ _))).bind fun t =>
    .lift (Emit.resolve_lays t).quiet

/-- What comes after a result that may be an error. -/
theorem ofExcept_bind_keeps {step : Lower β} {r : Except CompileError β} {next : β → Lower α}
    {Q : α × Body → Output → Prop}
    (hstep : step.run b o = (liftM (Emit.ofExcept r) : Lower β).run b o)
    (hnext : ∀ a, r = .ok a → succeeding.KeepsAt o ((next a).run b) Q) :
    succeeding.KeepsAt o ((step >>= next).run b) Q := by
  cases r with
  | ok a => exact .bind_read True.intro hstep (hnext a rfl)
  | error e =>
      have hfails : succeeding.KeepsAt o (step.run b) fun _ _ => False := .of_error hstep True.intro
      exact .bind hfails fun _ _ _ _ h => h.elim

/-- A step that begins with the recorded type of a node. -/
theorem typeOf_bind_keeps {node : NodeId} {next : TypeId → Lower α} {Q : α × Body → Output → Prop}
    (hnext : ∀ t, ctx.recordedType b.walk node = .ok t →
      succeeding.KeepsAt o ((next t).run b) Q) :
    succeeding.KeepsAt o ((typeOf ctx node >>= next).run b) Q :=
  ofExcept_bind_keeps (typeOf_run node b o) hnext

theorem typeOf_settles {node : NodeId} {next : TypeId → Lower α}
    (hnext : ∀ t, ctx.recordedType walk node = .ok t →
      Settles own walk f names gains touched (next t)) :
    Settles own walk f names gains touched (typeOf ctx node >>= next) :=
  fun p b o hb hsettled => typeOf_bind_keeps fun t ht =>
    hnext t (hb.walk ▸ ht) p b o hb hsettled

/-- A step that begins with the meaning of a node. -/
theorem target_settles {node : NodeId} {next : Target → Lower α}
    (hnext : ∀ target, ctx.typed.table.target { walk, node } = .ok target →
      Settles own walk f names gains touched (next target)) :
    Settles own walk f names gains touched (target ctx node >>= next) := by
  intro p b o hb hsettled
  refine ofExcept_bind_keeps (r := ctx.typed.table.target { walk := b.walk, node }) rfl ?_
  exact fun target htarget => hnext target (hb.walk ▸ htarget) p b o hb hsettled

theorem terminated_plain : Plain own walk f terminated :=
  Plain.getOutput.bind fun _ => .pure _

/-- A name is bound to a value. -/
theorem bindFixed_settles (name : String) (value : Value) :
    Settles own walk f names [name] [name] (bind name (.fixed value)) := by
  intro p b o hb _
  refine .of_ok rfl True.intro True.intro ⟨p, .bind hb name _, fun other hother => ?_⟩
  obtain rfl := List.mem_singleton.mp hother
  simp

/-- A local is settled once it has a value. -/
theorem bindLocal_settles (name : String) (value : Value) (t : TypeId) :
    Settles own walk f names [name] [name] (bindLocal ctx name value t) := by
  refine .after_plain (.lift (Emit.valueType_lays t).quiet) fun type => .get_bind fun b hb _ => ?_
  intro p b' o hb' _
  rw [hb]
  obtain ⟨hstanding, hdevelops, hreadable⟩ :=
    hb'.standing.storeSlot (name ++ ".addr") type value
  have hmoves : Body.Moves own walk f [] p b' o p b' { o with builder := _ } :=
    .of_stands hb' hstanding hdevelops
  refine .of_ok rfl True.intro True.intro ⟨p, hmoves.trans (.bind hmoves.stands name _), ?_⟩
  intro other hother address type' hlookup
  obtain rfl := List.mem_singleton.mp hother
  rw [List.lookup_cons_self] at hlookup
  cases hlookup
  exact hreadable

theorem bindParam_settles (index : Nat) (name : String) (t : TypeId) :
    Settles own walk f names [name] [name] (bindParam ctx index name t) := by
  refine .get_bind fun b hb _ => ?_
  subst hb
  refine .after_plain (.build (.setParamName _ _)) fun _ => ?_
  exact .after_plain .getOutput fun o => bindLocal_settles _ _ _

/-- A settled name can be read. -/
theorem loadLocal_settles {name : String} (h : name ∈ names) :
    Settles own walk f names names [] (loadLocal name) := by
  intro p b o hb hsettled
  refine get_bind_keeps ?_
  split
  · exact (Plain.pure _).settles p b o hb hsettled
  · next address type hlookup =>
      obtain ⟨hstanding, hdevelops, -⟩ :=
        hb.standing.load (hsettled name h address type hlookup) type name
      have hmoves : Body.Moves own walk f [] p b o p b { o with builder := _ } :=
        .of_stands hb hstanding hdevelops
      refine .of_ok rfl True.intro True.intro ⟨p, hmoves, ?_⟩
      rw [← untouched_nil names]
      exact hmoves.settled hsettled
  · exact .of_error rfl True.intro

theorem receiver_plain : Plain own walk f receiver := by
  refine .get_bind fun b _ _ => ?_
  split
  · exact .pure _
  · exact .mismatch _

theorem allocate_plain (type : Ty) (onStack : Bool) (name : String) :
    Plain own walk f (allocate type onStack name) := by
  refine Plain.getOutput.bind fun o => .ite ?_ ?_
  · refine .get_bind fun b hb _ => ?_
    subst hb
    exact .build (.entryAlloca _ _)
  · refine (Plain.build (.call _ _ _)).bind fun result => ?_
    split
    · exact .pure _
    · exact .broken _

theorem boxDynamic_plain (value : Value) (t : TypeId) :
    Plain own walk f (boxDynamic ctx value t) := by
  refine (Plain.lift (Emit.dynamicLayout_lays t).quiet).bind fun struct => ?_
  refine (Plain.lift (Emit.layout_lays _).quiet).bind fun header => ?_
  refine (Plain.lift (Emit.runtimeType_quiet ctx t)).bind fun record => ?_
  refine (allocate_plain _ _ _).bind fun box => (Plain.build ?_).bind fun _ => .pure _
  refine (KeepsCovered.structField _ _ _ _).bind fun _ => ?_
  refine (KeepsCovered.structField _ _ _ _).bind fun _ => ?_
  refine (KeepsCovered.store _ _).bind fun _ => ?_
  exact (KeepsCovered.structField _ _ _ _).bind fun _ => .store _ _

theorem dynamicHolds_plain (box : Value) (t : TypeId) :
    Plain own walk f (dynamicHolds ctx box t) := by
  refine (Plain.lift (Emit.layout_lays _).quiet).bind fun header => ?_
  refine (Plain.lift (Emit.runtimeType_quiet ctx t)).bind fun record => .build ?_
  exact (KeepsCovered.loadField header box 0 "type.ptr" .ptr "type").bind fun held =>
    .compareOf _ _ held record _

theorem unboxDynamic_plain (box : Value) (t : TypeId) :
    Plain own walk f (unboxDynamic ctx box t) := by
  refine (Plain.lift (Emit.dynamicLayout_lays t).quiet).bind fun struct => ?_
  refine (Plain.lift (Emit.valueType_lays t).quiet).bind fun type => ?_
  exact .build (.loadField _ _ _ _ _ _)

theorem convert_plain (value : Value) (source wanted : TypeId) :
    Plain own walk f (convert ctx value source wanted) := by
  unfold convert
  split
  · exact .pure _
  · exact .build (.widen _ _ _)
  · exact .pure _
  · exact boxDynamic_plain _ _
  · exact .mismatch _

/-- Going to the exit block, which asks for nothing. -/
theorem returnVoid_plain : Plain own walk f returnVoid := by
  intro p b o hb
  have hadmits : o.builder.Admits p.accounts f p.block 1 := by
    refine ⟨hb.exitBlock, ?_⟩
    rw [hb.exitAccount]
    exact Set.empty_subset _
  obtain ⟨hstanding, hdevelops, -⟩ := hb.standing.jump hadmits
  refine get_bind_keeps ?_
  rw [hb.exit]
  exact .of_ok rfl True.intro True.intro ⟨rfl, hstanding, hdevelops⟩

theorem returnValue_settles (value : Value) (t : TypeId) :
    Settles own walk f names names [] (returnValue ctx value t) := by
  refine .get_bind fun b _ _ => .after_plain (convert_plain _ _ _) fun value => ?_
  refine .after_plain .getOutput fun o => ?_
  split
  · exact Settles.then_plain (.update fun _ => ⟨rfl, rfl, rfl, rfl⟩) fun _ => returnVoid_plain
  · exact returnVoid_plain.settles

theorem fallThrough_settles (value : Option Value) (body : NodeId) :
    Settles own walk f names names [] (fallThrough ctx value body) := by
  refine .get_bind fun b _ _ => .ite returnVoid_plain.settles ?_
  split
  · exact .after_plain (typeOf_plain _) fun t => returnValue_settles _ _
  · exact .mismatch

/-! ## Fields and patterns -/

/-- The address of an instance variable is not that of a slot. -/
theorem ivarSlot_keeps {name : String} (hb : b.Stands own walk f p o) :
    succeeding.KeepsAt o ((ivarSlot ctx name).run b) fun r o' =>
      r.2 = b ∧ o'.builder.Standing own p.accounts f p.block ∧ o.builder.Develops o'.builder ∧
        o'.builder.Readable p.accounts f p.block r.1.1 := by
  refine get_bind_keeps ?_
  dsimp only
  split
  · split
    · split
      · refine bind_keeps (Plain.lift (Emit.layout_lays _).quiet p b o hb) ?_
        rintro struct _ o₁ - - ⟨rfl, hstanding₁, hdevelops₁⟩
        have hb₁ := (Body.Moves.of_stands hb hstanding₁ hdevelops₁).stands
        refine bind_keeps (Plain.lift (Emit.valueType_lays _).quiet p _ o₁ hb₁) ?_
        rintro type _ o₂ - - ⟨rfl, hstanding₂, hdevelops₂⟩
        obtain ⟨hstanding₃, hdevelops₃, hreadable⟩ := hstanding₂.structField struct _ _ _
        exact .of_ok rfl True.intro True.intro ⟨rfl, hstanding₃,
          (hdevelops₁.trans hdevelops₂).trans hdevelops₃, hreadable⟩
      · exact .of_error rfl True.intro
    · exact .of_error rfl True.intro
  · exact .of_error rfl True.intro

theorem ivarSlot_plain (name : String) : Plain own walk f (ivarSlot ctx name) :=
  fun _ _ _ hb => (ivarSlot_keeps hb).weaken fun _ _ _ _ hr => ⟨hr.1, hr.2.1, hr.2.2.1⟩

theorem lowerIvar_plain (name : String) : Plain own walk f (lowerIvar ctx name) := by
  intro p b o hb
  refine bind_keeps (ivarSlot_keeps hb) ?_
  rintro ⟨slot, type⟩ _ o' - - ⟨rfl, hstanding, hdevelops, hreadable⟩
  obtain ⟨hstanding', hdevelops', -⟩ := hstanding.load hreadable type name
  exact .of_ok rfl True.intro True.intro ⟨rfl, hstanding', hdevelops.trans hdevelops'⟩

theorem tagMatches_plain (tag : Value) (t : TypeId) : Plain own walk f (tagMatches ctx tag t) :=
  (Plain.lift (Emit.caseParts_lays t).quiet).bind fun _ => .build (.compareOf _ _ _ _ _)

/-- A step that begins with the parts of a case. -/
theorem caseParts_settles {t : TypeId} {next : Emit.CaseParts → Lower α}
    (hnext : ∀ parts : Emit.CaseParts, parts.fields = ctx.pool.caseFields t →
      Settles own walk f names gains touched (next parts)) :
    Settles own walk f names gains touched (liftM (Emit.caseParts ctx t) >>= next) := by
  unfold Emit.caseParts
  split
  · next hview => exact .pure_bind (hnext _ (by simp [Pool.caseFields, hview]))
  · exact .broken_bind

/-- The fields of a matched case are bound to values under the names of the pattern. -/
theorem bindFields_settles (value : Value) (t : TypeId) (fields : List String) :
    Settles own walk f names ((fields.zip (ctx.pool.caseFields t)).map (·.1))
      ((fields.zip (ctx.pool.caseFields t)).map (·.1)) (bindFields ctx value t fields) := by
  refine caseParts_settles fun parts hparts => ?_
  refine .after_plain (.lift (Emit.layout_lays t).quiet) fun struct => ?_
  rw [← hparts, List.map_eq_flatMap]
  refine .forM_zipIdx_binds _ ?_
  rintro ⟨name, _, fieldType⟩ index names
  refine .after_plain (.lift (Emit.valueType_lays _).quiet) fun type => ?_
  exact .after_plain (.build (.loadField _ _ _ _ _ _)) fun loaded => bindFixed_settles _ _

theorem bindPattern_settles (value : Value) (t : TypeId) (onDynamic : Bool)
    (binder : Option String) (fields : List String) :
    Settles own walk f names (ctx.patternNames t onDynamic binder fields)
      (ctx.patternNames t onDynamic binder fields)
      (bindPattern ctx value t onDynamic binder fields) := by
  have hnothing {names : List String} : Settles own walk f names [] [] (pure () : Lower Unit) :=
    (Plain.pure _).settles.weaken (List.nil_subset _) (List.Subset.refl _)
  unfold bindPattern LoweringContext.patternNames
  dsimp only
  cases onDynamic with
  | true =>
      cases binder with
      | none => exact hnothing
      | some name => exact .after_plain (unboxDynamic_plain _ _) fun _ => bindFixed_settles _ _
  | false =>
      have hfields (names : List String) : Settles own walk f names
          ((fields.zip (ctx.pool.caseFields t)).map (·.1))
          ((fields.zip (ctx.pool.caseFields t)).map (·.1))
          (if !fields.isEmpty then bindFields ctx value t fields else pure ()) := by
        cases fields with
        | nil => exact hnothing
        | cons _ _ => exact bindFields_settles _ _ _
      have hsub : ∀ xs ys : List String, xs ++ ys ⊆ ys ++ xs := fun xs ys name hname => by
        simpa [or_comm] using hname
      simp only [Bool.false_eq_true, if_false]
      refine Settles.weaken ?_ (hsub _ _) (hsub _ _)
      cases binder with
      | none => exact hfields names
      | some name => exact (bindFixed_settles _ _).bind_binds fun _ => hfields

end Lower

end ClassLang
