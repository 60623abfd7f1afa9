import ClassLang.Proofs.Lowering.BodyRuns
import ClassLang.Proofs.Lowering.Registry
import ClassLang.Proofs.Typing.Arguments

/-!
# Names that have storage

Generated code reads a local from the storage that the function under construction has for it. The
function of a method begins with storage for its parameters, that of a lambda with storage for the
lambda's parameters and captures, and a declaration or pattern adds the names it binds.
`NodeScoped` says of a node that it only reads such names, in blocks: what a statement declares may
be read by the statements after it in its sequence. Generating a scoped node never stops because a
name has no storage.

The statements also say that generating keeps the records of runtime types. That needs no scoping,
so scoping is only asked for if the steps are meant to be `strict`.
-/

namespace ClassLang

open IR (Build KeepsShared Ty Value)

/-! ## Steps of generating a body -/

/-- The body belongs to the walk and has storage for the names. -/
structure Body.Stores (walk : InstanceId) (names : List String) (b : Body) : Prop where
  walk : b.walk = walk
  names : ∀ name ∈ names, (b.scope.lookup name).isSome

theorem Body.Stores.mono {walk : InstanceId} {names names' : List String} {b : Body}
    (h : b.Stores walk names) (hsub : names' ⊆ names) : b.Stores walk names' :=
  ⟨h.walk, fun name hname => h.names name (hsub hname)⟩

/-- Storage for one more name. -/
theorem Body.Stores.bind {walk : InstanceId} {names : List String} {b : Body}
    (h : b.Stores walk names) (name : String) (storage : Storage) :
    { b with scope := (name, storage) :: b.scope }.Stores walk (name :: names) := by
  refine ⟨h.walk, fun other hother => ?_⟩
  rw [List.lookup_cons]
  split
  · rfl
  · next hne =>
      refine h.names other ((List.mem_cons.mp hother).resolve_left fun heq => ?_)
      simp [heq] at hne

variable {strict : Prop} {walk : InstanceId} {names names' names'' : List String} {α β : Type}

/-- From a body with storage for `names` the step leads to one with storage for `names'`, keeps the
records of runtime types, and if it is strict, it does not fail for lack of storage. -/
def Lower.Scoped (strict : Prop) (walk : InstanceId) (names names' : List String)
    (step : Lower α) : Prop :=
  ∀ b : Body, b.Stores walk names → ∀ o : Output, o.Registered →
    (registering strict False).KeepsAt o (step.run b) fun r _ => r.2.Stores walk names'

namespace Lower.Scoped

theorem pure (a : α) : Scoped strict walk names names (Pure.pure a) :=
  fun _ hb _ ho => .pure ho hb

theorem bind {step : Lower α} {next : α → Lower β} (h : Scoped strict walk names names' step)
    (hnext : ∀ a, Scoped strict walk names' names'' (next a)) :
    Scoped strict walk names names'' (step >>= next) :=
  fun b hb o ho => .bind (h b hb o ho) fun r u hu _ hr => hnext r.1 r.2 hr u hu

/-- Fewer names are asked for afterwards. -/
theorem drop {step : Lower α} (h : Scoped strict walk names names' step)
    (hsub : names'' ⊆ names') : Scoped strict walk names names'' step :=
  fun b hb o ho => (h b hb o ho).weaken fun _ _ _ _ hr => hr.mono hsub

/-- A step of generating that does not look at the body. -/
theorem lift {step : Emit α} (h : Emit.Registers strict False step) :
    Scoped strict walk names names (liftM step) :=
  fun _ hb o ho => .bind (h o ho) fun _ _ hu _ _ => .pure hu hb

theorem build {step : Build α} (h : KeepsShared step) :
    Scoped strict walk names names (Lower.build step) :=
  lift (.build h.toRetains)

/-- Reading the body tells what it has storage for. -/
theorem get_bind {next : Body → Lower α}
    (h : ∀ b : Body, b.Stores walk names → Scoped strict walk names names' (next b)) :
    Scoped strict walk names names' (get >>= next) :=
  fun b hb o ho => h b hb b hb o ho

theorem getOutput : Scoped strict walk names names (getThe Output : Lower Output) :=
  lift .get

/-- A change of the body. -/
theorem update {f : Body → Body} (h : ∀ b : Body, b.Stores walk names → (f b).Stores walk names') :
    Scoped strict walk names names' (modify f : Lower PUnit) :=
  fun b hb _ ho => .of_ok rfl ho ((registering strict False).refl _) (h b hb)

theorem mismatch {text : String} :
    Scoped strict walk names names' (Lower.mismatch text : Lower α) :=
  fun _ _ _ ho => .of_error rfl ⟨fun _ => Halt.not_unstored_of_program (by simp), ho, id⟩

theorem program {e : CompileError} (h : ∀ text, e ≠ .internal text) :
    Scoped strict walk names names' (liftM (Emit.fail e : Emit α) : Lower α) :=
  fun _ _ _ ho => .of_error rfl ⟨fun _ => Halt.not_unstored_of_program h, ho, id⟩

theorem broken {text : String} (h : text.toList.head? ≠ some '\'') :
    Scoped strict walk names names' (Lower.broken text : Lower α) :=
  fun _ _ _ ho => .of_error rfl ⟨fun _ => Halt.not_unstored_of_head h, ho, id⟩

theorem brokenFor {text : String} (h : text.toList.reverse.take 5 ≠ ['n', 'o', 'i', 't', 'c']) :
    Scoped strict walk names names' (Lower.broken text : Lower α) :=
  fun _ _ _ ho => .of_error rfl ⟨fun _ => Halt.not_unstored_of_tail h, ho, id⟩

/-- There is storage for every name that a strict step reads. -/
theorem unstored {name : String} {b : Body} (hb : b.Stores walk names)
    (hname : strict → name ∈ names) (hnone : b.scope.lookup name = none) :
    Scoped strict walk names names'
      (Lower.broken s!"'{name}' has no storage in this function" : Lower α) := by
  refine fun _ _ _ ho => .of_error rfl ⟨fun hstrict => ?_, ho, id⟩
  have hsome := hb.names name (hname hstrict)
  simp [hnone] at hsome

/-- Nothing that follows a broken invariant is reached. -/
theorem broken_bind {text : String} {next : α → Lower β} (h : text.toList.head? ≠ some '\'') :
    Scoped strict walk names names' ((Lower.broken text : Lower α) >>= next) :=
  fun _ _ _ ho => .of_error rfl ⟨fun _ => Halt.not_unstored_of_head h, ho, id⟩

theorem pure_bind {a : α} {next : α → Lower β} (h : Scoped strict walk names names' (next a)) :
    Scoped strict walk names names' (Pure.pure a >>= next) :=
  fun b hb o ho => h b hb o ho

theorem ite {c : Prop} [Decidable c] {yes no : Lower α}
    (hyes : Scoped strict walk names names' yes) (hno : Scoped strict walk names names' no) :
    Scoped strict walk names names' (if c then yes else no) := by
  split
  · exact hyes
  · exact hno

theorem mapM {items : List β} {body : β → Lower α}
    (h : ∀ item ∈ items, Scoped strict walk names names (body item)) :
    Scoped strict walk names names (items.mapM body) := by
  induction items with
  | nil => exact pure _
  | cons item items ih =>
      rw [List.mapM_cons]
      refine (h item (by simp)).bind fun _ => ?_
      exact (ih fun i hi => h i (List.mem_cons_of_mem _ hi)).bind fun _ => pure _

theorem forM {items : List β} {body : β → Lower PUnit}
    (h : ∀ item ∈ items, Scoped strict walk names names (body item)) :
    Scoped strict walk names names (items.forM body) := by
  induction items with
  | nil => exact pure _
  | cons item items ih =>
      show Scoped strict walk names names (body item >>= fun _ => items.forM body)
      exact (h item (by simp)).bind fun _ => ih fun i hi => h i (List.mem_cons_of_mem _ hi)

/-- A loop each round of which binds names. -/
theorem forM_binds {items : List β} {body : β → Lower PUnit} (binds : β → List String)
    (h : ∀ item ∈ items, ∀ names,
      Scoped strict walk names (binds item ++ names) (body item)) :
    Scoped strict walk names (items.flatMap binds ++ names) (items.forM body) := by
  induction items generalizing names with
  | nil => exact pure _
  | cons item items ih =>
      show Scoped strict walk names _ (body item >>= fun _ => items.forM body)
      refine (h item (by simp) names).bind fun _ => ?_
      have hrest : Scoped strict walk (binds item ++ names)
          (items.flatMap binds ++ (binds item ++ names)) (items.forM body) :=
        ih fun i hi => h i (List.mem_cons_of_mem _ hi)
      refine hrest.drop ?_
      intro name hname
      simp only [List.flatMap_cons, List.mem_append] at hname ⊢
      tauto

/-- A loop over numbered items each round of which binds names. -/
theorem forM_zipIdx_binds {items : List β} {first : Nat} {body : β × Nat → Lower PUnit}
    (binds : β → List String)
    (h : ∀ item ∈ items, ∀ index names,
      Scoped strict walk names (binds item ++ names) (body (item, index))) :
    Scoped strict walk names (items.flatMap binds ++ names)
      ((items.zipIdx first).forM body) := by
  have hitems : items.flatMap binds = (items.zipIdx first).flatMap fun p => binds p.1 := by
    rw [← List.flatMap_map Prod.fst binds, List.zipIdx_map_fst]
  rw [hitems]
  refine forM_binds (fun p : β × Nat => binds p.1) ?_
  rintro ⟨item, index⟩ hitem names
  exact h item (List.fst_mem_of_mem_zipIdx hitem) index names

/-- A body inside a body: it is opened in the same walk without storage for any name, and generated
in a state of its own. -/
theorem nested {start : Emit Body} {step : Lower PUnit} {next : Lower β}
    (hstart : ∀ o : Output, o.Registered →
      (registering strict False).KeepsAt o start fun inner _ => inner.Stores walk [])
    (hstep : Scoped strict walk [] names'' step)
    (hnext : Scoped strict walk names names' next) :
    Scoped strict walk names names' (do
      let inner ← start
      let _ ← step.run inner
      next) := by
  intro b hb o ho
  refine .bind (P := fun r _ => r.2 = b ∧ r.1.Stores walk []) ?_ ?_
  · exact .bind (hstart o ho) fun inner u hu _ hinner => .pure hu ⟨rfl, hinner⟩
  · rintro ⟨inner, _⟩ u hu - ⟨rfl, hinner⟩
    refine .bind (P := fun r _ => r.2.Stores walk names) ?_ fun r v hv _ hr => hnext r.2 hr v hv
    exact .bind (hstep inner hinner u hu) fun _ v hv _ _ => .pure hv hb

end Lower.Scoped

/-! ## What generating asks of a node -/

namespace LoweringContext

variable (ctx : LoweringContext) (walk : InstanceId)

/-- Whether a node is recorded with the type `Dynamic`. -/
def isDynamic (node : NodeId) : Bool :=
  (ctx.recordedType walk node).toOption = some .dynamic

/-- The names that a statement declares for those after it. -/
def declares (node : NodeId) : List String :=
  match ctx.tree.node node with
  | .var name _ _ => [name]
  | _ => []

/-- The name of a parameter of a lambda. -/
def paramNames (param : NodeId) : List String :=
  match ctx.tree.node param with
  | .ident name => [name]
  | .typed name _ => [name]
  | _ => []

/-- The names that the function of a lambda has storage for when its body begins: the captures and
the parameters. -/
def lambdaNames (params : List NodeId) (captures : List String)
    (paramTypes captureTypes : List TypeId) : List String :=
  (captures.zip captureTypes).map (·.1) ++
    (params.zip paramTypes).flatMap fun p => ctx.paramNames p.1

/-- The names that a matched pattern binds: the fields of the case and the binder. -/
def patternNames (t : TypeId) (onDynamic : Bool) (binder : Option String) (fields : List String) :
    List String :=
  if onDynamic then binder.toList
  else (fields.zip (ctx.pool.caseFields t)).map (·.1) ++ binder.toList

/-- The arguments of a construction. -/
def constructionArgs (node : NodeId) : List NodeId :=
  match ctx.tree.node node with
  | .call _ _ args => args
  | .templatedInstance _ _ args => args
  | _ => []

variable (strict : Prop) (S : List String → NodeId → Prop)

/-- Statements one after the other, each with what the ones before it declared. -/
def SeqScoped : List String → List NodeId → Prop
  | _, [] => True
  | names, statement :: rest => S names statement ∧ SeqScoped (ctx.declares statement ++ names) rest

/-- The body of an arm may read what the pattern binds. -/
def ArmScoped (onDynamic : Bool) (names : List String) (arm : NodeId) : Prop :=
  match ctx.tree.node arm with
  | .arm pattern body =>
    match ctx.tree.node pattern, ctx.recordedType walk pattern with
    | .pattern _ binder fields, .ok t =>
      S (ctx.patternNames t onDynamic binder fields ++ names) body
    | _, _ => True
  | _ => True

/-- The node reads no names but the given ones, if `strict`, and what is generated next satisfies
`S` with the names it may read. -/
def NodeScoped (names : List String) (node : NodeId) : Prop :=
  match ctx.tree.node node with
  | .seq statements => ctx.SeqScoped S names statements
  | .ident name =>
    match ctx.typed.table.target { walk, node } with
    | .ok .localVar => strict → name ∈ names
    | _ => True
  | .var _ _ value => S names value
  | .assign target value => S names value ∧
    match ctx.tree.node target with
    | .ident name => strict → name ∈ names
    | _ => True
  | .call receiver method args => (∀ arg ∈ args, S names arg) ∧
    match ctx.typed.table.target { walk, node } with
    | .ok (.closure _) => strict → method ∈ names
    | .ok (.method _) => ∀ object ∈ receiver, S names object
    | .ok (.element _) => ∀ object ∈ receiver, S names object
    | _ => True
  | .namedArg _ value => S names value
  | .templatedInstance _ _ args => ∀ arg ∈ args, S names arg
  | .binary _ lhs rhs => S names lhs ∧ S names rhs
  | .unary op operand =>
    match op with
    | .not => S names operand
    | .stack => ∀ arg ∈ ctx.constructionArgs operand, S names arg
  | .branch cond yes no => S names cond ∧ S names yes ∧ ∀ no' ∈ no, S names no'
  | .loop cond body => S names cond ∧ S names body
  | .select cond arms => S names cond ∧
    ∀ arm ∈ arms, ctx.ArmScoped walk S (ctx.isDynamic walk cond) names arm
  | .ret value => ∀ value' ∈ value, S names value'
  | .lambda params captures body => (∀ name ∈ captures, strict → name ∈ names) ∧
    match (ctx.recordedType walk node).map ctx.pool.view with
    | .ok (.closure paramTypes _ captureTypes) =>
      S (ctx.lambdaNames params captures paramTypes captureTypes) body
    | _ => True
  | _ => True

/-- A node and what is below it, as deep as the bound says, read no names but those they may
read. -/
def ScopedWithin : Nat → List String → NodeId → Prop
  | 0, _, _ => True
  | fuel + 1, names, node => ctx.NodeScoped walk strict (ScopedWithin fuel) names node

end LoweringContext

/-! ## Locals, conversion and returning -/

namespace Lower

variable {ctx : LoweringContext}

theorem not_unstored_of_recordedType {node : NodeId} {e : CompileError}
    (h : ctx.recordedType walk node = .error e) : ¬ Halt.Unstored (.error e) := by
  rw [LoweringContext.recordedType] at h
  cases htype : ctx.typed.table.typeOf { walk, node } with
  | error e' =>
      rw [htype] at h
      cases h
      exact TypeTable.not_unstored_of_typeOf htype
  | ok t =>
      rw [htype] at h
      exact Halt.not_unstored_of_program (Pool.resolveStrict_error h)

/-- What comes after a result that may be an error. -/
theorem ofExcept_scoped {step : Lower β} {r : Except CompileError β} {next : β → Lower α}
    (hstep : ∀ b : Body, b.walk = walk → ∀ o,
      step.run b o = (liftM (Emit.ofExcept r) : Lower β).run b o)
    (herror : ∀ e, r = .error e → ¬ Halt.Unstored (.error e))
    (hnext : ∀ a, r = .ok a → Scoped strict walk names names' (next a)) :
    Scoped strict walk names names' (step >>= next) := by
  intro b hb o ho
  have hrun := hstep b hb.walk o
  cases r with
  | ok a => exact .bind_read ho hrun (hnext a rfl b hb o ho)
  | error e =>
      have hfails : (registering strict False).KeepsAt o (step.run b) fun _ _ => False :=
        .of_error hrun ⟨fun _ => herror e rfl, ho, id⟩
      exact .bind hfails fun _ _ _ _ h => h.elim

/-- A step that begins with the recorded type of a node. -/
theorem typeOf_scoped {node : NodeId} {next : TypeId → Lower α}
    (hnext : ∀ t, ctx.recordedType walk node = .ok t →
      Scoped strict walk names names' (next t)) :
    Scoped strict walk names names' (typeOf ctx node >>= next) := by
  refine ofExcept_scoped (fun b hb o => ?_) (fun _ => not_unstored_of_recordedType) hnext
  rw [← hb, LoweringContext.recordedType]
  show (liftM (Emit.ofExcept (ctx.typed.table.typeOf { walk := b.walk, node })) >>=
    fun t => liftM (Emit.resolve ctx t) : Lower TypeId).run b o = _
  cases ctx.typed.table.typeOf { walk := b.walk, node } <;> rfl

/-- A step that begins with the meaning of a node. -/
theorem target_scoped {node : NodeId} {next : Target → Lower α}
    (hnext : ∀ target, ctx.typed.table.target { walk, node } = .ok target →
      Scoped strict walk names names' (next target)) :
    Scoped strict walk names names' (target ctx node >>= next) := by
  refine ofExcept_scoped (fun b hb o => ?_) (fun _ => TypeTable.not_unstored_of_target) hnext
  rw [← hb]
  rfl

/-- A step that begins with the parts of a case. -/
theorem caseParts_scoped {t : TypeId} {next : Emit.CaseParts → Lower α}
    (hnext : ∀ parts : Emit.CaseParts, parts.fields = ctx.pool.caseFields t →
      Scoped strict walk names names' (next parts)) :
    Scoped strict walk names names' (liftM (Emit.caseParts ctx t) >>= next) := by
  intro b hb o ho
  have hparts : (registering strict False).KeepsAt o (Emit.caseParts ctx t)
      fun parts _ => parts.fields = ctx.pool.caseFields t := by
    unfold Emit.caseParts
    split
    · next hview => exact .pure ho (by simp [Pool.caseFields, hview])
    · exact .of_error rfl ⟨fun _ => Halt.not_unstored_of_tail (by simp [ToString.toString]), ho, id⟩
  refine .bind (P := fun r _ => r.2 = b ∧ r.1.fields = ctx.pool.caseFields t)
    (.bind hparts fun parts u hu _ h => .pure hu ⟨rfl, h⟩) ?_
  rintro ⟨parts, _⟩ u hu - ⟨rfl, h⟩
  exact hnext parts h _ hb u hu

theorem block_scoped (label : String) : Scoped strict walk names names (block label) :=
  .get_bind fun _ _ => .build (.appendBlock _ _)

theorem terminated_scoped : Scoped strict walk names names terminated :=
  Scoped.getOutput.bind fun _ => .pure _

theorem bind_scoped (name : String) (storage : Storage) :
    Scoped strict walk names (name :: names) (bind name storage) :=
  .update fun _ hb => hb.bind name storage

/-- A local is stored under its name. -/
theorem bindLocal_scoped (name : String) (value : Value) (t : TypeId) :
    Scoped strict walk names (name :: names) (bindLocal ctx name value t) := by
  refine (Scoped.lift (Emit.valueType_lays t).registers).bind fun type => .get_bind fun b _ => ?_
  refine (Scoped.build ?_).bind fun slot => bind_scoped _ _
  exact (KeepsShared.entryAlloca _ _ _).bind fun slot =>
    (KeepsShared.store _ _).bind fun _ => .pure _

theorem bindParam_scoped (index : Nat) (name : String) (t : TypeId) :
    Scoped strict walk names (name :: names) (bindParam ctx index name t) := by
  refine .get_bind fun b _ => (Scoped.build (.setParamName _ _ _)).bind fun _ => ?_
  exact Scoped.getOutput.bind fun o => bindLocal_scoped _ _ _

/-- A name with storage can be read. -/
theorem loadLocal_scoped {name : String} (h : strict → name ∈ names) :
    Scoped strict walk names names (loadLocal name) := by
  refine .get_bind fun b hb => ?_
  split
  · exact .pure _
  · exact .build (.load _ _ _)
  · next hnone => exact .unstored hb h hnone

theorem receiver_scoped : Scoped strict walk names names receiver := by
  refine .get_bind fun b _ => ?_
  split
  · exact .pure _
  · exact .mismatch

theorem allocate_scoped (type : Ty) (onStack : Bool) (name : String) :
    Scoped strict walk names names (allocate type onStack name) := by
  refine Scoped.getOutput.bind fun o => .ite ?_ ?_
  · exact .get_bind fun b _ => .build (.entryAlloca _ _ _)
  · refine (Scoped.build (.call _ _ _)).bind fun result => ?_
    split
    · exact .pure _
    · exact .broken (by decide)

/-- Boxing and testing ask for the record of a type. -/
theorem runtimeType_scoped (t : TypeId) :
    Scoped strict walk names names (liftM (Emit.runtimeType ctx t) : Lower Value) :=
  .lift fun _ ho => (Emit.runtimeType_registers t ho).trivial

theorem boxDynamic_scoped (value : Value) (t : TypeId) :
    Scoped strict walk names names (boxDynamic ctx value t) := by
  refine (Scoped.lift (Emit.dynamicLayout_lays t).registers).bind fun struct => ?_
  refine (Scoped.lift (Emit.layout_lays _).registers).bind fun header => ?_
  refine (runtimeType_scoped t).bind fun record => ?_
  refine (allocate_scoped _ _ _).bind fun box => (Scoped.build ?_).bind fun _ => .pure _
  refine (KeepsShared.structField _ _ _ _).bind fun _ => ?_
  refine (KeepsShared.structField _ _ _ _).bind fun _ => ?_
  refine (KeepsShared.store _ _).bind fun _ => ?_
  exact (KeepsShared.structField _ _ _ _).bind fun _ => .store _ _

theorem dynamicHolds_scoped (box : Value) (t : TypeId) :
    Scoped strict walk names names (dynamicHolds ctx box t) := by
  refine (Scoped.lift (Emit.layout_lays _).registers).bind fun header => ?_
  refine (runtimeType_scoped t).bind fun record => .build ?_
  refine (KeepsShared.structField _ _ _ _).bind fun _ => ?_
  exact (KeepsShared.load _ _ _).bind fun _ => .compareOf _ _ _ _ _

theorem unboxDynamic_scoped (box : Value) (t : TypeId) :
    Scoped strict walk names names (unboxDynamic ctx box t) := by
  refine (Scoped.lift (Emit.dynamicLayout_lays t).registers).bind fun struct => ?_
  refine (Scoped.lift (Emit.valueType_lays t).registers).bind fun type => .build ?_
  exact (KeepsShared.structField _ _ _ _).bind fun _ => .load _ _ _

theorem convert_scoped (value : Value) (source wanted : TypeId) :
    Scoped strict walk names names (convert ctx value source wanted) := by
  unfold convert
  split
  · exact .pure _
  · exact .build (.widen _ _ _)
  · exact .pure _
  · exact boxDynamic_scoped _ _
  · exact .mismatch

theorem returnVoid_scoped : Scoped strict walk names names returnVoid :=
  .get_bind fun _ _ => .build (.jump _)

theorem returnValue_scoped (value : Value) (t : TypeId) :
    Scoped strict walk names names (returnValue ctx value t) := by
  refine .get_bind fun b _ => (convert_scoped _ _ _).bind fun value => ?_
  refine Scoped.getOutput.bind fun o => ?_
  split
  · exact Scoped.bind (.update fun _ hb => ⟨hb.walk, hb.names⟩) fun _ => returnVoid_scoped
  · exact returnVoid_scoped

theorem fallThrough_scoped (value : Option Value) (body : NodeId) :
    Scoped strict walk names names (fallThrough ctx value body) := by
  refine .get_bind fun b _ => .ite returnVoid_scoped ?_
  split
  · exact typeOf_scoped fun t _ => returnValue_scoped _ _
  · exact .mismatch

/-- A function is opened without storage for any name. -/
theorem start_scoped (function : IR.FunctionId) (owner : Option TypeId) (name : String)
    (result : TypeId) {o : Output} (ho : o.Registered) :
    (registering strict False).KeepsAt o (start ctx function walk owner name result)
      fun b _ => b.Stores walk [] := by
  unfold start
  have hrest : ∀ u : Output, u.Registered → (registering strict False).KeepsAt u (do
      let result ← Emit.resolve ctx result
      let exit ← Emit.build do
        let entry ← Build.appendBlock function "entry"
        let exit ← Build.appendBlock function "exit"
        Build.setCurrentFunction function
        Build.positionAtEnd entry
        pure exit
      pure ({ function, walk, owner, name, result, exit } : Body)) fun b _ => b.Stores walk [] := by
    intro u hu
    refine .bind ((Emit.resolve_lays result).registers u hu) fun result v hv _ _ => ?_
    refine .bind (Emit.Registers.build (KeepsShared.toRetains ?_) v hv) fun exit w hw _ _ =>
      .pure hw ⟨rfl, by simp⟩
    refine (KeepsShared.appendBlock _ _).bind fun entry => ?_
    refine (KeepsShared.appendBlock _ _).bind fun exit => ?_
    refine (KeepsShared.setCurrentFunction _).bind fun _ => ?_
    exact (KeepsShared.positionAtEnd _).bind fun _ => .pure _
  refine .bind_read ho (b := o) rfl ?_
  dsimp only
  split
  · exact .bind (Emit.Registers.program (by simp) o ho) fun _ u hu _ _ => hrest u hu
  · exact hrest o ho

/-- The exit block. -/
theorem exitCode_scoped : Scoped strict walk names names (do
    let b ← get
    build do
      Build.moveBlockToEnd b.exit
      Build.positionAtEnd b.exit
    if b.result = .void then build Build.retVoid
    else
      let type ← Emit.valueType ctx b.result
      build do
        match ← Build.phi type b.returnSites "return_value" with
        | some value => Build.ret value
        | none => Build.unreachable : Lower Unit) := by
  refine .get_bind fun b _ => (Scoped.build ?_).bind fun _ => .ite (.build (.terminate _)) ?_
  · exact (KeepsShared.moveBlockToEnd _).bind fun _ => .positionAtEnd _
  · refine (Scoped.lift (Emit.valueType_lays _).registers).bind fun type => .build ?_
    refine (KeepsShared.phi _ _ _).bind fun value => ?_
    split
    · exact .terminate _
    · exact .terminate _

theorem finish_scoped {lower : NodeId → Lower (Option Value)} {body : NodeId}
    (hlower : Scoped strict walk names names' (lower body)) :
    Scoped strict walk names names' (finish ctx lower body) := by
  refine hlower.bind fun value => terminated_scoped.bind fun ended => ?_
  dsimp only
  split
  · exact (fallThrough_scoped value body).bind fun _ => exitCode_scoped
  · exact exitCode_scoped

end Lower

end ClassLang
