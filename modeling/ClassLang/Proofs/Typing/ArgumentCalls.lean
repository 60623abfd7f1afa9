import ClassLang.Proofs.Typing.ArgumentDeclarations
import ClassLang.Proofs.Typing.ConfinedCalls

/-!
# Checking the arguments of a call

The arguments of a call are typed one after the other; each is typed in a region of its own, so what
was recorded for the ones before it stays. Comparing them with the parameters only forwards
variables. The comparison is made on pools that come before the one at its end, so once that is
known to be founded the comparison holds in it.
-/

namespace ClassLang

/-- What may be written while a node is typed in a walk: what stands below it, and later walks. -/
def SyntaxTree.Region (tree : SyntaxTree) (walk : InstanceId) (node : NodeId) (v : Visit) : Prop :=
  walk < v.walk ∨ v.walk = walk ∧ tree.Below node v.node

/-- What stands below a part of a node stands below the node. -/
theorem SyntaxTree.Region.above {tree : SyntaxTree} {walk : InstanceId} {node part : NodeId}
    {v : Visit} (hpart : tree.Below node part) (h : tree.Region walk part v) :
    tree.Region walk node v :=
  h.imp_right fun h => ⟨h.1, hpart.trans h.2⟩

namespace Typing

variable {σ : Type} (ctx : TypingContext σ) (p₀ : Pool) (N : TypeId → Prop) (O W : Visit → Prop)

/-- The node can be typed in the walk: the calls that it is an argument of are open. -/
structure Enterable (walk : InstanceId) (node : NodeId) : Prop where
  below : ctx.tree.Below ctx.tree.root node
  opened : ∀ call, ctx.tree.ArgOf call node → O ⟨walk, call⟩
  region : ∀ v, ctx.tree.Region walk node v → W v

/-- The node is being typed in the walk. -/
structure Entered (walk : InstanceId) (node : NodeId) : Prop where
  below : ctx.tree.Below ctx.tree.root node
  opened : O ⟨walk, node⟩
  region : ∀ v, ctx.tree.Region walk node v → W v

/-- Typing a node keeps calls checked and records the type of the node. -/
def InferChecks (infer : NodeId → Typing σ TypeId) : Prop :=
  ∀ O W node s, Confined ctx p₀ N s → CallsChecked ctx O s → Enterable ctx O W s.walk node →
    (checking ctx O W).KeepsAt s (infer node) fun r t =>
      Confined ctx p₀ N t ∧ t.table.get? ⟨t.walk, node⟩ = some r

variable {ctx p₀ N O W} {s t : TypingState σ} {walk : InstanceId} {node part call : NodeId}

/-- What is no argument can be typed wherever its region may be written. -/
theorem Enterable.of_not_isArg (hbelow : ctx.tree.Below ctx.tree.root node)
    (hnode : ¬ ctx.tree.IsArg node) (hregion : ∀ v, ctx.tree.Region walk node v → W v) :
    Enterable ctx O W walk node :=
  ⟨hbelow, fun call harg => absurd ⟨call, harg⟩ hnode, hregion⟩

/-- The type of what can be typed can be recorded. -/
theorem Enterable.annotatable (h : Enterable ctx O W walk node) : Annotatable ctx O W walk node :=
  ⟨h.opened, fun _ => h.region _ (.inr ⟨rfl, .refl⟩)⟩

namespace Entered

/-- The children of a node are typed while it is open. -/
theorem child (htree : ctx.tree.TreeShaped) (h : Entered ctx O W walk node)
    (hpart : part ∈ (ctx.tree.node node).children) : Enterable ctx O W walk part where
  below := h.below.tail hpart
  opened _ harg := htree.call_eq hpart harg ▸ h.opened
  region v hv := h.region v (SyntaxTree.Region.above (.single hpart) hv)

/-- In another set of records, in which the region of the node lies. -/
theorem write (h : Entered ctx O W walk node) {W' : Visit → Prop}
    (hregion : ∀ v, ctx.tree.Region walk node v → W' v) : Entered ctx O W' walk node :=
  ⟨h.below, h.opened, hregion⟩

end Entered

/-- While a node is typed, its own call is open. -/
theorem Enterable.enter (h : Enterable ctx O W walk node) :
    Entered ctx (fun v => O v ∨ v = ⟨walk, node⟩) W walk node :=
  ⟨h.below, .inr rfl, h.region⟩

/-! ## Comparing -/

/-- Nothing but forwarding variables. -/
def forwarding (σ : Type) : Discipline Halt (TypingState σ) where
  inv _ := True
  le s t := t = { s with pool := t.pool } ∧ s.pool.Forwards t.pool
  fails _ _ _ := True
  refl _ := ⟨rfl, .refl⟩
  trans h h' := ⟨by rw [h'.1, h.1], h.2.trans h'.2⟩
  fails_trans _ _ := trivial

theorem unifyClosureParams_forwards (given wanted : TypeId) :
    (forwarding σ).Keeps (unifyClosureParams given wanted) fun _ => True := by
  refine .get fun s _ => ?_
  dsimp only
  split
  · split
    · refine .forM ?_
      rintro ⟨var, target⟩ - t -
      refine .bind_read trivial (b := t) rfl ?_
      dsimp only
      split
      · refine .bind_read trivial (b := t) rfl ?_
        beta_reduce
        cases hunify : t.pool.unify var target with
        | error e => exact .of_error rfl trivial
        | ok q => exact .of_ok rfl trivial ⟨rfl, .single ⟨var, target, hunify⟩⟩ trivial
      · exact .pure trivial trivial
    · exact .pure trivial
  · exact .pure trivial

/-- What is compared converts, in the pool at hand then. -/
theorem compare_forwards (sig : Signature) (pairs : List (TypeId × Param)) :
    (forwarding σ).KeepsAt s (pairs.zipIdx.forM fun ((given, param), i) => do
      unifyClosureParams given param.type
      let pool := (← get).pool
      if !pool.canConvert given param.type then
        let shown := pool.display given
        let wanted := pool.display param.type
        mismatch
          s!"unable to pass a '{shown}' as a '{wanted}' for argument {i + 1} of '{sig.name}'")
      fun _ t => ∀ pair ∈ pairs, ∃ p : Pool, p.Forwards t.pool ∧
        p.canConvert pair.1 pair.2.type = true := by
  refine (Discipline.forM_keeps_each (P := fun (item : (TypeId × Param) × Nat)
    (t : TypingState σ) => ∃ p : Pool, p.Forwards t.pool ∧
      p.canConvert item.1.1 item.1.2.type = true) _ trivial ?_ ?_).weaken ?_
  · exact fun item _ t u _ hle _ ⟨p, hp, hcan⟩ => ⟨p, hp.trans hle.2, hcan⟩
  · rintro ⟨⟨given, param⟩, i⟩ - t - -
    refine .bind (unifyClosureParams_forwards given param.type t trivial) fun _ u _ _ _ => ?_
    refine .bind_read trivial (b := u) rfl ?_
    dsimp only
    split
    · exact .of_error rfl trivial
    · next hcan => exact .pure trivial ⟨u.pool, .refl, by simpa using hcan⟩
  · intro _ t _ _ h pair hpair
    obtain ⟨i, hi⟩ := List.mem_iff_getElem?.mp hpair
    exact h (pair, i) (List.mem_zipIdx_iff_getElem?.2 hi)

theorem extra_forwards (sig : Signature) (extra : List TypeId) :
    (forwarding σ).Keeps (extra.forM fun given => do
      let t ← ofExcept ((← get).pool.resolveStrict given)
      if t = .void then mismatch s!"cannot pass a 'Void' value to '{sig.name}'") fun _ => True := by
  refine .forM fun given _ s _ => .bind_read trivial (b := s) rfl ?_
  cases s.pool.resolveStrict given with
  | error e => exact .of_error rfl trivial
  | ok t =>
      refine .bind_read trivial (b := t) rfl ?_
      split
      · exact .of_error rfl trivial
      · exact .pure trivial trivial

/-- Forwarding variables keeps calls checked. -/
theorem checking_of_forwarding {α : Type} {step : Typing σ α} {Q : α → TypingState σ → Prop}
    (hs : CallsChecked ctx O s) (h : (forwarding σ).KeepsAt s step Q) :
    (checking ctx O W).KeepsAt s step fun a t => Q a t ∧ t.table = s.table := by
  unfold Discipline.KeepsAt at h ⊢
  cases hstep : step s with
  | error e t => trivial
  | ok a t =>
      simp only [hstep] at h ⊢
      obtain ⟨-, ⟨heq, hforwards⟩, hQ⟩ := h
      have he := hforwards.evolves
      have htable : t.table = s.table := by rw [heq]
      refine ⟨heq ▸ hs.setPool he, .of_same ?_ htable ?_ he, hQ, htable⟩
      · rw [heq]
      · rw [heq]

/-! ## Arguments -/

variable {infer : NodeId → Typing σ TypeId} {args : List NodeId}

/-- The arguments of a call are typed one after the other, and their types are recorded. -/
theorem inferArgs_checks (htree : ctx.tree.TreeShaped) (hinfer : InferChecks ctx p₀ N infer)
    (hargs : ctx.tree.callArgs? call = some args) {rest : List NodeId} (hrest : rest.Sublist args)
    (hc : Confined ctx p₀ N s) (hs : CallsChecked ctx O s) (hcall : Entered ctx O W s.walk call) :
    (checking ctx O fun v => ∃ arg ∈ rest, ctx.tree.Region s.walk arg v).KeepsAt s
      (inferArguments ctx infer rest) fun typed t =>
        ∃ types, typed = (rest.map (argumentLabel ctx)).zip types ∧
          t.table.RecordsTypes t.walk rest types := by
  induction rest generalizing s with
  | nil => exact .pure hs ⟨[], rfl, .nil⟩
  | cons arg rest ih =>
      have hmem : arg ∈ args := hrest.subset List.mem_cons_self
      have hchild : arg ∈ (ctx.tree.node call).children :=
        SyntaxTree.mem_children_of_callArgs hargs hmem
      have harg : Enterable ctx O (fun v => ∃ a ∈ arg :: rest, ctx.tree.Region s.walk a v) s.walk
          arg :=
        { hcall.child htree hchild with region := fun v hv => ⟨arg, List.mem_cons_self, hv⟩ }
      rw [inferArguments, List.mapM_cons]
      refine .bind (.bind (hinfer O _ arg s hc hs harg) fun r t ht _ h => .pure
        (Q := fun (a : Option String × TypeId) t => a.1 = argumentLabel ctx arg ∧
          Confined ctx p₀ N t ∧ t.table.get? ⟨t.walk, arg⟩ = some a.2) ht ⟨rfl, h⟩) ?_
      rintro ⟨label, r⟩ t ht hle ⟨rfl, hct, hrecorded⟩
      have htail := ih (s := t) ((List.sublist_cons_self arg rest).trans hrest) hct ht
        (hle.walk ▸ hcall)
      refine .bind (widen_checking htail fun v => ?_) ?_
      · rintro ⟨a, ha, hv⟩
        exact ⟨a, List.mem_cons_of_mem arg ha, hle.walk ▸ hv⟩
      rintro typed u hu - ⟨⟨types, rfl, htypes⟩, hspares⟩
      refine .pure hu ⟨r :: types, rfl, .cons ?_ htypes⟩
      -- the other arguments stand beside this one, so its record is not in their regions
      rw [hspares.walk, hspares.types ⟨t.walk, arg⟩ ⟨call, hcall.below, args, hargs, hmem⟩]
      · exact hrecorded
      · rintro ⟨a, ha, hlt | ⟨-, hbelow⟩⟩
        · exact absurd hlt (Nat.lt_irrefl _)
        · have hne : a ≠ arg := by
            rintro rfl
            exact (List.nodup_cons.mp ((htree.nodup_args hargs).sublist hrest)).1 ha
          exact htree.not_below_of_siblings (SyntaxTree.mem_children_of_callArgs hargs
            (hrest.subset (List.mem_cons_of_mem arg ha))) hchild hne hbelow

variable (ctx) in
/-- The arguments were compared with the signature, provided that the pool is founded. -/
def ArgsChecked (sig : Signature) (args : List NodeId) (t : TypingState σ) : Prop :=
  t.pool.Founded → ∃ types, t.table.RecordsTypes t.walk args types ∧
    CheckEnds ctx t.walk sig args types t

theorem checkArguments_checks (htree : ctx.tree.TreeShaped) {fuel : Nat}
    (hinfer : InferChecks ctx p₀ N (inferWithin ctx fuel))
    (hargs : ctx.tree.callArgs? call = some args) (sig : Signature)
    (hc : Confined ctx p₀ N s) (hs : CallsChecked ctx O s) (hcall : Entered ctx O W s.walk call) :
    (checking ctx O W).KeepsAt s (checkArguments ctx (inferWithin ctx fuel) sig args) fun _ t =>
      ArgsChecked ctx sig args t := by
  have hcompared : (checking ctx O W).KeepsAt s
      (checkArguments ctx (inferWithin ctx fuel) sig args) fun _ t =>
        ∃ types, t.table.RecordsTypes t.walk args types ∧
          (∃ after, inferArguments ctx (inferWithin ctx fuel) args s =
            .ok ((args.map (argumentLabel ctx)).zip types) after) ∧ ∃ ordered,
          orderArguments sig ((args.map (argumentLabel ctx)).zip types) = .ok ordered ∧
            ∀ pair ∈ ordered.fixed.zip sig.params, ∃ p : Pool, p.Forwards t.pool ∧
              p.canConvert pair.1 pair.2.type = true := by
    have htyped := inferArgs_checks htree hinfer hargs (List.Sublist.refl args) hc hs hcall
    refine .bind ((widen_checking htyped fun v => ?_).and (Discipline.onSuccess_run _ s)) ?_
    · rintro ⟨arg, harg, hv⟩
      exact hcall.region v
        (SyntaxTree.Region.above (.single (SyntaxTree.mem_children_of_callArgs hargs harg)) hv)
    rintro typed t ht - ⟨⟨⟨types, rfl, htypes⟩, -⟩, htyping⟩
    refine .bind (ofExcept_checks (Q := fun ordered u => orderArguments sig
      ((args.map (argumentLabel ctx)).zip types) = .ok ordered ∧ u = t) ht
      fun ordered h => ⟨h, rfl⟩) ?_
    rintro ordered u - - ⟨hordered, rfl⟩
    refine (checking_of_forwarding ht (.bind (compare_forwards sig _) fun _ v _ _ h =>
      ((extra_forwards sig ordered.extra v trivial).weaken fun _ w _ hle _ pair hpair => ?_
        : (forwarding σ).KeepsAt _ _ fun _ w => ∀ pair ∈ ordered.fixed.zip sig.params,
          ∃ p : Pool, p.Forwards w.pool ∧ p.canConvert pair.1 pair.2.type = true))).weaken ?_
    · obtain ⟨p, hp, hcan⟩ := h pair hpair
      exact ⟨p, hp.trans hle.2, hcan⟩
    · rintro _ w - hle ⟨hall, htable⟩
      exact ⟨types, by rwa [htable, hle.walk], ⟨u, htyping⟩, ordered, hordered, hall⟩
  refine (hcompared.and (Discipline.onSuccess_run _ s)).weaken ?_
  rintro _ t - hle ⟨⟨types, htypes, ⟨after, htyping⟩, ordered, hordered, hall⟩, hrun⟩ hfounded
  refine ⟨types, htypes, ⟨fuel, s, after, hle.walk.symm, htyping, hrun⟩, hfounded, htypes, ordered,
    hordered, ?_⟩
  intro pair hpair
  obtain ⟨p, hp, hcan⟩ := hall pair hpair
  exact hfounded.canConvert_of_forwards hp hcan

/-! ## Meanings of calls -/

variable (ctx) in
/-- The call is checked, provided that the pool is founded. -/
def Closes (call : NodeId) (t : TypingState σ) : Prop :=
  t.pool.Founded → CallChecked ctx t.table t.pool ⟨t.walk, call⟩

/-- A call whose arguments were checked gets its meaning. -/
theorem finish_checks {target : Target} {r : TypeId} (hs : CallsChecked ctx O s)
    (hcall : Entered ctx O W s.walk call) (hargs : ctx.tree.callArgs? call = some args)
    (hdone : ∀ sig, target.checked? = some sig → ArgsChecked ctx sig args s) :
    (checking ctx O W).KeepsAt s (do
      setTarget call target
      pure r) fun _ t => Closes ctx call t := by
  refine .bind (setTarget_at (Q := fun _ t => Closes ctx call t) hs (.inl hcall.opened) ?_)
    fun _ t ht _ h => .pure ht h
  intro hfounded args' target' sig hargs' htarget hsig
  simp only [TypeTable.setTarget, Std.TreeMap.getElem?_insert_self, Option.some.injEq] at htarget
  subst htarget
  obtain rfl : args = args' := Option.some.inj (hargs.symm.trans hargs')
  obtain ⟨types, htypes, hends⟩ := hdone sig hsig hfounded
  exact ⟨types, htypes, s, hends, .refl _⟩

section Calls

variable {fuel : Nat}

/-- A call whose arguments are checked before its meaning is recorded. -/
theorem checkedCall_checks (htree : ctx.tree.TreeShaped)
    (hinfer : InferChecks ctx p₀ N (inferWithin ctx fuel)) {sig : Signature} {target : Target}
    {r : TypeId} (htarget : target.checked? = some sig)
    (hargs : ctx.tree.callArgs? call = some args) (hc : Confined ctx p₀ N s)
    (hs : CallsChecked ctx O s) (hcall : Entered ctx O W s.walk call) :
    (checking ctx O W).KeepsAt s (do
      checkArguments ctx (inferWithin ctx fuel) sig args
      setTarget call target
      pure r) fun _ t => Closes ctx call t := by
  refine .bind (checkArguments_checks htree hinfer hargs sig hc hs hcall) fun _ t ht hle hdone => ?_
  refine finish_checks ht (hle.walk ▸ hcall) hargs fun sig' hsig => ?_
  rw [htarget] at hsig
  cases hsig
  exact hdone

theorem inferConstruction_checks (htree : ctx.tree.TreeShaped)
    (hinfer : InferChecks ctx p₀ N (inferWithin ctx fuel)) (r : TypeId)
    (hargs : ctx.tree.callArgs? call = some args) (hc : Confined ctx p₀ N s)
    (hs : CallsChecked ctx O s) (hcall : Entered ctx O W s.walk call) :
    (checking ctx O W).KeepsAt s (inferConstruction ctx (inferWithin ctx fuel) call r args)
      fun _ t => Closes ctx call t := by
  refine .bind_read hs (b := s) rfl ?_
  dsimp only
  split
  · next methods _ =>
      cases methods.find? (·.name == "initialize") with
      | some init => exact checkedCall_checks htree hinfer rfl hargs hc hs hcall
      | none =>
          dsimp only
          split
          · refine never_checks fun a t hrun => ?_
            obtain ⟨_, u, -, hfail⟩ := bind_eq_ok.mp hrun
            cases hfail
          · exact finish_checks hs hcall hargs (by simp [Target.checked?])
  · exact checkedCall_checks htree hinfer rfl hargs hc hs hcall
  · exact mismatch_checks _

/-- A receiver that names a module is left alone. -/
theorem importedModule_checks (receiver : NodeId) :
    (checking ctx O W).Keeps (inferReceiverCall.importedModule ctx receiver)
      fun found => found.isSome → (ctx.tree.node receiver).declaresType = false := by
  unfold inferReceiverCall.importedModule
  split
  · next name hnode =>
      refine .get fun s _ => ?_
      split
      · exact .pure fun _ => by simp [hnode, Node.declaresType]
      · exact .pure (by simp)
  · exact .pure (by simp)

/-- A call on a receiver: a method or field, or a function or type of an imported module. -/
theorem inferReceiverCall_checks (hT : p₀.Territory N) (htree : ctx.tree.TreeShaped)
    (hinfer : InferChecks ctx p₀ N (inferWithin ctx fuel)) {receiver : NodeId} {method : String}
    (hnode : ctx.tree.node call = .call (some receiver) method args) (hc : Confined ctx p₀ N s)
    (hs : CallsChecked ctx O s) (hcall : Entered ctx O W s.walk call) :
    (checking ctx O W).KeepsAt s
      (inferReceiverCall ctx (inferWithin ctx fuel) call receiver method args)
      fun _ t => Closes ctx call t := by
  have hargs : ctx.tree.callArgs? call = some args := by simp [SyntaxTree.callArgs?, hnode]
  unfold inferReceiverCall
  refine .bind ((importedModule_checks receiver s hs).and (importedModule_confined hc).succeeds) ?_
  rintro found t ht hle ⟨hfound, hct, -, -⟩
  have hcall' : Entered ctx O W t.walk call := hle.walk ▸ hcall
  split
  · refine .bind ((record_checks (htree.not_isArg_receiver hnode) t ht).and (record_confined
      (Q := fun _ _ => True) hct (hct.pool.builtin hT (by decide)).usable (by simp [hfound rfl])
      fun _ _ => trivial).succeeds) ?_
    rintro _ u hu hle' ⟨-, hcu, -, -⟩
    have hcall'' : Entered ctx O W u.walk call := hle'.walk ▸ hcall'
    refine .bind_read hu (b := u) rfl ?_
    split
    · exact fail_checks _
    · split
      · exact checkedCall_checks htree hinfer rfl hargs hcu hu hcall''
      · exact inferConstruction_checks htree hinfer _ hargs hcu hu hcall''
      · exact mismatch_checks _
  · refine .bind (hinfer O W receiver t hct ht (hcall'.child htree (by simp [hnode, Node.children])))
      ?_
    rintro given u hu hle' ⟨hcu, -⟩
    refine .bind_read hu (b := u) rfl (.bind (ofExcept_checks (Q := fun _ v => v = u) hu
      fun _ _ => rfl) ?_)
    rintro r v - - rfl
    refine .bind_read hu (b := v) rfl ?_
    dsimp only
    split
    · exact mismatch_checks _
    · next sig _ =>
        refine .bind (checkArguments_checks htree hinfer hargs sig hcu hu (hle'.walk ▸ hcall'))
          fun _ w hw hle₃ hdone => ?_
        have hcall'' : Entered ctx O W w.walk call := hle₃.walk ▸ hle'.walk ▸ hcall'
        refine .bind_read hw (b := w) rfl (.bind (ofExcept_checks (Q := fun _ x => x = w) hw
          fun _ _ => rfl) ?_)
        rintro op x - - rfl
        split
        · exact finish_checks hw hcall'' hargs (by simp [Target.checked?])
        · exact finish_checks hw hcall'' hargs fun sig' hsig => by
            cases hsig
            exact hdone

theorem inferBuiltin_checks (htree : ctx.tree.TreeShaped)
    (hinfer : InferChecks ctx p₀ N (inferWithin ctx fuel)) (builtin : Builtin)
    (hargs : ctx.tree.callArgs? call = some args) (hc : Confined ctx p₀ N s)
    (hs : CallsChecked ctx O s) (hcall : Entered ctx O W s.walk call) :
    (checking ctx O W).KeepsAt s (inferBuiltin (inferWithin ctx fuel) call builtin args)
      fun _ t => Closes ctx call t := by
  unfold inferBuiltin
  split
  · next object =>
      refine .bind (hinfer O W object s hc hs (hcall.child htree
        (SyntaxTree.mem_children_of_callArgs hargs (by simp)))) fun r t ht hle _ => ?_
      refine .bind_read ht (b := t) rfl ?_
      dsimp only
      split
      · exact mismatch_then_checks _ _
      · exact finish_checks ht (hle.walk ▸ hcall) hargs (by simp [Target.checked?])
  · exact .of_error rfl trivial

/-- A call without a receiver. -/
theorem inferBareCall_checks (htree : ctx.tree.TreeShaped)
    (hinfer : InferChecks ctx p₀ N (inferWithin ctx fuel)) (method : String)
    (hargs : ctx.tree.callArgs? call = some args) (hc : Confined ctx p₀ N s)
    (hs : CallsChecked ctx O s) (hcall : Entered ctx O W s.walk call) :
    (checking ctx O W).KeepsAt s (inferBareCall ctx (inferWithin ctx fuel) call method args)
      fun _ t => Closes ctx call t := by
  refine .bind_read hs (b := s) rfl ?_
  dsimp only
  split
  · split
    · exact checkedCall_checks htree hinfer rfl hargs hc hs hcall
    · exact mismatch_checks _
  · split
    · exact checkedCall_checks htree hinfer rfl hargs hc hs hcall
    · exact checkedCall_checks htree hinfer rfl hargs hc hs hcall
    · split
      · exact inferConstruction_checks htree hinfer _ hargs hc hs hcall
      · exact mismatch_checks _
      · exact mismatch_checks _
      · exact mismatch_checks _
      · split
        · exact inferBuiltin_checks htree hinfer _ hargs hc hs hcall
        · exact mismatch_checks _

/-- A construction with type arguments, which are no arguments of the call. -/
theorem inferTemplatedInstance_checks (hT : p₀.Territory N) (htree : ctx.tree.TreeShaped)
    (hinfer : InferChecks ctx p₀ N (inferWithin ctx fuel)) {name : String} {typeArgs : List NodeId}
    (hnode : ctx.tree.node call = .templatedInstance name typeArgs args)
    (hc : Confined ctx p₀ N s) (hs : CallsChecked ctx O s) (hcall : Entered ctx O W s.walk call) :
    (checking ctx O W).KeepsAt s
      (inferTemplatedInstance ctx (inferWithin ctx fuel) call name typeArgs args)
      fun _ t => Closes ctx call t := by
  have hargs : ctx.tree.callArgs? call = some args := by simp [SyntaxTree.callArgs?, hnode]
  have htypes : (checking ctx O W).Keeps (typeArgs.mapM (typeExpr ctx)) fun _ => True :=
    .mapM fun arg harg => typeExpr_checks htree arg (htree.not_isArg_typeArg hnode harg)
  unfold inferTemplatedInstance
  refine .bind ((htypes s hs).and (Discipline.mapM_keeps_all
    (P := fun (t : TypeId) (u : TypingState σ) => u.pool.Declarable N t) typeArgs hc
    stable_declarable fun arg _ t ht _ => typeExpr_confined hT arg t ht).succeeds) ?_
  rintro types t ht hle ⟨-, hct, -, hdenoted⟩
  have hexpand {id : TemplateId} (hid : id < t.templates.length)
      {next : TypeId → Typing σ TypeId}
      (hnext : ∀ r u, Confined ctx p₀ N u → CallsChecked ctx O u → Entered ctx O W u.walk call →
        (checking ctx O W).KeepsAt u (next r) fun _ v => Closes ctx call v) :
      (checking ctx O W).KeepsAt t (expand ctx (typeExpr ctx) id types >>= next)
        fun _ v => Closes ctx call v := by
    refine .bind ((expand_checks htree (typeExpr_checks htree) ht hid).and
      (expand_confined hT (typeExpr_confined hT) hct hdenoted).succeeds) ?_
    rintro r u hu hle' ⟨-, hcu, -, -⟩
    exact hnext r u hcu hu (hle'.walk ▸ hle.walk ▸ hcall)
  refine .bind_read ht (b := t) rfl ?_
  dsimp only
  split
  · next id hid =>
      exact hexpand (ht.scopes.findTemplate_lt hid) fun r u hcu hu hcall' =>
        inferConstruction_checks htree hinfer r hargs hcu hu hcall'
  · split
    · next id index hid =>
        refine hexpand (ht.scopes.lookup_lt hid) fun r u hcu hu hcall' => ?_
        refine .bind_read hu (b := u) rfl ?_
        split
        · exact inferConstruction_checks htree hinfer _ hargs hcu hu hcall'
        · exact fail_checks _
    · exact mismatch_checks _

end Calls

end Typing

end ClassLang
