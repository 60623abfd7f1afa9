import ClassLang.Proofs.Typing.PoolChanges

/-!
# Finding a method twice

A call with a receiver looks a name up twice: first as a signature, against which the arguments are
checked, and then as an operation. Operators come first in the second lookup, and they have no part in
the first one. So the two agree for all names but those that spell an operator: a method with such a
name is found as a signature and then refused as an unknown operation
(`methods_found_unless_operators`).

Between the lookups the arguments are typed. What was found by a plain name stays, because methods are
only ever added, after those that are there.
-/

namespace ClassLang

open Relation (ReflTransGen)

/-- The operation that a signature stands for, which was found on an entry: a method of a class or data
type, or a field of a built-in record. -/
inductive TypeData.Calls (d : TypeData) (sig : Signature) : Operation → Prop
  | method {name : String} (h : d.nominalName? = some name) (hmem : sig ∈ d.methods) :
      Calls d sig (.method sig)
  | element (index : Nat) (h : d = .string ∨ d = .typeRecord ∨ d = .dynamic) :
      Calls d sig (.element index sig.result)

/-- The operation has the result that the signature promises. -/
theorem TypeData.Calls.resultType_eq {d : TypeData} {sig : Signature} {operation : Operation}
    (h : d.Calls sig operation) (operand : TypeId) : operation.resultType operand = sig.result := by
  cases h <;> rfl

/-- Entries that have methods are classes and data types. -/
theorem TypeData.methods_cases {d : TypeData} {sig : Signature} (h : sig ∈ d.methods) :
    (∃ name ivars, d = .reference name ivars d.methods) ∨ ∃ name cases, d = .data name cases d.methods := by
  cases d with
  | reference name ivars methods => exact .inl ⟨name, ivars, rfl⟩
  | data name cases methods => exact .inr ⟨name, cases, rfl⟩
  | _ => simp [methods] at h

/-- A method that is found is looked up by its plain name. -/
theorem TypeData.namedOperation?_of_method {d : TypeData} {name : String} {sig : Signature}
    (h : d.method? name = some sig) : d.namedOperation? name = some (.method sig) := by
  obtain ⟨_, _, heq⟩ | ⟨_, _, heq⟩ := methods_cases (List.mem_of_find?_eq_some h) <;>
    rw [heq] at h ⊢ <;> simp [namedOperation?, h]

/-- What is looked up by a plain name is a method or a field of a built-in record. -/
theorem TypeData.namedOperation?_cases {d : TypeData} {name : String} {operation : Operation}
    (h : d.namedOperation? name = some operation) :
    (∃ sig, d.method? name = some sig ∧ operation = .method sig) ∨
      (d = .string ∨ d = .typeRecord ∨ d = .dynamic) ∧
        ∃ index result, operation = .element index result := by
  unfold namedOperation? at h
  split at h
  case h_4 =>
    obtain ⟨sig, hsig, rfl⟩ := Option.map_eq_some_iff.1 h
    exact .inl ⟨sig, hsig, rfl⟩
  all_goals
    split at h <;> cases h
    exact .inr ⟨by simp, _, _, rfl⟩

namespace Pool

variable {p q : Pool} {t owner : TypeId} {name : String} {sig : Signature}

/-! ## The two lookups -/

/-- A signature that is found stands for an operation that is looked up by the plain name. -/
theorem operation_of_findSignature? (h : p.findSignature? t name = some sig) :
    ∃ operation, (p.view t).namedOperation? name = some operation ∧ (p.view t).Calls sig operation := by
  unfold findSignature? at h
  cases hfound : (p.view t).namedOperation? name with
  | none => simp [hfound] at h
  | some operation =>
      refine ⟨operation, rfl, ?_⟩
      obtain ⟨sig', hmethod, rfl⟩ | ⟨hrecord, index, result, rfl⟩ :=
        TypeData.namedOperation?_cases hfound
      · obtain rfl : sig' = sig := by simpa [hfound] using h
        have hmem : sig' ∈ (p.view t).methods := List.mem_of_find?_eq_some hmethod
        have hnominal : ∃ nominal, (p.view t).nominalName? = some nominal := by
          obtain ⟨nominal, _, heq⟩ | ⟨nominal, _, heq⟩ := TypeData.methods_cases hmem
          · exact ⟨nominal, by rw [heq]; rfl⟩
          · exact ⟨nominal, by rw [heq]; rfl⟩
        obtain ⟨nominal, hname⟩ := hnominal
        exact .method hname hmem
      · simp only [hfound, Option.some.injEq] at h
        subst h
        exact .element index hrecord

/-- A name that spells no operator is looked up as a plain one. -/
theorem findOperation_of_named {operation : Operation} (hname : BinaryOp.ofSymbol? name = none)
    (h : (p.view t).namedOperation? name = some operation) :
    p.findOperation t name = .ok operation := by
  simp [findOperation, hname, h]

/-- Types on which something is looked up by a plain name have no operators. -/
theorem operator?_of_named {operation : Operation} (op : BinaryOp)
    (h : (p.view t).namedOperation? name = some operation) : p.operator? t op = none := by
  cases hop : p.operator? t op with
  | none => rfl
  | some other =>
      obtain heq | heq | heq := TypeData.primitive_of_operator hop <;>
        simp [heq, TypeData.namedOperation?, TypeData.method?, TypeData.methods] at h

/-- The two lookups agree unless the name spells an operator; then the second one fails. -/
theorem findOperation_of_findSignature? (h : p.findSignature? t name = some sig) :
    (BinaryOp.ofSymbol? name = none →
        ∃ operation, p.findOperation t name = .ok operation ∧ (p.view t).Calls sig operation) ∧
      (BinaryOp.ofSymbol? name ≠ none →
        p.findOperation t name = .error (.unknownOperation name (p.display t))) := by
  obtain ⟨operation, hnamed, hcalls⟩ := operation_of_findSignature? h
  refine ⟨fun hname => ⟨operation, findOperation_of_named hname hnamed, hcalls⟩, fun hname => ?_⟩
  obtain ⟨op, hop⟩ := Option.ne_none_iff_exists'.mp hname
  simp [findOperation, hop, operator?_of_named op hnamed]

/-! ## What is found stays -/

/-- Methods are only added, after those that are there. -/
theorem Change.methods_prefix (h : p.Change q) (t : TypeId) :
    (p.data t).methods <+: (q.data t).methods := by
  have happends {d : TypeData} {q : Pool} (hq : p.Appends d q) :
      (p.data t).methods <+: (q.data t).methods := by
    rw [hq.data_eq]
    split
    · next ht => simp [data_of_le (Nat.le_of_eq ht.symm), TypeData.methods]
    · exact List.prefix_refl _
  have hshare (d : TypeData) : (p.data t).methods <+: ((p.share d).2.data t).methods := by
    obtain ⟨_, -, heq⟩ | ⟨-, -, hq⟩ := p.share_cases d
    · rw [heq]
    · exact happends hq
  have hset {p : Pool} {owner : TypeId} {d : TypeData}
      (hd : (p.data owner).methods <+: d.methods) :
      (p.data t).methods <+: ((p.set owner d).data t).methods := by
    rw [data_set]
    split
    · next heq => exact heq.1 ▸ hd
    · exact List.prefix_refl _
  cases h with
  | pointer target => exact hshare _
  | closure params result captures =>
      unfold Pool.closure
      split
      · exact hshare _
      · exact happends (.push p _)
  | freshVar => exact happends (.push p _)
  | derive => exact happends (.push p _)
  | newReference => exact happends (.push p _)
  | newData => exact happends (.push p _)
  | addCase h =>
      obtain ⟨ownerName, cases, methods, hd, -, rfl⟩ := addCase_cases h
      refine (happends (.push p _)).trans (hset ?_)
      rw [data_push_of_lt p _ (lt_size_of_data_ne (by simp [hd])), hd]
      exact List.prefix_refl _
  | setIvars h =>
      obtain ⟨name, old, methods, hd, rfl⟩ := setIvars_cases h
      exact hset (hd ▸ List.prefix_refl _)
  | addMethod h =>
      obtain ⟨d, -, rfl, -, -, -, hmethods⟩ := addMethod_cases h
      exact hset (hmethods ▸ List.prefix_append _ _)
  | unify h =>
      obtain ⟨hd, rfl | rfl⟩ := unify_cases h
      · exact List.prefix_refl _
      · exact hset (by simp [hd, TypeData.methods])

/-- What was looked up by a plain name on an entry is found again after an operation. -/
theorem Change.namedOperation?_eq (h : p.Change q) {operation : Operation}
    (hnamed : (p.data t).namedOperation? name = some operation) :
    (q.data t).namedOperation? name = some operation := by
  have hlt : t < p.size := lt_size_of_data_ne fun hvoid => by
    simp [hvoid, TypeData.namedOperation?, TypeData.method?, TypeData.methods] at hnamed
  obtain ⟨sig, hmethod, rfl⟩ | ⟨hrecord, -⟩ := TypeData.namedOperation?_cases hnamed
  · exact TypeData.namedOperation?_of_method ((h.methods_prefix t).find?_eq_some hmethod)
  · rwa [h.evolves.data_eq_of_fixed hlt] <;>
      obtain heq | heq | heq := hrecord <;> simp [heq, TypeData.nominalName?, TypeData.isVar]

/-- Only a known entry has something that is looked up by a plain name. -/
theorem resolve_of_named {operation : Operation}
    (h : (p.data t).namedOperation? name = some operation) : p.resolve t = t := by
  refine resolve_of_not_var ?_
  obtain ⟨sig, hmethod, -⟩ | ⟨hrecord, -⟩ := TypeData.namedOperation?_cases h
  · obtain ⟨_, _, heq⟩ | ⟨_, _, heq⟩ :=
      TypeData.methods_cases (List.mem_of_find?_eq_some hmethod) <;> rw [heq] <;> rfl
  · obtain heq | heq | heq := hrecord <;> rw [heq] <;> rfl

/-- A signature that was found on a known type is found again while the pool changes. -/
theorem findSignature?_of_changes (h : ReflTransGen Change p q) (hknown : p.resolve t = t)
    (hsig : p.findSignature? t name = some sig) : q.findSignature? t name = some sig := by
  obtain ⟨operation, hnamed, -⟩ := operation_of_findSignature? hsig
  rw [view, hknown] at hnamed
  have hlater : (q.data t).namedOperation? name = some operation := by
    induction h with
    | refl => exact hnamed
    | tail _ hchange ih => exact hchange.namedOperation?_eq ih
  unfold findSignature? view at hsig ⊢
  rwa [resolve_of_named hlater, hlater, ← hnamed, ← resolve_of_named hnamed]

/-- A method that was registered is found under its name. -/
theorem findSignature?_of_addMethod (h : p.addMethod owner sig = .ok q) :
    q.findSignature? owner sig.name = some sig ∧ q.resolve owner = owner := by
  obtain ⟨hnew, -⟩ := addMethod_eq h
  obtain ⟨⟨nominal, hname⟩, -, hmem⟩ := addMethod_registers h
  obtain ⟨d, -, rfl, -, -, -, hmethods⟩ := addMethod_cases h
  have hlt : owner < p.size := lt_size_of_data_ne fun hvoid => by
    simp [hvoid, TypeData.nominalName?] at hname
  have hmethod : ((p.set owner d).data owner).method? sig.name = some sig := by
    have hfirst : (p.data owner).methods.find? (·.name == sig.name) = none :=
      List.find?_eq_none.mpr fun m hm => by simpa using hnew m hm
    rw [data_set_self p d hlt, TypeData.method?, hmethods, List.find?_append, hfirst]
    simp
  have hnamed := TypeData.namedOperation?_of_method hmethod
  have hresolve := resolve_of_named hnamed
  exact ⟨by simp [findSignature?, view, hresolve, hnamed], hresolve⟩

/-- The result of an operator on known types is known. -/
theorem isVar_of_operatorResult (hboolean : p.data .boolean = .boolean) {lhs rhs : TypeId}
    {op : BinaryOp} (h : p.operatorResult lhs op rhs = .ok t) : (p.data t).isVar = false := by
  unfold operatorResult at h
  split at h
  · cases h
  · next operation hop =>
      split at h
      · cases h
        exact isVar_resultType hboolean hop
      · cases h

/-- What a type strictly stands for stands for itself. -/
theorem resolve_of_resolveStrict (he : initial.Evolves p) {given : TypeId}
    (h : p.resolveStrict given = .ok t) : p.resolve t = t := by
  refine resolve_of_not_var ?_
  unfold resolveStrict resolveStrictWithin at h
  dsimp only at h
  split at h
  · cases h
  · next root op rhs _ =>
      split at h
      · cases h
      · next fuel _ =>
          cases hroot : p.resolveStrictWithin fuel root with
          | error e => rw [hroot] at h; cases h
          | ok root =>
              cases hrhs : p.resolveStrictWithin fuel rhs with
              | error e => rw [hroot, hrhs] at h; cases h
              | ok rhs =>
                  rw [hroot, hrhs] at h
                  have hboolean := he.data_eq_of_fixed (t := TypeId.boolean) (by decide) rfl rfl
                  exact isVar_of_operatorResult hboolean h
  · next hvar hderived =>
      cases h
      cases hd : p.data (p.resolve given) with
      | var target => exact absurd hd (hvar target)
      | derived root op rhs => exact absurd hd (hderived root op rhs)
      | _ => rfl

end Pool

/-- What a call means for which the operation was found. -/
def Operation.target (sig : Signature) : Operation → Target
  | .element index _ => .element index
  | _ => .method sig

namespace Typing

variable {σ : Type} {ctx : TypingContext σ} {fuel : Nat} {node receiver : NodeId} {method : String}
  {args : List NodeId} {sig : Signature} {t : TypeId} {s u : TypingState σ}

/-! ## Calls -/

/-- A call of a method whose arguments fit: the receiver was typed, its type is known and has a
signature of the name, and the arguments were checked against it. -/
structure CheckedCall (ctx : TypingContext σ) (fuel : Nat) (receiver : NodeId) (method : String)
    (args : List NodeId) (sig : Signature) (t : TypeId) (s u : TypingState σ) : Prop where
  /-- The receiver does not name an imported module. -/
  object : inferReceiverCall.importedModule ctx receiver s = .ok none s
  checked : ∃ given v, inferWithin ctx fuel receiver s = .ok given v ∧
    v.pool.resolveStrict given = .ok t ∧ v.pool.findSignature? t method = some sig ∧
    checkArguments ctx (inferWithin ctx fuel) sig args v = .ok () u

namespace CheckedCall

/-- A checked call succeeds if the operation is found. -/
theorem run_ok (h : CheckedCall ctx fuel receiver method args sig t s u) {operation : Operation}
    (hoperation : u.pool.findOperation t method = .ok operation) :
    inferReceiverCall ctx (inferWithin ctx fuel) node receiver method args s =
      .ok sig.result { u with table := u.table.setTarget ⟨u.walk, node⟩ (operation.target sig) } := by
  obtain ⟨given, v, hreceiver, hstrict, hsig, hargs⟩ := h.checked
  unfold inferReceiverCall
  simp only [bind_of_ok h.object, bind_of_ok hreceiver, get_bind_apply, hstrict, ofExcept,
    pure_bind, hsig, bind_of_ok hargs, hoperation]
  cases operation <;> rfl

/-- A checked call stops with the error of the second lookup. -/
theorem run_error (h : CheckedCall ctx fuel receiver method args sig t s u) {e : CompileError}
    (hoperation : u.pool.findOperation t method = .error e) :
    inferReceiverCall ctx (inferWithin ctx fuel) node receiver method args s =
      .error (.error e) u := by
  obtain ⟨given, v, hreceiver, hstrict, hsig, hargs⟩ := h.checked
  unfold inferReceiverCall
  simp only [bind_of_ok h.object, bind_of_ok hreceiver, get_bind_apply, hstrict, ofExcept,
    pure_bind, hsig, bind_of_ok hargs, hoperation]
  rfl

/-- The signature is found again once the arguments were checked. -/
theorem findSignature? (h : CheckedCall ctx fuel receiver method args sig t s u)
    (hs : Pool.initial.Evolves s.pool) : u.pool.findSignature? t method = some sig := by
  obtain ⟨given, v, hreceiver, hstrict, hsig, hargs⟩ := h.checked
  have hv := pool_changes_of_keeps (inferWithin_changes ctx fuel receiver) hreceiver
  have hu := pool_changes_of_keeps (WalkRules.checkArguments_keeps
    (fun arg _ => inferWithin_changes ctx fuel arg) sig) hargs
  have hknown := Pool.resolve_of_resolveStrict (hs.trans (Pool.evolves_of_changes hv)) hstrict
  exact Pool.findSignature?_of_changes hu hknown hsig

end CheckedCall

/-- Methods are found unless their names spell operators. A signature that is found on a type stands
for an operation with the same result, which is found as well if the name spells no operator: the
method itself on a class or data type, and a read of the field on a built-in record. Every method
that is registered is found, and stays so while the pool changes. So a call whose arguments were
checked succeeds. But if the name spells an operator then the operation is unknown, and so the call
fails once its arguments were checked. -/
theorem methods_found_unless_operators (p : Pool) (name : String) :
    (∀ (t : TypeId) (sig : Signature), p.findSignature? t name = some sig →
        (BinaryOp.ofSymbol? name = none → ∃ operation, p.findOperation t name = .ok operation ∧
          (p.view t).Calls sig operation ∧ operation.resultType (p.resolve t) = sig.result) ∧
        (BinaryOp.ofSymbol? name ≠ none →
          p.findOperation t name = .error (.unknownOperation name (p.display t)))) ∧
    (∀ (q r : Pool) (owner : TypeId) (sig : Signature), sig.name = name →
      p.addMethod owner sig = .ok q → ReflTransGen Pool.Change q r →
        r.findSignature? owner name = some sig) ∧
    ∀ {σ : Type} (ctx : TypingContext σ) (fuel : Nat) (node receiver : NodeId) (args : List NodeId)
      (sig : Signature) (t : TypeId) (s u : TypingState σ), s.pool = p → Pool.initial.Evolves p →
      CheckedCall ctx fuel receiver name args sig t s u →
        (BinaryOp.ofSymbol? name = none → ∃ operation, (u.pool.view t).Calls sig operation ∧
          inferReceiverCall ctx (inferWithin ctx fuel) node receiver name args s =
            .ok sig.result
              { u with table := u.table.setTarget ⟨u.walk, node⟩ (operation.target sig) }) ∧
        (BinaryOp.ofSymbol? name ≠ none →
          inferReceiverCall ctx (inferWithin ctx fuel) node receiver name args s =
            .error (.error (.unknownOperation name (u.pool.display t))) u) := by
  refine ⟨fun t sig hsig => ?_, fun q r owner sig hname hadd hchanges => ?_, ?_⟩
  · obtain ⟨hplain, hoperator⟩ := Pool.findOperation_of_findSignature? hsig
    refine ⟨fun hname => ?_, hoperator⟩
    obtain ⟨operation, hfound, hcalls⟩ := hplain hname
    exact ⟨operation, hfound, hcalls, hcalls.resultType_eq _⟩
  · obtain ⟨hfound, hknown⟩ := Pool.findSignature?_of_addMethod hadd
    exact hname ▸ Pool.findSignature?_of_changes hchanges hknown hfound
  · intro σ ctx fuel node receiver args sig t s u hp hs hcall
    subst hp
    obtain ⟨hplain, hoperator⟩ := Pool.findOperation_of_findSignature? (hcall.findSignature? hs)
    refine ⟨fun hname => ?_, fun hname => hcall.run_error (hoperator hname)⟩
    obtain ⟨operation, hfound, hcalls⟩ := hplain hname
    exact ⟨operation, hcalls, hcall.run_ok hfound⟩

/-- A method of that name, from Integer to Integer. -/
def integerMethod (name : String) : Signature :=
  { name, linkName := "_Tc_Box_" ++ name, params := [{ name := some "x", type := .integer }],
    result := .integer }

/-- A call of a method on `box`, with the argument 5. -/
def boxCallContext (method : String) : TypingContext Unit where
  tree := .ofStatements #[.ident "box", .number 5, .call (some 0) method [1]] [2]
  importer := .none

/-- A state with a class `Box`, which has a method of that name, and a variable `box` of this class. -/
def boxCallStart (method : String) : TypingState Unit where
  pool := (Pool.initial.newReference "Box").2.set 8 (.reference "Box" [] [integerMethod method])
  imports := ()
  scopes := ScopeChain.bind {} "box" (.value 8)

/-- Typing the call. -/
def boxCall (method : String) : EStateM.Result Halt (TypingState Unit) TypeId :=
  inferReceiverCall (boxCallContext method) (inferWithin (boxCallContext method) 3) 2 0 method [1]
    (boxCallStart method)

/-- The method is registered on the class. -/
theorem boxCall_registered (method : String) :
    (Pool.initial.newReference "Box").2.addMethod 8 (integerMethod method) =
      .ok (boxCallStart method).pool :=
  rfl

/-- Checking the argument of the call, which comes after the receiver. -/
def boxCallArguments (method : String) : EStateM.Result Halt (TypingState Unit) Unit :=
  checkArguments (boxCallContext method) (inferWithin (boxCallContext method) 3)
    (integerMethod method) [1]
    (finalState (inferWithin (boxCallContext method) 3 0 (boxCallStart method)))

/-- If its argument fits then the call is a checked one. -/
theorem boxCall_checked (method : String)
    (h : okWith (fun _ _ => ()) (boxCallArguments method) = some ()) :
    ∃ u, CheckedCall (boxCallContext method) 3 0 method [1] (integerMethod method) 8
      (boxCallStart method) u := by
  obtain ⟨hsig, hknown⟩ := Pool.findSignature?_of_addMethod (boxCall_registered method)
  have hstrict : (boxCallStart method).pool.resolveStrict 8 = .ok 8 := by
    have hresolved : (boxCallStart method).pool.isUnresolved 8 = false := by
      rw [Pool.isUnresolved, Pool.view, hknown]
      rfl
    rw [Pool.resolveStrict, Pool.resolveStrictWithin_of_resolved hresolved, hknown]
  obtain ⟨_, u, hargs, -⟩ := exists_of_okWith h
  exact ⟨u, rfl, 8, _, rfl, hstrict, hsig, hargs⟩

/-- The call of a method `plus` is typed. -/
theorem methods_found_unless_operators_plus :
    BinaryOp.ofSymbol? "plus" = none ∧ haltOf? (boxCall "plus") = none := by
  obtain ⟨u, hcall⟩ := boxCall_checked "plus" (by decide +kernel)
  have hbuiltins : Pool.initial.Evolves (boxCallStart "plus").pool :=
    (Pool.Change.newReference _ "Box").evolves.trans
      (Pool.Change.addMethod (boxCall_registered "plus")).evolves
  have hname : BinaryOp.ofSymbol? "plus" = none := by decide +kernel
  obtain ⟨operation, -, hrun⟩ :=
    ((methods_found_unless_operators _ _).2.2 _ _ 2 _ _ _ _ _ _ rfl hbuiltins hcall).1 hname
  exact ⟨hname, by rw [boxCall, hrun]; rfl⟩

/-- A method `+` of a class is registered and its signature is found, but no operation: a call of it
fails after its argument was checked. -/
theorem operator_method_unknown :
    (Pool.initial.newReference "Box").2.addMethod 8 (integerMethod "+") =
        .ok (boxCallStart "+").pool ∧
      (boxCallStart "+").pool.findSignature? 8 "+" = some (integerMethod "+") ∧
      (boxCallStart "+").pool.findOperation 8 "+" = .error (.unknownOperation "+" "Box") ∧
      (∃ u, CheckedCall (boxCallContext "+") 3 0 "+" [1] (integerMethod "+") 8 (boxCallStart "+") u) ∧
      haltOf? (boxCall "+") = some (.error (.unknownOperation "+" "Box")) :=
  ⟨rfl, by decide +kernel, by decide +kernel, boxCall_checked "+" (by decide +kernel), by decide +kernel⟩

end Typing

end ClassLang
