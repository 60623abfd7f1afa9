import ClassLang.Proofs.Lowering.FaultsBelow
import ClassLang.Proofs.Lowering.Settled
import ClassLang.Proofs.Pool.TypeEquality
import ClassLang.Proofs.Session.Frame
import ClassLang.Proofs.Typing.ArgumentModules
import ClassLang.Proofs.Typing.ArgumentOrder

/-!
# Checked arguments are the passed arguments

Typing orders the types of the arguments of a call, generating orders their positions. Where an
argument ends up does not depend on what is ordered, so a parameter gets the argument whose type was
compared with it. What converted when the call was checked converts when code is generated.

The arguments of a call are generated as written, and then passed in the order of the parameters:
`lowerArgs` is `lowerWritten` followed by `passPlaced`, for the places that `orderArguments` gives to
the positions of the arguments. An argument whose recorded type converts to that of a parameter is
not refused for it.
-/

namespace ClassLang

/-- If a type converts, then so does what it stands for once it is known. -/
theorem Pool.Founded.conversion?_of_resolveStrict {p : Pool} (h : p.Founded)
    {given t wanted : TypeId} (hcan : p.canConvert given wanted = true)
    (hstrict : p.resolveStrict given = .ok t) : (p.conversion? t wanted).isSome := by
  rcases h.resolveStrict_cases given with ⟨-, hvalue⟩ | ⟨e, -, herror⟩
  · obtain rfl : p.resolve given = t := Except.ok.inj (hvalue.symm.trans hstrict)
    rw [← h.conversion?_congr_left (sameType_of_resolve_eq (h.resolve_resolve given).symm)]
    exact hcan
  · rw [herror] at hstrict
    cases hstrict

namespace Lower

open IR (Value)

/-! ## The walk of a body -/

/-- A step that succeeds stays in the walk of the body. -/
def KeepsWalk {α : Type} (step : Lower α) : Prop :=
  ∀ b o, succeeding.KeepsAt o (step.run b) fun r _ => r.2.walk = b.walk

/-- If any error is allowed, then all nodes are prepared. -/
theorem prepared_of_all_allowed (ctx : LoweringContext) (walk : InstanceId) :
    Prepared (fun _ => True) (fun _ => False) ctx walk fun _ => True := by
  have htype (node : NodeId) : TypeKnown (fun _ => True) ctx walk node := fun _ _ => trivial
  have hpart (node : NodeId) : PartReady (fun _ => True) ctx walk (fun _ => True) node :=
    ⟨htype node, trivial⟩
  have htarget (node : NodeId) : TargetKnown (fun _ => True) (fun _ => False) ctx walk node :=
    ⟨fun _ _ => trivial, fun _ _ _ _ => .inr trivial⟩
  intro node _
  unfold NodeReady
  split <;> simp [htype, hpart, htarget, CallReady]

/-- Generating a node stays in the walk of the body, however deep it nests. -/
theorem lowerWithin_keepsWalk (ctx : LoweringContext) (fuel : Nat) (node : NodeId) :
    KeepsWalk (lowerWithin ctx fuel node) := by
  intro b o
  have hsafe : Safe ctx (fun _ => True) (fun _ => False) b.walk (lowerWithin ctx fuel node) :=
    lowerWithin_safe ⟨trivial, fun _ _ => trivial, fun _ _ => trivial⟩
      (prepared_of_all_allowed ctx b.walk) fuel node trivial
  exact (hsafe b rfl o fun _ h => h.elim).succeeds.weaken fun _ _ _ _ h => h.2.2

section Passing

variable (ctx : LoweringContext) (lower : NodeId → Lower (Option Value))

/-- The arguments of a call by their positions, with the names they carry. -/
def positions (tree : SyntaxTree) (args : List NodeId) : List (Option String × Nat) :=
  args.zipIdx.map fun (arg, position) =>
    match tree.node arg with
    | .namedArg name _ => (some name, position)
    | _ => (none, position)

/-- The values and types of the arguments of a call, generated as written. -/
def lowerWritten (args : List NodeId) : Lower (List (Value × TypeId)) :=
  args.mapM fun arg => do
    let value ← lowerValue lower arg
    pure (value, ← typeOf ctx arg)

/-- Pass generated arguments by their places: each parameter gets the one that was placed on it,
turned into the parameter's type; the further ones follow. -/
def passPlaced (sig : Signature) (placed : OrderedArgs Nat) (lowered : List (Value × TypeId)) :
    Lower (List Value) := do
  let at' (position : Nat) : Value × TypeId := lowered.getD position (default, .void)
  let fixed ← (placed.fixed.zip sig.params).mapM fun (position, param) =>
    convert ctx (at' position).1 (at' position).2 param.type
  let extra ← placed.extra.mapM fun position =>
    if (at' position).2 = .boolean then convert ctx (at' position).1 (at' position).2 .integer
    else pure (at' position).1
  pure (fixed ++ extra)

/-- Arguments that can be ordered are generated as written and passed by their places. -/
theorem lowerArgs_eq {sig : Signature} {args : List NodeId} {placed : OrderedArgs Nat}
    (h : orderArguments sig (positions ctx.tree args) = .ok placed) :
    lowerArgs ctx lower sig args = (do
      let lowered ← lowerWritten ctx lower args
      passPlaced ctx sig placed lowered) := by
  show ((liftM (Emit.ofExcept (orderArguments sig (positions ctx.tree args))) : Lower _) >>=
    fun ordered => lowerWritten ctx lower args >>= passPlaced ctx sig ordered) = _
  rw [h]
  rfl

variable {ctx lower}

/-- The types of generated arguments are those that were recorded for them. -/
theorem lowerWritten_types (hlower : ∀ node, KeepsWalk (lower node)) (args : List NodeId)
    (b : Body) (o : Output) :
    succeeding.KeepsAt o ((lowerWritten ctx lower args).run b) fun r _ =>
      List.Forall₂ (fun arg entry => ctx.recordedType b.walk arg = .ok entry.2) args r.1 := by
  induction args generalizing b o with
  | nil => exact .pure trivial .nil
  | cons arg args ih =>
      have hvalue : succeeding.KeepsAt o ((lowerValue lower arg).run b)
          fun r _ => r.2.walk = b.walk := by
        refine .bind (hlower arg b o) ?_
        rintro ⟨value?, b'⟩ o' - - hwalk
        cases value? with
        | none => exact .of_error rfl trivial
        | some value => exact .pure trivial hwalk
      have hfirst : succeeding.KeepsAt o ((do
          let value ← lowerValue lower arg
          pure (value, ← typeOf ctx arg) : Lower (Value × TypeId)).run b) fun r _ =>
            r.2.walk = b.walk ∧ ctx.recordedType b.walk arg = .ok r.1.2 := by
        refine .bind hvalue ?_
        rintro ⟨value, b'⟩ o' - - hwalk
        exact typeOf_bind_keeps fun t ht => .pure trivial ⟨hwalk, hwalk ▸ ht⟩
      rw [lowerWritten, List.mapM_cons]
      refine .bind hfirst ?_
      rintro ⟨entry, b'⟩ o' - - ⟨hwalk, hentry⟩
      refine .bind (ih b' o') ?_
      rintro ⟨lowered, b''⟩ o'' - - hlowered
      exact .pure trivial (.cons hentry (hwalk ▸ hlowered))

end Passing

end Lower

/-! ## What was checked -/

open Lower (lowerArgs lowerWithin lowerWritten passPlaced positions)
open Typing (CheckEnds ModuleCallsChecked argumentLabel)

variable {σ : Type}

/-- Labelling the types of arguments is labelling their positions. -/
theorem zip_labels_eq (ctx : TypingContext σ) {args : List NodeId} {types : List TypeId}
    (hlength : types.length = args.length) :
    (args.map (argumentLabel ctx)).zip types =
      (positions ctx.tree args).map fun arg => (arg.1, types.getD arg.2 .void) := by
  refine List.ext_getElem (by simp [positions, hlength]) fun i hi hi' => ?_
  have hargs : i < args.length := by simpa [positions] using hi'
  simp only [positions, List.getElem_zip, List.getElem_map, List.getElem_zipIdx, Nat.zero_add]
  have hget : types.getD i .void = types.get ⟨i, hlength ▸ hargs⟩ := by
    simp [List.getD, hlength, hargs]
  unfold argumentLabel
  split <;> simp [*]

/-- A call of a unit passes what was checked. Typing gave its arguments these types, and generating
passes their positions in this order. -/
structure PassesChecked (ctx : TypingContext σ) (typed : TypedModule) (p : Pool) (v : Visit)
    (sig : Signature) (args : List NodeId) (types : List TypeId) (placed : OrderedArgs Nat) :
    Prop where
  /-- The types that the check of the arguments has found are recorded in the end. -/
  recorded : typed.table.RecordsTypes v.walk args types
  checked : ∃ s, CheckEnds ctx v.walk sig args types s ∧ s.pool.Evolves p
  /-- The places of the arguments: one on each parameter, and each argument is passed once. -/
  places : orderArguments sig (positions ctx.tree args) = .ok placed
  arity : placed.fixed.length = sig.params.length
  once : (placed.fixed ++ placed.extra).Perm (List.range args.length)
  /-- A parameter was compared with the type of the argument that is placed on it. -/
  compared : orderArguments sig ((args.map (argumentLabel ctx)).zip types) =
    .ok (placed.map fun position => types.getD position .void)
  /-- Arguments are generated as written, then passed by their places. -/
  passed : ∀ lower, lowerArgs { tree := ctx.tree, pool := p, typed } lower sig args = (do
    let lowered ← lowerWritten { tree := ctx.tree, pool := p, typed } lower args
    passPlaced { tree := ctx.tree, pool := p, typed } sig placed lowered)
  /-- The type of the argument that was generated for a parameter converts to the parameter's. -/
  converts : ∀ fuel b o lowered b' o', b.walk = v.walk →
    (lowerWritten { tree := ctx.tree, pool := p, typed }
      (lowerWithin { tree := ctx.tree, pool := p, typed } fuel) args).run b o =
        .ok (lowered, b') o' →
    ∀ pair ∈ placed.fixed.zip sig.params, ∃ value t, lowered[pair.1]? = some (value, t) ∧
      (p.conversion? t pair.2.type).isSome

/-- A checked call passes what was checked. -/
theorem Typing.CallChecked.passes {ctx : TypingContext σ} {typed : TypedModule} {p : Pool}
    (hp : p.Founded) {v : Visit} (h : CallChecked ctx typed.table p v) {args : List NodeId}
    {target : Target} {sig : Signature} (hargs : ctx.tree.callArgs? v.node = some args)
    (htarget : typed.table.targets[v]? = some target) (hsig : target.checked? = some sig) :
    ∃ types placed, PassesChecked ctx typed p v sig args types placed := by
  obtain ⟨types, hrecorded, s, hends, he⟩ := h args target sig hargs htarget hsig
  have hlength : types.length = args.length := hrecorded.length_eq.symm
  obtain ⟨ordered, hordered, hconverts⟩ := hends.converts
  have hcompared := hordered
  rw [zip_labels_eq ctx hlength] at hordered
  replace hordered := (orderArguments_map (types.getD · .void) sig _).symm.trans hordered
  cases hplaced : orderArguments sig (positions ctx.tree args) with
  | error e =>
      rw [hplaced] at hordered
      cases hordered
  | ok placed =>
      rw [hplaced] at hordered
      obtain rfl : placed.map (fun position => types.getD position .void) = ordered :=
        Except.ok.inj hordered
      obtain ⟨harity, honce⟩ := orderArguments_places hplaced
      have hpositions : (positions ctx.tree args).map (·.2) = List.range args.length := by
        refine List.ext_getElem (by simp [positions]) fun i _ _ => ?_
        simp only [positions, List.getElem_map, List.getElem_zipIdx, List.getElem_range]
        split <;> simp
      rw [hpositions] at honce
      refine ⟨types, placed, hrecorded, ⟨s, hends, he⟩, hplaced, harity, honce, hcompared,
        fun lower => Lower.lowerArgs_eq _ _ hplaced, ?_⟩
      intro fuel b o lowered b' o' hwalk hrun
      rintro ⟨position, param⟩ hpair
      have hlowered := ((Lower.lowerWritten_types
        (Lower.lowerWithin_keepsWalk { tree := ctx.tree, pool := p, typed } fuel) args b o).ok
          hrun).2.2
      rw [hwalk] at hlowered
      have hlt : position < args.length := by
        have hmem := honce.mem_iff.mp (List.mem_append_left _ (List.of_mem_zip hpair).1)
        simpa using hmem
      obtain ⟨given, hgiven⟩ : ∃ given, types[position]? = some given :=
        ⟨_, List.getElem?_eq_getElem (hlength ▸ hlt)⟩
      obtain ⟨⟨value, t⟩, hentry⟩ : ∃ entry, lowered[position]? = some entry :=
        ⟨_, List.getElem?_eq_getElem (hlowered.length_eq ▸ hlt)⟩
      refine ⟨value, t, hentry, hp.conversion?_of_resolveStrict (?_ : p.canConvert given _) ?_⟩
      · refine hends.founded.canConvert_of_evolves hp he (hconverts (given, param) ?_)
        have hmapped := List.mem_map_of_mem (f := Prod.map (types.getD · .void) id) hpair
        rw [← List.zip_map_left] at hmapped
        simpa [OrderedArgs.map, List.getD, hgiven] using hmapped
      · obtain ⟨hltTypes, hgiven⟩ := List.getElem?_eq_some_iff.mp hgiven
        obtain ⟨hltLowered, hentry⟩ := List.getElem?_eq_some_iff.mp hentry
        have hrecord := (List.forall₂_iff_get.mp hrecorded).2 position hlt hltTypes
        have htype := (List.forall₂_iff_get.mp hlowered).2 position hlt hltLowered
        simp only [List.get_eq_getElem, hgiven, hentry] at hrecord htype
        simp only [LoweringContext.recordedType, TypeTable.typeOf, hrecord] at htype
        exact htype

namespace Session

variable {γ : Type} {backend : Backend γ} {store : ModuleStore} {fuel : Nat} {tree : SyntaxTree}
  {s : Pool × Session γ}

/-- **Checked arguments are the passed arguments.** Ordering arguments does not depend on their
values. So for every call of a tree-shaped unit that is accepted wherever its compilation begins in
a session, under each walk: a parameter gets the argument whose type was compared with it, further
arguments are passed in the order in which they were checked, and no conversion to the type of a
parameter is refused. -/
theorem checked_arguments_passed (h : Begins backend store fuel tree s) (hshape : tree.TreeShaped)
    {typed : TypedModule} {t : TypingState (Session γ)}
    (hrun : Typing.calculate { tree, importer := importerWithin backend store fuel }
      { pool := s.1, imports := s.2 } = .ok typed t) :
    (∀ {α β : Type} (f : α → β) (sig : Signature) (args : List (Option String × α)),
      orderArguments sig (args.map fun arg => (arg.1, f arg.2)) =
        (orderArguments sig args).map (OrderedArgs.map f)) ∧
    ∀ (v : Visit) (args : List NodeId) (target : Target) (sig : Signature),
      tree.Below tree.root v.node → tree.callArgs? v.node = some args →
      typed.table.targets[v]? = some target → target.checked? = some sig →
      ∃ types placed, PassesChecked { tree, importer := importerWithin backend store fuel } typed
        t.pool v sig args types placed := by
  refine ⟨orderArguments_map, fun v args target sig hbelow hargs htarget hsig => ?_⟩
  obtain ⟨rfl, hchecked⟩ := Typing.calculate_checksCalls h.sound.pool.territory
    (importerWithin_lawful backend store fuel) hshape
    (h.sound.confined backend store fuel tree)
    (.initial ⟨fun _ _ _ => trivial, fun _ _ _ _ _ => trivial⟩) hrun
  have hcall : Typing.CallChecked _ t.typed.table t.pool v := hchecked.calls v hbelow
  exact hcall.passes hchecked.founded hargs htarget hsig

/-- A function `draw(x: Integer, y: Integer)`; `main` is `draw(y: true, x: 1)`. -/
def swappedArgumentsUnit : SyntaxTree :=
  .ofStatements #[.namedType "Integer", .typed "x" 0, .namedType "Integer", .typed "y" 2,
    .methodDec "draw" [1, 3] none none, .bool true, .namedArg "y" 5, .number 1, .namedArg "x" 7,
    .call none "draw" [6, 8], .methodDef "main" [] none 9] [4, 10]

/-- What `swappedArgumentsUnit` is typed with. -/
def swappedArgumentsContext : TypingContext (Session Unit) where
  tree := swappedArgumentsUnit
  importer := importerWithin Backend.typesOnly {} 1

/-- The signature of `draw`. -/
def swappedSignature : Signature where
  name := "draw"
  linkName := "draw"
  params := [⟨some "x", .integer⟩, ⟨some "y", .integer⟩]
  result := .void

/-- The second argument is passed first, and the Boolean that was written first is converted for the
second parameter. -/
theorem checked_arguments_passed_swapped :
    ∃ (typed : TypedModule) (t : TypingState (Session Unit)) (types : List TypeId)
        (placed : OrderedArgs Nat),
      Typing.calculate swappedArgumentsContext
        { pool := Pool.initial, imports := { output := () } } = .ok typed t ∧
      PassesChecked swappedArgumentsContext typed t.pool ⟨0, 9⟩ swappedSignature [6, 8] types
        placed ∧
      types = [.boolean, .integer] ∧ placed = { fixed := [1, 0], extra := [] } := by
  have hcalc : okWith (fun typed _ => (typed.table.targets[(⟨0, 9⟩ : Visit)]?,
        typed.table.get? ⟨0, 6⟩, typed.table.get? ⟨0, 8⟩))
      (Typing.calculate swappedArgumentsContext
        { pool := Pool.initial, imports := { output := () } }) =
      some (some (.function swappedSignature), some .boolean, some .integer) := by decide +kernel
  obtain ⟨typed, t, hrun, hfound⟩ := exists_of_okWith hcalc
  simp only [Prod.mk.injEq] at hfound
  obtain ⟨htarget, hfirst, hsecond⟩ := hfound
  have hbegins : Begins Backend.typesOnly {} 1 swappedArgumentsUnit
      (Pool.initial, { output := () }) := .unit (.start ()) swappedArgumentsUnit
  have hbelow : swappedArgumentsUnit.Below swappedArgumentsUnit.root 9 :=
    .tail (b := 10) (.single (by decide)) (by decide)
  obtain ⟨types, placed, hpasses⟩ := (checked_arguments_passed hbegins (by decide) hrun).2 ⟨0, 9⟩
    [6, 8] _ _ hbelow (by decide) htarget rfl
  refine ⟨typed, t, types, placed, hrun, hpasses, ?_, ?_⟩
  · have hrecorded := hpasses.recorded
    simp only [TypeTable.RecordsTypes, List.forall₂_cons_left_iff, List.forall₂_nil_left_iff,
      hfirst, hsecond] at hrecorded
    obtain ⟨_, _, ⟨⟩, ⟨_, _, ⟨⟩, rfl, rfl⟩, rfl⟩ := hrecorded
    rfl
  · have hplaces : orderArguments swappedSignature
        (positions swappedArgumentsUnit [6, 8]) = .ok { fixed := [1, 0], extra := [] } := by decide
    exact Except.ok.inj (hpasses.places.symm.trans hplaces)

end Session

end ClassLang
