import ClassLang.Proofs.Lowering.FollowingModule
import ClassLang.Proofs.Lowering.RunningLocals
import ClassLang.Proofs.Semantics.Arguments

/-!
# Running calls

The arguments of a call are evaluated as they are written, and each is converted to the type of the
parameter that it is placed on. A function `Answers` a call if running its body comes back with the
value; then so does the call.
-/

namespace ClassLang

open Execution (Context State World)
open IR (Build FunctionId HasOperands KeepsAdding Op Ty Value)
open IR.HasOperands (Below)

variable {η : Type} {E : Context η} {F : Output} {K : ScalarTypes} {α β γ : Type}

/-- Wherever it is called from, the function comes back with the value. -/
def Execution.Context.Answers (E : Context η) (g : FunctionId) (args : List Scalar) (v : Scalar) :
    Prop :=
  (E.module.function g).hasBody = true ∧
    ∀ waiting callers (world : World η), ∃ start t last world',
      E.enter? g (args.map Scalar.datum) waiting = some start ∧
        E.Reaches { frame := start, callers, world } t ∧
        E.step? t = some (Context.leave last (some v.datum) world' callers) ∧
        last.waiting = waiting ∧ world'.host = world.host ∧ world.memory.Grows world'.memory

/-! ## The call instruction -/

namespace Activation

variable {T : Activation η} {P : Execution.Frame → Prop} {g : FunctionId}

/-- The values of operands. -/
theorem eval?_operands {fr : Execution.Frame} {values : List Value} {args : List Scalar}
    (h : List.Forall₂ (fun v value => value.Denotes v fr) args values)
    (code : List IR.Instruction) :
    values.mapM (E.eval? { fr with code }) = some (args.map Scalar.datum) := by
  induction h with
  | nil => rfl
  | cons hhead _ ih =>
      rw [List.mapM_cons, E.eval?_code, hhead.eval?, ih]
      rfl

/-- A call of a function that answers gives what it answers. -/
theorem Executes.call (hT : T.Sound E F) {type : IR.FnType} {v? : Option Scalar} {args : List Scalar}
    {values : List Value}
    (hvalues : ∀ fr, P fr → List.Forall₂ (fun v value => value.Denotes v fr) args values)
    (h : ∀ fr, P fr → ∀ v, v? = some v → E.Answers g args v) :
    T.Executes E P (Eval.ofOption v?) (.call (.direct g) type values) fun v k fr =>
      v? = some v ∧ fr.results[k]? = some v.datum := by
  intro l s i rest hholds hPs hcode hop hslots
  refine .ofOption fun v hv => ?_
  obtain ⟨hbody, hanswers⟩ := h s.frame hPs v hv
  obtain ⟨start, t, last, world, henter, hreaches, hlast, hwaiting, hhost, hmemory⟩ :=
    hanswers i.id ({ s.frame with code := rest } :: s.callers) s.world
  have hcall : E.Steps s ⟨start, { s.frame with code := rest } :: s.callers, s.world⟩ := by
    rw [Context.Steps, Context.step?_cons hcode, hop, Context.execute?,
      eval?_operands (hvalues _ hPs)]
    simp [Context.callee?, Context.call?, hbody, henter]
  have hback : E.Steps t
      ⟨{ s.frame with code := rest }.setResult i.id v.datum, s.callers, world⟩ := by
    rw [Context.Steps, hlast, ← hwaiting]
    rfl
  exact ⟨_, ((Context.Reaches.single hcall).trans hreaches).tail hback,
    hholds.setResult hT hslots v.datum rest hhost hmemory, rfl, rfl, keeps_setResult _ _ _ _, hv,
    setResult_self _ _ _⟩

end Activation

/-! ## Lists of steps -/

theorem Stable.forall₂ {n : Nat} {R : α → β → Execution.Frame → Prop} {as : List α} {rs : List β}
    (h : ∀ a, ∀ r ∈ rs, Stable n (R a r)) :
    Stable n fun fr => List.Forall₂ (fun a r => R a r fr) as rs := by
  intro fr fr' hkeeps hall
  induction hall with
  | nil => exact .nil
  | cons hhead _ ih =>
      exact .cons (h _ _ List.mem_cons_self fr fr' hkeeps hhead)
        (ih fun a r hr => h a r (List.mem_cons_of_mem _ hr))

namespace Lower

variable {f : FunctionId} {n : Nat} {P : Execution.Frame → Prop} {ctx : LoweringContext}

theorem KeepsBody.mapM {items : List γ} {step : γ → Lower β} (h : ∀ item, KeepsBody (step item)) :
    KeepsBody (items.mapM step) := by
  induction items with
  | nil => exact .pure _
  | cons item items ih =>
      rw [List.mapM_cons]
      exact (h item).bind fun _ => ih.bind fun _ => .pure _

/-- One step for each of the items; the results are related item by item. -/
theorem Simulates.mapM [CaseTags] [HasOperands β] [Nonempty α] {ι κ : Type} {is : List ι} {ks : List κ}
    {x : ι → Eval α} {step : κ → Lower β} {names : κ → List String} {S : ι → α → Prop}
    {R : α → β → Execution.Frame → Prop} (hP : Stable n P)
    (hR : ∀ a r n', Below n' r → Stable n' (R a r))
    (h : List.Forall₂ (fun i k => Simulates E F K f (names k) n P (x i) (step k)
      fun a r fr => S i a ∧ R a r fr) is ks) :
    Simulates E F K f (ks.flatMap names) n P (is.mapM x) (ks.mapM step) fun as rs fr =>
      List.Forall₂ S is as ∧ List.Forall₂ (fun a r => R a r fr) as rs := by
  -- the frame property gets stronger with every item
  suffices hall : ∀ n', n ≤ n' → ∀ P', (∀ fr, P' fr → P fr) → Stable n' P' →
      Simulates E F K f (ks.flatMap names) n' P' (is.mapM x) (ks.mapM step) fun as rs fr =>
        List.Forall₂ S is as ∧ List.Forall₂ (fun a r => R a r fr) as rs from
    hall n (Nat.le_refl n) P (fun _ => id) hP
  induction h with
  | nil => exact fun n' _ P' _ _ => .pure IR.below_nil fun _ _ => ⟨.nil, .nil⟩
  | @cons i k is ks hfirst _ ih =>
      intro n' hle P' hP' hstable
      rw [List.mapM_cons, List.mapM_cons, List.flatMap_cons]
      refine ((hfirst.mono hle).weaken hP' fun _ _ _ => id).bind hstable fun a r n₁ hle₁ hr => ?_
      have hstable₁ : Stable n₁ fun fr => P' fr ∧ S i a ∧ R a r fr :=
        (hstable.mono hle₁).and ((Stable.const n₁ _).and (hR a r n₁ hr))
      rw [← List.append_nil (ks.flatMap names)]
      refine (ih n₁ (Nat.le_trans hle hle₁) _ (fun fr hfr => hP' fr hfr.1) hstable₁).bind hstable₁
        fun as rs n₂ hle₂ hrs => .pure (IR.below_cons (hr.mono hle₂) hrs) ?_
      rintro fr ⟨⟨-, hS, hR⟩, hSs, hRs⟩
      exact ⟨.cons hS hSs, .cons hR hRs⟩

/-! ## Arguments -/

/-- The arguments of a call by how they are passed and where they stand. -/
def labelled (tree : SyntaxTree) (args : List NodeId) : List (Option String × Nat) :=
  args.zipIdx.map fun arg => (tree.argumentName? arg.1, arg.2)

/-- Arguments that were generated are put in the order of the parameters. -/
def placeArgs (ctx : LoweringContext) (sig : Signature) (ordered : OrderedArgs Nat)
    (lowered : List (Value × TypeId)) : Lower (List Value) := do
  let at' (position : Nat) : Value × TypeId := lowered.getD position (default, .void)
  let fixed ← (ordered.fixed.zip sig.params).mapM fun (position, param) =>
    let (value, t) := at' position
    convert ctx value t param.type
  let extra ← ordered.extra.mapM fun position =>
    let (value, t) := at' position
    if t = .boolean then convert ctx value t .integer else pure value
  pure (fixed ++ extra)

theorem lowerArgs_eq_placeArgs (lower : NodeId → Lower (Option Value)) (sig : Signature) (args : List NodeId) :
    lowerArgs ctx lower sig args = (do
      let ordered ← Emit.ofExcept (orderArguments sig (labelled ctx.tree args))
      let lowered ← args.mapM fun arg => do
        let value ← lowerValue lower arg
        pure (value, ← typeOf ctx arg)
      placeArgs ctx sig ordered lowered) := by
  -- only the labels are written differently
  refine congrArg (fun labels => show Lower (List Value) from do
    let ordered ← Emit.ofExcept (orderArguments sig labels)
    let lowered ← args.mapM fun arg => do
      let value ← lowerValue lower arg
      pure (value, ← typeOf ctx arg)
    placeArgs ctx sig ordered lowered) (List.map_congr_left ?_)
  rintro ⟨arg, position⟩ -
  dsimp only [SyntaxTree.argumentName?]
  cases ctx.tree.node arg <;> rfl

section Placing

variable {sig : Signature} {ordered : OrderedArgs Nat} {lowered : List (Value × TypeId)}

theorem below_getD (hbelow : Below n lowered) (position : Nat) :
    Below n (lowered.getD position (default, .void)).1 := by
  rw [List.getD_eq_getElem?_getD]
  cases hvalue : lowered[position]? with
  | none => trivial
  | some value => exact (hbelow value (List.mem_of_getElem? hvalue)).1

/-- Each parameter gets the argument that was placed on it. -/
theorem placeArgs_eq {fn : ScalarFunction} (htakes : fn.Takes sig) {args : List NodeId}
    (hordered : orderArguments sig (labelled ctx.tree args) = .ok ordered) :
    placeArgs ctx sig ordered lowered = (ordered.fixed.zip sig.params).mapM fun item =>
      convert ctx (lowered.getD item.1 (default, .void)).1
        (lowered.getD item.1 (default, .void)).2 item.2.type := by
  rw [placeArgs, ScalarFunction.extra_eq_nil hordered htakes.varargs]
  simp only [List.mapM_nil, pure_bind, List.append_nil, bind_pure]

theorem placeArgs_advances [CaseTags] (hbelow : Below n lowered) :
    Advances K f [] n (placeArgs ctx sig ordered lowered) := by
  refine .of_adds ?_ (.bind (.mapM fun _ => convert_keepsBody ctx _ _ _) fun _ =>
    .bind (.mapM fun _ => ?_) fun _ => .pure _)
  · refine (Adds.mapM fun item _ => convert_adds ctx (below_getD hbelow _) _ _).bind
      fun fixed n₁ hle hfixed => ?_
    refine (Adds.mapM fun position _ => ?_).bind fun extra n₂ hle' hextra =>
      .pure (IR.below_append (hfixed.mono hle') hextra)
    have hvalue := (below_getD hbelow position).mono hle
    exact .ite (convert_adds ctx hvalue _ _) (.pure hvalue)
  · dsimp only
    split
    · exact convert_keepsBody ctx _ _ _
    · exact .pure _

theorem forall₂_zip {ι κ ξ : Type} {R : ι → κ → Prop} {is : List ι} {ks : List κ}
    (h : List.Forall₂ R is ks) (xs : List ξ) :
    List.Forall₂ (fun p q => p.1 = q.1 ∧ R p.2 q.2) (xs.zip is) (xs.zip ks) := by
  induction h generalizing xs with
  | nil => cases xs <;> exact .nil
  | cons hhead _ ih =>
      cases xs with
      | nil => exact .nil
      | cons x xs => exact .cons ⟨rfl, hhead⟩ (ih xs)

theorem forall₂_getElem? {ι κ : Type} {R : ι → κ → Prop} {is : List ι} {ks : List κ}
    (h : List.Forall₂ R is ks) {position : Nat} {i : ι} (hi : is[position]? = some i) :
    ∃ k, ks[position]? = some k ∧ R i k := by
  obtain ⟨hlt, rfl⟩ := List.getElem?_eq_some_iff.mp hi
  have hlt' := h.length_eq ▸ hlt
  exact ⟨ks[position], List.getElem?_eq_getElem hlt', h.get hlt hlt'⟩

theorem labelled_eq {tree : SyntaxTree} {args : List NodeId} {passed : List (Option String × α)}
    (h : List.Forall₂ (fun arg a => a.1 = tree.argumentName? arg) args passed) :
    labelled tree args = passed.zipIdx.map fun arg => (arg.1.1, arg.2) := by
  unfold labelled
  generalize 0 = start
  induction h generalizing start with
  | nil => rfl
  | cons hhead _ ih => simp only [List.zipIdx_cons, List.map_cons, hhead, ih]

/-- Arguments are placed on the parameters as the evaluation binds them. -/
theorem Simulates.placeArgs [CaseTags] (hpool : ctx.pool.HasScalars) {fn : ScalarFunction}
    (htakes : fn.Takes sig) {args : List NodeId} {passed : List (Option String × Scalar)}
    (hordered : orderArguments sig (labelled ctx.tree args) = .ok ordered)
    (hnames : List.Forall₂ (fun arg a => a.1 = ctx.tree.argumentName? arg) args passed)
    (hbelow : Below n lowered) (hstable : Stable n P)
    (hP : ∀ fr, P fr →
      List.Forall₂ (fun a r => r.2 = a.2.type.id ∧ r.1.Denotes a.2 fr) passed lowered) :
    Simulates E F K f [] n P (Eval.ofOption (fn.bind? passed)) (placeArgs ctx sig ordered lowered)
      fun vs values fr => fn.Fits vs ∧ List.Forall₂ (fun v value => value.Denotes v fr) vs values := by
  refine Simulates.weaken (Simulates.defined (Q := fun vs values fr =>
    List.Forall₂ (fun v value => value.Denotes v fr) vs values) ?_) (fun _ => id)
    fun vs values fr hvs => ⟨ScalarFunction.fits_bind? hvs.1, hvs.2⟩
  rw [placeArgs_eq htakes hordered]
  rw [labelled_eq hnames] at hordered
  rw [ScalarFunction.bind?_eq fn hordered htakes.map_name htakes.names, Eval.ofOption_mapM]
  have hflat : (ordered.fixed.zip sig.params).flatMap (fun _ => []) = ([] : List String) := by simp
  rw [← hflat]
  refine (Simulates.mapM (S := fun _ _ => True) (R := fun v (value : Value) => value.Denotes v) hstable
    (fun v value n' hvalue => .denotes hvalue v) ?_).weaken (fun _ => id) fun _ _ _ h => h.2
  refine (forall₂_zip htakes.params ordered.fixed).imp ?_
  rintro ⟨position, name, τ⟩ ⟨_, param⟩ ⟨rfl, -, htype⟩
  dsimp only at htype ⊢
  rw [htype]
  have hadvances : Advances K f [] n (Lower.convert ctx (lowered.getD position (default, .void)).1
      (lowered.getD position (default, .void)).2 τ.id) :=
    .of_adds (convert_adds ctx (below_getD hbelow position) _ _) (convert_keepsBody ctx _ _ _)
  cases hpassed : passed[position]? with
  | none => exact .undefined hadvances
  | some a =>
      -- what was generated for the argument stands where it was passed
      by_cases htypes : (lowered.getD position (default, .void)).2 = a.2.type.id
      · rw [htypes]
        refine (Simulates.convert hpool (below_getD hbelow position) τ fun fr hfr => ⟨rfl, ?_⟩).weaken
          (fun _ => id) fun v value fr h => ⟨trivial, h.2⟩
        obtain ⟨r, hr, -, hdenotes⟩ := forall₂_getElem? (hP fr hfr) hpassed
        rwa [List.getD_eq_getElem?_getD, hr]
      · refine .of_false hadvances fun fr hfr => htypes ?_
        obtain ⟨r, hr, htype', -⟩ := forall₂_getElem? (hP fr hfr) hpassed
        rwa [List.getD_eq_getElem?_getD, hr]

end Placing

/-! ## Calls -/

section Calling

variable {sig : Signature} {fn : ScalarFunction} {args : List NodeId}
  {eval : NodeId → Eval (Option Scalar)} {lower : NodeId → Lower (Option Value)}
  {names : NodeId → List String}

/-- The arguments of a call are generated as they are evaluated and bound. -/
theorem Simulates.lowerArgs [CaseTags] (hpool : ctx.pool.HasScalars) (htakes : fn.Takes sig)
    (hargs : ∀ arg ∈ args, ∃ σ : ScalarType,
      ctx.typed.table.typeOf { walk := 0, node := arg } = .ok σ.id ∧
        Simulates E F K f (names arg) n (fun _ => True) (Eval.value eval arg) (lowerValue lower arg)
          fun v value fr => v.type = σ ∧ value.Denotes v fr) :
    Simulates E F K f (args.flatMap names) n (fun _ => True)
      (args.mapM (Eval.argument ctx.tree eval) >>= fun passed => Eval.ofOption (fn.bind? passed))
      (lowerArgs ctx lower sig args)
      fun vs values fr => fn.Fits vs ∧ List.Forall₂ (fun v value => value.Denotes v fr) vs values := by
  rw [lowerArgs_eq_placeArgs]
  refine .ask (R := fun ordered => orderArguments sig (labelled ctx.tree args) = .ok ordered) ?_
    fun ordered hordered => ?_
  · intro b o r b' o' _ hrun
    obtain ⟨rfl, hstep⟩ := lift_ok hrun
    cases hr : orderArguments sig (labelled ctx.tree args) with
    | ok ordered =>
        rw [hr] at hstep
        cases hstep
        exact ⟨rfl, rfl, rfl⟩
    | error e =>
        rw [hr] at hstep
        cases hstep
  rw [← List.append_nil (args.flatMap names)]
  let R (a : Option String × Scalar) (r : Value × TypeId) (fr : Execution.Frame) : Prop :=
    r.2 = a.2.type.id ∧ r.1.Denotes a.2 fr
  have hR : ∀ a r n', Below n' r → Stable n' (R a r) := fun a r n' hr =>
    (Stable.const n' _).and (.denotes hr.1 a.2)
  have hitems : Simulates E F K f (args.flatMap names) n (fun _ => True)
      (args.mapM (Eval.argument ctx.tree eval)) (args.mapM fun arg => do
        let value ← lowerValue lower arg
        Pure.pure (value, ← typeOf ctx arg))
      fun as rs fr => List.Forall₂ (fun arg a => a.1 = ctx.tree.argumentName? arg) args as ∧
        List.Forall₂ (fun a r => R a r fr) as rs := by
    refine .mapM (Stable.const n True) hR (List.forall₂_same.mpr fun arg harg => ?_)
    obtain ⟨σ, htype, hvalue⟩ := hargs arg harg
    rw [← List.append_nil (names arg)]
    refine hvalue.bind (Stable.const n True) fun v value n' _ hbelow =>
      .ask (typeOf_tells hpool htype) fun t ht => .pure ⟨hbelow, trivial⟩ ?_
    rintro fr ⟨-, rfl, hdenotes⟩
    exact ⟨rfl, ht, hdenotes⟩
  refine hitems.bind (Stable.const n True) fun passed lowered n' _ hbelow => ?_
  by_cases hnames : List.Forall₂ (fun arg a => a.1 = ctx.tree.argumentName? arg) args passed
  · refine .placeArgs hpool htakes hordered hnames hbelow ?_ fun fr h => h.2.2
    exact (Stable.const n' _).and ((Stable.const n' _).and
      (.forall₂ fun a r hr => hR a r n' (hbelow r hr)))
  · exact .of_false (placeArgs_advances hbelow) fun fr h => hnames h.2.1

/-- What a call of a top-level function comes to: the function was declared with this result, and
answers as it is evaluated. -/
structure Calls (E : Context η) (F : Output) (fn : ScalarFunction) (sig : Signature)
    (eval : NodeId → Eval (Option Scalar)) : Prop where
  takes : fn.Takes sig
  answers : ∃ g, F.builder.function? sig.linkName = some g ∧
    (F.builder.module.function g).type.result = some fn.result.ty ∧
      ∀ values v, fn.Fits values → fn.result? eval values = some v → E.Answers g values v

theorem functionFor_ok {b b' : Body} {o o' : Output} {g : FunctionId}
    (h : (liftM (Emit.functionFor sig) : Lower FunctionId).run b o = .ok (g, b') o') :
    b' = b ∧ o' = o ∧ o.builder.function? sig.linkName = some g := by
  obtain ⟨rfl, hstep⟩ := lift_ok h
  exact ⟨rfl, Emit.functionFor_ok hstep⟩

/-- Calling a top-level function. -/
theorem Simulates.callFunction [CaseTags] (hpool : ctx.pool.HasScalars)
    (hcalls : Calls E F fn sig eval)
    (hargs : ∀ arg ∈ args, ∃ σ : ScalarType,
      ctx.typed.table.typeOf { walk := 0, node := arg } = .ok σ.id ∧
        Simulates E F K f (names arg) n (fun _ => True) (Eval.value eval arg) (lowerValue lower arg)
          fun v value fr => v.type = σ ∧ value.Denotes v fr) :
    Simulates E F K f (args.flatMap names) n (fun _ => True)
      (args.mapM (Eval.argument ctx.tree eval) >>= fun passed => Eval.ofOption (fn.invoke eval passed))
      (callFunction ctx lower sig none args)
      fun v value? fr => v.type = fn.result ∧ ∃ value, value? = some value ∧ value.Denotes v fr := by
  obtain ⟨htakes, g, hdeclared, hresult, hanswers⟩ := hcalls
  have hplaced := Simulates.lowerArgs (E := E) (F := F) (K := K) (f := f) hpool htakes hargs
  refine .of_run fun b c o hready hn r b' o' hrun => ?_
  obtain ⟨g', b₀, o₀, hfunction, hrun₀⟩ := bind_ok hrun
  obtain ⟨rfl, rfl, hg'⟩ := functionFor_ok hfunction
  obtain ⟨values, b₁, o₁, hvalues, hrun₁⟩ := bind_ok hrun₀
  obtain ⟨⟨c₁, hgoes₁⟩, -⟩ := hplaced.advances b₀ c o₀ hready hn values b₁ o₁ hvalues
  have hready₁ := hgoes₁.ready
  obtain ⟨-, hadds, -, hbelow⟩ := Adds.build (.call g' values sig.name) b₁ c₁ o₁ hready₁.function
    hready₁.at_ hready₁.shaped (Nat.zero_le _) hready₁.below r b' o' hrun₁
  obtain ⟨rfl, rfl, rfl⟩ := build_ok hrun₁
  have hgoes := hgoes₁.trans (.of_adds hready₁ hadds)
  rw [List.append_nil] at hgoes
  refine ⟨⟨⟨c₁, hgoes⟩, hbelow⟩, fun T hT hK hincl l s hhere _ => ?_⟩
  have hincl₁ := hincl.before (.of_grows b' hadds.grows)
  -- the function was declared before, and has the type that it has in the end
  have hkept₁ := hgoes₁.leads.grows.builder.kept
  have hkept := hincl₁.grows.builder.kept
  obtain rfl : g' = g :=
    Option.some.inj ((hkept.names _ _ (hkept₁.names _ _ hg')).symm.trans hdeclared)
  have hlt := (hkept₁.types g' (hready.shaped.builder.declared _ _ hg')).1
  have htype : (o₁.builder.module.function g').type.result = some fn.result.ty := by
    rw [← (hkept.types g' hlt).2]
    exact hresult
  have hinvoke : ∀ passed, Eval.ofOption (fn.invoke eval passed) =
      Eval.ofOption (fn.bind? passed) >>= fun vs => Eval.ofOption (fn.result? eval vs) :=
    fun passed => Eval.ofOption_bind _ _
  simp only [hinvoke, ← bind_assoc]
  refine (hplaced.runs b₀ c o₀ hready hn values b' o₁ hvalues T hT hK hincl₁ l s hhere trivial).bind ?_
  rintro vs l₁ s₁ ⟨hhere₁, hkeeps₁, hfits, hvs⟩
  rw [hready.function] at hkeeps₁
  have hf := hincl.function.trans hready₁.function
  refine (hhere₁.insert (P := fun fr => fr = s₁.frame) (Q := fun v value fr =>
    fn.result? eval vs = some v ∧ value.Denotes v fr) sig.name hT hf hready₁.at_ rfl rfl rfl ?_
    (hf ▸ hincl.code hT)).mono ?_
  · refine (Activation.Executes.call hT (fun fr hfr => hfr ▸ hvs) fun _ _ v => hanswers vs v hfits).mono ?_
    rintro v id fr ⟨hv, hresult'⟩
    refine ⟨hv, ?_, hresult'⟩
    show (o₁.builder.module.function g').type.result.getD .ptr = _
    rw [htype, ScalarFunction.type_result? hv]
    rfl
  · rintro v l₂ s₂ ⟨hhere₂, hkeeps₂, hv, hdenotes⟩
    refine ⟨hhere₂, hkeeps₁.trans (hkeeps₂.mono hgoes₁.next_le), ScalarFunction.type_result? hv, _, ?_,
      hdenotes⟩
    show (o₁.builder.module.function g').type.result.map _ = _
    rw [htype]
    rfl

end Calling

end Lower

end ClassLang
