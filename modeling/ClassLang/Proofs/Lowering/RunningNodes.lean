import ClassLang.Lowering.Generate
import ClassLang.Proofs.Lowering.RunningBlocks
import ClassLang.Proofs.Lowering.RunningCalls

/-!
# Running nodes

Each construct of code on Integers and Booleans is generated as it is evaluated; by induction on the
code this holds of every node. Evaluation and generation have bounds of their own: a bound of the
evaluation also counts the turns of loops and nested calls.
-/

namespace ClassLang

open Execution (Context)
open IR (Build FunctionId HasOperands Value)
open IR.HasOperands (Below)

variable {η : Type} {E : Context η} {F : Output} {K : ScalarTypes} {f : FunctionId} {n : Nat}
  {P : Execution.Frame → Prop} {names names' : List String} {α β γ δ : Type}

/-- What was evaluated and what was generated for a node belong together. -/
def Kind.Gives (kind : Kind) (v? : Option Scalar) (value? : Option Value) (fr : Execution.Frame) :
    Prop :=
  match kind with
  | .scalar τ => ∃ v value, v? = some v ∧ value? = some value ∧ v.type = τ ∧ value.Denotes v fr
  | .constant => True
  | .nothing => value? = none

theorem Kind.Gives.stable {value? : Option Value} (hbelow : Below n value?) (kind : Kind)
    (v? : Option Scalar) : Stable n (kind.Gives v? value?) := by
  cases kind with
  | scalar τ =>
      rintro fr fr' hkeeps ⟨v, value, rfl, rfl, htype, hdenotes⟩
      exact ⟨v, value, rfl, rfl, htype, Stable.denotes (hbelow value rfl) v fr fr' hkeeps hdenotes⟩
  | constant => exact .const n True
  | nothing => exact .const n _

namespace Lower

variable {ctx : LoweringContext} {eval : NodeId → Eval (Option Scalar)}
  {lower : NodeId → Lower (Option Value)} {σ τ : ScalarType}

/-! ## Results -/

namespace Simulates

variable [CaseTags]

/-- Results may be changed by plain functions. -/
theorem map [HasOperands β] [HasOperands δ] [Nonempty α] {x : Eval α} {step : Lower β}
    {Q : α → β → Execution.Frame → Prop} (h : Simulates E F K f names n P x step Q)
    (hP : Stable n P) (g : α → γ) (g' : β → δ) (hbelow : ∀ r n', Below n' r → Below n' (g' r))
    {R : γ → δ → Execution.Frame → Prop} (hQ : ∀ a r fr, Q a r fr → R (g a) (g' r) fr) :
    Simulates E F K f names n P (x >>= fun a => Pure.pure (g a))
      (step >>= fun r => Pure.pure (g' r)) R := by
  rw [← List.append_nil names]
  exact h.bind hP fun a r n' _ hr => .pure (hbelow r n' hr) fun fr hfr => hQ a r fr hfr.2

variable {x : Eval Scalar} {step : Lower Value}

/-- A value becomes the value of a node. -/
theorem toNode (h : Simulates E F K f names n P x step
      fun v value fr => v.type = τ ∧ value.Denotes v fr) (hP : Stable n P) :
    Simulates E F K f names n P (x >>= fun v => Pure.pure (some v))
      (step >>= fun value => Pure.pure (some value)) (Kind.scalar τ).Gives := by
  refine h.map hP some some (fun r n' hr => ?_) fun v value _ hq => ⟨v, value, rfl, rfl, hq⟩
  rintro _ ⟨⟩
  exact hr

/-- A node that has no value. -/
theorem noValue [HasOperands β] {x : Eval (Option Scalar)} {step : Lower β}
    {Q : Option Scalar → β → Execution.Frame → Prop} (h : Simulates E F K f names n P x step Q)
    (hP : Stable n P) :
    Simulates E F K f names n P x (step >>= fun _ => Pure.pure none) Kind.nothing.Gives := by
  rw [← bind_pure x]
  exact h.map hP id (fun _ => none) (fun _ _ _ => IR.below_none) fun _ _ _ _ => rfl

/-- A node that has a value. -/
theorem value {node : NodeId} (h : Simulates E F K f names n P (eval node) (lower node)
      (Kind.scalar τ).Gives) (hP : Stable n P) :
    Simulates E F K f names n P (Eval.value eval node) (lowerValue lower node)
      fun v value fr => v.type = τ ∧ value.Denotes v fr := by
  rw [← List.append_nil names]
  refine h.bind hP fun v? value? n' _ hbelow => ?_
  cases value? with
  | none => exact .of_fails (by rintro _ _ _ _ _ ⟨⟩)
  | some value =>
      refine .ofOption (hbelow value rfl) ?_
      rintro v rfl fr ⟨-, _, _, ⟨⟩, ⟨⟩, hq⟩
      exact hq

omit [CaseTags] in
/-- Whether the current block has come to an end matters to what is generated only where the code
does not run. -/
theorem unlessTerminated [HasOperands β] {x : Eval α} {next : Bool → Lower β}
    {Q : α → β → Execution.Frame → Prop} (h : Simulates E F K f names n P x (next false) Q)
    (hended : Advances K f names n (next true)) :
    Simulates E F K f names n P x (terminated >>= next) Q := by
  have hsplit : ∀ {b o r b' o'}, (terminated >>= next).run b o = .ok (r, b') o' →
      (next o.builder.isTerminated).run b o = .ok (r, b') o' := by
    intro b o r b' o' hrun
    obtain ⟨_, _, _, hended, hrest⟩ := bind_ok hrun
    obtain ⟨rfl, rfl, rfl⟩ := terminated_ok hended
    exact hrest
  constructor
  · intro b c o hready hn r b' o' hrun
    have hrest := hsplit hrun
    cases hterm : o.builder.isTerminated with
    | true => exact hended b c o hready hn r b' o' (hterm ▸ hrest)
    | false => exact h.advances b c o hready hn r b' o' (hterm ▸ hrest)
  · intro b c o hready hn r b' o' hrun T hT hK hincl l s hhere
    have hrest := hsplit hrun
    rw [hhere.isTerminated] at hrest
    exact h.runs b c o hready hn r b' o' hrest T hT hK hincl l s hhere

end Simulates

/-! ## Sequences -/

/-- Statements are generated in order, as long as the current block is open. -/
theorem Simulates.seq [CaseTags] {statements : List NodeId} {kinds : NodeId → Kind}
    {names : NodeId → List String} {kind : Kind} {last : Option Value} {v? : Option Scalar}
    (h : ∀ s ∈ statements, Simulates E F K f (names s) 0 (fun _ => True) (eval s) (lower s)
      (kinds s).Gives) (hbelow : Below n last) (hP : Stable n P)
    (hlast : ∀ fr, P fr → kind.Gives v? last fr) :
    Simulates E F K f (statements.flatMap names) n P
      (statements.foldlM (fun _ s => eval s) v?)
      (statements.foldlM (fun last s => do if ← terminated then Pure.pure last else lower s) last)
      (statements.getLast?.elim kind kinds).Gives := by
  induction statements generalizing n P kind last v? with
  | nil => exact .pure hbelow hlast
  | cons s statements ih =>
      rw [List.foldlM_cons, List.foldlM_cons, List.flatMap_cons, List.getLast?_cons]
      have hfirst : Simulates E F K f (names s) n P (eval s)
          (do if ← terminated then Pure.pure last else lower s) (kinds s).Gives :=
        .unlessTerminated (((h s List.mem_cons_self).mono (Nat.zero_le n)).weaken
          (fun _ _ => trivial) fun _ _ _ => id) ((Advances.pure hbelow).declares (List.nil_sublist _))
      refine hfirst.bind hP fun v₁? last₁ n₁ hle hbelow₁ => ?_
      have hrest := ih (fun s hs => h s (List.mem_cons_of_mem _ hs)) hbelow₁
        ((hP.mono hle).and (Kind.Gives.stable hbelow₁ (kinds s) v₁?)) fun _ hfr => hfr.2
      cases hlast : statements.getLast? <;> rw [hlast] at hrest <;> exact hrest

/-! ## Operators -/

section Operators

variable [CaseTags] {op : BinaryOp} {l r : Scalar} {lhs rhs : Value}

/-- An arithmetic operator on values of one type. -/
theorem Simulates.arithmetic {iop : IR.IntOp} {name : String}
    (hop : arithmetic? op = some (iop, name)) (hP : ∀ fr, P fr → lhs.Denotes l fr ∧ rhs.Denotes r fr) :
    Simulates E F K f [] n P (Eval.ofOption (op.combine l r)) (build (Build.binary iop lhs rhs name))
      fun v value fr => op.combine l r = some v ∧ value.Denotes v fr := by
  refine .binary name fun v hv fr hfr => ?_
  obtain ⟨hl, hr⟩ := hP fr hfr
  cases l with
  | int a =>
      cases r with
      | int b =>
          obtain ⟨k, rfl, heval⟩ := arithmetic_eval hop hv
          exact ⟨.w32, _, _, _, .of_int hl, .of_int hr, heval, rfl, rfl⟩
      | bool _ => cases hv
  | bool a =>
      cases r with
      | int _ => cases hv
      | bool b => cases op <;> cases hop <;> cases hv

/-- A comparison of values of one type. -/
theorem Simulates.comparison {p : IR.Predicate} (hop : predicate? op = some p)
    (hP : ∀ fr, P fr → lhs.Denotes l fr ∧ rhs.Denotes r fr) :
    Simulates E F K f [] n P (Eval.ofOption (op.combine l r)) (build (Build.compare p lhs rhs "cmp"))
      fun v value fr => op.combine l r = some v ∧ value.Denotes v fr := by
  refine .compare "cmp" fun v hv fr hfr => ?_
  obtain ⟨hl, hr⟩ := hP fr hfr
  cases l with
  | int a =>
      cases r with
      | int b => exact ⟨.w32, _, _, .of_int hl, .of_int hr, compare_words hop hv⟩
      | bool _ => cases hv
  | bool a =>
      cases r with
      | int _ => cases hv
      | bool b => exact ⟨.w1, _, _, .of_bool hl, .of_bool hr, compare_truths hop hv⟩

/-- The operator of a type on operands of this type. -/
def operate (ctx : LoweringContext) (node : NodeId) (t : TypeId) (op : BinaryOp) (l r : Value) :
    Lower Value :=
  match ctx.pool.operator? t op with
  | none => Emit.fail (.unknownOperation op.symbol (ctx.pool.display t))
  | some (.arith op) =>
    match arithmetic? op with
    | some (op, name) => build (Build.binary op l r name)
    | none => broken "comparison used as arithmetic"
  | some (.compare op) =>
    match predicate? op with
    | some p => build (Build.compare p l r "cmp")
    | none => broken "arithmetic used as comparison"
  | some _ => broken s!"operator at node {node} resolved to a method"

omit [CaseTags] in
theorem lowerBinary_eq (node left right : NodeId) : lowerBinary ctx lower node op left right = (do
    let lhsType ← typeOf ctx left
    let rhsType ← typeOf ctx right
    let l ← lowerValue lower left
    let r ← lowerValue lower right
    let r ← convert ctx r rhsType lhsType
    operate ctx node lhsType op l r) := rfl

variable (hpool : ctx.pool.HasScalars)

include hpool

theorem Simulates.operate (node : NodeId) (hresult : op.scalarResult? σ = some τ)
    (hP : ∀ fr, P fr → lhs.Denotes l fr ∧ rhs.Denotes r fr) :
    Simulates E F K f [] n P (Eval.ofOption (op.combine l r)) (operate ctx node σ.id op lhs rhs)
      fun v value fr => op.combine l r = some v ∧ value.Denotes v fr := by
  rw [Lower.operate, hpool.operator?_id, hresult]
  cases op <;> first | exact .arithmetic rfl hP | exact .comparison rfl hP

/-- The right operand becomes a value of the type of the left one. -/
theorem Simulates.operands (node : NodeId) {ρ : ScalarType} (hresult : op.scalarResult? σ = some τ)
    (hrhs : Below n rhs) (hstable : Stable n P)
    (hP : ∀ fr, P fr → (l.type = σ ∧ lhs.Denotes l fr) ∧ r.type = ρ ∧ rhs.Denotes r fr) :
    Simulates E F K f [] n P (Eval.ofOption (op.apply l r)) (do
        let rhs ← Lower.convert ctx rhs ρ.id σ.id
        Lower.operate ctx node σ.id op lhs rhs)
      fun v value fr => v.type = τ ∧ value.Denotes v fr := by
  have hconvert := Simulates.convert (E := E) (F := F) (K := K) (f := f) hpool hrhs σ
    fun fr hfr => (hP fr hfr).2
  by_cases hσ : l.type = σ
  · rw [BinaryOp.apply, hσ]
    show Simulates E F K f [] n P (Eval.ofOption ((r.passTo σ).bind fun r' => op.combine l r')) _ _
    rw [Eval.ofOption_bind, ← List.append_nil []]
    refine hconvert.bind hstable fun r' rhs' n' hle hrhs' => ?_
    refine (Simulates.operate hpool node hresult fun fr hfr => ⟨(hP fr hfr.1).1.2, hfr.2.2⟩).weaken
      (fun _ => id) fun v value fr hv => ⟨?_, hv.2⟩
    rw [← hσ, BinaryOp.scalarResult?_combine hv.1] at hresult
    exact Option.some.inj hresult
  · refine .of_false (hconvert.advances.bind fun rhs' n' _ _ => ?_) fun fr hfr => hσ (hP fr hfr).1.1
    exact (Simulates.operate (E := E) (F := F) (l := l) (r := r) hpool node hresult
      (P := fun _ => False) fun _ => False.elim).advances

/-- A binary operator. -/
theorem Simulates.binaryOperator (node : NodeId) {left right : NodeId} {ρ : ScalarType}
    (hleft : ctx.typed.table.HasScalar left σ) (hright : ctx.typed.table.HasScalar right ρ)
    (hresult : op.scalarResult? σ = some τ)
    (hl : Simulates E F K f names n (fun _ => True) (eval left) (lower left) (Kind.scalar σ).Gives)
    (hr : Simulates E F K f names' n (fun _ => True) (eval right) (lower right)
      (Kind.scalar ρ).Gives) :
    Simulates E F K f (names ++ names') n (fun _ => True)
      (Eval.value eval left >>= fun l => Eval.value eval right >>= fun r =>
        Eval.ofOption (op.apply l r))
      (lowerBinary ctx lower node op left right)
      fun v value fr => v.type = τ ∧ value.Denotes v fr := by
  rw [lowerBinary_eq]
  refine .ask (typeOf_tells hpool hleft) fun _ heq => ?_
  subst heq
  refine .ask (typeOf_tells hpool hright) fun _ heq => ?_
  subst heq
  refine (hl.value (.const n True)).bind (.const n True) fun l lhs n₁ hle hlhs => ?_
  have hstable : Stable n₁ fun fr => True ∧ l.type = σ ∧ lhs.Denotes l fr :=
    (Stable.const n₁ True).and ((Stable.const n₁ _).and (.denotes hlhs l))
  rw [← List.append_nil names']
  refine (((hr.value (.const n True)).mono hle).weaken (fun _ _ => trivial) fun _ _ _ => id).bind
    hstable fun r rhs n₂ hle₂ hrhs => ?_
  exact .operands hpool node hresult hrhs
    ((hstable.mono hle₂).and ((Stable.const n₂ _).and (.denotes hrhs r)))
    fun fr hfr => ⟨hfr.1.2, hfr.2⟩

omit hpool in
/-- The complement of a truth value. -/
theorem Simulates.complement {operand : NodeId}
    (h : Simulates E F K f names n (fun _ => True) (eval operand) (lower operand)
      (Kind.scalar .boolean).Gives) :
    Simulates E F K f names n (fun _ => True)
      (Eval.value eval operand >>= fun
        | .bool b => Pure.pure (Scalar.bool !b)
        | .int _ => Eval.undefined)
      (lowerUnary ctx lower .not operand)
      fun v value fr => v.type = .boolean ∧ value.Denotes v fr := by
  rw [← List.append_nil names]
  refine (h.value (.const n True)).bind (.const n True) fun v value n' _ hbelow => ?_
  cases v with
  | bool b =>
      refine (Simulates.not "not" fun v (hv : some (.bool !b) = some v) fr hfr => ?_).weaken
        (fun _ => id) ?_
      · cases hv
        exact ⟨b, rfl, hfr.2.2⟩
      · rintro _ value fr ⟨⟨⟩, hdenotes⟩
        exact ⟨rfl, hdenotes⟩
  | int _ => exact .undefined (.of_adds (.build (.not _ _)) (.build _))

end Operators

/-! ## Conditions -/

/-- Where the evaluation gives a result at once, it may be another one. -/
theorem Simulates.replace [HasOperands β] {a : α} {a' : γ} {step : Lower β}
    {Q : α → β → Execution.Frame → Prop} (h : Simulates E F K f names n P (Pure.pure a) step Q)
    {R : γ → β → Execution.Frame → Prop} (hQ : ∀ r fr, Q a r fr → R a' r fr) :
    Simulates E F K f names n P (Pure.pure a') step R := by
  refine ⟨h.advances, fun b c o hready hn r b' o' hrun T hT hK hincl l s hhere hPs => ⟨?_, ?_⟩⟩
  · rintro _ _ ⟨⟩
    obtain ⟨t, ht, hhere', hkeeps, hq⟩ :=
      (h.runs b c o hready hn r b' o' hrun T hT hK hincl l s hhere hPs).1 a l rfl
    exact ⟨t, ht, hhere', hkeeps, hQ r _ hq⟩
  · rintro _ _ ⟨⟩

/-- A condition: a Boolean, or an Integer that is compared with zero. -/
theorem Simulates.condition [CaseTags] (hpool : ctx.pool.HasScalars) {cond : NodeId}
    (htype : ctx.typed.table.HasScalar cond τ)
    (h : Simulates E F K f names n (fun _ => True) (eval cond) (lower cond) (Kind.scalar τ).Gives) :
    Simulates E F K f names n (fun _ => True) (Eval.condition eval cond) (condition ctx lower cond)
      fun p value fr => value.Denotes (.bool p) fr := by
  refine .ask (typeOf_tells hpool htype) fun _ heq => ?_
  subst heq
  rw [← List.append_nil names]
  refine (h.value (.const n True)).bind (.const n True) fun v value n' _ hbelow => ?_
  cases τ with
  | boolean =>
      refine .pure hbelow ?_
      rintro fr ⟨-, htype, hdenotes⟩
      cases v with
      | bool p => exact hdenotes
      | int _ => cases htype
  | integer =>
      have hcompare : Simulates E F K f [] n' (fun fr => True ∧ v.type = .integer ∧ value.Denotes v fr)
          (Eval.ofOption (some (Scalar.bool v.holds)))
          (build (Build.compare .ne value (.const (.int .w32 0)) "tobool"))
          fun w value fr => some (Scalar.bool v.holds) = some w ∧ value.Denotes w fr := by
        refine .compare "tobool" ?_
        rintro _ ⟨⟩ fr ⟨-, htype, hdenotes⟩
        cases v with
        | int k => exact ⟨.w32, _, _, .of_int hdenotes, .const fr .w32 0, by rw [compare_zero]⟩
        | bool _ => cases htype
      exact hcompare.replace fun value fr hq => hq.2

/-! ## Locals -/

section Locals

variable [CaseTags] (hpool : ctx.pool.HasScalars)

include hpool

/-- A local is made with a value that becomes one of its type. -/
theorem Simulates.declare (name : String) {v : Scalar} {value : Value}
    (hlocal : K.local? name = some τ) (hbelow : Below n value) (hstable : Stable n P)
    (hP : ∀ fr, P fr → v.type = σ ∧ value.Denotes v fr) :
    Simulates E F K f [name] n P
      (Eval.ofOption (v.passTo τ) >>= fun v => Eval.write name v >>= fun _ => Pure.pure v)
      (do
        let value ← Lower.convert ctx value σ.id τ.id
        Lower.bindLocal ctx name value τ.id
        Pure.pure value)
      fun v value fr => v.type = τ ∧ value.Denotes v fr := by
  have hnames : [name] = [] ++ ([name] ++ []) := rfl
  rw [hnames]
  refine (Simulates.convert hpool hbelow τ hP).bind hstable fun v' value' n₁ hle hbelow' => ?_
  have hvalue : ∀ fr, P fr ∧ v.passTo τ = some v' ∧ value'.Denotes v' fr →
      v'.type = τ ∧ value'.Denotes v' fr :=
    fun fr hfr => ⟨Scalar.type_passTo hfr.2.1, hfr.2.2⟩
  refine (Simulates.bindLocal hpool name hlocal hvalue).bind ((hstable.mono hle).and
    ((Stable.const n₁ _).and (.denotes hbelow' v'))) fun _ _ n₂ hle₂ _ => ?_
  exact .pure (HasOperands.below_mono hle₂ hbelow') fun fr hfr => hvalue fr hfr.1

/-- A declaration of a local. -/
theorem Simulates.declaration {node initial : NodeId} {name : String} {declared : Option NodeId}
    (hdeclared : ∀ type ∈ declared, ctx.tree.scalarType? type = some τ)
    (hinferred : declared = none → σ = τ) (hlocal : K.local? name = some τ)
    (hinitial : ctx.typed.table.HasScalar initial σ) (htype : ctx.typed.table.HasScalar node τ)
    (h : Simulates E F K f names n (fun _ => True) (eval initial) (lower initial)
      (Kind.scalar σ).Gives) :
    Simulates E F K f (names ++ [name]) n (fun _ => True)
      (Eval.value eval initial >>= fun v =>
        (match declared with
          | none => Pure.pure v
          | some type => Eval.ofOption do v.passTo (← ctx.tree.scalarType? type)) >>= fun v =>
        Eval.write name v >>= fun _ => Pure.pure v)
      (lowerVar ctx lower node name initial)
      fun v value fr => v.type = τ ∧ value.Denotes v fr := by
  refine .ask (typeOf_tells hpool hinitial) fun _ heq => ?_
  subst heq
  refine .ask (typeOf_tells hpool htype) fun _ heq => ?_
  subst heq
  refine (h.value (.const n True)).bind (.const n True) fun v value n' hle hbelow => ?_
  have hdeclare := Simulates.declare (E := E) (F := F) (K := K) (f := f) (v := v) hpool name hlocal
    hbelow ((Stable.const n' True).and ((Stable.const n' (v.type = σ)).and (.denotes hbelow v)))
    fun fr hfr => hfr.2
  cases declared with
  | some type =>
      have hscalar := hdeclared type rfl
      simp only [hscalar]
      exact hdeclare
  | none =>
      obtain rfl := hinferred rfl
      by_cases hσ : v.type = σ
      · subst hσ
        rw [v.passTo_self] at hdeclare
        exact hdeclare
      · exact .of_false hdeclare.advances fun fr hfr => hσ hfr.2.1

omit [CaseTags] hpool in
/-- A value that was stored is given on. -/
theorem storeLocal_then (name : String) (value : Value) (fixed missing : String) :
    (storeLocal name value fixed missing >>= fun _ => pure value) =
      (do match (← get).scope.lookup name with
        | some (.slot address _) => do
          build (Build.store value address)
          pure value
        | some (.fixed _) => do
          mismatch fixed
          pure value
        | none => do
          broken missing
          pure value : Lower Value) := by
  rw [storeLocal, bind_assoc]
  refine bind_congr fun b => ?_
  rcases b.scope.lookup name with _ | _ | _ <;> rfl

/-- An assignment to a local. -/
theorem Simulates.assignment {target given : NodeId} {name : String}
    (htarget : ctx.tree.node target = .ident name) (hlocal : K.local? name = some τ)
    (hgiven : ctx.typed.table.HasScalar given τ) (hwanted : ctx.typed.table.HasScalar target τ)
    (h : Simulates E F K f names n (fun _ => True) (eval given) (lower given)
      (Kind.scalar τ).Gives) :
    Simulates E F K f names n (fun _ => True)
      (Eval.value eval given >>= fun v => Eval.write name v >>= fun _ => Pure.pure v)
      (lowerAssign ctx lower target given)
      fun v value fr => v.type = τ ∧ value.Denotes v fr := by
  refine .ask (typeOf_tells hpool hgiven) fun _ heq => ?_
  subst heq
  refine .ask (typeOf_tells hpool hwanted) fun _ heq => ?_
  subst heq
  rw [← List.append_nil names]
  refine (h.value (.const n True)).bind (.const n True) fun v value n' hle hbelow => ?_
  have hconvert : Lower.convert ctx value τ.id τ.id = Pure.pure value := by
    rw [Lower.convert, hpool.conversion?_id, if_pos rfl]
  simp only [hconvert, pure_bind, htarget]
  have hstore : ∀ fixed missing, Simulates E F K f [] n' (fun fr => True ∧ v.type = τ ∧ value.Denotes v fr)
      (Eval.write name v >>= fun _ => Pure.pure v)
      (Lower.storeLocal name value fixed missing >>= fun _ => Pure.pure value)
      fun v value fr => v.type = τ ∧ value.Denotes v fr := fun fixed missing =>
    (Simulates.storeLocal name hlocal (fun fr hfr => hfr.2) fixed missing).bind
      ((Stable.const n' True).and ((Stable.const n' _).and (.denotes hbelow v))) fun _ _ n₁ hle₁ _ =>
        .pure (HasOperands.below_mono hle₁ hbelow) fun fr hfr => hfr.1.2
  simp only [storeLocal_then] at hstore
  exact hstore _ _

end Locals

/-! ## Returns -/

theorem returnsVoid_tells : Tells returnsVoid fun _ => True := by
  rintro b o _ _ _ - ⟨⟩
  exact ⟨rfl, rfl, trivial⟩

/-- A return of a value. -/
theorem Simulates.lowerReturn [CaseTags] (hpool : ctx.pool.HasScalars) {given : NodeId}
    (haccepts : K.result.accepts σ = true) (hgiven : ctx.typed.table.HasScalar given σ)
    (h : Simulates E F K f names n (fun _ => True) (eval given) (lower given) (Kind.scalar σ).Gives)
    (Q : α → Unit → Execution.Frame → Prop) :
    Simulates E F K f names n (fun _ => True)
      (Eval.value eval given >>= fun v => (Eval.leave v : Eval α))
      (Lower.lowerReturn ctx lower (some given)) Q := by
  refine .ask returnsVoid_tells fun void _ => ?_
  cases void with
  | true => exact (Simulates.of_fails (by rintro _ _ _ _ _ ⟨⟩)).declares (List.nil_sublist _)
  | false =>
      refine .ask (typeOf_tells hpool hgiven) fun _ heq => ?_
      subst heq
      rw [← List.append_nil names]
      refine (h.value (.const n True)).bind (.const n True) fun v value n' hle hbelow => ?_
      exact .unlessTerminated (.returnValue hpool hbelow haccepts (fun fr hfr => hfr.2) Q)
        (.pure trivial)

/-! ## Constants -/

/-- A case of a data type is no word or truth value; it adds no code. -/
theorem Simulates.constant [CaseTags] (htags : ctx.Tags) (name : String) (t : TypeId) :
    Simulates E F K f [] n P (Eval.read name) (liftM (Emit.singleton ctx t)) fun _ _ _ => True := by
  refine ⟨.of_adds (singleton_adds ctx htags t) (.lift _), ?_⟩
  intro b c o hready hn r b' o' hrun T hT hK hincl l s hhere hPs
  obtain ⟨rfl, hstep⟩ := lift_ok hrun
  obtain ⟨-, hquiet, -⟩ := ((Emit.singleton_lays t).quiet o hready.shaped.builder.sane).ok hstep
  have hfunction : o'.builder.module.function = o.builder.module.function := by
    funext g
    rw [IR.Module.function, IR.Module.function, hquiet.functions]
  refine .read fun v _ => ⟨s, .refl s, hhere.of_code (fun c' hat => ?_) fun k => ?_, .refl _ _, trivial⟩
  · refine ⟨hquiet.functions ▸ hat.function_lt, ?_, hquiet.cursor.trans hat.cursor,
      hquiet.block.trans hat.block⟩
    rw [hfunction]
    exact hat.block_lt
  · rw [hfunction]

/-! ## All nodes -/

section Nodes

variable [CaseTags] {callees : String → Prop}

/-- The functions that may be called answer as they are evaluated with a smaller bound. -/
def CallsWithin (E : Context η) (F : Output) (ctx : LoweringContext) (callees : String → Prop)
    (bound : Nat) : Prop :=
  ∀ name decl fn sig, callees name → ctx.tree.function? name = some decl →
    ctx.tree.scalarFunction? decl = some fn →
      ctx.typed.table.signature { walk := 0, node := decl } = .ok sig →
        ∀ m, m = 0 ∨ m < bound → Calls E F fn sig (Eval.evalWithin ctx.tree m)

omit [CaseTags] in
theorem CallsWithin.mono {bound bound' : Nat} (h : CallsWithin E F ctx callees bound)
    (hle : bound' ≤ bound) : CallsWithin E F ctx callees bound' :=
  fun name decl fn sig hcallee hdecl hfn hsig m hm =>
    h name decl fn sig hcallee hdecl hfn hsig m (hm.imp id fun hlt => Nat.lt_of_lt_of_le hlt hle)

omit [CaseTags] in
/-- The bounds of evaluation and generation do not matter. -/
theorem simulates_within {node : NodeId} {kind : Kind}
    (h : ∀ fuel bound, CallsWithin E F ctx callees (bound + 1) →
      Simulates E F K f names 0 (fun _ => True)
        (Eval.evalNode ctx.tree (Eval.evalWithin ctx.tree bound) node)
        (lowerNode ctx (lowerWithin ctx fuel) node) kind.Gives)
    (fuel bound : Nat) (hcalls : CallsWithin E F ctx callees bound) :
    Simulates E F K f names 0 (fun _ => True) (Eval.evalWithin ctx.tree bound node)
      (lowerWithin ctx fuel node) kind.Gives := by
  cases fuel with
  | zero => exact (Simulates.of_fails (by rintro _ _ _ _ _ ⟨⟩)).declares (List.nil_sublist _)
  | succ fuel =>
      cases bound with
      | succ bound => exact h fuel bound hcalls
      | zero =>
          refine .undefined (h fuel 0 fun name decl fn sig hcallee hdecl hfn hsig m hm => ?_).advances
          exact hcalls name decl fn sig hcallee hdecl hfn hsig m (.inl (hm.elim id Nat.lt_one_iff.mp))

/-- Code on Integers and Booleans is generated as it is evaluated. -/
theorem simulates_code (hpool : ctx.pool.HasScalars) (htags : ctx.Tags) {node : NodeId} {kind : Kind}
    (h : ScalarCode ctx.tree ctx.typed.table callees K node kind names) (fuel bound : Nat)
    (hcalls : CallsWithin E F ctx callees bound) :
    Simulates E F K f names 0 (fun _ => True) (Eval.evalWithin ctx.tree bound node)
      (lowerWithin ctx fuel node) kind.Gives := by
  have htrue : ∀ n, Stable n fun _ => True := fun n => .const n True
  induction h generalizing fuel bound with
  | number h htype =>
      refine simulates_within (fun fuel bound hcalls => ?_) fuel bound hcalls
      rw [Eval.evalNode, lowerNode, h]
      dsimp only
      split
      · next hfits =>
          refine .pure (IR.below_some trivial) fun fr _ => ⟨_, _, rfl, rfl, rfl, rfl, ?_⟩
          rw [Scalar.datum, toInt_ofInt_literal hfits]
          rfl
      · exact .of_fails (by rintro _ _ _ _ _ ⟨⟩)
  | bool h htype =>
      refine simulates_within (fun fuel bound hcalls => ?_) fuel bound hcalls
      rw [Eval.evalNode, lowerNode, h]
      exact .pure (IR.below_some trivial) fun fr _ => ⟨_, _, rfl, rfl, rfl, rfl, rfl⟩
  | @readLocal node name τ h htarget hlocal htype =>
      refine simulates_within (fun fuel bound hcalls => ?_) fuel bound hcalls
      rw [Eval.evalNode, lowerNode, h]
      have hread : Simulates E F K f [] 0 (fun _ => True) (Eval.read name) (lowerIdent ctx node name)
          fun v value fr => v.type = τ ∧ value.Denotes v fr := by
        refine .ask (target_tells htarget) fun _ heq => ?_
        subst heq
        refine (Simulates.loadLocal name).weaken (fun _ => id) fun v value fr hv => ⟨?_, hv.2⟩
        exact Option.some.inj (hv.1.symm.trans hlocal)
      exact hread.toNode (htrue 0)
  | @constant node name t h htarget =>
      refine simulates_within (fun fuel bound hcalls => ?_) fuel bound hcalls
      rw [Eval.evalNode, lowerNode, h]
      have hread : Simulates E F K f [] 0 (fun _ => True) (Eval.read name) (lowerIdent ctx node name)
          fun _ _ _ => True := by
        refine .ask (target_tells htarget) fun _ heq => ?_
        subst heq
        exact .constant htags name t
      exact hread.map (htrue 0) some some (fun _ _ => IR.below_some) fun _ _ _ _ => trivial
  | var h hinitial hdeclared hinferred hlocal htype ih =>
      refine simulates_within (fun fuel bound hcalls => ?_) fuel bound hcalls
      have hvalue := ih fuel bound (hcalls.mono (Nat.le_succ bound))
      rw [Eval.evalNode_var h, lowerNode, h]
      exact (Simulates.declaration hpool hdeclared hinferred hlocal hinitial.hasType htype
        hvalue).toNode (htrue 0)
  | assign h htarget hvalue hlocal hwanted htype ih =>
      refine simulates_within (fun fuel bound hcalls => ?_) fuel bound hcalls
      have hgiven := ih fuel bound (hcalls.mono (Nat.le_succ bound))
      rw [Eval.evalNode_assign h htarget, lowerNode, h]
      exact (Simulates.assignment hpool htarget hlocal hvalue.hasType hwanted hgiven).toNode (htrue 0)
  | @binary node _ _ _ _ _ _ _ _ h hlhs hrhs hresult htype ihl ihr =>
      refine simulates_within (fun fuel bound hcalls => ?_) fuel bound hcalls
      have hcalls' := hcalls.mono (Nat.le_succ bound)
      rw [Eval.evalNode_binary h, lowerNode, h]
      exact (Simulates.binaryOperator hpool node hlhs.hasType hrhs.hasType hresult
        (ihl fuel bound hcalls') (ihr fuel bound hcalls')).toNode (htrue 0)
  | not h hoperand htype ih =>
      refine simulates_within (fun fuel bound hcalls => ?_) fuel bound hcalls
      have hvalue := ih fuel bound (hcalls.mono (Nat.le_succ bound))
      rw [Eval.evalNode_not h, lowerNode, h]
      exact (Simulates.complement hvalue).toNode (htrue 0)
  | seq h hstatements htype ih =>
      refine simulates_within (fun fuel bound hcalls => ?_) fuel bound hcalls
      have hcalls' := hcalls.mono (Nat.le_succ bound)
      rw [Eval.evalNode, lowerNode, h]
      have hnone : ∀ fr : Execution.Frame, True → Kind.nothing.Gives none none fr := fun _ _ => rfl
      exact .seq (fun s hs => ih s hs fuel bound hcalls') IR.below_none (htrue 0) hnone
  | branchOnly h hcond hyes ihc ihy =>
      refine simulates_within (fun fuel bound hcalls => ?_) fuel bound hcalls
      have hcalls' := hcalls.mono (Nat.le_succ bound)
      rw [Eval.evalNode_branch h, lowerNode, h]
      exact (Simulates.branchOnly
        (Simulates.condition hpool hcond.hasType (ihc fuel bound hcalls'))
        ((ihy fuel bound hcalls').weaken (fun _ => id) fun _ _ _ _ => trivial) none).noValue (htrue 0)
  | branchElse h hcond hyes hno ihc ihy ihn =>
      refine simulates_within (fun fuel bound hcalls => ?_) fuel bound hcalls
      have hcalls' := hcalls.mono (Nat.le_succ bound)
      rw [Eval.evalNode_branch h, lowerNode, h]
      exact (Simulates.branchElse
        (Simulates.condition hpool hcond.hasType (ihc fuel bound hcalls'))
        ((ihy fuel bound hcalls').weaken (fun _ => id) fun _ _ _ _ => trivial)
        ((ihn fuel bound hcalls').weaken (fun _ => id) fun _ _ _ _ => trivial) none).noValue (htrue 0)
  | @loop node cond body _ _ _ _ h hcond hbody ihc ihb =>
      refine simulates_within (fun fuel bound hcalls => ?_) fuel bound hcalls
      have hturn : ∀ i, Eval.evalWithin ctx.tree (i + 1) node =
          Eval.condition (Eval.evalWithin ctx.tree i) cond >>= fun p =>
            if p then Eval.evalWithin ctx.tree i body >>= fun _ => Eval.evalWithin ctx.tree i node
            else Pure.pure none := by
        intro i
        rw [Eval.evalWithin, Eval.evalNode, h]
      have hloop := Simulates.loop (x := fun i => Eval.evalWithin ctx.tree i node) (m := bound + 1)
        rfl hturn
        (fun i hi => Simulates.condition hpool hcond.hasType (ihc fuel i (hcalls.mono hi)))
        fun i hi => (ihb fuel i (hcalls.mono hi)).weaken (fun _ => id) fun _ _ _ _ => trivial
      rw [lowerNode, h]
      exact hloop.noValue (htrue 0)
  | ret h hvalue haccepts ih =>
      refine simulates_within (fun fuel bound hcalls => ?_) fuel bound hcalls
      have hgiven := ih fuel bound (hcalls.mono (Nat.le_succ bound))
      rw [Eval.evalNode, lowerNode, h]
      exact (Simulates.lowerReturn hpool haccepts hvalue.hasType hgiven fun _ _ _ => True).noValue
        (htrue 0)
  | namedArg h hvalue htype ih =>
      refine simulates_within (fun fuel bound hcalls => ?_) fuel bound hcalls
      rw [Eval.evalNode, lowerNode, h]
      exact ih fuel bound (hcalls.mono (Nat.le_succ bound))
  | @call node decl name args types names fn sig h hcallee hdecl hfn hsig htarget hargs htype ih =>
      refine simulates_within (fun fuel bound hcalls => ?_) fuel bound hcalls
      have hcalls' := hcalls.mono (Nat.le_succ bound)
      have hinvoke : ∀ passed, Eval.invoke? ctx.tree (Eval.evalWithin ctx.tree bound) name passed =
          fn.invoke (Eval.evalWithin ctx.tree bound) passed := by
        intro passed
        rw [Eval.invoke?, hdecl, Option.bind_eq_bind, Option.bind_some, hfn]
        rfl
      have hcall : Simulates E F K f (args.flatMap names) 0 (fun _ => True)
          (args.mapM (Eval.argument ctx.tree (Eval.evalWithin ctx.tree bound)) >>= fun passed =>
            Eval.ofOption (fn.invoke (Eval.evalWithin ctx.tree bound) passed))
          (lowerCall ctx (lowerWithin ctx fuel) node none name args)
          fun v value? fr => v.type = fn.result ∧ ∃ value, value? = some value ∧ value.Denotes v fr := by
        refine .ask (target_tells htarget) fun _ heq => ?_
        subst heq
        exact .callFunction hpool
          (hcalls name decl fn sig hcallee hdecl hfn hsig bound (.inr (Nat.lt_succ_self bound)))
          fun arg harg => ⟨types arg, (hargs arg harg).hasType,
            (ih arg harg fuel bound hcalls').value (htrue 0)⟩
      rw [Eval.evalNode_call h, lowerNode, h]
      simp only [hinvoke]
      have hnode := hcall.map (htrue 0) some id (fun _ _ hr => hr) (R := (Kind.scalar fn.result).Gives)
        (by
          rintro v value? fr ⟨hv, value, hvalue, hdenotes⟩
          exact ⟨v, value, rfl, hvalue, hv, hdenotes⟩)
      simp only [id, bind_pure] at hnode
      exact hnode

end Nodes

end Lower

end ClassLang
