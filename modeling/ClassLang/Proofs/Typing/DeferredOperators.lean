import ClassLang.Proofs.Pool.Chains
import ClassLang.Proofs.Pool.Operations
import ClassLang.Typing.Calculate

/-!
# Operators on types that are not known yet

The type of an operator is a derived type while an operand is open, with the open operand as its
root. Once the operands are known, `resolve` works the derived type out from its root alone. So the
other operand is never compared with the root, and if only the right operand was open the two have
changed places. `deferred_operator_iff` says exactly when this gives the same answers as typing the
operator on operands that are known from the start.

The statements hold of every pool in which looking through types comes to an end, also of one whose
variables were forwarded to other variables.
-/

namespace ClassLang

namespace Pool

variable {p q : Pool} {t u root rhs l r : TypeId} {op : BinaryOp}

/-! ## Results -/

/-- A derived type whose operands are known has the type of its operator on the root, whatever the
other operand is. -/
theorem resolveStrict_derived_eq_ok_iff (hends : WellFounded p.LooksAt)
    (hboolean : p.data .boolean = .boolean) (hd : p.data t = .derived root op rhs)
    (hroot : p.isUnresolved root = false) (hrhs : p.isUnresolved rhs = false) :
    p.resolveStrict t = .ok u ↔
      ∃ operation, p.operator? root op = some operation ∧
        operation.resultType (p.resolve root) = u := by
  have hresolve := resolve_derived hends hd
  cases hop : p.operator? root op with
  | some operation =>
      rw [hop] at hresolve
      have hknown : p.isUnresolved t = false := by
        rw [isUnresolved, view, hresolve]
        exact isVar_resultType hboolean hop
      rw [resolveStrict, resolveStrictWithin_of_resolved hknown, hresolve]
      simp
  | none =>
      -- the derived type is its own value, and its operator is looked up in vain
      rw [hop] at hresolve
      have ht : t < p.size := lt_size_of_data_ne (by simp [hd])
      obtain ⟨fuel, hsize⟩ := Nat.exists_eq_succ_of_ne_zero (Nat.ne_zero_of_lt ht)
      have hself : p.resolve t = t := hresolve
      have hop' : p.operator? (p.resolve root) op = none := by
        rw [operator?, view, resolve_resolve_of_resolved hroot]
        exact hop
      rw [resolveStrict, hsize]
      simp only [resolveStrictWithin, hself, hd, resolveStrictWithin_of_resolved hroot,
        resolveStrictWithin_of_resolved hrhs]
      simp [bind, Except.bind, operatorResult, hop']

/-- Typing an operator on known operands: the left one has the operator, and the right one converts
to it. -/
theorem operatorResult_eq_ok_iff : p.operatorResult l op r = .ok u ↔
    ∃ operation, p.operator? l op = some operation ∧ p.canConvert r l = true ∧
      operation.resultType (p.resolve l) = u := by
  unfold operatorResult
  cases hop : p.operator? l op with
  | none => simp
  | some operation =>
      by_cases hconvert : p.canConvert r l = true <;> simp [hconvert]

/-- Types with operators are the same only if they stand for the same position. -/
theorem resolve_eq_of_sameType {operation : Operation} (hr : p.operator? r op = some operation)
    (hsame : p.sameType r l = true) : p.resolve r = p.resolve l := by
  by_contra hne
  unfold sameType sameTypeWithin at hsame
  rcases TypeData.primitive_of_operator hr with hd | hd | hd <;>
    simp [hne, show p.data (p.resolve r) = _ from hd] at hsame

/-- Operands that both have an operator and of which the right one converts to the left one give it
the same type. -/
theorem resultType_eq_of_canConvert {a b : Operation} (hl : p.operator? l op = some a)
    (hr : p.operator? r op = some b) (hconvert : p.canConvert r l = true) :
    b.resultType (p.resolve r) = a.resultType (p.resolve l) := by
  by_cases hsame : p.sameType r l = true
  · have heq := resolve_eq_of_sameType hr hsame
    rw [operator?, view, heq, ← view, ← operator?, hl] at hr
    rw [heq, Option.some.inj hr]
  · -- only a Boolean converts to another type with operators, and both are compared
    have hkinds : p.view r = .boolean ∧ p.view l = .integer := by
      unfold canConvert conversion? at hconvert
      rcases TypeData.primitive_of_operator hr with hd | hd | hd <;>
        rcases TypeData.primitive_of_operator hl with hd' | hd' | hd' <;>
        simp [hsame, hd, hd'] at hconvert ⊢
    simp only [operator?, hkinds, TypeData.operator?] at hl hr
    split at hr
    · next hop =>
        rcases hop with rfl | rfl <;> cases hl <;> cases hr <;> rfl
    · cases hr

/-- A derived type and the operator on its operands give the same answers if the other operand
converts to the root wherever the root has the operator. -/
theorem resolveStrict_derived_iff (hends : WellFounded p.LooksAt)
    (hboolean : p.data .boolean = .boolean) (hd : p.data t = .derived l op r)
    (hl : p.isUnresolved l = false) (hr : p.isUnresolved r = false) :
    (∀ u, p.resolveStrict t = .ok u ↔ p.operatorResult l op r = .ok u) ↔
      ((p.operator? l op).isSome → p.canConvert r l = true) := by
  simp only [resolveStrict_derived_eq_ok_iff hends hboolean hd hl hr, operatorResult_eq_ok_iff]
  constructor
  · intro h hop
    obtain ⟨operation, hop⟩ := Option.isSome_iff_exists.1 hop
    obtain ⟨_, -, hconvert, -⟩ := (h _).1 ⟨operation, hop, rfl⟩
    exact hconvert
  · rintro h u
    constructor
    · rintro ⟨operation, hop, heq⟩
      exact ⟨operation, hop, h (by simp [hop]), heq⟩
    · rintro ⟨operation, hop, -, heq⟩
      exact ⟨operation, hop, heq⟩

/-- A derived type whose operands have changed places and the operator on its operands give the
same answers if both accept the same operands. -/
theorem resolveStrict_derived_swapped_iff (hends : WellFounded p.LooksAt)
    (hboolean : p.data .boolean = .boolean) (hd : p.data t = .derived r op l)
    (hl : p.isUnresolved l = false) (hr : p.isUnresolved r = false) :
    (∀ u, p.resolveStrict t = .ok u ↔ p.operatorResult l op r = .ok u) ↔
      ((p.operator? r op).isSome ↔ (p.operator? l op).isSome ∧ p.canConvert r l = true) := by
  simp only [resolveStrict_derived_eq_ok_iff hends hboolean hd hr hl, operatorResult_eq_ok_iff,
    Option.isSome_iff_exists]
  constructor
  · intro h
    constructor
    · rintro ⟨operation, hop⟩
      obtain ⟨other, hop', hconvert, -⟩ := (h _).1 ⟨operation, hop, rfl⟩
      exact ⟨⟨other, hop'⟩, hconvert⟩
    · rintro ⟨⟨operation, hop⟩, hconvert⟩
      obtain ⟨other, hop', -⟩ := (h _).2 ⟨operation, hop, hconvert, rfl⟩
      exact ⟨other, hop'⟩
  · intro h u
    constructor
    · rintro ⟨operation, hop, heq⟩
      obtain ⟨⟨other, hop'⟩, hconvert⟩ := h.1 ⟨operation, hop⟩
      exact ⟨other, hop', hconvert, (resultType_eq_of_canConvert hop' hop hconvert).symm.trans heq⟩
    · rintro ⟨operation, hop, hconvert, heq⟩
      obtain ⟨other, hop'⟩ := h.2 ⟨⟨operation, hop⟩, hconvert⟩
      exact ⟨other, hop', (resultType_eq_of_canConvert hop hop' hconvert).trans heq⟩

end Pool

/-! ## Open operands -/

namespace Typing

variable {σ : Type} {infer : NodeId → Typing σ TypeId} {op : BinaryOp} {lhs rhs : NodeId}
  {s s₁ s₂ s' : TypingState σ} {l r t : TypeId}

/-- With an open operand the type is derived from the first one that is open. -/
theorem inferBinary_open (hl : infer lhs s = .ok l s₁) (hr : infer rhs s₁ = .ok r s₂)
    (hopen : s₂.pool.isUnresolved l = true ∨ s₂.pool.isUnresolved r = true)
    (hrun : inferBinary infer op lhs rhs s = .ok t s') :
    t = s₂.pool.size ∧ s'.pool = (s₂.pool.push (if s₂.pool.isUnresolved l then .derived l op r
      else .derived r op l)).2 := by
  have hbind : inferBinary infer op lhs rhs s =
      (if s₂.pool.isUnresolved l then makeType (·.derive l op r)
      else if s₂.pool.isUnresolved r then makeType (·.derive r op l)
      else ofExcept (s₂.pool.operatorResult l op r)) s₂ := by
    simp only [inferBinary, Bind.bind, EStateM.bind, hl, hr]
    rfl
  rw [hbind] at hrun
  by_cases hleft : s₂.pool.isUnresolved l = true
  · rw [if_pos hleft] at hrun ⊢
    cases hrun
    exact ⟨rfl, rfl⟩
  · rw [if_neg hleft, if_pos (hopen.resolve_left hleft)] at hrun
    rw [if_neg hleft]
    cases hrun
    exact ⟨rfl, rfl⟩

/-- A derived entry is never changed. -/
theorem data_derived_of_evolves {p q : Pool} {root other : TypeId}
    (hq : (p.push (.derived root op other)).2.Evolves q) :
    q.data p.size = .derived root op other := by
  have hbecomes := hq.becomes p.size (by simp)
  rw [Pool.data_push, if_pos rfl] at hbecomes
  generalize q.data p.size = later at hbecomes
  cases hbecomes
  rfl

/-- An operator is typed while one of its operands is open, and both are known later on. The type
that was left for it then gives the same answers as typing the operator on the known operands if and
only if the operands that the root accepts are those that the operator accepts: with an open left
operand, the right one has to convert to it wherever the left one has the operator; with only the
right operand open, that one has to have the operator exactly where the left one has it and the
right one converts to it. -/
theorem deferred_operator_iff (hl : infer lhs s = .ok l s₁) (hr : infer rhs s₁ = .ok r s₂)
    (hinitial : Pool.initial.Evolves s₂.pool)
    (hopen : s₂.pool.isUnresolved l = true ∨ s₂.pool.isUnresolved r = true)
    (hrun : inferBinary infer op lhs rhs s = .ok t s') {q : Pool} (hq : s'.pool.Evolves q)
    (hends : WellFounded q.LooksAt) (hl' : q.isUnresolved l = false)
    (hr' : q.isUnresolved r = false) :
    (∀ u, q.resolveStrict t = .ok u ↔ q.operatorResult l op r = .ok u) ↔
      if s₂.pool.isUnresolved l then (q.operator? l op).isSome → q.canConvert r l = true
      else (q.operator? r op).isSome ↔ (q.operator? l op).isSome ∧ q.canConvert r l = true := by
  obtain ⟨rfl, hpool⟩ := inferBinary_open hl hr hopen hrun
  have hboolean : q.data .boolean = .boolean := by
    rw [hpool] at hq
    have hbecomes := ((hinitial.trans (.push _ _)).trans hq).becomes TypeId.boolean (by decide)
    generalize q.data TypeId.boolean = later at hbecomes
    cases hbecomes
    rfl
  by_cases hleft : s₂.pool.isUnresolved l = true
  · rw [if_pos hleft] at hpool ⊢
    exact Pool.resolveStrict_derived_iff hends hboolean
      (data_derived_of_evolves (hpool ▸ hq)) hl' hr'
  · rw [if_neg hleft] at hpool ⊢
    exact Pool.resolveStrict_derived_swapped_iff hends hboolean
      (data_derived_of_evolves (hpool ▸ hq)) hl' hr'

/-- The parts of `x + "s"`: an open variable and a text. -/
def openAndText (node : NodeId) : Typing Unit TypeId :=
  if node = 0 then makeType (·.freshVar) else pure .string

/-- The pool in which the variable of `openAndText` was forwarded to `Integer`. -/
def forwardedPool : Pool :=
  ((Pool.initial.freshVar.2.derive 8 .add .string).2).set 8 (.var (some .integer))

/-- Typing `x + "s"` while `x` is open leaves a type that is `Integer` as soon as `x` is, although
an Integer and a text cannot be added. -/
theorem deferred_operator_iff_text :
    forwardedPool.isUnresolved 8 = false ∧ forwardedPool.resolveStrict 9 = .ok .integer ∧
      ¬ ∀ u, forwardedPool.resolveStrict 9 = .ok u ↔
        forwardedPool.operatorResult 8 .add .string = .ok u := by
  have hends : WellFounded forwardedPool.LooksAt := by
    have hsmall : ∀ t < 10, ∀ u ∈ (forwardedPool.data t).parts ++ (forwardedPool.data t).sources,
        u < t := by decide
    refine Subrelation.wf (fun {u t} hlook => ?_) Nat.lt_wfRel.wf
    show u < t
    by_cases ht : t < 10
    · exact hsmall t ht u (List.mem_append.2 hlook)
    · have hvoid : forwardedPool.data t = .void := Pool.data_of_le (Nat.le_of_not_lt ht)
      simp [Pool.LooksAt, hvoid, TypeData.parts, TypeData.sources] at hlook
  have hq : (Pool.initial.freshVar.2.derive 8 .add .string).2.Evolves forwardedPool :=
    .set (.forwarded _)
  have hiff := deferred_operator_iff (s := { pool := .initial, imports := () })
    (show openAndText 0 _ = _ from rfl) (show openAndText 1 _ = _ from rfl) (.push _ _)
    (.inl (by decide)) (show inferBinary openAndText .add 0 1 _ = _ from rfl) hq hends (by decide)
    (by decide)
  refine ⟨by decide, by decide +kernel, fun h => ?_⟩
  exact absurd (hiff.1 h) (by decide +kernel)

/-- A unit that passes the lambda `|x| x + "s"` where a closure from `Integer` to `Integer` is
wanted. The parameter may be declared with a type or without. -/
def textLambdaUnit (param : Node) : SyntaxTree :=
  .ofStatements #[.namedType "Integer", .closureType [0] 0, .typed "f" 1, .number 1,
    .call none "f" [3], .methodDef "apply" [2] (some 0) 4, param, .ident "x", .text "s",
    .binary .add 7 8, .lambda [6] [] 9, .call none "apply" [10],
    .methodDef "main" [] (some 0) 11] [5, 12]

/-- Why typing a unit on its own stops, if it does. -/
def halt? (tree : SyntaxTree) : Option Halt :=
  match calculate { tree, importer := .none } { pool := .initial, imports := () } with
  | .ok _ _ => none
  | .error halt _ => some halt

/-- A lambda whose parameter is left open and forwarded to `Integer` is accepted with a body that is
rejected if the parameter is declared as an `Integer`. -/
theorem open_parameter_accepts_more :
    halt? (textLambdaUnit (.ident "x")) = none ∧
      halt? (textLambdaUnit (.typed "x" 0)) =
        some (.error (.typeMismatch "no operation '+' between 'Integer' and 'String'")) := by
  constructor <;> decide +kernel

end Typing

end ClassLang
