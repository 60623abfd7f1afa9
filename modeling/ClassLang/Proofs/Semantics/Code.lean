import ClassLang.Proofs.Pool.Scalars
import ClassLang.Typing.Table

/-!
# Code on Integers and Booleans

`PlainCode` is code that uses only literals, locals, operators, sequences, branches, loops, returns
and calls of such functions, and whose locals are Integers and Booleans. `ScalarCode` is such code
with what typing has found out about it: the type of each value, what each name and call means, and
where a value is converted.
-/

namespace ClassLang

/-- The types of a function's locals and of its result. -/
structure ScalarTypes where
  local? : String → Option ScalarType
  result : ScalarType

namespace TypeTable

/-- The type of a node in plain code was recorded to be this one. -/
def HasScalar (table : TypeTable) (node : NodeId) (τ : ScalarType) : Prop :=
  table.typeOf { walk := 0, node } = .ok τ.id

end TypeTable

/-- What a node gives. -/
inductive Kind where
  | scalar (τ : ScalarType)
  /-- A case of a data type, which is no word or truth value. -/
  | constant
  | nothing

/-- Code whose locals are Integers and Booleans and that calls only the given functions, with the
locals that it declares, in order. -/
inductive PlainCode (tree : SyntaxTree) (table : TypeTable) (callees : String → Prop) :
    NodeId → List (String × ScalarType) → Prop
  | number {node : NodeId} {n : Int} (h : tree.node node = .number n) :
      PlainCode tree table callees node []
  | bool {node : NodeId} {b : Bool} (h : tree.node node = .bool b) :
      PlainCode tree table callees node []
  | ident {node : NodeId} {name : String} (h : tree.node node = .ident name) :
      PlainCode tree table callees node []
  | var {node initial : NodeId} {name : String} {declared : Option NodeId}
      {locals : List (String × ScalarType)} {τ : ScalarType}
      (h : tree.node node = .var name declared initial) (htype : table.HasScalar node τ)
      (hdeclared : ∀ type ∈ declared, tree.scalarType? type = some τ)
      (hinitial : PlainCode tree table callees initial locals) :
      PlainCode tree table callees node (locals ++ [(name, τ)])
  | assign {node target value : NodeId} {name : String} {locals : List (String × ScalarType)}
      (h : tree.node node = .assign target value) (htarget : tree.node target = .ident name)
      (hvalue : PlainCode tree table callees value locals) :
      PlainCode tree table callees node locals
  | binary {node lhs rhs : NodeId} {op : BinaryOp} {locals locals' : List (String × ScalarType)}
      (h : tree.node node = .binary op lhs rhs) (hlhs : PlainCode tree table callees lhs locals)
      (hrhs : PlainCode tree table callees rhs locals') :
      PlainCode tree table callees node (locals ++ locals')
  | not {node operand : NodeId} {locals : List (String × ScalarType)}
      (h : tree.node node = .unary .not operand)
      (hoperand : PlainCode tree table callees operand locals) :
      PlainCode tree table callees node locals
  | seq {node : NodeId} {statements : List NodeId}
      {locals : NodeId → List (String × ScalarType)} (h : tree.node node = .seq statements)
      (hstatements : ∀ s ∈ statements, PlainCode tree table callees s (locals s)) :
      PlainCode tree table callees node (statements.flatMap locals)
  | branchOnly {node cond yes : NodeId} {locals locals₁ : List (String × ScalarType)}
      (h : tree.node node = .branch cond yes none)
      (hcond : PlainCode tree table callees cond locals)
      (hyes : PlainCode tree table callees yes locals₁) :
      PlainCode tree table callees node (locals ++ locals₁)
  | branchElse {node cond yes no : NodeId} {locals locals₁ locals₂ : List (String × ScalarType)}
      (h : tree.node node = .branch cond yes (some no))
      (hcond : PlainCode tree table callees cond locals)
      (hyes : PlainCode tree table callees yes locals₁)
      (hno : PlainCode tree table callees no locals₂) :
      PlainCode tree table callees node (locals ++ locals₁ ++ locals₂)
  | loop {node cond body : NodeId} {locals locals₁ : List (String × ScalarType)}
      (h : tree.node node = .loop cond body) (hcond : PlainCode tree table callees cond locals)
      (hbody : PlainCode tree table callees body locals₁) :
      PlainCode tree table callees node (locals ++ locals₁)
  | ret {node value : NodeId} {locals : List (String × ScalarType)}
      (h : tree.node node = .ret (some value)) (hvalue : PlainCode tree table callees value locals) :
      PlainCode tree table callees node locals
  | namedArg {node value : NodeId} {name : String} {locals : List (String × ScalarType)}
      (h : tree.node node = .namedArg name value)
      (hvalue : PlainCode tree table callees value locals) :
      PlainCode tree table callees node locals
  | call {node : NodeId} {name : String} {args : List NodeId}
      {locals : NodeId → List (String × ScalarType)} (h : tree.node node = .call none name args)
      (hcallee : callees name)
      (hargs : ∀ arg ∈ args, PlainCode tree table callees arg (locals arg)) :
      PlainCode tree table callees node (args.flatMap locals)

/-- The unit defines a function of this name at top level. Its parameters, locals and result are
Integers and Booleans, none of the names is declared twice, and its body is code on Integers and
Booleans that calls only the given functions. -/
structure PlainFunction (tree : SyntaxTree) (table : TypeTable) (callees : String → Prop)
    (name : String) (decl : NodeId) (fn : ScalarFunction) (sig : Signature)
    (locals : List (String × ScalarType)) : Prop where
  declared : tree.function? name = some decl
  function : tree.scalarFunction? decl = some fn
  signature : table.signature { walk := 0, node := decl } = .ok sig
  params : sig.params.map (·.type) = fn.params.map (·.2.id)
  result : sig.result = fn.result.id
  body : PlainCode tree table callees fn.body locals
  distinct : ((fn.params ++ locals).map (·.1)).Nodup

/-- All of the named functions are functions on Integers and Booleans that call only each other. -/
def PlainFunctions (tree : SyntaxTree) (table : TypeTable) (names : String → Prop) : Prop :=
  ∀ name, names name → ∃ decl fn sig locals, PlainFunction tree table names name decl fn sig locals

/-- What typing has found out about code on Integers and Booleans: what each node gives. -/
inductive ScalarCode (tree : SyntaxTree) (table : TypeTable) (callees : String → Prop)
    (K : ScalarTypes) : NodeId → Kind → List String → Prop
  | number {node : NodeId} {n : Int} (h : tree.node node = .number n)
      (htype : table.HasScalar node .integer) :
      ScalarCode tree table callees K node (.scalar .integer) []
  | bool {node : NodeId} {b : Bool} (h : tree.node node = .bool b)
      (htype : table.HasScalar node .boolean) :
      ScalarCode tree table callees K node (.scalar .boolean) []
  | readLocal {node : NodeId} {name : String} {τ : ScalarType} (h : tree.node node = .ident name)
      (htarget : table.target { walk := 0, node } = .ok .localVar) (hlocal : K.local? name = some τ)
      (htype : table.HasScalar node τ) :
      ScalarCode tree table callees K node (.scalar τ) []
  | constant {node : NodeId} {name : String} {t : TypeId} (h : tree.node node = .ident name)
      (htarget : table.target { walk := 0, node } = .ok (.singleton t)) :
      ScalarCode tree table callees K node .constant []
  | var {node initial : NodeId} {name : String} {declared : Option NodeId} {names : List String}
      {σ τ : ScalarType} (h : tree.node node = .var name declared initial)
      (hinitial : ScalarCode tree table callees K initial (.scalar σ) names)
      (hdeclared : ∀ type ∈ declared, tree.scalarType? type = some τ)
      (hinferred : declared = none → σ = τ) (hlocal : K.local? name = some τ)
      (htype : table.HasScalar node τ) :
      ScalarCode tree table callees K node (.scalar τ) (names ++ [name])
  | assign {node target value : NodeId} {name : String} {names : List String} {τ : ScalarType}
      (h : tree.node node = .assign target value) (htarget : tree.node target = .ident name)
      (hvalue : ScalarCode tree table callees K value (.scalar τ) names)
      (hlocal : K.local? name = some τ) (hwanted : table.HasScalar target τ)
      (htype : table.HasScalar node τ) :
      ScalarCode tree table callees K node (.scalar τ) names
  | binary {node lhs rhs : NodeId} {op : BinaryOp} {names names' : List String}
      {σ ρ τ : ScalarType} (h : tree.node node = .binary op lhs rhs)
      (hlhs : ScalarCode tree table callees K lhs (.scalar σ) names)
      (hrhs : ScalarCode tree table callees K rhs (.scalar ρ) names')
      (hresult : op.scalarResult? σ = some τ) (htype : table.HasScalar node τ) :
      ScalarCode tree table callees K node (.scalar τ) (names ++ names')
  | not {node operand : NodeId} {names : List String} (h : tree.node node = .unary .not operand)
      (hoperand : ScalarCode tree table callees K operand (.scalar .boolean) names)
      (htype : table.HasScalar node .boolean) :
      ScalarCode tree table callees K node (.scalar .boolean) names
  | seq {node : NodeId} {statements : List NodeId} {kinds : NodeId → Kind}
      {names : NodeId → List String} (h : tree.node node = .seq statements)
      (hstatements : ∀ s ∈ statements, ScalarCode tree table callees K s (kinds s) (names s))
      (htype : ∀ last τ, statements.getLast? = some last → kinds last = .scalar τ →
        table.HasScalar node τ) :
      ScalarCode tree table callees K node (statements.getLast?.elim .nothing kinds)
        (statements.flatMap names)
  | branchOnly {node cond yes : NodeId} {names names₁ : List String} {τ : ScalarType} {kind : Kind}
      (h : tree.node node = .branch cond yes none)
      (hcond : ScalarCode tree table callees K cond (.scalar τ) names)
      (hyes : ScalarCode tree table callees K yes kind names₁) :
      ScalarCode tree table callees K node .nothing (names ++ names₁)
  | branchElse {node cond yes no : NodeId} {names names₁ names₂ : List String} {τ : ScalarType}
      {kind kind' : Kind} (h : tree.node node = .branch cond yes (some no))
      (hcond : ScalarCode tree table callees K cond (.scalar τ) names)
      (hyes : ScalarCode tree table callees K yes kind names₁)
      (hno : ScalarCode tree table callees K no kind' names₂) :
      ScalarCode tree table callees K node .nothing (names ++ names₁ ++ names₂)
  | loop {node cond body : NodeId} {names names₁ : List String} {τ : ScalarType} {kind : Kind}
      (h : tree.node node = .loop cond body)
      (hcond : ScalarCode tree table callees K cond (.scalar τ) names)
      (hbody : ScalarCode tree table callees K body kind names₁) :
      ScalarCode tree table callees K node .nothing (names ++ names₁)
  | ret {node value : NodeId} {names : List String} {σ : ScalarType}
      (h : tree.node node = .ret (some value))
      (hvalue : ScalarCode tree table callees K value (.scalar σ) names)
      (haccepts : K.result.accepts σ = true) :
      ScalarCode tree table callees K node .nothing names
  | namedArg {node value : NodeId} {name : String} {names : List String} {kind : Kind}
      (h : tree.node node = .namedArg name value)
      (hvalue : ScalarCode tree table callees K value kind names)
      (htype : ∀ τ, kind = .scalar τ → table.HasScalar node τ) :
      ScalarCode tree table callees K node kind names
  | call {node decl : NodeId} {name : String} {args : List NodeId} {types : NodeId → ScalarType}
      {names : NodeId → List String} {fn : ScalarFunction} {sig : Signature}
      (h : tree.node node = .call none name args) (hcallee : callees name)
      (hdecl : tree.function? name = some decl) (hfn : tree.scalarFunction? decl = some fn)
      (hsig : table.signature { walk := 0, node := decl } = .ok sig)
      (htarget : table.target { walk := 0, node } = .ok (.function sig))
      (hargs : ∀ arg ∈ args, ScalarCode tree table callees K arg (.scalar (types arg)) (names arg))
      (htype : table.HasScalar node fn.result) :
      ScalarCode tree table callees K node (.scalar fn.result) (args.flatMap names)

/-- The signature is that of a function on Integers and Booleans. -/
structure ScalarFunction.Takes (fn : ScalarFunction) (sig : Signature) : Prop where
  params : List.Forall₂ (fun p q => q.name = some p.1 ∧ q.type = p.2.id) fn.params sig.params
  names : (fn.params.map (·.1)).Nodup
  result : sig.result = fn.result.id
  varargs : sig.varargs = false

theorem ScalarFunction.Takes.map_name {fn : ScalarFunction} {sig : Signature} (h : fn.Takes sig) :
    sig.params.map (·.name) = fn.params.map fun param => some param.1 := by
  have hparams := h.params
  generalize fn.params = ps, sig.params = qs at hparams
  induction hparams with
  | nil => rfl
  | cons hhead _ ih => rw [List.map_cons, List.map_cons, hhead.1, ih]

/-- What typing has found out about a function on Integers and Booleans: its locals are the
parameters and the `names` that the body declares, and its end gives a value only if there is one to
return. -/
structure ScalarMethod (tree : SyntaxTree) (table : TypeTable) (callees : String → Prop)
    (fn : ScalarFunction) (sig : Signature) (K : ScalarTypes) (kind : Kind) (names : List String) :
    Prop where
  takes : fn.Takes sig
  result : K.result = fn.result
  params : ∀ p ∈ fn.params, K.local? p.1 = some p.2
  body : ScalarCode tree table callees K fn.body kind names
  names : (fn.params.map (·.1) ++ names).Nodup
  last : kind ≠ .constant ∧ ∀ σ, kind = .scalar σ → fn.result.accepts σ = true

/-- Typing has found out this much about each of the named functions. -/
def ScalarMethods (tree : SyntaxTree) (table : TypeTable) (names : String → Prop) : Prop :=
  ∀ name decl fn sig, names name → tree.function? name = some decl →
    tree.scalarFunction? decl = some fn → table.signature { walk := 0, node := decl } = .ok sig →
      ∃ K kind locals, ScalarMethod tree table names fn sig K kind locals

/-- The type of a value is the one that was recorded. -/
theorem ScalarCode.hasType {tree : SyntaxTree} {table : TypeTable} {callees : String → Prop}
    {K : ScalarTypes} {node : NodeId} {τ : ScalarType} {names : List String}
    (h : ScalarCode tree table callees K node (.scalar τ) names) : table.HasScalar node τ := by
  generalize hkind : Kind.scalar τ = kind at h
  cases h with
  | seq h hstatements htype =>
      rename_i statements kinds _
      cases hlast : statements.getLast? with
      | none =>
          rw [hlast] at hkind
          cases hkind
      | some last =>
          rw [hlast] at hkind
          exact htype last τ hlast hkind.symm
  | namedArg _ _ htype => exact htype τ hkind.symm
  | _ => first | (cases hkind; assumption) | cases hkind

end ClassLang
