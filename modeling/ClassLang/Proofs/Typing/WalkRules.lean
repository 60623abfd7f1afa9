import ClassLang.Proofs.InternalErrors
import ClassLang.Proofs.Pool.Cases
import ClassLang.Proofs.Pool.Layouts
import ClassLang.Proofs.Syntax.Placement
import ClassLang.Proofs.Typing.AccountedDeclarations
import ClassLang.Proofs.Typing.RequestSite
import ClassLang.Typing.Calculate

/-!
# What a walk consists of

Typing a node, however deep it nests, is made of a few kinds of steps: the pool changes by one of its
operations, findings go into the table, a variable is bound in the innermost frame. Around stretches
of such steps a frame is opened and closed, another walk or declared result is entered and left, or
an expansion is registered, declared in isolation and queued.

`WalkRules` are an invariant and a relation between the states before and after that respect each of
these kinds. `WalkRules.Keeps` says that a step respects the rules; the rules below take this through
sequences and loops. That all of typing keeps whatever rules there are is the subject of
`ClassLang.Proofs.Typing.WalkedDeclarations` and `ClassLang.Proofs.Typing.WalkedBodies`.

Rules may be `strict`: then code that stands where code may stand never stops with an internal error.
For this they give the `Guarantees` that typing relies on.
-/

namespace ClassLang

/-- A frame that binds variables only. -/
structure Scope.BindsValues (frame : Scope) : Prop where
  names : ∀ entry ∈ frame.names, ∃ t, entry.2 = .value t
  templates : frame.templates = []

namespace Scope.BindsValues

theorem empty : ({} : Scope).BindsValues :=
  ⟨by simp, rfl⟩

theorem forType {t : TypeId} {ivars : List (String × TypeId)} :
    (Scope.forType t ivars).BindsValues :=
  ⟨by simp [Scope.forType], rfl⟩

theorem bindValues {frame : Scope} {values : List (String × TypeId)} (h : frame.BindsValues) :
    (frame.bindValues values).BindsValues := by
  induction values generalizing frame with
  | nil => exact h
  | cons value values ih =>
      refine ih ⟨fun entry hentry => ?_, h.templates⟩
      rcases List.mem_cons.mp hentry with rfl | hentry
      · exact ⟨_, rfl⟩
      · exact h.names entry hentry

end Scope.BindsValues

/-- A frame that binds variables only and is not that of a type. -/
structure Scope.BindsLocals (frame : Scope) : Prop extends frame.BindsValues where
  ivars : frame.ivars = []

namespace Scope.BindsLocals

theorem empty : ({} : Scope).BindsLocals :=
  ⟨.empty, rfl⟩

theorem bindValues {frame : Scope} {values : List (String × TypeId)} (h : frame.BindsLocals) :
    (frame.bindValues values).BindsLocals := by
  refine ⟨h.toBindsValues.bindValues, ?_⟩
  induction values generalizing frame with
  | nil => exact h.ivars
  | cons value values ih =>
      have hbound : (frame.bindValues [value]).BindsLocals :=
        ⟨h.toBindsValues.bindValues, h.ivars⟩
      exact ih hbound

end Scope.BindsLocals

/-- Any type may be recorded for the node: it is neither an instance variable nor the declaration of
a plain type. -/
def Node.takesAnyType : Node → Bool
  | ivar _ => false
  | d => !d.declaresType

/-- A finding is recorded in a walk: the type of a node, what it means, or its signature. An included
trait body gets a walk of its own, which is recorded for the inclusion at once. -/
inductive TypeTable.Records (walk : InstanceId) (table : TypeTable) : TypeTable → Prop
  | type (node : NodeId) (r : TypeId) : Records walk table (table.record ⟨walk, node⟩ r)
  | target (node : NodeId) (target : Target) :
      Records walk table (table.setTarget ⟨walk, node⟩ target)
  | signature (node : NodeId) (sig : Signature) :
      Records walk table (table.setSignature ⟨walk, node⟩ sig)
  | inclusion (node : NodeId) :
      Records walk table (table.freshInstance.2.setInclusion ⟨walk, node⟩ table.nextInstance)
  /-- A walk is opened in which nothing is ever recorded. -/
  | unused : Records walk table table.freshInstance.2

/-- Walks are only ever added. -/
theorem TypeTable.Records.nextInstance_le {walk : InstanceId} {table after : TypeTable}
    (h : table.Records walk after) : table.nextInstance ≤ after.nextInstance := by
  cases h with
  | inclusion => exact Nat.le_succ _
  | unused => exact Nat.le_succ _
  | _ => exact Nat.le_refl _

/-- The case that a node with this meaning builds. -/
def Target.built? : Target → Option TypeId
  | .singleton variant => some variant
  | .constructCase variant _ => some variant
  | _ => none

namespace Typing

variable {σ : Type}

/-- What a stretch of typing may do beyond changing the pool and recording its findings. -/
inductive Licence where
  /-- Bind variables with these names in the innermost frame, in a body. -/
  | body (names : String → Prop)
  /-- Add instance variables to the innermost frame and cases to the owner, where the members of an
  expansion are declared. -/
  | members (owner : TypeId)
  /-- Nothing, where a type expression is read. -/
  | types

/-- The licence of a frame of its own, in which any variable may be bound. -/
def Licence.any : Licence :=
  .body fun _ => True

/-- Between entering one state and leaving another a stretch of typing may be made: what respects
the inner relation inside respects the outer one as a whole. -/
structure Bracket {S : Type} (innerInv outerInv : S → Prop)
    (inner innerFails outer outerFails : S → S → Prop) (s entered : S) (leave : S → S) : Prop where
  enters : innerInv entered
  leaves : ∀ t, innerInv t → inner entered t → outerInv (leave t) ∧ outer s (leave t)
  breaks : ∀ t, innerFails entered t → outerFails s (leave t)

/-- An expansion is made: the template is in scope, the argument was denoted by a type expression,
and there is no expansion with this argument yet. -/
structure Expanding (s : TypingState σ) (id : TemplateId) (template : Template) (name : String)
    (arg r : TypeId) (p : Pool) : Prop where
  found : s.templates.getD id default = template
  missing : ∀ e ∈ template.expansions, s.pool.sameTypes e.args [arg] = false
  made : s.pool.newReference name = (r, p) ∨ s.pool.newData name = (r, p)

/-- The type is that of an expansion of the template. -/
def IsExpansion (s : TypingState σ) (id : TemplateId) (r : TypeId) : Prop :=
  ∃ index decl e, expansionAt? s.templates id index = some (decl, e) ∧ e.type = r

/-- All cases of a declaration were added to the type. -/
def CasesLaidOut (tree : SyntaxTree) (p : Pool) (decl : NodeId) (r : TypeId) : Prop :=
  ∀ name param cases body, tree.node decl = .dataDef name param cases body →
    p.HasCases r cases.length

/-- What a case is built from at a node: the name that the node is written with denoted it in `t`, or
it was found with an expansion that was there in `u`. -/
inductive Constructed (ctx : TypingContext σ) (t u : TypingState σ) (node : NodeId) (r : TypeId) :
    Prop
  /-- A bare name, or a call without a receiver. -/
  | named {name : String} (hnode : ctx.tree.node node = .ident name ∨
        ∃ args, ctx.tree.node node = .call none name args)
      (h : t.scopes.lookup name = some (.type r)) : Constructed ctx t u node r
  /-- A type of an imported module. -/
  | imported {receiver : NodeId} {name : String} {args : List NodeId} {id : ModuleId} {e : Exports}
      (hnode : ctx.tree.node node = .call (some receiver) name args)
      (hexports : ctx.importer.exports? t.imports id = some e) (h : e.type? name = some r) :
      Constructed ctx t u node r
  /-- An expansion itself, which is no case. -/
  | expanded {id : TemplateId} (h : IsExpansion u id r) :
      Constructed ctx t u node r
  /-- A case of an expansion. -/
  | generic {name : String} {typeArgs args : List NodeId} {id : TemplateId} {index : Nat}
      {owner : TypeId} (hnode : ctx.tree.node node = .templatedInstance name typeArgs args)
      (hlookup : t.scopes.lookup name = some (.genericCase id index))
      (howner : IsExpansion u id owner)
      (h : (u.pool.cases owner)[index]? = some r) : Constructed ctx t u node r

/-- What is kept of expansions where they are followed: they are those of templates that are there,
and they are never lost. -/
structure Follows (inv : Licence → TypingState σ → Prop)
    (le : Licence → TypingState σ → TypingState σ → Prop)
    (known : TemplateId → TypingState σ → Prop) : Prop where
  evolves : ∀ {l s t}, le l s t → s.pool.Evolves t.pool
  expansions : ∀ {l s t id r}, le l s t → IsExpansion s id r → IsExpansion t id r
  template_lt : ∀ {l s id}, inv l s → known id s → id < s.templates.length

/-- What typing relies on where it would stop with an internal error otherwise. -/
structure Guarantees (ctx : TypingContext σ) (inv : Licence → TypingState σ → Prop)
    (le : Licence → TypingState σ → TypingState σ → Prop)
    (known : TemplateId → TypingState σ → Prop) : Prop where
  regular : ctx.tree.Regular
  /-- Templates are classes and data types. -/
  template : ∀ {l s id}, inv l s → known id s → ∃ template, s.templates[id]? = some template ∧
    (ctx.tree.node template.decl).isNominal
  /-- Imported modules have exports. -/
  module : ∀ {l s name id}, inv l s → s.scopes.lookup name = some (.module id) →
    (ctx.importer.exports? s.imports id).isSome
  /-- Outside of the declaration of an expansion, the expansions of a data type have all cases. -/
  variant : ∀ {names s t name id index r}, inv (.body names) s →
    s.scopes.lookup name = some (.genericCase id index) → le (.body names) s t →
    inv (.body names) t → IsExpansion t id r → ((t.pool.cases r)[index]?).isSome

/-- What may be recorded for a node at a point: for an instance variable what its name is bound to in
the code, and for the declaration of a plain type what was recorded before. -/
structure MayRecord (ctx : TypingContext σ) (inside : NodeId → Prop) (inv : TypingState σ → Prop)
    (le : TypingState σ → TypingState σ → Prop) (l : Licence) (s : TypingState σ) (node : NodeId)
    (r : TypeId) : Prop where
  ivar : ∀ name, ctx.tree.node node = .ivar name →
    inside node ∧ (∃ names, l = .body names) ∧ s.scopes.lookupIvar name = some r
  plain : (ctx.tree.node node).declaresType = true →
    ∃ t, inv t ∧ le t s ∧ t.table.get? ⟨t.walk, node⟩ = some r

namespace MayRecord

variable {ctx : TypingContext σ} {inside : NodeId → Prop} {inv : TypingState σ → Prop}
  {le : TypingState σ → TypingState σ → Prop} {l : Licence} {s t : TypingState σ} {node : NodeId}
  {r : TypeId}

theorem of_takesAnyType (h : (ctx.tree.node node).takesAnyType = true) :
    MayRecord ctx inside inv le l s node r where
  ivar name hnode := by simp [hnode, Node.takesAnyType] at h
  plain hplain := by
    unfold Node.takesAnyType at h
    split at h <;> simp_all

/-- The type of a declaration is recorded again. -/
theorem of_declaresType (hdecl : (ctx.tree.node node).declaresType = true) (hs : inv s)
    (hle : le s t) (hr : s.table.get? ⟨s.walk, node⟩ = some r) :
    MayRecord ctx inside inv le l t node r where
  ivar name hnode := by simp [hnode, Node.declaresType] at hdecl
  plain _ := ⟨s, hs, hle, hr⟩

end MayRecord

/-- An invariant, and relations between the state before a stretch of typing and the state after it,
that respect whatever such a stretch consists of. -/
structure WalkRules (ctx : TypingContext σ) where
  /-- The nodes whose code is typed. -/
  inside : NodeId → Prop := fun _ => True
  /-- Whether the declarations of plain types are walked, too. -/
  declares : Prop := True
  /-- Whether plain classes are laid out, too. -/
  laysOut : Prop := True
  inv : Licence → TypingState σ → Prop
  /-- How a stretch may change the state. -/
  le : Licence → TypingState σ → TypingState σ → Prop
  /-- How a stretch that fails may change it. -/
  fails : Licence → TypingState σ → TypingState σ → Prop
  /-- What holds of the types that type expressions denote. -/
  denoted : TypeId → TypingState σ → Prop
  /-- What holds of the templates in scope. -/
  known : TemplateId → TypingState σ → Prop
  /-- What holds of a data type while the declared cases are added to it, and so many of them are
  there. -/
  filling : Licence → TypeId → List NodeId → Nat → TypingState σ → Prop
  /-- Whether expansions are followed. -/
  follows : Prop
  followed : follows → Follows inv le known
  /-- Whether internal errors are ruled out. -/
  strict : Prop
  guarantees : strict → Guarantees ctx inv le known
  inside_child : ∀ {node child}, inside node → child ∈ (ctx.tree.node node).children →
    inside child := by
    intros; trivial
  inside_of_declares : declares → ∀ node, inside node := by
    intros; trivial
  /-- Only the declarations of plain types have a type before they are walked. -/
  declares_of_recorded : ∀ {names s decl r}, inv (.body names) s → inside decl →
    (ctx.tree.node decl).declaresType = true → s.table.get? ⟨s.walk, decl⟩ = some r → declares := by
    intros; trivial
  follows_of_strict : strict → follows
  refl : ∀ l s, le l s s
  trans : ∀ {l s t u}, le l s t → le l t u → le l s u
  fails_refl : ∀ l s, fails l s s
  fails_trans : ∀ {l s t u}, le l s t → fails l t u → fails l s u
  denoted_mono : ∀ {l s t r}, inv l s → le l s t → denoted r s → denoted r t
  known_mono : ∀ {l s t id}, inv l s → le l s t → known id s → known id t
  /-- A type expression is read. -/
  types : ∀ {l s}, inv l s →
    Bracket (inv .types) (inv l) (le .types) (fails .types) (le l) (fails l) s s id
  /-- The pool changes, but no data type gets a case. A layout changes only where classes are laid
  out. -/
  pool : ∀ {l s q}, inv l s → s.pool.Caseless q →
    (∀ t, q.ivarList t = s.pool.ivarList t ∨ laysOut ∨ l = .members t) →
    inv l { s with pool := q } ∧ le l s { s with pool := q }
  /-- The next case that is declared is added to a data type. -/
  case : ∀ {l s owner cases count decl name params qualified fields r q}, inv l s →
    filling l owner cases count s → cases[count]? = some decl →
    ctx.tree.node decl = .caseDef name params →
    s.pool.addCase owner qualified name fields = .ok (r, q) →
    inv l { s with pool := q } ∧ le l s { s with pool := q } ∧
      filling l owner cases (count + 1) { s with pool := q }
  filling_body : ∀ {names s} owner cases, inv (.body names) s →
    filling (.body names) owner cases 0 s
  filling_mono : ∀ {l s t owner cases count}, inv l s → le .types s t →
    filling l owner cases count s → filling l owner cases count t
  /-- A finding that is no meaning is recorded in the walk. -/
  table : ∀ {l s table}, inv l s → s.table.Records s.walk table →
    table.targets = s.table.targets →
    (∀ node r, table.get? ⟨s.walk, node⟩ = some r → s.table.get? ⟨s.walk, node⟩ = some r ∨
      MayRecord ctx inside (inv l) (le l) l s node r) → inv l { s with table } ∧ le l s { s with table }
  /-- The meaning of a node is recorded. If it is to build a case, that was found before the
  arguments were typed. -/
  target : ∀ {l t u s node target}, inv l t → le l t u → inv l u → le l u s → inv l s →
    (follows → ∀ r, target.built? = some r → Constructed ctx t u node r) →
    inv l { s with table := s.table.setTarget ⟨s.walk, node⟩ target } ∧
      le l s { s with table := s.table.setTarget ⟨s.walk, node⟩ target }
  /-- A variable is bound. -/
  value : ∀ {names s name r}, inv (.body names) s → names name →
    inv (.body names) { s with scopes := s.scopes.bind name (.value r) } ∧
      le (.body names) s { s with scopes := s.scopes.bind name (.value r) }
  /-- An instance variable is added to the frame of an expansion. -/
  ivar : ∀ {owner s name r}, inv (.members owner) s →
    inv (.members owner) { s with scopes := s.scopes.addIvar name r } ∧
      le (.members owner) s { s with scopes := s.scopes.addIvar name r }
  /-- A frame is opened and closed. It is that of a type only where declarations are walked. -/
  frame : ∀ {names s frame}, inv (.body names) s → frame.BindsValues →
    (frame.ivars = [] ∨ declares) → Bracket (inv .any) (inv (.body names)) (le .any) (fails .any) (le (.body names))
      (fails (.body names)) s { s with scopes := s.scopes.push frame } fun t =>
        { t with scopes := t.scopes.pop }
  /-- The walk of an included trait body is entered and left. -/
  walk : ∀ {l s walk node}, inv l s → s.table.inclusion? ⟨s.walk, node⟩ = some walk →
    (declares ∨ ∃ owner, l = .members owner) → Bracket (inv l) (inv l) (le l) (fails l) (le l) (fails l) s { s with walk } fun t =>
      { t with walk := s.walk }
  /-- Another declared result is set and put back. -/
  result : ∀ {l s returnType}, inv l s →
    Bracket (inv l) (inv l) (le l) (fails l) (le l) (fails l) s { s with returnType } fun t =>
      { t with returnType := s.returnType }
  /-- The members of a new expansion are declared. -/
  expansion_enters : ∀ {l s id template name arg r p}, inv l s → known id s → denoted arg s →
    Expanding s id template name arg r p →
    inv (.members r) (enterExpansion s id template name arg r p) ∧
      ∀ name' param cases body, ctx.tree.node template.decl = .dataDef name' param cases body →
        filling (.members r) r cases 0 (enterExpansion s id template name arg r p)
  /-- A new expansion is queued, with all its cases if expansions are followed. Its members were
  declared before. -/
  expansion_leaves : ∀ {l s id template name arg r p t}, inv l s → known id s → denoted arg s →
    Expanding s id template name arg r p → inv (.members r) t →
    le (.members r) (enterExpansion s id template name arg r p) t →
    (∃ fuel, declareExpanded ctx (typeExprWithin ctx fuel) template.decl r
      (enterExpansion s id template name arg r p) = .ok () t) →
    (follows → CasesLaidOut ctx.tree t.pool template.decl r) →
    inv l (leaveExpansion s id template t) ∧ le l s (leaveExpansion s id template t) ∧
      denoted r (leaveExpansion s id template t)
  /-- The members of a new expansion cannot be declared. -/
  expansion_breaks : ∀ {l s id template name arg r p t}, inv l s → known id s → denoted arg s →
    Expanding s id template name arg r p →
    fails (.members r) (enterExpansion s id template name arg r p) t →
    fails l s (t.relocate s.site)
  denoted_name : ∀ {l s name r}, inv l s → s.scopes.lookup name = some (.type r) → denoted r s
  denoted_pointer : ∀ {l s target}, inv l s → denoted target s →
    denoted (s.pool.pointer target).1 { s with pool := (s.pool.pointer target).2 }
  denoted_closure : ∀ {l s params result}, inv l s → (∀ param ∈ params, denoted param s) →
    denoted result s → denoted (s.pool.closure params result []).1
      { s with pool := (s.pool.closure params result []).2 }
  denoted_case : ∀ {l s owner name shortName fields r q}, inv l s →
    s.pool.addCase owner name shortName fields = .ok (r, q) → denoted r { s with pool := q }
  /-- An expansion that was made before is found again. -/
  denoted_expansion : ∀ {l s id e}, inv l s → e ∈ (s.templates.getD id default).expansions →
    denoted e.type s
  known_template : ∀ {l s name id}, inv l s → s.scopes.findTemplate name = some id → known id s
  known_case : ∀ {l s name id index}, inv l s →
    s.scopes.lookup name = some (.genericCase id index) → known id s

namespace WalkRules

variable {ctx : TypingContext σ} (rules : WalkRules ctx) {l : Licence} {α β : Type}
  {s : TypingState σ}

/-- The discipline of a stretch of typing. -/
def discipline (l : Licence) : Discipline Halt (TypingState σ) where
  inv := rules.inv l
  le := rules.le l
  fails s h t := rules.fails l s t ∧ (rules.strict → ¬ h.IsInternal)
  refl := rules.refl l
  trans := rules.trans
  fails_trans hle h := ⟨rules.fails_trans hle h.1, h.2⟩

/-- The step keeps the rules. -/
def Keeps (l : Licence) (step : Typing σ α) : Prop :=
  ∀ s, rules.inv l s → (rules.discipline l).KeepsAt s step fun _ _ => True

/-- The step keeps the rules, and what it returns is like the types that type expressions
denote. -/
def Denotes (l : Licence) (step : Typing σ TypeId) : Prop :=
  ∀ s, rules.inv l s → (rules.discipline l).KeepsAt s step rules.denoted

variable {rules}

/-- Where internal errors are ruled out, types stand in the place of types. -/
theorem typePart {node part : NodeId} (h : part ∈ (ctx.tree.node node).typeParts) :
    rules.strict → (ctx.tree.node part).isTypeExpr :=
  fun hstrict => (rules.guarantees hstrict).regular.typePart h

theorem denoted_stable (r : TypeId) : (rules.discipline l).Stable (rules.denoted r) :=
  fun _ _ hs hle _ h => rules.denoted_mono hs hle h

/-- A step that ends with an error. -/
theorem fails_at {Q : α → TypingState σ → Prop} {h : Halt}
    (hstrict : rules.strict → ¬ h.IsInternal) : (rules.discipline l).KeepsAt s (throw h) Q :=
  .of_error rfl ⟨rules.fails_refl l s, hstrict⟩

theorem mismatch_at {Q : α → TypingState σ → Prop} {text : String} :
    (rules.discipline l).KeepsAt s (mismatch text) Q :=
  fails_at fun _ => Halt.not_isInternal_of_kind (by simp)

/-- What follows an error is never reached. -/
theorem stops_at {Q : α → TypingState σ → Prop} {h : Halt} {next : β → Typing σ α}
    (hstrict : rules.strict → ¬ h.IsInternal) :
    (rules.discipline l).KeepsAt s ((throw h : Typing σ β) >>= next) Q :=
  .bind (fails_at (Q := fun _ _ => False) hstrict) fun _ _ _ _ h => h.elim

/-- A result that is expected, or an error. -/
theorem ofExcept_at {Q : α → TypingState σ → Prop} {r : Except CompileError α}
    (hs : rules.inv l s) (hstrict : rules.strict → Faultless r) (hok : ∀ a, r = .ok a → Q a s) :
    (rules.discipline l).KeepsAt s (ofExcept r) Q := by
  cases r with
  | ok a => exact .pure hs (hok a rfl)
  | error e => exact fails_at fun h => (hstrict h).not_isInternal rfl

/-- A stretch inside a bracket. -/
theorem within_keeps {l' : Licence} {enter : TypingState σ → TypingState σ}
    {leave : TypingState σ → TypingState σ → TypingState σ} {step : Typing σ α}
    {Q : α → TypingState σ → Prop}
    (hbracket : Bracket (rules.inv l') (rules.inv l) (rules.le l') (rules.fails l') (rules.le l)
      (rules.fails l) s (enter s) (leave s))
    (h : (rules.discipline l').KeepsAt (enter s) step Q) :
    (rules.discipline l).KeepsAt s (within enter leave step) fun _ _ => True := by
  cases hrun : step (enter s) with
  | ok a t =>
      obtain ⟨ht, hle, -⟩ := h.ok hrun
      obtain ⟨ht', hle'⟩ := hbracket.leaves t ht hle
      exact .of_ok (within_ok hrun) ht' hle' True.intro
  | error e t =>
      obtain ⟨hfails, hstrict⟩ := h.error hrun
      exact .of_error (within_error hrun) ⟨hbracket.breaks t hfails, hstrict⟩

/-- A stretch in which type expressions are read. -/
theorem types_at {step : Typing σ α} {Q : α → TypingState σ → Prop} (hs : rules.inv l s)
    (h : (rules.discipline .types).KeepsAt s step Q) :
    (rules.discipline l).KeepsAt s step fun a t => Q a t ∧ rules.le .types s t := by
  have hbracket := rules.types hs
  cases hrun : step s with
  | ok a t =>
      obtain ⟨ht, hle, hQ⟩ := h.ok hrun
      obtain ⟨ht', hle'⟩ := hbracket.leaves t ht hle
      exact .of_ok hrun ht' hle' ⟨hQ, hle⟩
  | error e t =>
      obtain ⟨hfails, hstrict⟩ := h.error hrun
      exact .of_error hrun ⟨hbracket.breaks t hfails, hstrict⟩

/-- What a type expression denotes does not depend on where it is read. -/
theorem Denotes.of_types {step : Typing σ TypeId} (h : rules.Denotes .types step) :
    rules.Denotes l step :=
  fun s hs => (types_at hs (h s (rules.types hs).enters)).weaken fun _ _ _ _ h => h.1

theorem Denotes.keeps {step : Typing σ TypeId} (h : rules.Denotes l step) : rules.Keeps l step :=
  fun s hs => (h s hs).trivial

namespace Keeps

theorem pure (a : α) : rules.Keeps l (Pure.pure a : Typing σ α) :=
  fun _ hs => .pure hs True.intro

theorem outOfFuel : rules.Keeps l (throw .outOfFuel : Typing σ α) :=
  fun _ _ => fails_at fun _ => Halt.not_isInternal_outOfFuel

/-- An error that is not internal. -/
theorem fail {e : CompileError} (he : ∀ text, e ≠ .internal text) :
    rules.Keeps l (Typing.fail e : Typing σ α) :=
  fun _ _ => fails_at fun _ => Halt.not_isInternal_of_kind he

/-- An internal error, where it is possible. -/
theorem internal {text : String} (hloose : ¬ rules.strict) :
    rules.Keeps l (Typing.fail (.internal text) : Typing σ α) :=
  fun _ _ => fails_at fun h => absurd h hloose

theorem mismatch (text : String) : rules.Keeps l (Typing.mismatch text : Typing σ α) :=
  fun _ _ => mismatch_at

/-- What follows an error is never reached. -/
theorem stop {e : CompileError} {next : β → Typing σ α} (he : ∀ text, e ≠ .internal text) :
    rules.Keeps l ((Typing.fail e : Typing σ β) >>= next) :=
  fun _ _ => stops_at fun _ => Halt.not_isInternal_of_kind he

theorem bind {first : Typing σ β} {next : β → Typing σ α} (h : rules.Keeps l first)
    (hnext : ∀ b, rules.Keeps l (next b)) : rules.Keeps l (first >>= next) :=
  fun s hs => .bind (h s hs) fun b t ht _ _ => hnext b t ht

/-- Looking at the state. -/
theorem get {next : TypingState σ → Typing σ α} (h : ∀ s, rules.Keeps l (next s)) :
    rules.Keeps l (MonadState.get >>= next) :=
  fun s hs => .bind_read hs rfl (h s s hs)

theorem ofExcept {r : Except CompileError α} (hstrict : rules.strict → Faultless r) :
    rules.Keeps l (Typing.ofExcept r) :=
  fun _ hs => ofExcept_at hs hstrict fun _ _ => True.intro

theorem forM {items : List β} {body : β → Typing σ PUnit}
    (h : ∀ item ∈ items, rules.Keeps l (body item)) : rules.Keeps l (items.forM body) :=
  fun _ hs => Discipline.forM_keeps (P := fun _ => True) items hs True.intro
    fun item hitem t ht _ _ => h item hitem t ht

theorem mapM {items : List β} {body : β → Typing σ α}
    (h : ∀ item ∈ items, rules.Keeps l (body item)) : rules.Keeps l (items.mapM body) :=
  fun _ hs => (Discipline.mapM_keeps_all (P := fun _ _ => True) items hs
    (fun _ _ _ _ _ _ _ => True.intro) fun item hitem t ht _ => h item hitem t ht).trivial

theorem foldlM {items : List β} {body : α → β → Typing σ α} {a : α}
    (h : ∀ a, ∀ item ∈ items, rules.Keeps l (body a item)) :
    rules.Keeps l (items.foldlM body a) :=
  fun _ hs => Discipline.foldlM_keeps (P := fun _ _ => True) items hs True.intro
    fun item hitem a t ht _ _ => h a item hitem t ht

/-! ## Elementary steps -/

theorem makeType {f : Pool → TypeId × Pool} (hf : ∀ p : Pool, p.Caseless (f p).2)
    (hlayouts : ∀ p : Pool, p.KeepsLayouts (f p).2) :
    rules.Keeps l (Typing.makeType f : Typing σ TypeId) := fun s hs =>
  have hpool := rules.pool hs (hf s.pool) fun t => .inl (hlayouts s.pool t)
  .of_ok rfl hpool.1 hpool.2 True.intro

theorem setPool {p : Pool} (hs : rules.inv l s) (hchange : s.pool.Caseless p)
    (hlayouts : ∀ t, p.ivarList t = s.pool.ivarList t ∨ rules.laysOut ∨ l = .members t) :
    (rules.discipline l).KeepsAt s (modify fun s => { s with pool := p }) fun _ _ => True :=
  have hpool := rules.pool hs hchange hlayouts
  .of_ok rfl hpool.1 hpool.2 True.intro

theorem updatePool {f : Pool → Except CompileError Pool} (hs : rules.inv l s)
    (hf : ∀ q : Pool, f s.pool = .ok q → s.pool.Caseless q)
    (hlayouts : ∀ q : Pool, f s.pool = .ok q →
      ∀ t, q.ivarList t = s.pool.ivarList t ∨ rules.laysOut ∨ l = .members t)
    (hstrict : rules.strict → Faultless (f s.pool)) :
    (rules.discipline l).KeepsAt s (Typing.updatePool f) fun _ _ => True := by
  refine .bind_read hs rfl ?_
  cases hp : f s.pool with
  | error e => exact stops_at fun h => (hstrict h).not_isInternal hp
  | ok p => exact .bind_read hs rfl (setPool hs (hf p hp) (hlayouts p hp))

theorem visit (node : NodeId) : rules.Keeps l (Typing.visit node : Typing σ Visit) :=
  get fun _ => pure _

/-- What may be recorded for a node is recorded. -/
theorem record_at {node : NodeId} {r : TypeId} (hs : rules.inv l s)
    (h : MayRecord ctx rules.inside (rules.inv l) (rules.le l) l s node r) :
    (rules.discipline l).KeepsAt s (Typing.record node r : Typing σ Unit) fun _ _ => True := by
  have hrecords : s.table.Records s.walk (s.table.record ⟨s.walk, node⟩ r) := .type node r
  have htable := rules.table hs hrecords rfl fun other r' hr' => by
    by_cases hother : other = node
    · subst hother
      rw [TypeTable.get?_record_self] at hr'
      exact .inr (Option.some.inj hr' ▸ h)
    · rw [TypeTable.get?_record_of_ne _ _ (by simpa using hother)] at hr'
      exact .inl hr'
  exact .of_ok rfl htable.1 htable.2 True.intro

/-- Any type is recorded for a node that takes it. -/
theorem record (node : NodeId) (r : TypeId)
    (h : (ctx.tree.node node).takesAnyType = true) :
    rules.Keeps l (Typing.record node r : Typing σ Unit) :=
  fun _ hs => record_at hs (.of_takesAnyType h)

/-- A meaning that may be to build a case. -/
theorem buildTarget {t u : TypingState σ} (ht : rules.inv l t) (htu : rules.le l t u)
    (hu : rules.inv l u) (hus : rules.le l u s) (hs : rules.inv l s) {node : NodeId}
    {target : Target}
    (h : rules.follows → ∀ r, target.built? = some r → Constructed ctx t u node r) :
    (rules.discipline l).KeepsAt s (Typing.setTarget node target) fun _ _ => True :=
  have htarget := rules.target ht htu hu hus hs h
  .of_ok rfl htarget.1 htarget.2 True.intro

/-- A meaning that is not to build a case. -/
theorem setTarget (node : NodeId) {target : Target} (h : target.built? = none) :
    rules.Keeps l (Typing.setTarget node target : Typing σ Unit) := fun s hs =>
  buildTarget hs (rules.refl l s) hs (rules.refl l s) hs fun _ r hr => by simp [h] at hr

theorem recorded (node : NodeId) (hloose : ¬ rules.strict) :
    rules.Keeps l (Typing.recorded node : Typing σ TypeId) :=
  (visit node).bind fun _ => get fun _ => ofExcept fun h => absurd h hloose

/-- Opening a new walk that is not used. -/
theorem freshWalk : rules.Keeps l (modifyGet fun s =>
    let (walk, table) := s.table.freshInstance
    (walk, { s with table }) : Typing σ InstanceId) := fun s hs =>
  have hopen : rules.inv l { s with table := s.table.freshInstance.2 } ∧
      rules.le l s { s with table := s.table.freshInstance.2 } :=
    rules.table hs .unused rfl fun _ _ h => .inl h
  .of_ok rfl hopen.1 hopen.2 True.intro

theorem spell (r : TypeId) : rules.Keeps l (Typing.spell r : Typing σ String) :=
  get fun _ => pure _

theorem qualified (name : String) : rules.Keeps l (Typing.qualified name : Typing σ String) :=
  get fun _ => pure _

/-! ## Steps in another context -/

variable {step : Typing σ α} {names : String → Prop}

theorem withFrame {frame : Scope} (hframe : frame.BindsLocals) (h : rules.Keeps .any step) :
    rules.Keeps (.body names) (Typing.withFrame frame step) :=
  fun _ hs =>
    have hbracket := rules.frame hs hframe.toBindsValues (.inl hframe.ivars)
    within_keeps hbracket (h _ hbracket.enters)

/-- A trait body is walked in the walk of its inclusion. -/
theorem withWalk {node : NodeId} {walk : InstanceId} (hs : rules.inv l s)
    (hwalk : s.table.inclusion? ⟨s.walk, node⟩ = some walk)
    (hmembers : rules.declares ∨ ∃ owner, l = .members owner)
    (h : (rules.discipline l).KeepsAt { s with walk } step fun _ _ => True) :
    (rules.discipline l).KeepsAt s (Typing.withWalk walk step) fun _ _ => True :=
  within_keeps (rules.walk hs hwalk hmembers) h

theorem withReturnType {result : Option TypeId} (h : rules.Keeps l step) :
    rules.Keeps l (Typing.withReturnType result step) :=
  fun _ hs =>
    have hbracket := rules.result hs
    within_keeps hbracket (h _ hbracket.enters)

theorem withTypeFrame (owner : TypeId) (hs : rules.inv (.body names) s) (hdeclares : rules.declares)
    (h : ∀ t, t = { s with scopes := s.scopes.push (.forType owner (s.pool.ivars owner)) } →
      rules.inv .any t → (rules.discipline .any).KeepsAt t step fun _ _ => True) :
    (rules.discipline (.body names)).KeepsAt s (Typing.withTypeFrame owner step) fun _ _ => True :=
  have hbracket := rules.frame hs .forType (.inr hdeclares)
  .bind_read hs (b := s) rfl (within_keeps hbracket (h _ rfl hbracket.enters))

end Keeps

end WalkRules

end Typing

end ClassLang
