import Std.Data.TreeMap
import ClassLang.Diagnostic
import ClassLang.Typing.Scope

/-!
# What typing found out

A `TypeTable` remembers the type of every node, what each identifier and call means, and the
signature of each declaration. Generic bodies and included traits are walked several times, each
time under a walk number of its own, so everything is filed under a walk and a node.
-/

namespace ClassLang

/-- The number of a walk over part of the tree. Plain code belongs to walk 0; each generic
expansion and each trait inclusion has a walk of its own. Walks are numbered without a bound, which
assumes that a unit has fewer than `UInt32.size` of them: the program counts in 32 bits and does not
check for overflow. -/
abbrev InstanceId := Nat

/-- A node as seen by one walk. -/
structure Visit where
  walk : InstanceId
  node : NodeId
deriving DecidableEq, Repr

namespace Visit

/-- Visits are ordered by walk, then by node. -/
def order : Visit → Visit → Ordering :=
  compareLex (compareOn walk) (compareOn node)

instance : Std.TransCmp order :=
  inferInstanceAs (Std.TransCmp (compareLex _ _))

/-- Visits that compare equal are equal. -/
theorem eq_of_order {a b : Visit} (h : order a b = .eq) : a = b := by
  cases a
  cases b
  simp only [order, compareLex, compareOn, Ordering.then_eq_eq, Nat.compare_eq_eq] at h
  simp [h.1, h.2]

instance : Std.LawfulEqCmp order where
  compare_self := Std.ReflCmp.compare_self
  eq_of_compare := eq_of_order

end Visit

/-- What an identifier or call means. -/
inductive Target where
  /-- A local, a parameter or a captured variable. -/
  | localVar
  /-- A case without fields, used as a value. -/
  | singleton (variant : TypeId)
  /-- A call of a closure held by a local. -/
  | closure (sig : Signature)
  /-- A method call with a receiver. -/
  | method (sig : Signature)
  /-- A call of a method of the enclosing type on `self`. -/
  | selfMethod (sig : Signature)
  /-- A read of a field of a built-in record. -/
  | element (index : Nat)
  /-- A top-level function of this module or an imported one. -/
  | function (sig : Signature)
  /-- The construction of a class instance, with the initializer if the class has one. -/
  | construct (type : TypeId) (init : Option Signature)
  /-- The construction of a case; the parameters are its fields. -/
  | constructCase (variant : TypeId) (sig : Signature)
  | builtin (f : Builtin)
deriving DecidableEq, Repr

/-- The findings of typing a module. -/
structure TypeTable where
  types : Std.TreeMap Visit TypeId Visit.order := ∅
  targets : Std.TreeMap Visit Target Visit.order := ∅
  signatures : Std.TreeMap Visit Signature Visit.order := ∅
  /-- The walk of the trait body that an inclusion pulls in. -/
  inclusions : Std.TreeMap Visit InstanceId Visit.order := ∅
  nextInstance : InstanceId := 1

namespace TypeTable

instance : Inhabited TypeTable := ⟨{}⟩

/-- A walk number that was not used before. With the bound on `InstanceId` in mind, counting up
never comes back to a number. -/
def freshInstance (t : TypeTable) : InstanceId × TypeTable :=
  (t.nextInstance, { t with nextInstance := t.nextInstance + 1 })

/-- Record the type of a node, replacing an earlier one. -/
def record (t : TypeTable) (visit : Visit) (type : TypeId) : TypeTable :=
  { t with types := t.types.insert visit type }

/-- The type of a node, if it was recorded. -/
def get? (t : TypeTable) (visit : Visit) : Option TypeId :=
  t.types[visit]?

/-- A recorded type is found again. -/
@[simp] theorem get?_record_self (t : TypeTable) (visit : Visit) (type : TypeId) :
    (t.record visit type).get? visit = some type := by
  simp [get?, record]

/-- Recording the type of one visit leaves all others alone. -/
theorem get?_record_of_ne (t : TypeTable) {visit other : Visit} (type : TypeId)
    (h : other ≠ visit) : (t.record visit type).get? other = t.get? other := by
  have hne : Visit.order visit other ≠ .eq := fun he => h (Visit.eq_of_order he).symm
  simp [get?, record, Std.TreeMap.getElem?_insert, hne]

/-- The type of a node that must have been recorded. -/
def typeOf (t : TypeTable) (visit : Visit) : Except CompileError TypeId :=
  match t.get? visit with
  | some type => .ok type
  | none =>
    .error (.internal s!"no type recorded for node {visit.node} in walk {visit.walk}")

/-- Record what an identifier or call means. -/
def setTarget (t : TypeTable) (visit : Visit) (target : Target) : TypeTable :=
  { t with targets := t.targets.insert visit target }

/-- What an identifier or call means, which must have been recorded. -/
def target (t : TypeTable) (visit : Visit) : Except CompileError Target :=
  match t.targets[visit]? with
  | some target => .ok target
  | none => .error (.internal s!"no resolution recorded for node {visit.node}")

/-- Record the signature of a declaration. -/
def setSignature (t : TypeTable) (visit : Visit) (sig : Signature) : TypeTable :=
  { t with signatures := t.signatures.insert visit sig }

/-- The signature of a declaration, which must have been recorded. -/
def signature (t : TypeTable) (visit : Visit) : Except CompileError Signature :=
  match t.signatures[visit]? with
  | some sig => .ok sig
  | none => .error (.internal s!"no signature recorded for node {visit.node}")

/-- Record the walk of an included trait body. -/
def setInclusion (t : TypeTable) (visit : Visit) (body : InstanceId) : TypeTable :=
  { t with inclusions := t.inclusions.insert visit body }

/-- The walk of an included trait body. -/
def inclusion? (t : TypeTable) (visit : Visit) : Option InstanceId :=
  t.inclusions[visit]?

/-- How many visits have a type. -/
def size (t : TypeTable) : Nat :=
  t.types.size

/-- Whether no visit has a type. -/
def isEmpty (t : TypeTable) : Bool :=
  t.types.isEmpty

end TypeTable

end ClassLang
