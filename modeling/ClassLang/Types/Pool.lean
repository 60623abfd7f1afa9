import ClassLang.Diagnostic
import ClassLang.Types.Operation

/-!
# The pool of types

All types of a session stand in one pool, which only ever grows. Pointers and closures without
captures are shared: asking for the same one twice gives the same position. Classes and data types
are made afresh and filled in while their declarations are processed.

A variable stands for another type once it is forwarded. `resolve` follows forwarding and works
out derived types as far as possible; equality, conversion and spelling of types look through it.
Their recursion is bounded by the size of the pool: unless a variable was forwarded to a type built
from itself, a chain of entries never meets the same entry twice.
-/

namespace ClassLang

/-- The types of a session by position, with tables in which those that are made only once are
found again. -/
structure Pool where
  entries : Array TypeData
  /-- The classification of each entry. -/
  kinds : Array Nat
  /-- The pointer types by what they point to. -/
  pointers : List (TypeId × TypeId)
  /-- The closures without captures by their parameters and result. -/
  closures : List ((List TypeId × TypeId) × TypeId)
deriving DecidableEq, Repr

/-- How a value of one type becomes a value of another. -/
inductive Conversion where
  | identity
  /-- Box the value together with its type record. -/
  | wrapDynamic
  /-- Extend a Boolean to an Integer. -/
  | widenBool
  /-- Take a closure for one that differs in its captures only. -/
  | castClosure
deriving DecidableEq, Repr

namespace Pool

/-- How many types the pool holds. -/
def size (p : Pool) : Nat :=
  p.entries.size

/-- Whether the pool holds no type at all, which is never so for a pool grown from `initial`. -/
def isEmpty (p : Pool) : Bool :=
  p.size == 0

/-- The entry at a position, variables not followed. A position outside the pool reads as
`Void`. -/
def data (p : Pool) (t : TypeId) : TypeData :=
  p.entries.getD t .void

/-- Put an entry at the next free position, together with its classification. -/
def push (p : Pool) (d : TypeData) : TypeId × Pool :=
  (p.size, { p with entries := p.entries.push d, kinds := p.kinds.push d.flags })

/-- A new entry stands at the position it was given. -/
@[simp] theorem data_push_self (p : Pool) (d : TypeData) : (p.push d).2.data (p.push d).1 = d := by
  simp [push, data, size]

/-- A new entry leaves the others alone. -/
theorem data_push_of_lt (p : Pool) (d : TypeData) {t : TypeId} (h : t < p.size) :
    (p.push d).2.data t = p.data t := by
  simp only [size] at h
  simp [push, data, Array.getElem?_push, h, Nat.ne_of_lt h]

/-- Replace the entry at a position. -/
def set (p : Pool) (t : TypeId) (d : TypeData) : Pool :=
  { p with entries := p.entries.setIfInBounds t d }

/-- A replaced entry reads as the new one. -/
theorem data_set_self (p : Pool) {t : TypeId} (d : TypeData) (h : t < p.size) :
    (p.set t d).data t = d := by
  simp only [size] at h
  simp [set, data, h]

/-- Replacing an entry leaves the others alone. -/
theorem data_set_of_ne (p : Pool) {t other : TypeId} (d : TypeData) (h : other ≠ t) :
    (p.set t d).data other = p.data other := by
  simp [set, data, h.symm]

/-- The position that the tables have for an entry. Only pointers and closures without captures
are entered in them. -/
def shared? (p : Pool) : TypeData → Option TypeId
  | .pointer target => p.pointers.lookup target
  | .closure params result [] => p.closures.lookup (params, result)
  | _ => none

/-- Enter the position of an entry in its table. -/
def file (p : Pool) (t : TypeId) : TypeData → Pool
  | .pointer target => { p with pointers := (target, t) :: p.pointers }
  | .closure params result [] => { p with closures := ((params, result), t) :: p.closures }
  | _ => p

/-- Filing changes the tables only. -/
@[simp] theorem entries_file (p : Pool) (t : TypeId) (d : TypeData) :
    (p.file t d).entries = p.entries := by
  unfold file
  split <;> rfl

/-- The position of an entry that is made only once. It is added if the tables have none. -/
def share (p : Pool) (d : TypeData) : TypeId × Pool :=
  match p.shared? d with
  | some t => (t, p)
  | none =>
    let (t, p) := p.push d
    (t, p.file t d)

/-! ## Variables -/

/-- `resolve` with a bound on the length of the chain it follows. -/
def resolveWithin (p : Pool) : Nat → TypeId → TypeId
  | 0, t => t
  | fuel + 1, t =>
    match p.data t with
    | .var (some target) => p.resolveWithin fuel target
    | .derived root op _ =>
      let root := p.resolveWithin fuel root
      match (p.data root).operator? op with
      | some operation => operation.resultType root
      | none => t
    | _ => t

/-- The type that `t` stands for: forwarded variables are followed, and a derived type is the
result of its operator once its root is known. What is still open stays as it is. -/
def resolve (p : Pool) (t : TypeId) : TypeId :=
  p.resolveWithin p.size t

/-- The entry of the type that `t` stands for. -/
def view (p : Pool) (t : TypeId) : TypeData :=
  p.data (p.resolve t)

/-- Whether `t` does not stand for a concrete type yet. -/
def isUnresolved (p : Pool) (t : TypeId) : Bool :=
  (p.view t).isVar

/-- The classification bits of the type that `t` stands for. -/
def flags (p : Pool) (t : TypeId) : Nat :=
  p.kinds.getD (p.resolve t) TypeData.void.flags

/-- Whether values of the type are pointers to a record. -/
def isByPointer (p : Pool) (t : TypeId) : Bool :=
  (p.flags t).testBit 1

/-! ## Spelling -/

/-- `display` with a bound on the nesting it follows. -/
def displayWithin (p : Pool) : Nat → TypeId → String
  | fuel, t =>
    let resolved := p.resolve t
    match p.data resolved with
    | .integer => "Integer"
    | .boolean => "Boolean"
    | .char => "Char"
    | .void => "Void"
    | .string => "String"
    | .typeRecord => "Type"
    | .dynamic => "Dynamic"
    | .pointer target =>
      match fuel with
      | 0 => "*"
      | fuel + 1 => "*" ++ p.displayWithin fuel target
    | .reference name _ _ => name
    | .data name _ _ => name
    | .variant name _ _ _ _ => name
    | .closure params result _ =>
      match fuel with
      | 0 => "Closure"
      | fuel + 1 =>
        "Closure<(" ++ ", ".intercalate (params.map (p.displayWithin fuel)) ++ ") -> "
          ++ p.displayWithin fuel result ++ ">"
    | .var _ | .derived .. => s!"?T{resolved}"

/-- The spelling of a type in messages and generated names. -/
def display (p : Pool) (t : TypeId) : String :=
  p.displayWithin p.size t

/-! ## Construction -/

/-- The pointer type to what `target` stands for. -/
def pointer (p : Pool) (target : TypeId) : TypeId × Pool :=
  p.share (.pointer (p.resolve target))

/-- A closure type. Without captures it is shared; with captures it is always a new type. -/
def closure (p : Pool) (params : List TypeId) (result : TypeId) (captures : List TypeId) :
    TypeId × Pool :=
  if captures.isEmpty then p.share (.closure params result []) else
    p.push (.closure params result captures)

/-- A new pool: the built-in types, then `*Char`. -/
def initial : Pool :=
  let builtins : Pool :=
    [.integer, .boolean, .char, .void, .string, .typeRecord, .dynamic].foldl
      (fun p d => (p.push d).2) ⟨#[], #[], [], []⟩
  (builtins.pointer .char).2

instance : Inhabited Pool := ⟨initial⟩

/-- A new open variable. -/
def freshVar (p : Pool) : TypeId × Pool :=
  p.push (.var none)

/-- The type of `root op rhs` while `root` is open. -/
def derive (p : Pool) (root : TypeId) (op : BinaryOp) (rhs : TypeId) : TypeId × Pool :=
  p.push (.derived root op rhs)

/-- A new class without instance variables and methods. -/
def newReference (p : Pool) (name : String) : TypeId × Pool :=
  p.push (.reference name [] [])

/-- A new data type without cases and methods. -/
def newData (p : Pool) (name : String) : TypeId × Pool :=
  p.push (.data name [] [])

/-- Append a case to the data type `owner`; its tag is the number of cases before it. -/
def addCase (p : Pool) (owner : TypeId) (name shortName : String)
    (fields : List (String × TypeId)) : Except CompileError (TypeId × Pool) :=
  match p.data owner with
  | .data ownerName cases methods =>
    let (added, p) := p.push (.variant name shortName cases.length owner fields)
    .ok (added, p.set owner (.data ownerName (cases ++ [added]) methods))
  | _ => .error (.internal "cases can only be added to data types")

/-- Fix the layout of a class. -/
def setIvars (p : Pool) (t : TypeId) (ivars : List (String × TypeId)) :
    Except CompileError Pool :=
  match p.data t with
  | .reference name _ methods => .ok (p.set t (.reference name ivars methods))
  | _ => .error (.internal "ivars can only be laid out on classes")

/-- Register a method on a class or data type that has none of that name. -/
def addMethod (p : Pool) (owner : TypeId) (sig : Signature) : Except CompileError Pool :=
  let duplicate : CompileError :=
    .typeMismatch s!"method '{sig.name}' is already defined on '{p.display owner}'"
  match p.data owner with
  | .reference name ivars methods =>
    if methods.any (·.name == sig.name) then .error duplicate
    else .ok (p.set owner (.reference name ivars (methods ++ [sig])))
  | .data name cases methods =>
    if methods.any (·.name == sig.name) then .error duplicate
    else .ok (p.set owner (.data name cases (methods ++ [sig])))
  | _ => .error (.internal s!"methods cannot be declared on '{p.display owner}'")

/-- Forward the open variable `var` to what `target` stands for. A variable is forwarded at most
once, and never to itself. -/
def unify (p : Pool) (var target : TypeId) : Except CompileError Pool :=
  let target := p.resolve target
  match p.data var with
  | .var none => .ok (if target = var then p else p.set var (.var (some target)))
  | .var (some _) => .error (.internal "type variable unified a second time")
  | _ => .error (.internal "unify called on a concrete type")

/-! ## Access -/

/-- The instance variables of a class; none for any other type. -/
def ivars (p : Pool) (t : TypeId) : List (String × TypeId) :=
  match p.view t with
  | .reference _ ivars _ => ivars
  | _ => []

/-- The cases of a data type; none for any other type. -/
def cases (p : Pool) (t : TypeId) : List TypeId :=
  match p.view t with
  | .data _ cases _ => cases
  | _ => []

/-- The fields of a case; none for any other type. -/
def caseFields (p : Pool) (t : TypeId) : List (String × TypeId) :=
  match p.view t with
  | .variant _ _ _ _ fields => fields
  | _ => []

/-- The name of a case as it was declared. -/
def caseShortName? (p : Pool) (t : TypeId) : Option String :=
  match p.view t with
  | .variant _ shortName _ _ _ => some shortName
  | _ => none

/-- The symbol of a class, data type or case. -/
def nominalName? (p : Pool) (t : TypeId) : Option String :=
  (p.view t).nominalName?

/-! ## Relations -/

/-- `sameType` with a bound on the nesting it compares. -/
def sameTypeWithin (p : Pool) : Nat → TypeId → TypeId → Bool
  | fuel, a, b =>
    let a := p.resolve a
    let b := p.resolve b
    if a = b then true else
    match p.data a, p.data b with
    | .closure params result captures, .closure params' result' captures' =>
      match fuel with
      | 0 => false
      | fuel + 1 =>
        params.length == params'.length
          && (params.zip params').all (fun (x, y) => p.sameTypeWithin fuel x y)
          && p.sameTypeWithin fuel result result'
          && captures.length == captures'.length
          && (captures.zip captures').all (fun (x, y) => p.sameTypeWithin fuel x y)
    | _, _ => false

/-- Equality of types: closures are compared by their parts, captures included, and everything
else by position. -/
def sameType (p : Pool) (a b : TypeId) : Bool :=
  p.sameTypeWithin p.size a b

/-- Equality of two lists of types, element by element. -/
def sameTypes (p : Pool) (as bs : List TypeId) : Bool :=
  as.length == bs.length && (as.zip bs).all (fun (a, b) => p.sameType a b)

/-- How a value of type `source` is passed where a value of type `target` is wanted. -/
def conversion? (p : Pool) (source target : TypeId) : Option Conversion :=
  if p.sameType source target then some .identity else
  match p.view source, p.view target with
  | .var _, _ | .derived .., _ | _, .var _ | _, .derived .. => none
  | .void, _ => none
  | _, .dynamic => some .wrapDynamic
  | .boolean, .integer => some .widenBool
  | .closure params result _, .closure params' result' _ =>
    if p.sameTypes params params' && p.sameType result result' then some .castClosure else none
  | _, _ => none

/-- Whether a value of type `source` can be passed where `target` is wanted. -/
def canConvert (p : Pool) (source target : TypeId) : Bool :=
  (p.conversion? source target).isSome

/-! ## Operations -/

/-- The built-in operator on a type. -/
def operator? (p : Pool) (t : TypeId) (op : BinaryOp) : Option Operation :=
  (p.view t).operator? op

/-- The type of `lhs op rhs`. The right operand must convert to the type of the left one. -/
def operatorResult (p : Pool) (lhs : TypeId) (op : BinaryOp) (rhs : TypeId) :
    Except CompileError TypeId :=
  match p.operator? lhs op with
  | none => .error (.unknownOperation op.symbol (p.display lhs))
  | some operation =>
    if p.canConvert rhs lhs then .ok (operation.resultType (p.resolve lhs))
    else .error (.typeMismatch
      s!"no operation '{op.symbol}' between '{p.display lhs}' and '{p.display rhs}'")

/-- `resolveStrict` with a bound on the nesting of derived types. -/
def resolveStrictWithin (p : Pool) : Nat → TypeId → Except CompileError TypeId
  | fuel, t =>
    let resolved := p.resolve t
    match p.data resolved with
    | .var _ => .error (.typeMismatch "Unable to intuit lambda argument type from usage")
    | .derived root op rhs =>
      match fuel with
      | 0 => .error (.typeMismatch "Unable to intuit lambda argument type from usage")
      | fuel + 1 => do
        let root ← p.resolveStrictWithin fuel root
        let rhs ← p.resolveStrictWithin fuel rhs
        p.operatorResult root op rhs
    | _ => .ok resolved

/-- The type that `t` stands for, or an error if it is still open. -/
def resolveStrict (p : Pool) (t : TypeId) : Except CompileError TypeId :=
  p.resolveStrictWithin p.size t

/-- The operation `name` of a type: an operator if `name` spells one, else a field of a built-in
record or a method. -/
def findOperation (p : Pool) (t : TypeId) (name : String) : Except CompileError Operation :=
  let found := match BinaryOp.ofSymbol? name with
    | some op => p.operator? t op
    | none => (p.view t).namedOperation? name
  match found with
  | some operation => .ok operation
  | none => .error (.unknownOperation name (p.display t))

/-- What can be called as `name` on a type, with its parameters and result. -/
def findSignature? (p : Pool) (t : TypeId) (name : String) : Option Signature :=
  match (p.view t).namedOperation? name with
  | some (.method sig) => some sig
  | some (.element _ result) => some { name, linkName := name, params := [], result }
  | _ => none

end Pool

end ClassLang
