/-!
# Interned text

An `Interner` numbers the distinct texts of a session in the order they are first seen. The empty
text always has number 0. Looking a number up again gives back its text, and an unknown number
reads as the empty text.

An interner is shared by all that read and build trees. A call that interns a text takes two atomic
steps: it looks the text up, and if the text has no number, it looks again and numbers it, since
another call may have done so in between. `Interner.Shared` is an interner with the calls that were
made to it, and `Interner.Shared.Later` says in which order their steps may come.
-/

namespace ClassLang

/-- The distinct texts seen so far. -/
structure Interner where
  /-- The texts; a text's number is its position. -/
  texts : Array String
  /-- The number of each text. -/
  numbers : List (String × Nat)
deriving DecidableEq, Repr

namespace Interner

/-- The number of a text that was interned before. -/
def get? (i : Interner) (s : String) : Option Nat :=
  i.numbers.lookup s

/-- How many texts are interned, the empty one included. -/
def size (i : Interner) : Nat :=
  i.texts.size

/-- Look `s` up and give it the next number if it has none. -/
def insert (i : Interner) (s : String) : Nat × Interner :=
  match i.get? s with
  | some n => (n, i)
  | none => (i.size, { texts := i.texts.push s, numbers := (s, i.size) :: i.numbers })

/-- The number of `s`, which is the next free one if `s` is new. -/
def intern (i : Interner) (s : String) : Nat × Interner :=
  match i.get? s with
  | some n => (n, i)
  | none => i.insert s

/-- An interner that holds no text, not even the empty one. -/
def blank : Interner := ⟨#[], []⟩

/-- A new interner, which holds the empty text only. -/
def empty : Interner := (blank.intern "").2

instance : Inhabited Interner := ⟨empty⟩

/-- The text of a number; the empty text if the number was never handed out. -/
def lookup (i : Interner) (n : Nat) : String :=
  i.texts.getD n ""

/-- Whether nothing is interned, which never holds of an interner that grew from `empty`. -/
def isEmpty (i : Interner) : Bool :=
  i.size == 0

/-! ## Shared interners -/

/-- How many numbers there are: they are 32 bits wide. -/
def capacity : Nat := UInt32.size

/-- How far a call that interns a text has come. -/
inductive Call where
  /-- Nothing was looked up yet. -/
  | begun (text : String)
  /-- The text had no number when it was looked up first. -/
  | missed (text : String)
  | done (text : String) (number : Nat)
  /-- No number was left for the text. -/
  | refused (text : String)
deriving DecidableEq, Repr

namespace Call

/-- The next atomic step of a call, which may change the interner. A call that is done or was
refused takes no more steps. -/
def advance (i : Interner) : Call → Call × Interner
  | begun s =>
    match i.get? s with
    | some n => (done s n, i)
    | none => (missed s, i)
  | missed s =>
    let (n, after) := i.insert s
    if n < capacity then (done s n, after) else (refused s, i)
  | done s n => (done s n, i)
  | refused s => (refused s, i)

/-- The text of a call that is done. -/
def interned? : Call → Option String
  | done s _ => some s
  | _ => none

end Call

/-- An interner and the calls that were made to it, in the order they began. -/
structure Shared where
  interner : Interner
  calls : List Call
deriving DecidableEq, Repr

namespace Shared

/-- A new interner. It was made by a call that interned the empty text. -/
def start : Shared := { interner := .empty, calls := [.done "" 0] }

/-- Somebody begins a call. -/
def call (s : Shared) (text : String) : Shared :=
  { s with calls := s.calls ++ [.begun text] }

/-- The call at position `k` takes its next step. -/
def advance (s : Shared) (k : Nat) : Shared :=
  match s.calls[k]? with
  | some c =>
    let (c, interner) := c.advance s.interner
    { interner, calls := s.calls.set k c }
  | none => s

/-- One step of anybody. -/
inductive Step (s : Shared) : Shared → Prop
  | call (text : String) : Step s (s.call text)
  | advance (k : Nat) : Step s (s.advance k)

/-- The second state comes after the first one, in any order of the calls' steps. -/
inductive Later (s : Shared) : Shared → Prop
  | refl : Later s s
  | step {t u : Shared} (h : Later s t) (hstep : Step t u) : Later s u

/-- The texts of the calls that are done. -/
def interned (s : Shared) : List String :=
  s.calls.filterMap Call.interned?

end Shared

end Interner

end ClassLang
