import ClassLang.Execution.Machine

/-!
# Functions of the surroundings

The functions that running code may call without defining them: memory management, and two functions
that write down what they are given. Everything written down is kept in order as notes.
-/

namespace ClassLang.Execution

open IR (Width)

/-- Something that running code wrote down. -/
inductive Note where
  | number (n : Int)
  | text (s : String)
deriving DecidableEq, Repr

/-- The state of the surroundings. -/
structure Host where
  notes : Array Note := #[]
  /-- How many objects were handed out and not taken back. -/
  live : Int := 0
deriving DecidableEq, Repr

/-- A function of the surroundings. -/
inductive HostFunction where
  /-- Hand out fresh memory. -/
  | malloc
  /-- Take memory back. It stays readable. -/
  | free
  /-- Write down a number. -/
  | note
  /-- Write down a text that ends before a zero byte. -/
  | put
deriving DecidableEq, Repr

/-- The text of some bytes. Bytes that are no text give nothing. -/
def textOfBytes? (bytes : List UInt8) : Option String :=
  String.fromUTF8? (ByteArray.mk bytes.toArray)

namespace HostFunction

/-- All functions of the surroundings. -/
def all : List HostFunction :=
  [malloc, free, note, put]

/-- The name that a function is declared by. -/
def name : HostFunction → String
  | malloc => "malloc"
  | free => "free"
  | note => "note"
  | put => "put"

/-- Call a function of the surroundings. Arguments beyond those it takes are not looked at. -/
def call? : HostFunction → List Datum → World Host → Option (Option Datum × World Host)
  | malloc, .int .w64 _ :: _, world =>
    let (a, memory) := world.memory.allocate
    some (some (.address a), { memory, host := { world.host with live := world.host.live + 1 } })
  | free, .address _ :: _, world =>
    some (none, { world with host := { world.host with live := world.host.live - 1 } })
  | note, .int .w32 n :: _, world =>
    some (some (.int .w32 n),
      { world with host := { world.host with notes := world.host.notes.push (.number n) } })
  | put, .address a :: _, world => do
    let bytes ← world.memory.bytesToZero? a
    let text ← textOfBytes? bytes
    return (some (.int .w32 (Width.w32.wrap bytes.length)),
      { world with host := { world.host with notes := world.host.notes.push (.text text) } })
  | _, _, _ => none

end HostFunction

end ClassLang.Execution
