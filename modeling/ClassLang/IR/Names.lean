/-!
# Unique names

Structs, the symbols of a module, and the values and blocks of a function each have a table of the
names in use. A name that is taken is told apart by a number, counted up through the whole table.
-/

namespace ClassLang.IR

/-- The names in use. -/
structure NameTable where
  taken : List String := []
  /-- What stands between a name and its number. -/
  separator : String
  /-- The number to try next. -/
  next : Nat
deriving DecidableEq, Repr

namespace NameTable

/-- The table of struct names: `name.0`, `name.1`, ... -/
def structs : NameTable := { separator := ".", next := 0 }

/-- The table of a module's symbols: `name.1`, `name.2`, ... -/
def symbols : NameTable := { separator := ".", next := 1 }

/-- The table of a function's values and blocks: `name1`, `name2`, ... -/
def locals : NameTable := { separator := "", next := 1 }

/-- The first numbered form of a name that is free, with the number after the one used. Among one
more numbers than there are names taken, one is free. -/
def number (table : NameTable) (name : String) : Nat → Nat → String × Nat
  | 0, n => (name ++ table.separator ++ toString n, n + 1)
  | fuel + 1, n =>
    let candidate := name ++ table.separator ++ toString n
    if table.taken.contains candidate then table.number name fuel (n + 1)
    else (candidate, n + 1)

/-- Take a name, or a numbered form of it if it is taken. An empty name is never taken. -/
def take (table : NameTable) (name : String) : String × NameTable :=
  if name == "" then ("", table)
  else if table.taken.contains name then
    let (unique, next) := table.number name table.taken.length table.next
    (unique, { table with taken := unique :: table.taken, next })
  else (name, { table with taken := name :: table.taken })

/-- Free a name. -/
def release (table : NameTable) (name : String) : NameTable :=
  { table with taken := table.taken.erase name }

end NameTable

end ClassLang.IR
