import ClassLang.Typing.Table

/-!
# Typed modules

What typing a module leaves behind: the table of its findings, its generic declarations with their
expansions, and what it offers to modules that import it.
-/

namespace ClassLang

/-- A concrete use of a generic declaration. -/
structure Expansion where
  args : List TypeId
  type : TypeId
  /-- The walk under which the declaration's body is typed. -/
  walk : InstanceId
deriving DecidableEq, Repr

/-- A generic class or data declaration. -/
structure Template where
  name : String
  /-- The name of the type parameter. -/
  param : String
  /-- The node of the declaration. -/
  decl : NodeId
  /-- The expansions made so far, oldest first. -/
  expansions : List Expansion := []
deriving DecidableEq, Repr

instance : Inhabited Template := ⟨{ name := "", param := "", decl := 0 }⟩

/-- The top-level functions and types of a module. -/
structure Exports where
  /-- The functions, of which no two share a name. -/
  functions : List Signature := []
  /-- The types by name; each name stands once. -/
  types : List (String × TypeId) := []
deriving DecidableEq, Repr

namespace Exports

/-- The function with the given name. -/
def function? (e : Exports) (name : String) : Option Signature :=
  e.functions.find? (·.name == name)

/-- The type with the given name. -/
def type? (e : Exports) (name : String) : Option TypeId :=
  e.types.lookup name

/-- Offer a function. -/
def addFunction (e : Exports) (sig : Signature) : Exports :=
  { e with functions := e.functions ++ [sig] }

/-- Offer a type, in place of an earlier one of that name. -/
def setType (e : Exports) (name : String) (t : TypeId) : Exports :=
  { e with types := e.types.filter (·.1 != name) ++ [(name, t)] }

/-- The types in the order of their names. -/
def typesByName (e : Exports) : List (String × TypeId) :=
  e.types.mergeSort (fun a b => decide (a.1 ≤ b.1))

end Exports

/-- A module after typing. -/
structure TypedModule where
  table : TypeTable
  templates : List Template
  exports : Exports

/-- The first template declared by a node. -/
def TypedModule.templateFor? (m : TypedModule) (decl : NodeId) : Option Template :=
  m.templates.find? (·.decl == decl)

end ClassLang
