/-!
# Errors and how they read

A compilation stops at its first error. `CompileError` lists the causes, `CompileError.message`
holds their wording and `CompileError.code` their stable number. A `Diagnostic` is the error as a
person reads it: the code and message, the module it arose in, and notes and suggestions.
-/

namespace ClassLang

/-- Why a unit cannot be compiled. -/
inductive CompileError where
  /-- An operand, argument, assignment or returned value has the wrong type. -/
  | typeMismatch (text : String)
  /-- A call passes a number of arguments that its target does not take. -/
  | missingArguments (function : String) (needed given : Nat)
  /-- A positional argument follows a named one, or an argument name is unknown or repeated. -/
  | badCall (text : String)
  /-- A name is not bound in any enclosing scope. -/
  | uninitialized (name : String)
  /-- A type has no such operator or method. -/
  | unknownOperation (operation typeName : String)
  /-- No module is stored under the dotted path. -/
  | importNotFound (path : String)
  /-- The module at the dotted path is imported while it is still being compiled. -/
  | importCycle (path : String)
  /-- An invariant of the compiler itself is broken. -/
  | internal (text : String)
deriving DecidableEq, Repr

/-- The stable number of a kind of error. The first digit is the phase: 2 for typing, 3 for
imports, 9 for faults of the compiler. -/
inductive ErrorCode where
  | e2001 | e2003 | e2004 | e2005 | e2006 | e3001 | e3002 | e9001
deriving DecidableEq, Repr

namespace ErrorCode

/-- The code as it is printed. -/
def text : ErrorCode → String
  | e2001 => "E2001"
  | e2003 => "E2003"
  | e2004 => "E2004"
  | e2005 => "E2005"
  | e2006 => "E2006"
  | e3001 => "E3001"
  | e3002 => "E3002"
  | e9001 => "E9001"

/-- A one-line description of the code. -/
def description : ErrorCode → String
  | e2001 => "type mismatch"
  | e2003 => "unknown identifier"
  | e2004 => "wrong number of arguments"
  | e2005 => "invalid argument list"
  | e2006 => "unknown operation"
  | e3001 => "import not found"
  | e3002 => "import cycle"
  | e9001 => "internal compiler error"

/-- Whether the code stands for a fault of the compiler rather than of the program. -/
def isInternal (code : ErrorCode) : Bool :=
  code == e9001

end ErrorCode

/-- An error as it is shown to the person compiling. -/
structure Diagnostic where
  code : ErrorCode
  message : String
  /-- The dotted path of the module being compiled, if it was attached. -/
  module : Option String := none
  notes : List String := []
  suggestions : List String := []
deriving DecidableEq, Repr

namespace Diagnostic

/-- Attach the dotted path of the module the error arose in, replacing any earlier one. -/
def inModule (d : Diagnostic) (dotted : String) : Diagnostic :=
  { d with module := some dotted }

/-- Add a note after the notes already present. -/
def withNote (d : Diagnostic) (note : String) : Diagnostic :=
  { d with notes := d.notes ++ [note] }

/-- Add a suggestion after the suggestions already present. -/
def withSuggestion (d : Diagnostic) (suggestion : String) : Diagnostic :=
  { d with suggestions := d.suggestions ++ [suggestion] }

/-- Whether the diagnostic reports a fault of the compiler. -/
def isInternal (d : Diagnostic) : Bool :=
  d.code.isInternal

/-- The text of a diagnostic: one line with code, module and message, then each note and each
suggestion on an indented line of its own. -/
def render (d : Diagnostic) : String :=
  let place := match d.module with
    | some dotted => " in '" ++ dotted ++ "'"
    | none => ""
  "error [" ++ d.code.text ++ "]" ++ place ++ ": " ++ d.message
    ++ String.join (d.notes.map ("\n  = note: " ++ ·))
    ++ String.join (d.suggestions.map ("\n  = help: " ++ ·))

end Diagnostic

namespace CompileError

/-- The wording of each error. -/
def message : CompileError → String
  | typeMismatch text => text
  | missingArguments function needed given =>
      s!"missing arguments to '{function}' (needed {needed}, got {given})"
  | badCall text => text
  | uninitialized name => s!"unable to find '{name}' in scope"
  | unknownOperation operation typeName => s!"unknown operation '{operation}' on '{typeName}'"
  | importNotFound path => s!"unable to find '{path}' to import"
  | importCycle path => s!"import cycle detected while importing '{path}'"
  | internal text => s!"internal compiler error: {text}"

/-- The code of each error. -/
def code : CompileError → ErrorCode
  | typeMismatch _ => .e2001
  | uninitialized _ => .e2003
  | missingArguments .. => .e2004
  | badCall _ => .e2005
  | unknownOperation .. => .e2006
  | importNotFound _ => .e3001
  | importCycle _ => .e3002
  | internal _ => .e9001

/-- The diagnostic of an error, with a hint where a common fix exists. -/
def toDiagnostic (e : CompileError) : Diagnostic :=
  let d : Diagnostic := { code := e.code, message := e.message }
  match e with
  | missingArguments _ needed given =>
      d.withSuggestion
        (if given > needed then "remove extra arguments" else "add missing arguments")
  | badCall _ => d.withSuggestion "pass positional arguments before any named argument"
  | uninitialized name =>
      if name.startsWith "@" then
        d.withSuggestion s!"declare the instance variable with `var {name} : Type`"
      else d
  | importNotFound _ => d.withNote "imports are searched under each configured import path"
  | internal _ => d.withNote "this is a bug in the compiler, not in the program"
  | _ => d

end CompileError

end ClassLang
