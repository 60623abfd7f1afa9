import ClassLang.Source.Store
import ClassLang.Typing.Calculate

/-!
# Sessions

A session compiles units one after the other, and the modules they import, into one output. All of
them share one pool of types. Each module is compiled when it is first imported and known by its
number from then on; a module that fails to compile is not registered and is tried again when it is
next imported.

What code is generated into is left to a `Backend`.
-/

namespace ClassLang

/-- A generator of code. It sees the tree, the pool and the findings of typing, and changes its
output of type `γ`, which it keeps when it fails. -/
structure Backend (γ : Type) where
  generate : SyntaxTree → Pool → TypedModule → EStateM Halt γ Unit

/-- The backend that generates nothing. -/
def Backend.typesOnly : Backend Unit where
  generate _ _ _ := pure ()

/-- The state of a session. -/
structure Session (γ : Type) where
  output : γ
  /-- What each compiled import offers, by module number. -/
  modules : List Exports := []
  /-- The number of each compiled import by dotted path. -/
  byPath : List (String × ModuleId) := []
  /-- The imports being compiled, innermost first. -/
  inProgress : List String := []

namespace Session

variable {γ : Type}

/-- How many imports were compiled. -/
def importCount (s : Session γ) : Nat :=
  s.modules.length

/-- What a compiled import offers. -/
def exports? (s : Session γ) (id : ModuleId) : Option Exports :=
  s.modules[id]?

/-- Register a compiled import under its path. -/
def register (s : Session γ) (dotted : String) (exports : Exports) : ModuleId × Session γ :=
  let id := s.modules.length
  (id, { s with modules := s.modules ++ [exports], byPath := (dotted, id) :: s.byPath })

/-- A step of a session. The pool and the session are kept when it fails. -/
abbrev Step (γ : Type) := EStateM Halt (Pool × Session γ)

/-- Type a unit, whose imports go through `importer`, and generate code for it. -/
def compileWith (backend : Backend γ) (importer : Importer (Session γ)) (tree : SyntaxTree) :
    Step γ TypedModule := fun (pool, session) =>
  match Typing.calculate { tree, importer } { pool, imports := session } with
  | .error h s => .error h (s.pool, s.imports)
  | .ok typed s =>
    match backend.generate tree s.pool typed s.imports.output with
    | .error h output => .error h (s.pool, { s.imports with output })
    | .ok _ output => .ok typed (s.pool, { s.imports with output })

/-- Run a step with an import marked as being compiled. The innermost mark is taken back when the
step returns, whatever it returns. -/
def whileImporting {α : Type} (dotted : String) (step : Step γ α) : Step γ α :=
  fun (pool, session) =>
    let leave : Pool × Session γ → Pool × Session γ
      | (pool, after) => (pool, { after with inProgress := after.inProgress.tail })
    match step (pool, { session with inProgress := dotted :: session.inProgress }) with
    | .ok a s => .ok a (leave s)
    | .error h s => .error h (leave s)

/-- The importer of a session with a bound on the nesting of imports. A module is compiled on its
first import; importing it while it is being compiled is a cycle. -/
def importerWithin (backend : Backend γ) (store : ModuleStore) : Nat → Importer (Session γ)
  | 0 => { resolve := fun _ _ => throw .outOfFuel, exports? := exports? }
  | fuel + 1 => {
      exports? := exports?
      resolve := fun path dotted => do
        let (_, session) ← get
        match session.byPath.lookup dotted with
        | some id => pure id
        | none =>
          if session.inProgress.contains dotted then throw (.error (.importCycle dotted))
          match store.load path with
          | .error e => throw (.error e)
          | .ok tree =>
            let typed ← whileImporting dotted
              (compileWith backend (importerWithin backend store fuel) tree)
            modifyGet fun (pool, session) =>
              let (id, session) := session.register dotted typed.exports
              (id, pool, session) }

/-- The importer of a session. Nested imports are those of different stored modules, so nesting
deeper than their number is a cycle. -/
def importer (backend : Backend γ) (store : ModuleStore) : Importer (Session γ) :=
  importerWithin backend store (store.size + 1)

/-- Compile a unit and what it imports. -/
def compileUnit (backend : Backend γ) (store : ModuleStore) (tree : SyntaxTree) :
    Step γ TypedModule :=
  compileWith backend (importer backend store) tree

end Session

end ClassLang
