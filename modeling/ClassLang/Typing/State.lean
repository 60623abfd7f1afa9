import ClassLang.Syntax.Tree
import ClassLang.Types.Pool
import ClassLang.Typing.Module

/-!
# The state of typing

Typing a module walks its tree with the pool of types, the imports of the session, a chain of
scopes and the table of findings at hand. All of it is one state that is kept when a step fails,
because the pool and the imports outlive a unit that does not compile.

A walk stops with a `Halt`: an error of the program, or the end of its budget. The budgets are
chosen so that only a walk that would never end can use them up.
-/

namespace ClassLang

/-- Why a walk stopped. -/
inductive Halt where
  | error (e : CompileError)
  /-- The walk nests or continues beyond the budget of its tree. -/
  | outOfFuel
deriving DecidableEq, Repr

/-- How imports are compiled. The state `σ` is that of whoever compiles them. -/
structure Importer (σ : Type) where
  /-- Compile or reuse the module at a path; `dotted` is the path with dots between its parts. -/
  resolve : (path : List String) → (dotted : String) → EStateM Halt (Pool × σ) ModuleId
  /-- What a compiled module offers. -/
  exports? : σ → ModuleId → Option Exports

/-- The importer of units that may not import anything. -/
def Importer.none : Importer Unit where
  resolve _ dotted := throw (.error (.importNotFound dotted))
  exports? _ _ := .none

/-- Everything that typing reads and changes. -/
structure TypingState (σ : Type) where
  pool : Pool
  imports : σ
  scopes : ScopeChain := {}
  table : TypeTable := {}
  templates : List Template := []
  exports : Exports := {}
  /-- The package of the module, with dots between its parts. -/
  package : Option String := none
  /-- The walk that the current node belongs to. -/
  walk : InstanceId := 0
  /-- The declared result of the enclosing method; none at top level and in closures. -/
  returnType : Option TypeId := none
  /-- Expansions whose member bodies are still to be walked, oldest first. -/
  pending : List (TemplateId × Nat) := []

/-- What stays fixed while a module is typed. -/
structure TypingContext (σ : Type) where
  tree : SyntaxTree
  importer : Importer σ

/-- A step of typing. The state is kept when it fails. -/
abbrev Typing (σ : Type) := EStateM Halt (TypingState σ)

namespace Typing

variable {σ α : Type}

/-- Stop with an error of the program. -/
def fail (e : CompileError) : Typing σ α :=
  throw (.error e)

/-- Stop because a type does not fit. -/
def mismatch (text : String) : Typing σ α :=
  fail (.typeMismatch text)

/-- Go on with a result, or stop with its error. -/
def ofExcept : Except CompileError α → Typing σ α
  | .ok a => pure a
  | .error e => fail e

/-- The spelling of a type in messages. -/
def spell (t : TypeId) : Typing σ String :=
  return (← get).pool.display t

/-- Make a type in the pool. -/
def makeType (f : Pool → TypeId × Pool) : Typing σ TypeId :=
  modifyGet fun s =>
    let (t, pool) := f s.pool
    (t, { s with pool })

/-- Change the pool by an operation that can fail. -/
def updatePool (f : Pool → Except CompileError Pool) : Typing σ Unit := do
  let pool ← ofExcept (f (← get).pool)
  modify fun s => { s with pool }

/-- Change the scopes. -/
def modifyScopes (f : ScopeChain → ScopeChain) : Typing σ Unit :=
  modify fun s => { s with scopes := f s.scopes }

/-- Change the table. -/
def modifyTable (f : TypeTable → TypeTable) : Typing σ Unit :=
  modify fun s => { s with table := f s.table }

/-- A node as the current walk sees it. -/
def visit (node : NodeId) : Typing σ Visit :=
  return { walk := (← get).walk, node }

/-- Record the type of a node in the current walk. -/
def record (node : NodeId) (t : TypeId) : Typing σ Unit := do
  let v ← visit node
  modifyTable (·.record v t)

/-- The recorded type of a node in the current walk. -/
def recorded (node : NodeId) : Typing σ TypeId := do
  let v ← visit node
  ofExcept ((← get).table.typeOf v)

/-- Record what a node means in the current walk. -/
def setTarget (node : NodeId) (target : Target) : Typing σ Unit := do
  let v ← visit node
  modifyTable (·.setTarget v target)

/-- A name with the package in front, if there is one. -/
def qualified (name : String) : Typing σ String :=
  return match (← get).package with
    | some package => package ++ "." ++ name
    | none => name

/-- Run a step in a changed state and put parts of the state back afterwards, whether it succeeds
or fails. `leave` gets the state before and the state after the step. -/
def within (enter : TypingState σ → TypingState σ)
    (leave : TypingState σ → TypingState σ → TypingState σ) (step : Typing σ α) : Typing σ α :=
  fun before =>
    match step (enter before) with
    | .ok a after => .ok a (leave before after)
    | .error e after => .error e (leave before after)

/-- Run a step with a frame opened for it. -/
def withFrame (frame : Scope) (step : Typing σ α) : Typing σ α :=
  within (fun s => { s with scopes := s.scopes.push frame })
    (fun _ s => { s with scopes := s.scopes.pop }) step

/-- Run a step under another declared result. -/
def withReturnType (result : Option TypeId) (step : Typing σ α) : Typing σ α :=
  within (fun s => { s with returnType := result })
    (fun before s => { s with returnType := before.returnType }) step

/-- Run a step as part of another walk. -/
def withWalk (walk : InstanceId) (step : Typing σ α) : Typing σ α :=
  within (fun s => { s with walk }) (fun before s => { s with walk := before.walk }) step

/-- Run a step with a frame for the body of a type. -/
def withTypeFrame (t : TypeId) (step : Typing σ α) : Typing σ α := do
  withFrame (Scope.forType t ((← get).pool.ivars t)) step

/-- Run a step as part of another walk with only the module's frame and `frame` in sight. -/
def withIsolatedFrame (walk : InstanceId) (frame : Scope) (step : Typing σ α) : Typing σ α :=
  within
    (fun s => { s with scopes := s.scopes.isolate.push frame, walk, returnType := none })
    (fun before s => { s with
      scopes := s.scopes.restore before.scopes.inner
      walk := before.walk
      returnType := before.returnType })
    step

end Typing

end ClassLang
