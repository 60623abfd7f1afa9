import ClassLang.Diagnostic
import ClassLang.Types.Basic

/-!
# Arguments in parameter order

A call lists its arguments as written, each with an optional name. `orderArguments` puts them into
the order of the declared parameters: positional arguments fill parameters from the left, named
ones the parameter that carries their name, and what a variadic target takes beyond its parameters
keeps the order of the call.
-/

namespace ClassLang

/-- Arguments sorted out for a call. -/
structure OrderedArgs (α : Type) where
  /-- One argument for each declared parameter. -/
  fixed : List α
  /-- The further arguments of a variadic call, in call order. -/
  extra : List α
deriving DecidableEq, Repr

/-- The state of placing arguments from left to right. -/
structure Placement (α : Type) where
  /-- The argument placed on each parameter so far. -/
  slots : List (Option α)
  extra : List α := []
  /-- How many positional arguments were placed. -/
  position : Nat := 0
  /-- Whether a named argument was placed. -/
  seenNamed : Bool := false
deriving DecidableEq, Repr

namespace Placement

/-- Place one argument of a call to `sig`. -/
def place {α : Type} (sig : Signature) (p : Placement α) :
    Option String × α → Except CompileError (Placement α)
  | (none, value) =>
    if p.seenNamed then
      .error (.badCall s!"positional argument after named argument in call to '{sig.name}'")
    else if p.position < p.slots.length then
      .ok { p with slots := p.slots.set p.position (some value), position := p.position + 1 }
    else
      .ok { p with extra := p.extra ++ [value], position := p.position + 1 }
  | (some name, value) =>
    match sig.params.findIdx? (·.name == some name) with
    | none => .error (.badCall s!"'{sig.name}' has no argument named '{name}'")
    | some slot =>
      if (p.slots.getD slot none).isSome then
        .error (.badCall s!"argument '{name}' passed twice to '{sig.name}'")
      else
        .ok { p with slots := p.slots.set slot (some value), seenNamed := true }

end Placement

/-- The arguments of a call to `sig` in parameter order. The number of arguments is checked first:
it must be the number of parameters, or more if `sig` is variadic. -/
def orderArguments {α : Type} (sig : Signature) (args : List (Option String × α)) :
    Except CompileError (OrderedArgs α) :=
  let needed := sig.arity
  let given := args.length
  let missing : CompileError := .missingArguments sig.name needed given
  if given < needed ∨ (given > needed ∧ !sig.varargs) then .error missing else
  match args.foldlM (Placement.place sig) { slots := List.replicate needed none } with
  | .error e => .error e
  | .ok placed =>
    match placed.slots.mapM id with
    | some fixed => .ok { fixed, extra := placed.extra }
    | none => .error missing

end ClassLang
