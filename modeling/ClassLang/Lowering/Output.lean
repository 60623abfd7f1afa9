import ClassLang.IR.Builder
import ClassLang.IR.Check
import ClassLang.Session

/-!
# What code is generated into

All modules of a session are generated into one module of intermediate code. The output keeps it
together with everything that is made once and shared: the struct of each type, the records of
string literals and runtime types, and the constants of cases without fields.
-/

namespace ClassLang

open IR (Build Builder FnType FunctionId Ty Value)

/-- The parts of a closure type that decide its layout. -/
structure ClosureShape where
  params : List TypeId
  result : TypeId
  captures : List TypeId
deriving DecidableEq, Repr

/-- The generated code and what it shares. -/
structure Output where
  builder : Builder
  /-- The function that gives fresh memory. -/
  malloc : FunctionId
  /-- The function that takes memory back. -/
  free : FunctionId
  /-- The struct behind values of each type that is passed by pointer. -/
  layouts : List (TypeId × Ty) := []
  closureLayouts : List (ClosureShape × Ty) := []
  /-- The struct of each type boxed as `Dynamic`. -/
  dynamicLayouts : List (TypeId × Ty) := []
  /-- The record of each type that is asked for at run time. -/
  runtimeTypes : List (TypeId × Value) := []
  /-- The constant of each case without fields. -/
  singletons : List (TypeId × Value) := []
  /-- The record of each string literal. -/
  strings : List (String × Value) := []
  /-- The number of the next lambda. -/
  nextLambda : Nat := 0

namespace Output

/-- An output that holds nothing but the declarations of the memory functions. -/
def ofName (name : String) : Output :=
  let step : Build (FunctionId × FunctionId) := do
    let malloc ← Build.declareFunction "malloc" { params := [.i64], result := some .ptr }
    let free ← Build.declareFunction "free" { params := [.ptr], result := none }
    pure (malloc, free)
  let ((malloc, free), builder) := step.run (Builder.ofName name)
  { builder, malloc, free }

instance : Inhabited Output := ⟨ofName ""⟩

/-- The finished module, if the builder was never misused and the code is well formed. -/
def finish (o : Output) : Except CompileError IR.Module :=
  let m := o.builder.module
  if o.builder.errors > 0 then
    .error (.internal s!"{o.builder.errors} invalid IR builder operation(s) in '{m.name}'")
  else if !m.isWellFormed then .error (.internal s!"the code of '{m.name}' is not well formed")
  else .ok m

end Output

/-- What stays fixed while code is generated for a module. -/
structure LoweringContext where
  tree : SyntaxTree
  pool : Pool
  typed : TypedModule

namespace LoweringContext

/-- The body of a trait declared at top level; the last declaration of a name counts. -/
def trait? (ctx : LoweringContext) (name : String) : Option NodeId :=
  ((ctx.tree.statements ctx.tree.root).filterMap fun statement =>
    match ctx.tree.node statement with
    | .traitDef name body => some (name, body)
    | _ => none).reverse.lookup name

end LoweringContext

/-- A step of generating code. The output is kept when it fails. -/
abbrev Emit := EStateM Halt Output

namespace Emit

variable {α : Type}

/-- Stop with an error of the program. -/
def fail (e : CompileError) : Emit α :=
  throw (.error e)

/-- Stop because an invariant of the compiler is broken. -/
def broken (text : String) : Emit α :=
  fail (.internal text)

/-- Go on with a result, or stop with its error. -/
def ofExcept : Except CompileError α → Emit α
  | .ok a => pure a
  | .error e => fail e

/-- Run a step of building. -/
def build (step : Build α) : Emit α :=
  modifyGet fun o =>
    let (a, builder) := step.run o.builder
    (a, { o with builder })

end Emit

end ClassLang
