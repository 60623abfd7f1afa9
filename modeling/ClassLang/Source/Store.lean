import ClassLang.Diagnostic
import ClassLang.Syntax.Tree

/-!
# Modules in memory

The modules that a session can import, filed under their paths with dots between the parts.
-/

namespace ClassLang

/-- The trees of importable modules by dotted path. -/
structure ModuleStore where
  modules : List (String × SyntaxTree) := []
deriving DecidableEq, Repr

namespace ModuleStore

/-- How many modules are stored. -/
def size (store : ModuleStore) : Nat :=
  store.modules.length

/-- The tree of the module at a path. -/
def load (store : ModuleStore) (path : List String) : Except CompileError SyntaxTree :=
  let dotted := ".".intercalate path
  match store.modules.lookup dotted with
  | some tree => .ok tree
  | none => .error (.importNotFound dotted)

end ModuleStore

end ClassLang
