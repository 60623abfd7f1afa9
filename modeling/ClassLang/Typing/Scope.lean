import ClassLang.Syntax.Tree
import ClassLang.Types.Basic

/-!
# Scopes

Names are looked up in a chain of frames: the frame of the module at the bottom, then one frame for
each class body, generic expansion, method body, closure body or case arm that is being walked. The
innermost frame wins, and what no frame binds may still be a built-in type.
-/

namespace ClassLang

/-- The position of a generic declaration among those of its module. -/
abbrev TemplateId := Nat

/-- The position of a compiled module in its session. -/
abbrev ModuleId := Nat

/-- A function that every module can call without declaring it. -/
inductive Builtin where
  /-- `reclaim(object)`: give back the memory of an object. -/
  | reclaim
deriving DecidableEq, Repr

/-- The built-in function with the given name. -/
def Builtin.ofName? (name : String) : Option Builtin :=
  if name = "reclaim" then some .reclaim else none

/-- What a bare name means. -/
inductive Binding where
  | type (t : TypeId)
  /-- A variable of the given type. -/
  | value (t : TypeId)
  /-- A case of a generic data type, which needs a type argument to be constructed. -/
  | genericCase (template : TemplateId) (index : Nat)
  /-- An imported module. -/
  | module (id : ModuleId)
deriving DecidableEq, Repr

/-- One frame. Of several entries for a name the first one counts, so a new entry is put in front
and hides the older ones. -/
structure Scope where
  names : List (String × Binding) := []
  /-- Instance variables, apart from `names` so that `@x` never meets `x`. -/
  ivars : List (String × TypeId) := []
  templates : List (String × TemplateId) := []
  /-- The body of each trait. -/
  traits : List (String × NodeId) := []
  /-- The class or data type whose body the frame belongs to. -/
  currentType : Option TypeId := none
deriving DecidableEq, Repr

namespace Scope

/-- A frame for the body of `t` with its instance variables; of two with one name the later
counts. -/
def forType (t : TypeId) (ivars : List (String × TypeId)) : Scope :=
  { ivars := ivars.reverse, currentType := some t }

/-- Bind a name in the frame. -/
def bind (s : Scope) (name : String) (binding : Binding) : Scope :=
  { s with names := (name, binding) :: s.names }

/-- Bind several variables by name and type, one after the other. -/
def bindValues (s : Scope) (values : List (String × TypeId)) : Scope :=
  values.foldl (fun s (name, t) => s.bind name (.value t)) s

end Scope

/-- The active frames. The module's own frame is always there. -/
structure ScopeChain where
  /-- The frame of the module. -/
  base : Scope := {}
  /-- The frames above it, innermost first. -/
  inner : List Scope := []
deriving DecidableEq, Repr

namespace ScopeChain

instance : Inhabited ScopeChain := ⟨{}⟩

/-- All frames, innermost first. -/
def frames (c : ScopeChain) : List Scope :=
  c.inner ++ [c.base]

/-- The number of frames. -/
def depth (c : ScopeChain) : Nat :=
  c.inner.length + 1

/-- Open a frame. -/
def push (c : ScopeChain) (s : Scope) : ScopeChain :=
  { c with inner := s :: c.inner }

/-- Close the innermost frame; the module's frame stays. -/
def pop (c : ScopeChain) : ScopeChain :=
  { c with inner := c.inner.tail }

/-- The chain with the module's frame only, which is all a generic expansion may see. -/
def isolate (c : ScopeChain) : ScopeChain :=
  { c with inner := [] }

/-- Put back the frames above the module's frame. -/
def restore (c : ScopeChain) (inner : List Scope) : ScopeChain :=
  { c with inner }

/-- Change the innermost frame. -/
def modifyInnermost (c : ScopeChain) (f : Scope → Scope) : ScopeChain :=
  match c.inner with
  | [] => { c with base := f c.base }
  | s :: rest => { c with inner := f s :: rest }

/-- Bind a name in the innermost frame. -/
def bind (c : ScopeChain) (name : String) (binding : Binding) : ScopeChain :=
  c.modifyInnermost (·.bind name binding)

/-- Bind a name in the module's frame. -/
def bindModule (c : ScopeChain) (name : String) (binding : Binding) : ScopeChain :=
  { c with base := c.base.bind name binding }

/-- What a name means: the innermost frame that binds it decides, then the built-in types. -/
def lookup (c : ScopeChain) (name : String) : Option Binding :=
  (c.frames.findSome? (·.names.lookup name)).or
    ((TypeId.builtinNames.lookup name).map .type)

/-- A name that was just bound has that meaning. -/
@[simp] theorem lookup_bind_self (c : ScopeChain) (name : String) (binding : Binding) :
    (c.bind name binding).lookup name = some binding := by
  cases h : c.inner <;>
    simp [bind, lookup, frames, modifyInnermost, Scope.bind, h]

/-- The type of a variable. -/
def lookupValue (c : ScopeChain) (name : String) : Option TypeId :=
  match c.lookup name with
  | some (.value t) => some t
  | _ => none

/-- The type that a name denotes. -/
def lookupType (c : ScopeChain) (name : String) : Option TypeId :=
  match c.lookup name with
  | some (.type t) => some t
  | _ => none

/-- The class or data type whose body is being walked. -/
def currentType (c : ScopeChain) : Option TypeId :=
  c.frames.findSome? (·.currentType)

/-- Record `@name` in the first frame that belongs to a type; without one, nowhere. -/
def addIvarIn (name : String) (t : TypeId) : List Scope → List Scope
  | [] => []
  | s :: rest =>
    if s.currentType.isSome then { s with ivars := (name, t) :: s.ivars } :: rest
    else s :: addIvarIn name t rest

/-- Record `@name` in the frame of the enclosing type. -/
def addIvar (c : ScopeChain) (name : String) (t : TypeId) : ScopeChain :=
  { c with inner := addIvarIn name t c.inner }

/-- The type of an instance variable. -/
def lookupIvar (c : ScopeChain) (name : String) : Option TypeId :=
  c.frames.findSome? (·.ivars.lookup name)

/-- Register a generic declaration in the innermost frame. -/
def registerTemplate (c : ScopeChain) (name : String) (id : TemplateId) : ScopeChain :=
  c.modifyInnermost fun s => { s with templates := (name, id) :: s.templates }

/-- The generic declaration of a name. -/
def findTemplate (c : ScopeChain) (name : String) : Option TemplateId :=
  c.frames.findSome? (·.templates.lookup name)

/-- Register the body of a trait in the innermost frame. -/
def registerTrait (c : ScopeChain) (name : String) (body : NodeId) : ScopeChain :=
  c.modifyInnermost fun s => { s with traits := (name, body) :: s.traits }

/-- The body of a trait. -/
def findTrait (c : ScopeChain) (name : String) : Option NodeId :=
  c.frames.findSome? (·.traits.lookup name)

end ScopeChain

end ClassLang
