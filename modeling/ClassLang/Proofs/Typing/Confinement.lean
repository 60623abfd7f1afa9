import ClassLang.Proofs.Discipline
import ClassLang.Proofs.Pool.Operations
import ClassLang.Proofs.Typing.Members
import ClassLang.Typing.State

/-!
# Calculations that stay in their territory

While a module is typed, every type in its scopes, tables, templates and exports belongs to the
territory of the calculation, types that declarations mention are closed, and only types declared
by the module itself are ever changed. `Confined` is this invariant. `confinement` adds to it how a
step may change the state: the pool passes through kept pools only, and nothing that can be called
is lost.
-/

namespace ClassLang

/-- A type that a declaration may mention. -/
def Pool.Declarable (p : Pool) (N : TypeId → Prop) (t : TypeId) : Prop :=
  p.Closed t ∧ N t

/-- A type that a value may have. -/
def Pool.Usable (p : Pool) (N : TypeId → Prop) (t : TypeId) : Prop :=
  t < p.size ∧ N t

/-- A class, data type or case that a declaration may mention. -/
def Pool.Nominal (p : Pool) (N : TypeId → Prop) (t : TypeId) : Prop :=
  p.Declarable N t ∧ (p.data t).nominalName?.isSome

section Pools

variable {p₀ p q : Pool} {N : TypeId → Prop} {t u : TypeId}

/-- What declarations may mention stays so while the pool evolves. -/
theorem Pool.Declarable.mono (h : p.Declarable N t) (he : p.Evolves q) : q.Declarable N t :=
  ⟨h.1.mono he, h.2⟩

/-- What values may have as their type stays so while the pool evolves. -/
theorem Pool.Usable.mono (h : p.Usable N t) (he : p.Evolves q) : q.Usable N t :=
  ⟨Nat.lt_of_lt_of_le h.1 he.size_le, h.2⟩

/-- A class, data type or case stays one while the pool evolves. -/
theorem Pool.Nominal.mono (h : p.Nominal N t) (he : p.Evolves q) : q.Nominal N t := by
  refine ⟨h.1.mono he, ?_⟩
  have hb := he.becomes t h.1.1.lt_size
  have hname := h.2
  generalize p.data t = d at hb hname
  generalize q.data t = d' at hb ⊢
  cases hb with
  | same => exact hname
  | reference => rfl
  | data => rfl
  | forwarded => cases hname

/-- A value may have any type that a declaration may mention. -/
theorem Pool.Declarable.usable (h : p.Declarable N t) : p.Usable N t :=
  ⟨h.1.lt_size, h.2⟩

namespace Pool.Kept

/-- The built-in types may be mentioned everywhere. -/
theorem builtin (hT : p₀.Territory N) (h : p₀.Kept N p) (ht : t < Pool.initial.size) :
    p.Declarable N t :=
  ⟨h.sound.closed_builtin ht, hT.builtin t ht⟩

/-- What a usable type stands for is usable. -/
theorem resolve_usable (hT : p₀.Territory N) (h : p₀.Kept N p) (ht : p.Usable N t) :
    p.Usable N (p.resolve t) :=
  ⟨h.sound.resolve_lt_size ht.1, h.resolve_mem hT ht.2⟩

/-- What a declaration in the territory mentions. -/
theorem members_declarable (h : p₀.Kept N p) (ht : N t) (hu : u ∈ (p.data t).members) :
    p.Declarable N u :=
  ⟨h.sound.members hu, h.respects t ht u (by simp [TypeData.mentions, hu])⟩

/-- What a pointer or closure in the territory is made of. -/
theorem parts_usable (h : p₀.Kept N p) (hlt : t < p.size) (ht : N t)
    (hu : u ∈ (p.data t).parts) : p.Usable N u :=
  ⟨Nat.lt_trans (h.sound.parts_lt hu) hlt, h.respects t ht u (by simp [TypeData.mentions, hu])⟩

end Pool.Kept

end Pools

/-! ## Everything that holds types -/

/-- Every type of a signature may be mentioned by a declaration. -/
def Signature.Declarable (sig : Signature) (p : Pool) (N : TypeId → Prop) : Prop :=
  ∀ t ∈ sig.types, p.Declarable N t

/-- What a name means is confined: it denotes a type that may be mentioned, or a value of a usable
type. -/
def Binding.Fits (p : Pool) (N : TypeId → Prop) : Binding → Prop
  | .type t => p.Declarable N t
  | .value t => p.Usable N t
  | .genericCase .. | .module _ => True

/-- A frame in which every type is confined. -/
structure Scope.Fits (p : Pool) (N : TypeId → Prop) (frame : Scope) : Prop where
  names : ∀ entry ∈ frame.names, entry.2.Fits p N
  ivars : ∀ entry ∈ frame.ivars, p.Declarable N entry.2
  currentType : ∀ t, frame.currentType = some t → p.Nominal N t

/-- All frames are confined. -/
def ScopeChain.Fits (p : Pool) (N : TypeId → Prop) (c : ScopeChain) : Prop :=
  ∀ frame ∈ c.frames, frame.Fits p N

/-- What a module offers is confined. -/
structure Exports.Fits (p : Pool) (N : TypeId → Prop) (e : Exports) : Prop where
  functions : ∀ sig ∈ e.functions, sig.Declarable p N
  types : ∀ entry ∈ e.types, p.Declarable N entry.2

/-- The functions that a target calls by name. -/
def Target.callees : Target → List Signature
  | .method sig => [sig]
  | .selfMethod sig => [sig]
  | .function sig => [sig]
  | .construct _ (some init) => [init]
  | _ => []

section Mono

variable {p₀ p q : Pool} {N : TypeId → Prop} {t u : TypeId}

theorem Signature.Declarable.mono {sig : Signature} (h : sig.Declarable p N) (he : p.Evolves q) :
    sig.Declarable q N :=
  fun t ht => (h t ht).mono he

theorem Binding.Fits.mono {b : Binding} (h : b.Fits p N) (he : p.Evolves q) : b.Fits q N := by
  cases b with
  | type t => exact Pool.Declarable.mono h he
  | value t => exact Pool.Usable.mono h he
  | genericCase => exact True.intro
  | module => exact True.intro

theorem Scope.Fits.mono {frame : Scope} (h : frame.Fits p N) (he : p.Evolves q) :
    frame.Fits q N where
  names entry hentry := (h.names entry hentry).mono he
  ivars entry hentry := (h.ivars entry hentry).mono he
  currentType t ht := (h.currentType t ht).mono he

theorem ScopeChain.Fits.mono {c : ScopeChain} (h : c.Fits p N) (he : p.Evolves q) : c.Fits q N :=
  fun frame hframe => (h frame hframe).mono he

theorem Exports.Fits.mono {e : Exports} (h : e.Fits p N) (he : p.Evolves q) : e.Fits q N where
  functions sig hsig := (h.functions sig hsig).mono he
  types entry hentry := (h.types entry hentry).mono he

/-- What is confined to a territory is confined to every set that its closed types lie in. -/
theorem Exports.Fits.weaken {e : Exports} {M : TypeId → Prop} (h : e.Fits p N)
    (hM : ∀ t, p.Closed t → N t → M t) : e.Fits p M where
  functions sig hsig t ht := ⟨(h.functions sig hsig t ht).1,
    hM t (h.functions sig hsig t ht).1 (h.functions sig hsig t ht).2⟩
  types entry hentry := ⟨(h.types entry hentry).1,
    hM _ (h.types entry hentry).1 (h.types entry hentry).2⟩

/-- Offering a type that may be mentioned. -/
theorem Exports.Fits.setType {e : Exports} {name : String} (h : e.Fits p N)
    (ht : p.Declarable N t) : (e.setType name t).Fits p N := by
  refine ⟨h.functions, fun entry hentry => ?_⟩
  simp only [Exports.setType, List.mem_append, List.mem_singleton] at hentry
  rcases hentry with hentry | rfl
  · exact h.types entry (List.mem_of_mem_filter hentry)
  · exact ht

end Mono

/-! ## Scopes -/

section Scopes

variable {p₀ p : Pool} {N : TypeId → Prop} {t : TypeId} {frame : Scope} {c : ScopeChain}

/-- An empty frame holds nothing. -/
theorem Scope.Fits.empty : ({} : Scope).Fits p N where
  names := by simp
  ivars := by simp
  currentType := by simp

/-- Binding a name in a frame. -/
theorem Scope.Fits.bind {name : String} {b : Binding} (h : frame.Fits p N) (hb : b.Fits p N) :
    (frame.bind name b).Fits p N where
  names entry hentry := by
    simp only [Scope.bind, List.mem_cons] at hentry
    rcases hentry with rfl | hentry
    · exact hb
    · exact h.names entry hentry
  ivars := h.ivars
  currentType := h.currentType

/-- The frame of a type's body. -/
theorem Scope.Fits.forType {ivars : List (String × TypeId)} (ht : p.Nominal N t)
    (hivars : ∀ entry ∈ ivars, p.Declarable N entry.2) : (Scope.forType t ivars).Fits p N where
  names := by simp [Scope.forType]
  ivars entry hentry := hivars entry (by simpa [Scope.forType] using hentry)
  currentType u hu := by
    cases hu
    exact ht

/-- A frame with several values bound one after the other. -/
theorem Scope.Fits.bindValues {values : List (String × TypeId)} (h : frame.Fits p N)
    (hvalues : ∀ value ∈ values, p.Usable N value.2) : (frame.bindValues values).Fits p N := by
  induction values generalizing frame with
  | nil => exact h
  | cons value values ih =>
      refine ih (h.bind (hvalues value (by simp))) fun v hv => ?_
      exact hvalues v (List.mem_cons_of_mem value hv)

namespace ScopeChain.Fits

/-- The chain whose frames are given one by one. -/
theorem of_frames (hbase : c.base.Fits p N) (hinner : ∀ f ∈ c.inner, f.Fits p N) : c.Fits p N := by
  intro f hf
  simp only [ScopeChain.frames, List.mem_append, List.mem_singleton] at hf
  rcases hf with hf | rfl
  · exact hinner f hf
  · exact hbase

theorem base (h : c.Fits p N) : c.base.Fits p N :=
  h c.base (by simp [ScopeChain.frames])

theorem inner (h : c.Fits p N) : ∀ f ∈ c.inner, f.Fits p N :=
  fun f hf => h f (by simp [ScopeChain.frames, hf])

theorem push (h : c.Fits p N) (hframe : frame.Fits p N) : (c.push frame).Fits p N := by
  refine of_frames h.base fun f hf => ?_
  simp only [ScopeChain.push, List.mem_cons] at hf
  rcases hf with rfl | hf
  · exact hframe
  · exact h.inner f hf

theorem pop (h : c.Fits p N) : c.pop.Fits p N :=
  of_frames h.base fun f hf => h.inner f (List.mem_of_mem_tail hf)

theorem isolate (h : c.Fits p N) : c.isolate.Fits p N :=
  of_frames h.base fun f hf => by simp [ScopeChain.isolate] at hf

theorem restore {c' : ScopeChain} (h : c.Fits p N) (h' : c'.Fits p N) :
    (c.restore c'.inner).Fits p N :=
  of_frames h.base h'.inner

theorem bindModule {name : String} {b : Binding} (h : c.Fits p N) (hb : b.Fits p N) :
    (c.bindModule name b).Fits p N :=
  of_frames (h.base.bind hb) h.inner

/-- A change of the innermost frame that keeps it confined. -/
theorem modifyInnermost {f : Scope → Scope} (h : c.Fits p N)
    (hf : ∀ frame : Scope, frame.Fits p N → (f frame).Fits p N) :
    (c.modifyInnermost f).Fits p N := by
  unfold ScopeChain.modifyInnermost
  split
  · exact of_frames (hf _ h.base) h.inner
  · next s rest hinner =>
      refine of_frames h.base fun g hg => ?_
      simp only [List.mem_cons] at hg
      rcases hg with rfl | hg
      · exact hf s (h.inner s (by simp [hinner]))
      · exact h.inner g (by simp [hinner, hg])

theorem bind {name : String} {b : Binding} (h : c.Fits p N) (hb : b.Fits p N) :
    (c.bind name b).Fits p N :=
  h.modifyInnermost fun _ hframe => hframe.bind hb

theorem registerTemplate {name : String} {id : TemplateId} (h : c.Fits p N) :
    (c.registerTemplate name id).Fits p N :=
  h.modifyInnermost fun _ hframe => ⟨hframe.names, hframe.ivars, hframe.currentType⟩

theorem registerTrait {name : String} {body : NodeId} (h : c.Fits p N) :
    (c.registerTrait name body).Fits p N :=
  h.modifyInnermost fun _ hframe => ⟨hframe.names, hframe.ivars, hframe.currentType⟩

theorem addIvar {name : String} (h : c.Fits p N) (ht : p.Declarable N t) :
    (c.addIvar name t).Fits p N := by
  refine of_frames h.base ?_
  suffices ∀ frames : List Scope, (∀ f ∈ frames, f.Fits p N) →
      ∀ f ∈ ScopeChain.addIvarIn name t frames, f.Fits p N from this c.inner h.inner
  intro frames
  induction frames with
  | nil => exact fun h => h
  | cons s rest ih =>
      intro hall f hf
      unfold ScopeChain.addIvarIn at hf
      have hs := hall s (by simp)
      have hrest : ∀ f ∈ rest, f.Fits p N := fun f hf => hall f (List.mem_cons_of_mem s hf)
      split at hf
      · simp only [List.mem_cons] at hf
        rcases hf with rfl | hf
        · refine ⟨hs.names, fun entry hentry => ?_, hs.currentType⟩
          simp only [List.mem_cons] at hentry
          rcases hentry with rfl | hentry
          · exact ht
          · exact hs.ivars entry hentry
        · exact hrest f hf
      · simp only [List.mem_cons] at hf
        rcases hf with rfl | hf
        · exact hs
        · exact ih hrest f hf

theorem foldl_addIvar {ivars : List (String × TypeId)} (h : c.Fits p N)
    (hivars : ∀ entry ∈ ivars, p.Declarable N entry.2) :
    (ivars.foldl (fun c (name, type) => c.addIvar name type) c).Fits p N := by
  induction ivars generalizing c with
  | nil => exact h
  | cons entry ivars ih =>
      exact ih (h.addIvar (hivars entry (by simp))) fun e he => hivars e (List.mem_cons_of_mem _ he)

/-- What a lookup finds is confined, built-in types included. -/
theorem lookup (hT : p₀.Territory N) (hp : p₀.Kept N p) (h : c.Fits p N) {name : String}
    {b : Binding} (hb : c.lookup name = some b) : b.Fits p N := by
  unfold ScopeChain.lookup at hb
  rw [Option.or_eq_some_iff] at hb
  rcases hb with hb | ⟨-, hb⟩
  · obtain ⟨f, hf, hlookup⟩ := List.exists_of_findSome?_eq_some hb
    exact (h f hf).names (name, b) (mem_of_lookup_eq_some hlookup)
  · obtain ⟨t, ht, rfl⟩ := Option.map_eq_some_iff.1 hb
    have hmem := mem_of_lookup_eq_some ht
    have hlt : ∀ e ∈ TypeId.builtinNames, e.2 < Pool.initial.size := by decide
    exact hp.builtin hT (hlt _ hmem)

theorem lookupValue (hT : p₀.Territory N) (hp : p₀.Kept N p) (h : c.Fits p N) {name : String}
    (ht : c.lookupValue name = some t) : p.Usable N t := by
  unfold ScopeChain.lookupValue at ht
  split at ht
  · next u hu =>
      cases ht
      exact h.lookup hT hp hu
  · cases ht

theorem lookupIvar (h : c.Fits p N) {name : String} (ht : c.lookupIvar name = some t) :
    p.Declarable N t := by
  obtain ⟨f, hf, hlookup⟩ := List.exists_of_findSome?_eq_some ht
  exact (h f hf).ivars (name, t) (mem_of_lookup_eq_some hlookup)

theorem currentType (h : c.Fits p N) (ht : c.currentType = some t) : p.Nominal N t := by
  obtain ⟨f, hf, hcurrent⟩ := List.exists_of_findSome?_eq_some ht
  exact (h f hf).currentType t hcurrent

end ScopeChain.Fits

end Scopes

/-! ## The invariant -/

/-- The misuses of forwarding: a variable that is forwarded already, or something that is no
variable. -/
def Halt.IsMisusedForwarding (h : Halt) : Prop :=
  h = .error (.internal "unify called on a concrete type") ∨
    h = .error (.internal "type variable unified a second time")

/-- What every module known to the importer offers is confined. -/
def Importer.ExportsFit {σ : Type} (importer : Importer σ) (p : Pool) (N : TypeId → Prop)
    (imports : σ) : Prop :=
  ∀ id e, importer.exports? imports id = some e → e.Fits p N

/-- Modules that are known stay known, and offer the same. -/
def Importer.Extends {σ : Type} (importer : Importer σ) (imports imports' : σ) : Prop :=
  ∀ id e, importer.exports? imports id = some e → importer.exports? imports' id = some e

/-- What is promised of whoever compiles imports: from a sound pool it only adds types, within any
territory that what it offers lies in. -/
def Importer.Lawful {σ : Type} (importer : Importer σ) : Prop :=
  ∀ path dotted p imports N, p.Territory N → importer.ExportsFit p N imports →
    p.Kept N (finalState (importer.resolve path dotted (p, imports))).1 ∧
      Pool.Passes (p.Kept N) p (finalState (importer.resolve path dotted (p, imports))).1 ∧
      importer.ExportsFit (finalState (importer.resolve path dotted (p, imports))).1 N
        (finalState (importer.resolve path dotted (p, imports))).2 ∧
      importer.Extends imports (finalState (importer.resolve path dotted (p, imports))).2

/-- A failure that an import ends in. -/
def Importer.Raises {σ : Type} (importer : Importer σ) (h : Halt) : Prop :=
  ∃ path dotted p imports N after, p.Territory N ∧ importer.ExportsFit p N imports ∧
    importer.resolve path dotted (p, imports) = .error h after

namespace Typing

variable {σ : Type} (ctx : TypingContext σ) (p₀ : Pool) (N : TypeId → Prop)

/-- Something that can be called: a method of a type in the territory, a function of the module,
or one of an imported module. -/
def Callable (s : TypingState σ) (sig : Signature) : Prop :=
  (∃ t, N t ∧ sig ∈ (s.pool.data t).methods) ∨ sig ∈ s.exports.functions ∨
    ∃ id e, ctx.importer.exports? s.imports id = some e ∧ sig ∈ e.functions

/-- The invariant of typing a module. -/
structure Confined (s : TypingState σ) : Prop where
  pool : p₀.Kept N s.pool
  imports : ctx.importer.ExportsFit s.pool N s.imports
  scopes : s.scopes.Fits s.pool N
  exports : s.exports.Fits s.pool N
  returnType : ∀ t, s.returnType = some t → s.pool.Declarable N t
  /-- Expansions are made of types that may be mentioned. -/
  templates : ∀ template ∈ s.templates, ∀ e ∈ template.expansions,
    s.pool.Nominal N e.type ∧ ∀ t ∈ e.args, s.pool.Declarable N t
  /-- Recorded types are usable, and those of declared types are the module's own. -/
  types : ∀ (v : Visit) (t : TypeId), s.table.get? v = some t →
    s.pool.Usable N t ∧
      ((ctx.tree.node v.node).declaresType = true → p₀.size ≤ t ∧ s.pool.Nominal N t)
  signatures : ∀ (v : Visit) (sig : Signature), s.table.signatures[v]? = some sig →
    sig.Declarable s.pool N
  targets : ∀ (v : Visit) (target : Target), s.table.targets[v]? = some target →
    ∀ sig ∈ target.callees, Callable ctx N s sig

/-- How a step of typing may change the state. -/
structure Advances (s t : TypingState σ) : Prop where
  passes : Pool.Passes (p₀.Kept N) s.pool t.pool
  functions : s.exports.functions ⊆ t.exports.functions
  imports : ctx.importer.Extends s.imports t.imports

/-- Typing stays in its territory, whether it succeeds or fails, and never misuses forwarding
unless an import does. -/
def confinement : Discipline Halt (TypingState σ) where
  inv := Confined ctx p₀ N
  le := Advances ctx p₀ N
  fails s h t := Confined ctx p₀ N t ∧ Advances ctx p₀ N s t ∧
    (h.IsMisusedForwarding → ctx.importer.Raises h)
  refl _ := ⟨.refl _, List.Subset.refl _, fun _ _ h => h⟩
  trans h h' := ⟨h.passes.trans h'.passes, List.Subset.trans h.functions h'.functions,
    fun id e he => h'.imports id e (h.imports id e he)⟩
  fails_trans h h' := ⟨h'.1, ⟨h.passes.trans h'.2.1.passes,
    List.Subset.trans h.functions h'.2.1.functions,
    fun id e he => h'.2.1.imports id e (h.imports id e he)⟩, h'.2.2⟩

variable {ctx p₀ N} {s t : TypingState σ}

/-- The pool evolves. -/
theorem Advances.evolves (h : Advances ctx p₀ N s t) : s.pool.Evolves t.pool :=
  h.passes.evolves

/-- What can be called can be called later on. -/
theorem Callable.mono {sig : Signature} (h : Callable ctx N s sig) (hle : Advances ctx p₀ N s t) :
    Callable ctx N t sig := by
  rcases h with ⟨u, hu, hsig⟩ | hsig | ⟨id, e, he, hsig⟩
  · exact .inl ⟨u, hu, hle.evolves.methods_subset u hsig⟩
  · exact .inr (.inl (hle.functions hsig))
  · exact .inr (.inr ⟨id, e, hle.imports id e he, hsig⟩)

namespace Confined

/-- A calculation that does nothing but change the pool. -/
theorem setPool {p : Pool} (h : Confined ctx p₀ N s) (hp : p₀.Kept N p)
    (hle : Advances ctx p₀ N s { s with pool := p }) : Confined ctx p₀ N { s with pool := p } where
  pool := hp
  imports id e he := (h.imports id e he).mono hle.evolves
  scopes := h.scopes.mono hle.evolves
  exports := h.exports.mono hle.evolves
  returnType t ht := (h.returnType t ht).mono hle.evolves
  templates template htemplate e he :=
    ⟨(h.templates template htemplate e he).1.mono hle.evolves,
      fun t ht => ((h.templates template htemplate e he).2 t ht).mono hle.evolves⟩
  types v t ht := ⟨(h.types v t ht).1.mono hle.evolves, fun hdecl =>
    ⟨((h.types v t ht).2 hdecl).1, ((h.types v t ht).2 hdecl).2.mono hle.evolves⟩⟩
  signatures v sig hsig := (h.signatures v sig hsig).mono hle.evolves
  targets v target htarget sig hsig := (h.targets v target htarget sig hsig).mono hle

/-- Other scopes that are confined. -/
theorem setScopes {c : ScopeChain} (h : Confined ctx p₀ N s) (hc : c.Fits s.pool N) :
    Confined ctx p₀ N { s with scopes := c } :=
  ⟨h.pool, h.imports, hc, h.exports, h.returnType, h.templates, h.types, h.signatures, h.targets⟩

/-- Another walk and declared result. -/
theorem setWalk {walk : InstanceId} {result : Option TypeId} (h : Confined ctx p₀ N s)
    (hresult : ∀ t, result = some t → s.pool.Declarable N t) :
    Confined ctx p₀ N { s with walk, returnType := result } :=
  ⟨h.pool, h.imports, h.scopes, h.exports, hresult, h.templates, h.types, h.signatures, h.targets⟩

end Confined

/-- A step that changes scopes, walk or declared result only. -/
theorem Advances.of_eq (hpool : t.pool = s.pool) (hexports : t.exports = s.exports)
    (himports : t.imports = s.imports) : Advances ctx p₀ N s t := by
  refine ⟨hpool ▸ .refl _, hexports ▸ List.Subset.refl _, fun id e he => ?_⟩
  rwa [himports]

/-! ## Elementary steps -/

variable {α : Type} {Q R : α → TypingState σ → Prop}

/-- Only an internal error can be a misuse of forwarding, and only with two texts. -/
theorem not_misused_of_kind {e : CompileError} (h : ∀ text, e ≠ .internal text) :
    ¬ (Halt.error e).IsMisusedForwarding := by
  rintro (heq | heq) <;> cases heq <;> exact h _ rfl

/-- Internal errors with other texts are no misuse of forwarding. -/
theorem not_misused_of_text {text : String}
    (h : text ≠ "unify called on a concrete type" ∧ text ≠ "type variable unified a second time") :
    ¬ (Halt.error (.internal text)).IsMisusedForwarding := by
  rintro (heq | heq) <;> cases heq
  · exact h.1 rfl
  · exact h.2 rfl

/-- Internal errors whose text begins with another letter are no misuse of forwarding. -/
theorem not_misused_of_head {text : String}
    (h : text.toList.head? ≠ some 'u' ∧ text.toList.head? ≠ some 't') :
    ¬ (Halt.error (.internal text)).IsMisusedForwarding := by
  refine not_misused_of_text ⟨?_, ?_⟩ <;> rintro rfl
  · exact h.1 rfl
  · exact h.2 rfl

theorem fail_confined {e : CompileError} (hs : Confined ctx p₀ N s)
    (he : ¬ (Halt.error e).IsMisusedForwarding) : (confinement ctx p₀ N).KeepsAt s (fail e) Q :=
  .of_error rfl ⟨hs, (confinement ctx p₀ N).refl s, fun h => absurd h he⟩

theorem mismatch_confined {text : String} (hs : Confined ctx p₀ N s) :
    (confinement ctx p₀ N).KeepsAt s (mismatch text) Q :=
  fail_confined hs (not_misused_of_kind (by simp))

theorem outOfFuel_confined (hs : Confined ctx p₀ N s) :
    (confinement ctx p₀ N).KeepsAt s (throw .outOfFuel) Q :=
  .of_error rfl ⟨hs, (confinement ctx p₀ N).refl s, by rintro (h | h) <;> cases h⟩

theorem ofExcept_confined {r : Except CompileError α} (hs : Confined ctx p₀ N s)
    (hok : ∀ a, r = .ok a → Q a s)
    (herror : ∀ e, r = .error e → ¬ (Halt.error e).IsMisusedForwarding) :
    (confinement ctx p₀ N).KeepsAt s (ofExcept r) Q := by
  cases r with
  | ok a => exact .pure hs (hok a rfl)
  | error e => exact fail_confined hs (herror e rfl)

/-- Making a type by an operation that keeps the territory. -/
theorem makeType_confined {f : Pool → TypeId × Pool} {Q : TypeId → TypingState σ → Prop}
    (hs : Confined ctx p₀ N s) (hchange : s.pool.Change (f s.pool).2)
    (hkept : p₀.Kept N (f s.pool).2) (hQ : ∀ t, t.pool = (f s.pool).2 → Q (f s.pool).1 t) :
    (confinement ctx p₀ N).KeepsAt s (makeType f) Q := by
  have hle : Advances ctx p₀ N s { s with pool := (f s.pool).2 } :=
    ⟨.single hchange hkept, List.Subset.refl _, fun _ _ h => h⟩
  exact .of_ok rfl (hs.setPool hkept hle) hle (hQ _ rfl)

/-- Changing the pool by an operation that keeps the territory. -/
theorem updatePool_confined {f : Pool → Except CompileError Pool}
    {Q : Unit → TypingState σ → Prop} (hs : Confined ctx p₀ N s)
    (hok : ∀ p, f s.pool = .ok p → s.pool.Change p ∧ p₀.Kept N p ∧ Q () { s with pool := p })
    (herror : ∀ e, f s.pool = .error e → ¬ (Halt.error e).IsMisusedForwarding) :
    (confinement ctx p₀ N).KeepsAt s (updatePool f) Q := by
  refine .bind_read hs (b := s) rfl (.bind (ofExcept_confined hs (Q := fun p u =>
    f s.pool = .ok p ∧ u = s) (fun p hp => ⟨hp, rfl⟩) herror) ?_)
  rintro p u - - ⟨hp, hu⟩
  subst hu
  obtain ⟨hchange, hkept, hQ⟩ := hok p hp
  have hle : Advances ctx p₀ N u { u with pool := p } :=
    ⟨.single hchange hkept, List.Subset.refl _, fun _ _ h => h⟩
  exact .of_ok rfl (hs.setPool hkept hle) hle hQ

theorem modifyScopes_confined {f : ScopeChain → ScopeChain} {Q : Unit → TypingState σ → Prop}
    (hs : Confined ctx p₀ N s) (hf : (f s.scopes).Fits s.pool N)
    (hQ : Q () { s with scopes := f s.scopes }) :
    (confinement ctx p₀ N).KeepsAt s (modifyScopes f) Q :=
  .of_ok rfl (hs.setScopes hf) (.of_eq rfl rfl rfl) hQ

/-! ## Records -/

/-- Recording a usable type; that of a declared type must be the module's own. -/
theorem Confined.record (h : Confined ctx p₀ N s) {v : Visit} {t : TypeId}
    (ht : s.pool.Usable N t)
    (hown : (ctx.tree.node v.node).declaresType = true → p₀.size ≤ t ∧ s.pool.Nominal N t) :
    Confined ctx p₀ N { s with table := s.table.record v t } := by
  refine ⟨h.pool, h.imports, h.scopes, h.exports, h.returnType, h.templates, fun w u hu => ?_,
    h.signatures, h.targets⟩
  by_cases hw : w = v
  · subst hw
    rw [TypeTable.get?_record_self] at hu
    cases hu
    exact ⟨ht, hown⟩
  · rw [TypeTable.get?_record_of_ne _ _ hw] at hu
    exact h.types w u hu

theorem record_confined {node : NodeId} {t : TypeId} {Q : Unit → TypingState σ → Prop}
    (hs : Confined ctx p₀ N s) (ht : s.pool.Usable N t)
    (hown : (ctx.tree.node node).declaresType = true → p₀.size ≤ t ∧ s.pool.Nominal N t)
    (hQ : ∀ u, u.pool = s.pool → Q () u) :
    (confinement ctx p₀ N).KeepsAt s (record node t) Q :=
  .of_ok rfl (hs.record (v := ⟨s.walk, node⟩) ht hown) (.of_eq rfl rfl rfl) (hQ _ rfl)

/-- The recorded type of a node is usable, and that of a declared type is the module's own. -/
theorem recorded_confined {node : NodeId} (hs : Confined ctx p₀ N s) :
    (confinement ctx p₀ N).KeepsAt s (recorded node) fun t u =>
      u.pool.Usable N t ∧
        ((ctx.tree.node node).declaresType = true → p₀.size ≤ t ∧ u.pool.Nominal N t) := by
  refine .bind_read hs (b := ⟨s.walk, node⟩) rfl (.bind_read hs (b := s) rfl ?_)
  refine ofExcept_confined hs (fun t ht => ?_) fun e he => ?_
  · unfold TypeTable.typeOf at ht
    split at ht
    · next hget =>
        cases ht
        exact hs.types _ _ hget
    · cases ht
  · unfold TypeTable.typeOf at he
    split at he
    · cases he
    · cases he
      exact not_misused_of_head (by simp [ToString.toString])

theorem setTarget_confined {node : NodeId} {target : Target} {Q : Unit → TypingState σ → Prop}
    (hs : Confined ctx p₀ N s) (htarget : ∀ sig ∈ target.callees, Callable ctx N s sig)
    (hQ : ∀ u, u.pool = s.pool → Q () u) :
    (confinement ctx p₀ N).KeepsAt s (setTarget node target) Q := by
  refine .of_ok rfl ⟨hs.pool, hs.imports, hs.scopes, hs.exports, hs.returnType, hs.templates,
    hs.types, hs.signatures, fun v other hother sig hsig => ?_⟩ (.of_eq rfl rfl rfl) (hQ _ rfl)
  simp only [TypeTable.setTarget, getElem?_insert_visit] at hother
  split at hother
  · cases hother
    exact htarget sig hsig
  · exact hs.targets v other hother sig hsig

/-! ## Steps in another context -/

/-- A step in a changed state, after which parts of the state are put back. -/
theorem within_confined {enter : TypingState σ → TypingState σ}
    {leave : TypingState σ → TypingState σ → TypingState σ} {step : Typing σ α}
    (henter : Advances ctx p₀ N s (enter s))
    (hstep : (confinement ctx p₀ N).KeepsAt (enter s) step Q)
    (hleave : ∀ t, Confined ctx p₀ N t → Advances ctx p₀ N (enter s) t →
      Confined ctx p₀ N (leave s t) ∧ Advances ctx p₀ N t (leave s t))
    (hQ : ∀ a t, Q a t → Q a (leave s t)) :
    (confinement ctx p₀ N).KeepsAt s (within enter leave step) Q := by
  unfold Discipline.KeepsAt at hstep ⊢
  unfold within
  cases hresult : step (enter s) with
  | ok a t =>
      simp only [hresult] at hstep ⊢
      obtain ⟨hinv, hle, hpost⟩ := hstep
      obtain ⟨hinv', hle'⟩ := hleave t hinv hle
      exact ⟨hinv', (confinement ctx p₀ N).trans henter ((confinement ctx p₀ N).trans hle hle'),
        hQ a t hpost⟩
  | error e t =>
      simp only [hresult] at hstep ⊢
      obtain ⟨hinv, hle, hpost⟩ := hstep
      obtain ⟨hinv', hle'⟩ := hleave t hinv hle
      exact ⟨hinv', (confinement ctx p₀ N).trans henter ((confinement ctx p₀ N).trans hle hle'),
        hpost⟩

/-- A step with a confined frame opened for it. -/
theorem withFrame_confined {frame : Scope} {step : Typing σ α} {Q : α → Pool → Prop}
    (hs : Confined ctx p₀ N s) (hframe : frame.Fits s.pool N)
    (hstep : ∀ t, Confined ctx p₀ N t → Advances ctx p₀ N s t →
      (confinement ctx p₀ N).KeepsAt t step fun a u => Q a u.pool) :
    (confinement ctx p₀ N).KeepsAt s (withFrame frame step) fun a u => Q a u.pool :=
  within_confined (.of_eq rfl rfl rfl)
    (hstep _ (hs.setScopes (hs.scopes.push hframe)) (.of_eq rfl rfl rfl))
    (fun _ ht _ => ⟨ht.setScopes ht.scopes.pop, .of_eq rfl rfl rfl⟩) (fun _ _ h => h)

theorem withReturnType_confined {result : Option TypeId} {step : Typing σ α} {Q : α → Pool → Prop}
    (hs : Confined ctx p₀ N s) (hresult : ∀ t, result = some t → s.pool.Declarable N t)
    (hstep : ∀ t, Confined ctx p₀ N t → Advances ctx p₀ N s t →
      (confinement ctx p₀ N).KeepsAt t step fun a u => Q a u.pool) :
    (confinement ctx p₀ N).KeepsAt s (withReturnType result step) fun a u => Q a u.pool :=
  within_confined (.of_eq rfl rfl rfl) (hstep _ (hs.setWalk hresult) (.of_eq rfl rfl rfl))
    (fun _ ht hle => ⟨ht.setWalk fun u hu => (hs.returnType u hu).mono hle.evolves,
      .of_eq rfl rfl rfl⟩) (fun _ _ h => h)

theorem withWalk_confined {walk : InstanceId} {step : Typing σ α} {Q : α → Pool → Prop}
    (hs : Confined ctx p₀ N s)
    (hstep : ∀ t, Confined ctx p₀ N t → Advances ctx p₀ N s t →
      (confinement ctx p₀ N).KeepsAt t step fun a u => Q a u.pool) :
    (confinement ctx p₀ N).KeepsAt s (withWalk walk step) fun a u => Q a u.pool :=
  within_confined (.of_eq rfl rfl rfl) (hstep _ (hs.setWalk hs.returnType) (.of_eq rfl rfl rfl))
    (fun _ ht _ => ⟨ht.setWalk ht.returnType, .of_eq rfl rfl rfl⟩) (fun _ _ h => h)

theorem withIsolatedFrame_confined {walk : InstanceId} {frame : Scope} {step : Typing σ α}
    {Q : α → Pool → Prop} (hs : Confined ctx p₀ N s) (hframe : frame.Fits s.pool N)
    (hstep : ∀ t, Confined ctx p₀ N t → Advances ctx p₀ N s t → t.pool = s.pool →
      (confinement ctx p₀ N).KeepsAt t step fun a u => Q a u.pool) :
    (confinement ctx p₀ N).KeepsAt s (withIsolatedFrame walk frame step) fun a u => Q a u.pool := by
  refine within_confined (.of_eq rfl rfl rfl) (hstep _ ?_ (.of_eq rfl rfl rfl) rfl)
    (fun t ht hle => ⟨?_, .of_eq rfl rfl rfl⟩) (fun _ _ h => h)
  · exact (hs.setScopes (hs.scopes.isolate.push hframe)).setWalk (by simp)
  · exact (ht.setScopes (ht.scopes.restore (hs.scopes.mono hle.evolves))).setWalk
      fun u hu => (hs.returnType u hu).mono hle.evolves

/-- The instance variables of a type in the territory. -/
theorem ivars_declarable (hT : p₀.Territory N) (hs : Confined ctx p₀ N s) {t : TypeId}
    (ht : s.pool.Usable N t) : ∀ entry ∈ s.pool.ivars t, s.pool.Declarable N entry.2 := by
  intro entry hentry
  unfold Pool.ivars at hentry
  split at hentry
  · next name ivars methods hview =>
      refine hs.pool.members_declarable (t := s.pool.resolve t) (hs.pool.resolve_mem hT ht.2) ?_
      unfold Pool.view at hview
      rw [hview]
      simp only [TypeData.members, List.mem_append, List.mem_map]
      exact .inl ⟨entry, hentry, rfl⟩
  · simp at hentry

theorem withTypeFrame_confined (hT : p₀.Territory N) {owner : TypeId} {step : Typing σ α}
    {Q : α → Pool → Prop} (hs : Confined ctx p₀ N s) (howner : s.pool.Nominal N owner)
    (hstep : ∀ t, Confined ctx p₀ N t → Advances ctx p₀ N s t →
      (confinement ctx p₀ N).KeepsAt t step fun a u => Q a u.pool) :
    (confinement ctx p₀ N).KeepsAt s (withTypeFrame owner step) fun a u => Q a u.pool :=
  .bind_read hs (b := s) rfl (withFrame_confined hs
    (.forType howner (ivars_declarable hT hs howner.1.usable)) hstep)

end Typing

end ClassLang
