import ClassLang.Proofs.Pool.Operations
import ClassLang.Proofs.Typing.Completeness

/-!
# Methods registered on a type

A method without an attribute is linked under the display name of its type and its own name, a
function under its name in the package. `methodLink_eq_iff` says which methods share a link name:
those for which type and method meet at another underscore.

The methods that a type's body comes to are all registered on the type, under different names:
`TypeTable.Registers`. It is put together from the statements of the body in their order, since a
method is only registered on a type that has none of its name.
-/

namespace ClassLang

open Relation (ReflTransGen)

/-! ## Link names -/

/-- The link name of a method without an attribute; `type` is the display name of its type. -/
def methodLink (type method : String) : String :=
  "_Tc_" ++ type ++ "_" ++ method

/-- The link name of a function without an attribute, in a module of the package. -/
def functionLink (package : Option String) (name : String) : String :=
  if name = "main" then name
  else match package with
    | some package => package ++ "." ++ name
    | none => name

/-- The name of the second type goes on where the first one ends, into the first method's name. -/
def NamesOverlap (type method type' method' : String) : Prop :=
  ∃ middle, type' = type ++ "_" ++ middle ∧ method = middle ++ "_" ++ method'

/-- Names overlap at an underscore in a type's name and one in a method's name. -/
theorem NamesOverlap.underscore {type method type' method' : String}
    (h : NamesOverlap type method type' method') :
    '_' ∈ type'.toList ∧ '_' ∈ method.toList := by
  obtain ⟨middle, rfl, rfl⟩ := h
  simp

theorem NamesOverlap.of_toList {type method type' method' : String} {rest : List Char}
    (htype : type'.toList = type.toList ++ rest)
    (hmethod : '_' :: method.toList = rest ++ '_' :: method'.toList) :
    type = type' ∧ method = method' ∨ NamesOverlap type method type' method' := by
  cases rest with
  | nil =>
      refine .inl ⟨String.toList_injective (by simpa using htype.symm), ?_⟩
      exact String.toList_injective (by simpa using hmethod)
  | cons c middle =>
      obtain ⟨rfl, hrest⟩ : '_' = c ∧ method.toList = middle ++ '_' :: method'.toList := by
        simpa using hmethod
      refine .inr ⟨String.ofList middle, ?_, ?_⟩ <;> refine String.toList_injective ?_
      · simp [htype]
      · simp [hrest]

/-- Methods share a link name only if their names overlap. -/
theorem methodLink_eq_iff {type method type' method' : String} :
    methodLink type method = methodLink type' method' ↔ type = type' ∧ method = method' ∨
      NamesOverlap type method type' method' ∨ NamesOverlap type' method' type method := by
  constructor
  · intro h
    have hlist : type.toList ++ '_' :: method.toList = type'.toList ++ '_' :: method'.toList := by
      simpa [methodLink] using congrArg String.toList h
    rcases List.append_eq_append_iff.mp hlist with ⟨rest, htype, hmethod⟩ | ⟨rest, htype, hmethod⟩
    · exact (NamesOverlap.of_toList htype hmethod).imp_right .inl
    · rcases NamesOverlap.of_toList htype hmethod with ⟨rfl, rfl⟩ | hoverlap
      · exact .inl ⟨rfl, rfl⟩
      · exact .inr (.inr hoverlap)
  · rintro (⟨rfl, rfl⟩ | ⟨middle, rfl, rfl⟩ | ⟨middle, rfl, rfl⟩)
    · rfl
    · simp [methodLink, String.append_assoc]
    · simp [methodLink, String.append_assoc]

/-- Functions of one module share a link name only if they share their name. -/
theorem functionLink_injective (package : Option String) :
    Function.Injective (functionLink package) := by
  intro name name' h
  cases package with
  | none => simpa [functionLink] using h
  | some package =>
      -- the qualified name has a dot, which `main` has not
      have hdot : ∀ name : String, package ++ "." ++ name ≠ "main" := by
        intro name heq
        have hmem : '.' ∈ (package ++ "." ++ name).toList := by simp
        rw [heq] at hmem
        simp at hmem
      simp only [functionLink] at h
      split at h <;> split at h
      · next heq heq' => rw [heq, heq']
      · next heq _ => exact absurd (h.symm.trans heq) (hdot name')
      · next heq => exact absurd (h.trans heq) (hdot name)
      · simpa using h

/-- A class, data type or case is displayed by its symbol. -/
theorem Pool.display_of_nominalName {p : Pool} {t : TypeId} {name : String}
    (h : (p.data t).nominalName? = some name) : p.display t = name := by
  have hresolve : p.resolve t = t := by
    refine Pool.resolve_of_not_var ?_
    cases hd : p.data t <;> simp [hd, TypeData.nominalName?] at h <;> rfl
  unfold Pool.display Pool.displayWithin
  dsimp only
  rw [hresolve]
  cases hd : p.data t <;> rw [hd] at h <;> cases h <;> rfl

/-! ## Declarations of methods -/

/-- The name and the attribute of a function or method declaration. -/
def SyntaxTree.method? (tree : SyntaxTree) (node : NodeId) : Option (String × Option Attribute) :=
  match tree.node node with
  | .methodDef name _ _ _ => some (name, none)
  | .methodDec name _ _ attr => some (name, attr)
  | _ => none

theorem SyntaxTree.isMethod_iff {tree : SyntaxTree} {node : NodeId} :
    tree.IsMethod node ↔ (tree.method? node).isSome := by
  unfold IsMethod method?
  cases tree.node node <;> simp

/-- The parameters of a function or method declaration. -/
def SyntaxTree.methodParams (tree : SyntaxTree) (node : NodeId) : List NodeId :=
  match tree.node node with
  | .methodDef _ params _ _ => params
  | .methodDec _ params _ _ => params
  | _ => []

/-- The name of a parameter with a declared type. -/
def SyntaxTree.paramName? (tree : SyntaxTree) (param : NodeId) : Option String :=
  match tree.node param with
  | .typed name _ => some name
  | _ => none

/-- What is declared for the parameters has their names, and more arguments are taken only if one of
them has no declared type. -/
structure SyntaxTree.ParamsDeclared (tree : SyntaxTree) (params : List NodeId)
    (declared : List Param × Bool) : Prop where
  names : declared.1.map (·.name) = (params.filterMap tree.paramName?).map some
  varargs : (∀ param ∈ params, (tree.paramName? param).isSome) → declared.2 = false

/-- The signature has the name and the parameters of the declaration, and without an attribute the
link name that `link` makes of its name. -/
structure Signature.NamedBy (sig : Signature) (tree : SyntaxTree) (node : NodeId)
    (link : String → String) : Prop where
  declared : ∃ attr, tree.method? node = some (sig.name, attr)
  linked : tree.method? node = some (sig.name, none) → sig.linkName = link sig.name
  params : tree.ParamsDeclared (tree.methodParams node) (sig.params, sig.varargs)

namespace TypeTable

variable {table table' : TypeTable} {tree : SyntaxTree} {p p' : Pool} {owner : TypeId}
  {taken taken' : List String} {starts starts' : List Visit} {v w : Visit}

/-- The recorded signature of the visit is that of a method of the type. Its name is not one of those
that were `taken` before. -/
def Registered (table : TypeTable) (tree : SyntaxTree) (p : Pool) (owner : TypeId)
    (taken : List String) (v : Visit) : Prop :=
  ∃ sig type, table.signatures[v]? = some sig ∧ sig ∈ (p.data owner).methods ∧
    sig.name ∉ taken ∧ (p.data owner).nominalName? = some type ∧
      sig.NamedBy tree v.node (methodLink type)

theorem Registered.hasSignature (h : table.Registered tree p owner taken v) :
    table.HasSignature v := by
  obtain ⟨sig, _, hsig, _⟩ := h
  simp [HasSignature, hsig]

theorem Registered.mono (h : table.Registered tree p owner taken v) (hp : p.Evolves p')
    (hsignatures : ∀ (v : Visit) sig, table.signatures[v]? = some sig → table'.signatures[v]? = some sig)
    (htaken : taken' ⊆ taken) : table'.Registered tree p' owner taken' v := by
  obtain ⟨sig, type, hsig, hmem, hnew, htype, hnamed⟩ := h
  exact ⟨sig, type, hsignatures v sig hsig, hp.methods_subset owner hmem, fun h => hnew (htaken h),
    hp.nominalName? htype, hnamed⟩

/-- The name of a registered method is one of those of its type. -/
theorem Registered.name_mem (h : table.Registered tree p owner taken v) {name : String}
    {attr : Option Attribute} (hname : tree.method? v.node = some (name, attr)) :
    name ∉ taken ∧ name ∈ p.methodNames owner := by
  obtain ⟨sig, _, -, hmem, hnew, -, hnamed⟩ := h
  obtain ⟨attr', hname'⟩ := hnamed.declared
  rw [hname] at hname'
  obtain ⟨rfl, -⟩ := Prod.mk.inj (Option.some.inj hname')
  exact ⟨hnew, List.mem_map_of_mem hmem⟩

/-- A statement comes to the same methods when more is known. -/
theorem Throughout.reached_of_mono {P : Visit → Prop} (h : table.Throughout tree P v)
    (hinclusions : ∀ v walk, table.inclusion? v = some walk → table'.inclusion? v = some walk)
    (hreach : ReflTransGen (table'.Includes tree) v w) :
    ReflTransGen (table.Includes tree) v w := by
  induction hreach with
  | refl => exact .refl
  | tail _ hstep ih =>
      obtain ⟨name, body, hnode, hwalk, hbody, hmem⟩ := hstep
      obtain ⟨walk, hknown⟩ := Option.isSome_iff_exists.mp ((h.reached ih).known hnode).1
      rw [hinclusions _ _ hknown] at hwalk
      exact ih.tail ⟨name, body, hnode, Option.some.inj hwalk ▸ hknown, hbody, hmem⟩

/-- All methods that the statements come to are registered on the type, under different names. -/
structure Registers (table : TypeTable) (tree : SyntaxTree) (p : Pool) (owner : TypeId)
    (taken : List String) (starts : List Visit) : Prop where
  methods : ∀ start ∈ starts, table.Throughout tree (table.Registered tree p owner taken) start
  apart : ∀ start ∈ starts, ∀ start' ∈ starts, ∀ v w,
    ReflTransGen (table.Includes tree) start v → ReflTransGen (table.Includes tree) start' w →
      v ≠ w → ∀ name attr name' attr', tree.method? v.node = some (name, attr) →
        tree.method? w.node = some (name', attr') → name ≠ name'

namespace Registers

theorem nil : table.Registers tree p owner taken [] := ⟨by simp, by simp⟩

theorem mono (h : table.Registers tree p owner taken starts) (hp : p.Evolves p')
    (hsignatures : ∀ (v : Visit) sig, table.signatures[v]? = some sig → table'.signatures[v]? = some sig)
    (hinclusions : ∀ v walk, table.inclusion? v = some walk → table'.inclusion? v = some walk)
    (htaken : taken' ⊆ taken) : table'.Registers tree p' owner taken' starts where
  methods start hstart := (h.methods start hstart).mono
    (fun _ hv => hv.mono hp hsignatures htaken) hinclusions
  apart start hstart start' hstart' v w hv hw :=
    h.apart start hstart start' hstart' v w
      ((h.methods start hstart).reached_of_mono hinclusions hv)
      ((h.methods start' hstart').reached_of_mono hinclusions hw)

/-- What a statement of the list comes to is registered. -/
theorem registered (h : table.Registers tree p owner taken starts) {start : Visit}
    (hstart : start ∈ starts) (hreach : ReflTransGen (table.Includes tree) start v)
    (hmethod : tree.IsMethod v.node) : table.Registered tree p owner taken v :=
  ((h.methods start hstart).reached hreach).method hmethod

/-- Statements that are declared one after the other: when it is the turn of the second ones, the
names of the first ones are taken. -/
theorem append (h : table.Registers tree p owner taken starts)
    (h' : table'.Registers tree p' owner taken' starts') (hp : p.Evolves p')
    (hsignatures : ∀ (v : Visit) sig, table.signatures[v]? = some sig → table'.signatures[v]? = some sig)
    (hinclusions : ∀ v walk, table.inclusion? v = some walk → table'.inclusion? v = some walk)
    (htaken : taken ⊆ taken') (hnames : p.methodNames owner ⊆ taken') :
    table'.Registers tree p' owner taken (starts ++ starts') := by
  have hold := h.mono hp hsignatures hinclusions (List.Subset.refl taken)
  have hnew := h'.mono (.refl p') (fun _ _ h => h) (fun _ _ h => h) htaken
  have hcross : ∀ start ∈ starts, ∀ start' ∈ starts', ∀ v w,
      ReflTransGen (table'.Includes tree) start v → ReflTransGen (table'.Includes tree) start' w →
      ∀ name attr name' attr', tree.method? v.node = some (name, attr) →
        tree.method? w.node = some (name', attr') → name ≠ name' := by
    rintro start hstart start' hstart' v w hv hw name attr _ attr' hname hname' rfl
    have hv := (h.methods start hstart).reached_of_mono hinclusions hv
    have hfirst := h.registered hstart hv (SyntaxTree.isMethod_iff.mpr (by simp [hname]))
    have hsecond := h'.registered hstart' hw (SyntaxTree.isMethod_iff.mpr (by simp [hname']))
    exact (hsecond.name_mem hname').1 (hnames (hfirst.name_mem hname).2)
  refine ⟨fun start hstart => ?_, fun start hstart start' hstart' v w hv hw hne name attr name'
    attr' hname hname' => ?_⟩
  · exact (List.mem_append.mp hstart).elim (hold.methods start) (hnew.methods start)
  · rcases List.mem_append.mp hstart with hs | hs <;>
      rcases List.mem_append.mp hstart' with hs' | hs'
    · exact hold.apart _ hs _ hs' v w hv hw hne _ _ _ _ hname hname'
    · exact hcross _ hs _ hs' v w hv hw _ _ _ _ hname hname'
    · exact (hcross _ hs' _ hs w v hw hv _ _ _ _ hname' hname).symm
    · exact hnew.apart _ hs _ hs' v w hv hw hne _ _ _ _ hname hname'

/-- A statement that includes nothing comes to itself only. -/
theorem single (hnot : ∀ name, tree.node v.node ≠ .inclusion name)
    (h : tree.IsMethod v.node → table.Registered tree p owner taken v) :
    table.Registers tree p owner taken [v] := by
  have hself : ∀ w, ReflTransGen (table.Includes tree) v w → w = v := by
    intro w hw
    rcases hw.cases_head with heq | ⟨_, ⟨name, _, hname, _⟩, _⟩
    · exact heq.symm
    · exact absurd hname (hnot name)
  refine ⟨fun start hstart => ?_, fun start hstart start' hstart' x y hx hy hne => ?_⟩
  · rw [List.mem_singleton] at hstart
    exact hstart ▸ .single hnot h
  · rw [List.mem_singleton] at hstart hstart'
    subst hstart hstart'
    exact absurd ((hself x hx).trans (hself y hy).symm) hne

/-- An inclusion comes to the methods of the trait. -/
theorem inclusion {name : String} {walk : InstanceId} {body : NodeId}
    (hnode : tree.node v.node = .inclusion name) (hwalk : table.inclusion? v = some walk)
    (hbody : tree.traits.lookup name = some body)
    (h : table.Registers tree p owner taken
      ((tree.statements body).map fun statement => { walk, node := statement })) :
    table.Registers tree p owner taken [v] := by
  have hmem : ∀ statement ∈ tree.statements body, ({ walk, node := statement } : Visit) ∈
      (tree.statements body).map fun statement => { walk, node := statement } :=
    fun statement hstatement => List.mem_map_of_mem hstatement
  -- the inclusion is no method, so a method is reached by way of the trait
  have hinto : ∀ w, ReflTransGen (table.Includes tree) v w → (tree.method? w.node).isSome →
      ∃ start ∈ (tree.statements body).map fun statement => ({ walk, node := statement } : Visit),
        ReflTransGen (table.Includes tree) start w := by
    intro w hw hmethod
    rcases hw.cases_head with rfl | ⟨⟨walk', statement⟩, hstep, hrest⟩
    · simp [SyntaxTree.method?, hnode] at hmethod
    · obtain ⟨name', body', hnode', hwalk', hbody', hstatement⟩ := hstep
      obtain rfl : name = name' := by simpa [hnode] using hnode'
      obtain rfl : walk = walk' := by simpa [hwalk] using hwalk'
      obtain rfl : body = body' := Option.some.inj (hbody.symm.trans hbody')
      exact ⟨_, hmem statement hstatement, hrest⟩
  refine ⟨fun start hstart => ?_, fun start hstart start' hstart' x y hx hy hne name attr name'
    attr' hname hname' => ?_⟩
  · rw [List.mem_singleton] at hstart
    exact hstart ▸ .inclusion hnode hwalk hbody fun statement hstatement =>
      h.methods _ (hmem statement hstatement)
  · rw [List.mem_singleton] at hstart hstart'
    subst hstart hstart'
    obtain ⟨first, hfirst, hx⟩ := hinto x hx (by simp [hname])
    obtain ⟨second, hsecond, hy⟩ := hinto y hy (by simp [hname'])
    exact h.apart first hfirst second hsecond x y hx hy hne _ _ _ _ hname hname'

end Registers

end TypeTable

end ClassLang
