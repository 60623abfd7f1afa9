import ClassLang.Proofs.Lowering.FaultsModule
import ClassLang.Proofs.Typing.AccountedModules

/-!
# Typed modules are ready to be generated

What typing delivers is what generating asks for. A complete table prepares every node that was
typed, the walks of type declarations and inclusions are those under which members were declared and
typed, and every call means a function that is known or declared by the module itself.
-/

namespace ClassLang

open Typing

variable {Allowed : Halt → Prop} {declared : String → Prop}

/-! ## Nodes -/

section Nodes

variable {ctx : LoweringContext} {walk : InstanceId} {node : NodeId}

theorem TypeKnown.of_hasType (h : ctx.typed.table.HasType { walk, node }) :
    TypeKnown Allowed ctx walk node := by
  intro e he
  obtain ⟨t, ht⟩ := Option.isSome_iff_exists.mp h
  simp [TypeTable.typeOf, ht] at he

theorem SignatureKnown.of_hasSignature {visit : Visit}
    (h : ctx.typed.table.HasSignature visit) : SignatureKnown Allowed ctx visit := by
  intro e he
  obtain ⟨sig, hsig⟩ := Option.isSome_iff_exists.mp h
  simp [TypeTable.signature, hsig] at he

theorem target_eq_ok {v : Visit} {target : Target} :
    ctx.typed.table.target v = .ok target ↔ ctx.typed.table.targets[v]? = some target := by
  unfold TypeTable.target
  split
  · next found hfound => simp [hfound]
  · next hnone => simp [hnone]

/-- A complete table prepares all nodes that were typed, if all calls mean declared functions. -/
theorem prepared_of_complete (hcomplete : ctx.typed.table.Complete ctx.tree)
    (hcallees : ∀ (v : Visit) (target : Target), ctx.typed.table.targets[v]? = some target →
      ∀ sig ∈ target.callees, declared sig.linkName) :
    Prepared Allowed declared ctx walk fun node =>
      ctx.typed.table.Covers ctx.tree { walk, node } := by
  intro node hnode
  have hpart : ∀ part, ctx.typed.table.Covers ctx.tree { walk, node := part } →
      PartReady Allowed ctx walk
        (fun node => ctx.typed.table.Covers ctx.tree { walk, node }) part :=
    fun part h => ⟨.of_hasType h.1, h⟩
  have htarget : ctx.typed.table.HasTarget { walk, node } →
      TargetKnown Allowed declared ctx walk node := by
    intro h
    obtain ⟨target, htarget⟩ := Option.isSome_iff_exists.mp h
    refine ⟨fun e he => ?_, fun target' h' sig hsig => ?_⟩
    · rw [target_eq_ok.mpr htarget] at he
      cases he
    · exact .inl (hcallees _ target' (target_eq_ok.mp h') sig hsig)
  have hparts := hcomplete.parts _ hnode.1
  unfold TypeTable.PartsCovered at hparts
  unfold NodeReady
  split
  · next hkind =>
      simp only [hkind] at hparts
      exact hparts
  · next name hkind => exact htarget (hnode.2 name hkind)
  · next hkind =>
      simp only [hkind] at hparts
      exact ⟨.of_hasType hnode.1, hpart _ hparts⟩
  · next hkind =>
      simp only [hkind] at hparts
      exact ⟨.of_hasType hparts.1, hpart _ hparts.2⟩
  · next receiver method args hkind =>
      simp only [hkind] at hparts
      refine ⟨.of_hasType hnode.1, ⟨htarget hparts.1, fun arg harg => hpart _ (hparts.2 arg harg)⟩,
        fun target hfound hneeds object hobject => hpart _ ?_⟩
      obtain rfl : receiver = some object := hobject
      exact hcomplete.receivers _ target (target_eq_ok.mp hfound) hneeds object method args hkind
  · next hkind =>
      simp only [hkind] at hparts
      exact hparts
  · next hkind =>
      simp only [hkind] at hparts
      exact ⟨htarget hparts.1, fun arg harg => hpart _ (hparts.2 arg harg)⟩
  · next hkind =>
      simp only [hkind] at hparts
      exact ⟨hpart _ hparts.1, hpart _ hparts.2⟩
  · next hkind =>
      simp only [hkind] at hparts
      exact hparts
  · next hkind =>
      simp only [hkind] at hparts
      exact ⟨hpart _ hparts.1, hparts.2⟩
  · next hkind =>
      simp only [hkind] at hparts
      exact ⟨hpart _ hparts.1, hparts.2⟩
  · next hkind =>
      simp only [hkind] at hparts
      refine ⟨hpart _ hparts.1, fun arm harm matched body hbody => ?_⟩
      exact ⟨.of_hasType (hparts.2 arm harm matched body hbody).1,
        (hparts.2 arm harm matched body hbody).2⟩
  · next hkind =>
      simp only [hkind] at hparts
      exact fun value hvalue => hpart _ (hparts value hvalue)
  · next hkind =>
      simp only [hkind] at hparts
      exact ⟨.of_hasType hnode.1, hpart _ hparts⟩
  · trivial

end Nodes

/-! ## Modules -/

namespace Typing.Delivered

variable {σ : Type} {ctx : TypingContext σ} {known : σ → String → Prop} {s : TypingState σ}
  {statement : NodeId} {visit : Visit}

/-- A declaration without a template is not generic. -/
theorem declaresType_of_not_template (h : Delivered ctx known s)
    (htop : statement ∈ ctx.tree.statements ctx.tree.root) (hdecl : ctx.tree.IsTypeDecl statement)
    (hnot : statement ∉ s.templates.map (·.decl)) :
    (ctx.tree.node statement).declaresType = true := by
  rw [h.decls, List.mem_filter] at hnot
  have hgeneric : isGeneric (ctx.tree.node statement) ≠ true := fun hg => hnot ⟨htop, hg⟩
  unfold isGeneric at hgeneric
  unfold SyntaxTree.IsTypeDecl at hdecl
  unfold Node.declaresType
  split at hdecl
  · next name param body hnode => cases param <;> simp_all
  · next name param cases body hnode => cases param <;> simp_all
  · exact hdecl.elim

/-- A declaration makes a type in each of its walks. -/
theorem exists_hasInstance (h : Delivered ctx known s)
    (htop : statement ∈ ctx.tree.statements ctx.tree.root) (hdecl : ctx.tree.IsTypeDecl statement)
    {walk : InstanceId} (hwalk : s.typed.IsInstance statement walk) :
    ∃ owner, s.typed.HasInstance statement walk owner := by
  unfold TypedModule.IsInstance at hwalk
  unfold TypedModule.HasInstance
  split at hwalk
  · obtain ⟨e, he, rfl⟩ := hwalk
    exact ⟨e.type, e, he, rfl, rfl⟩
  · next hnone =>
      obtain ⟨owner, howner, -⟩ := (h.signed statement htop).members
        (h.declaresType_of_not_template htop hdecl (TypedModule.templateFor?_eq_none_iff.mp hnone))
      exact ⟨owner, hwalk, howner⟩

/-- The members of a declaration are declared on the type that it makes. -/
theorem instance_declared (h : Delivered ctx known s)
    (htop : statement ∈ ctx.tree.statements ctx.tree.root) (hdecl : ctx.tree.IsTypeDecl statement)
    {walk : InstanceId} {owner : TypeId} (hinstance : s.typed.HasInstance statement walk owner) :
    MembersDeclared ctx.tree s.table s.pool statement owner walk := by
  unfold TypedModule.HasInstance at hinstance
  split at hinstance
  · next template htemplate =>
      obtain ⟨e, he, rfl, rfl⟩ := hinstance
      obtain ⟨id, index, hat⟩ :=
        (TypedModule.mem_expansions_iff (m := s.typed) h.accounted.distinct htemplate).mp he
      exact (h.expanded id index statement e hat).1
  · next hnone =>
      obtain ⟨rfl, howner⟩ := hinstance
      obtain ⟨owner', howner', hdeclared⟩ := (h.signed statement htop).members
        (h.declaresType_of_not_template htop hdecl (TypedModule.templateFor?_eq_none_iff.mp hnone))
      obtain rfl : owner = owner' := Option.some.inj (howner.symm.trans howner')
      exact hdeclared

/-- The members of declarations are typed, in all walks of the declaration. -/
theorem instance_walked (h : Delivered ctx known s)
    (htop : statement ∈ ctx.tree.statements ctx.tree.root) (hdecl : ctx.tree.IsTypeDecl statement)
    {walk : InstanceId} (hwalk : s.typed.IsInstance statement walk) {member : NodeId}
    (hmember : InBody ctx.tree statement member) : MemberDone ctx walk member s := by
  rcases (TypedModule.isInstance_iff (m := s.typed) h.accounted.distinct).mp hwalk with
    ⟨id, index, e, he, rfl⟩ | ⟨hnot, rfl⟩
  · exact (h.expanded id index statement e he).2 member hmember
  · exact h.walked statement htop (h.declaresType_of_not_template htop hdecl hnot) member hmember

/-- The members of declarations are declared and typed, in all walks of the declaration. -/
theorem member (h : Delivered ctx known s) (htop : statement ∈ ctx.tree.statements ctx.tree.root)
    (hmember : s.typed.IsMember ctx.tree statement visit) :
    s.table.Throughout ctx.tree s.table.HasSignature visit ∧
      s.table.Throughout ctx.tree (BodyCovered ctx.tree s.table) visit := by
  obtain ⟨body, walk, first, hbody, hwalk, hfirst, hreach⟩ := hmember
  have hdecl : ctx.tree.IsTypeDecl statement := by
    unfold SyntaxTree.bodyOf? at hbody
    unfold SyntaxTree.IsTypeDecl
    split at hbody <;> simp_all
  obtain ⟨owner, hinstance⟩ := h.exists_hasInstance htop hdecl hwalk
  have hdeclared := h.instance_declared htop hdecl hinstance
  have hfirst' : (⟨walk, first⟩ : Visit) ∈
      (ctx.tree.statements body).map fun statement => { walk, node := statement } :=
    List.mem_map_of_mem hfirst
  exact ⟨(((hdeclared body hbody).methods _ hfirst').mono (fun _ hv => hv.hasSignature)
    fun _ _ h => h).reached hreach,
    TypeTable.Throughout.reached (h.instance_walked htop hdecl hwalk ⟨body, hbody, hfirst⟩) hreach⟩

/-- Every function and method that the module declares has a signature. -/
theorem hasSignature (h : Delivered ctx known s)
    (htop : statement ∈ ctx.tree.statements ctx.tree.root)
    (hdeclares : s.typed.Declares ctx.tree statement visit) : s.table.HasSignature visit := by
  obtain ⟨hmethod, rfl | hmember⟩ := hdeclares
  · obtain ⟨sig, hsig, -⟩ := (h.signed statement htop).function hmethod
    exact Option.isSome_iff_exists.mpr ⟨sig, hsig⟩
  · exact (h.member htop hmember).1.method hmethod

/-- The body of every function and method that the module declares was typed. -/
theorem body_covered (h : Delivered ctx known s)
    (htop : statement ∈ ctx.tree.statements ctx.tree.root)
    (hdeclares : s.typed.Declares ctx.tree statement visit) :
    BodyCovered ctx.tree s.table visit := by
  obtain ⟨hmethod, rfl | hmember⟩ := hdeclares
  · intro name params result body hnode
    have hparts := h.accounted.complete.parts _ (h.typed statement htop).1
    simpa only [TypeTable.PartsCovered, hnode] using hparts
  · exact (h.member htop hmember).2.method hmethod

/-- A method of the pool is known, or the module declares it. -/
theorem method_linked (h : Delivered ctx known s) {t : TypeId} {sig : Signature}
    (hsig : sig ∈ (s.pool.data t).methods) :
    known s.imports sig.linkName ∨ s.typed.Links ctx.tree sig.linkName := by
  refine (h.accounted.methods t sig hsig).imp id ?_
  rintro ⟨v, hmethod, ⟨statement, htop, hmember⟩, hrecorded⟩
  refine ⟨statement, htop, v, sig, ⟨hmethod, .inr hmember⟩, ?_, rfl⟩
  show s.table.signature v = _
  rw [TypeTable.signature, hrecorded]

/-- A function that the module offers is declared by it. -/
theorem function_linked (h : Delivered ctx known s) {sig : Signature}
    (hsig : sig ∈ s.exports.functions) : s.typed.Links ctx.tree sig.linkName := by
  obtain ⟨statement, htop, hmethod, hrecorded⟩ := h.accounted.functions sig hsig
  refine ⟨statement, htop, ⟨0, statement⟩, sig, ⟨hmethod, .inl rfl⟩, ?_, rfl⟩
  show s.table.signature _ = _
  rw [TypeTable.signature, hrecorded]

/-- A function that a call means is known, or the module declares it. -/
theorem callee_linked {p₀ : Pool} {N : TypeId → Prop} (h : Delivered ctx known s)
    (hconfined : Confined ctx p₀ N s) {target : Target}
    (htarget : s.table.targets[visit]? = some target) {sig : Signature}
    (hsig : sig ∈ target.callees) :
    known s.imports sig.linkName ∨ s.typed.Links ctx.tree sig.linkName := by
  rcases hconfined.targets visit target htarget sig hsig with
    ⟨t, -, hmem⟩ | hmem | ⟨id, e, he, hmem⟩
  · exact h.method_linked hmem
  · exact .inr (h.function_linked hmem)
  · exact .inl (h.imported id e he sig hmem)

/-- Everything that generating the module asks for is known. -/
theorem moduleReady {p₀ : Pool} {N : TypeId → Prop} (h : Delivered ctx known s)
    (hconfined : Confined ctx p₀ N s) :
    ModuleReady Allowed (known s.imports) { tree := ctx.tree, pool := s.pool, typed := s.typed }
    where
  types statement htop hdecl hnone := by
    refine .of_hasType (h.declared statement htop ?_)
    refine h.declaresType_of_not_template htop hdecl fun hmem => ?_
    unfold TypedModule.templateFor? at hnone
    rw [List.find?_eq_none] at hnone
    obtain ⟨template, htemplate, rfl⟩ := List.mem_map.mp hmem
    exact hnone template htemplate (by simp)
  inclusions statement htop visit hmember name hnode := by
    have hknown := (h.member htop hmember).1.known hnode
    refine ⟨fun hnone => ?_, fun hnone => ?_⟩
    · have hnone : s.table.inclusion? visit = none := hnone
      simp [hnone] at hknown
    · have hnone : ctx.tree.traits.lookup name = none := hnone
      simp [hnone] at hknown
  signatures statement htop visit hdeclares :=
    .of_hasSignature (h.hasSignature htop hdeclares)
  bodies statement htop visit hdeclares name params result body hnode := by
    have hbody := h.body_covered htop hdeclares name params result body hnode
    refine ⟨.of_hasType hbody.1, _, prepared_of_complete h.accounted.complete ?_, hbody⟩
    exact fun v target htarget sig hsig => h.callee_linked hconfined htarget hsig

end Typing.Delivered

end ClassLang
