import ClassLang.Proofs.Lowering.RunningFunctions

/-!
# Running the functions of a module

Every function that a module defines was declared with the type of its signature, was opened once,
and is in the end what was generated for it. So, by induction on the bound of the evaluation, all
functions on Integers and Booleans answer calls as they are evaluated, also where they call each
other.
-/

namespace ClassLang

open Execution (Context)
open IR (Build FunctionId)

variable [CaseTags] {η : Type} {E : Context η} {F : Output} {K : ScalarTypes} {α β : Type}

omit [CaseTags] in
/-- A function that is declared under a new name is found under it. -/
theorem IR.Build.declareFunction_new (b : IR.Builder) {name : String} (hname : b.function? name = none)
    (type : IR.FnType) :
    let r := (Build.declareFunction name type).run b
    r.2.function? name = some r.1 ∧ r.1 < r.2.module.functions.size ∧
      (r.2.module.function r.1).type = type := by
  intro r
  have hr : r = _ := Build.run_declareFunction b name type
  rw [hname] at hr
  rw [hr]
  refine ⟨?_, by simp, ?_⟩
  · rw [IR.Builder.function?, List.lookup_cons_self]
  · simp [IR.Module.function, Array.getD_eq_getD_getElem?, IR.Function.declared]

namespace Emit

variable {ctx : LoweringContext} {fn : ScalarFunction} {sig : Signature} {o o' : Output}

/-- A step that was taken for each of some items was taken for one of them. -/
theorem Continues.of_mem {items : List β} {body : β → Emit PUnit}
    (h : ∀ item ∈ items, Continues (body item)) (ho : o.Shaped) {r : PUnit}
    (hrun : items.forM body o = .ok r o') {item : β} (hitem : item ∈ items) :
    ∃ o₁ r₁ o₂, Output.Continues none o o₁ ∧ body item o₁ = .ok r₁ o₂ ∧
      Output.Continues none o₂ o' := by
  induction items generalizing o with
  | nil => cases hitem
  | cons head items ih =>
      rw [List.forall_mem_cons] at h
      obtain ⟨r₁, o₁, hhead, hrest⟩ := bind_eq_ok.mp hrun
      have hhead' := h.1 o r₁ o₁ ho hhead
      rcases List.mem_cons.mp hitem with rfl | hitem
      · exact ⟨o, r₁, o₁, .refl o, hhead, Continues.forM h.2 o₁ r o' (hhead'.shaped ho) hrest⟩
      · obtain ⟨o₂, r₂, o₃, hfirst, hbody, hlast⟩ := ih h.2 (hhead'.shaped ho) hrest hitem
        exact ⟨o₂, r₂, o₃, hhead'.trans hfirst, hbody, hlast⟩

/-! ## Declarations -/

/-- The type of a function on Integers and Booleans. -/
def scalarFnType (fn : ScalarFunction) : IR.FnType :=
  { params := fn.params.map (·.2.ty), result := some fn.result.ty, varargs := false }

omit [CaseTags] in
theorem signatureType_scalar (hpool : ctx.pool.HasScalars) (h : fn.Takes sig) (o : Output) :
    signatureType ctx sig false o = .ok (scalarFnType fn) o := by
  have hparams : ∀ {params : List (String × ScalarType)} {declared : List Param},
      List.Forall₂ (fun p q => q.name = some p.1 ∧ q.type = p.2.id) params declared →
        (declared.map (·.type)).mapM (valueType ctx) o = .ok (params.map (·.2.ty)) o := by
    intro params declared hdeclared
    induction hdeclared with
    | nil => rfl
    | cons hhead _ ih =>
        rw [List.map_cons, List.mapM_cons, hhead.2]
        refine bind_eq_ok.mpr ⟨_, o, Lower.valueType_id hpool _ o, ?_⟩
        exact bind_eq_ok.mpr ⟨_, o, ih, rfl⟩
  refine bind_eq_ok.mpr ⟨_, o, hparams h.params, ?_⟩
  refine bind_eq_ok.mpr ⟨some fn.result.ty, o, ?_, by rw [h.varargs]; rfl⟩
  refine bind_eq_ok.mpr ⟨fn.result.id, o, ?_, ?_⟩
  · rw [h.result, resolve, hpool.resolveStrict_id]
    rfl
  · have hvoid : fn.result.id ≠ .void := by cases fn.result <;> decide
    rw [if_neg hvoid, h.result]
    exact bind_eq_ok.mpr ⟨_, o, Lower.valueType_id hpool _ o, rfl⟩

omit [CaseTags] in
/-- A function that is declared, or was declared before, has the type of its signature. -/
theorem declareFunction_scalar (hpool : ctx.pool.HasScalars) (h : fn.Takes sig) (ho : o.Shaped)
    {g : FunctionId} (hrun : declareFunction ctx sig false o = .ok g o') :
    o'.builder.function? sig.linkName = some g ∧ g < o'.builder.module.functions.size ∧
      (o'.builder.module.function g).type = scalarFnType fn := by
  obtain ⟨type, o₁, htype, hrest⟩ := bind_eq_ok.mp hrun
  rw [signatureType_scalar hpool h] at htype
  cases htype
  obtain ⟨_, o₂, hget, hrest⟩ := bind_eq_ok.mp hrest
  cases hget
  cases hname : o.builder.function? sig.linkName with
  | some id =>
      simp only [hname] at hrest
      split at hrest
      · cases hrest
      · next hsame =>
          cases hrest
          exact ⟨hname, ho.builder.declared _ _ hname, of_not_not hsame⟩
  | none =>
      simp only [hname] at hrest
      have hnew := IR.Build.declareFunction_new o.builder hname (scalarFnType fn)
      cases hrest
      exact hnew

/-! ## Bodies -/

/-- A function that a module defines was opened once, and is in the end what was generated for
it. -/
structure Defined (ctx : LoweringContext) (sig : Signature) (body : NodeId) (type : IR.FnType)
    (F : Output) (g : FunctionId) : Prop where
  declared : F.builder.function? sig.linkName = some g
  type : (F.builder.module.function g).type = type
  generated : ∃ (b b' : Body) (o₀ o₁ o' : Output) (r : Unit), o₀.Shaped ∧
    g < o₀.builder.module.functions.size ∧
    Lower.start ctx g 0 none sig.name sig.result o₀ = .ok b o₁ ∧
      (methodCode ctx g none sig body).run b o₁ = .ok (r, b') o' ∧ o'.Grows F ∧
        F.builder.module.function g = o'.builder.module.function g

theorem generate_defines (hpool : ctx.pool.HasScalars) (htags : ctx.Tags) (ho : o.Shaped) {r : Unit}
    (hrun : generate ctx o = .ok r F) {decl : NodeId}
    (hmem : decl ∈ ctx.tree.statements ctx.tree.root) {name : String} {params : List NodeId}
    {result : Option NodeId} {body : NodeId}
    (hnode : ctx.tree.node decl = .methodDef name params result body)
    (hsig : ctx.typed.table.signature { walk := 0, node := decl } = .ok sig) (h : fn.Takes sig) :
    ∃ g, Defined ctx sig body (scalarFnType fn) F g := by
  obtain ⟨⟨⟩, o₁, hdeclares, hdefines⟩ := bind_eq_ok.mp hrun
  have hcontinues₁ := Continues.forM (fun statement _ => declareStatement_continues ctx statement)
    o ⟨⟩ o₁ ho hdeclares
  -- the function is declared
  obtain ⟨o₂, _, o₃, hbefore, hdeclare, hafter⟩ := Continues.of_mem
    (fun statement _ => declareStatement_continues ctx statement) ho hdeclares hmem
  rw [declareStatement, hnode, hsig] at hdeclare
  obtain ⟨_, _, ⟨⟩, hdeclare⟩ := bind_eq_ok.mp hdeclare
  obtain ⟨g, o₃', hdeclare, hlast⟩ := bind_eq_ok.mp hdeclare
  cases hlast
  obtain ⟨hname, hlt, htype⟩ := declareFunction_scalar hpool h (hbefore.shaped ho) hdeclare
  -- its body is generated
  obtain ⟨o₄, _, o₅, hbefore', hdefine, hafter'⟩ := Continues.of_mem
    (fun statement _ => defineStatement_continues htags statement) (hcontinues₁.shaped ho) hdefines hmem
  have hkept := (hafter.trans hbefore').grows.builder.kept
  have hshaped := hbefore'.shaped (hcontinues₁.shaped ho)
  rw [defineStatement, hnode, defineMethod, hnode, hsig] at hdefine
  obtain ⟨_, _, ⟨⟩, hdefine⟩ := bind_eq_ok.mp hdefine
  obtain ⟨g', o₄', hfunction, hdefine⟩ := bind_eq_ok.mp hdefine
  obtain ⟨rfl, hname'⟩ := functionFor_ok hfunction
  obtain rfl : g = g' := Option.some.inj ((hkept.names _ _ hname).symm.trans hname')
  obtain ⟨b, o₄'', hstart, hdefine⟩ := bind_eq_ok.mp hdefine
  obtain ⟨⟨rb, b'⟩, o₅', hcode, hlast⟩ := bind_eq_ok.mp hdefine
  cases hlast
  have hlt' := (hkept.types g hlt).1
  have hopened := Lower.start_opened ctx hlt' hshaped hstart
  obtain ⟨hcloses, -⟩ := methodCode_closes htags o₅ g 0 none sig body b 0 o₄''
    hopened.function hopened.exit hopened.at_ (hopened.continues.shaped hshaped)
    (by rw [hopened.size]; exact Nat.lt_succ_self 1) (Nat.zero_le _) (hopened.below _) _ _ _ hcode
  have hbody : (o₅.builder.module.function g).hasBody = true := by
    have hblocks := (hcloses.grows.builder.functions g).blocks
    rw [hopened.size] at hblocks
    simp only [IR.Function.hasBody, Array.isEmpty, Bool.not_eq_true', decide_eq_false_iff_not]
    omega
  -- nothing changes it from then on
  have hkept₅ := (hbefore'.grows.trans (hopened.continues.grows.trans hcloses.grows)).builder.kept
  have hkeptF := hafter'.grows.builder.kept
  have hlt₅ := ((hafter.grows.builder.kept.trans hkept₅).types g hlt)
  refine ⟨g, hkeptF.names _ _ ((hafter.grows.builder.kept.trans hkept₅).names _ _ hname), ?_,
    b, b', _, o₄'', o₅, rb, hshaped, hlt', hstart, hcode, hafter'.grows,
    hafter'.builder.others g (by rintro ⟨⟩) hbody⟩
  rw [(hkeptF.types g hlt₅.1).2, hlt₅.2, htype]

end Emit

namespace Lower

variable {ctx : LoweringContext} {callees : String → Prop} {o : Output}

/-- All functions on Integers and Booleans answer calls as they are evaluated. -/
theorem callsWithin_of_generate (hpool : ctx.pool.HasScalars) (htags : ctx.Tags) (ho : o.Shaped)
    {r : Unit} (hrun : Emit.generate ctx o = .ok r F) (hmodule : E.module = F.builder.module)
    (hscalars : ScalarMethods ctx.tree ctx.typed.table callees) (bound : Nat) :
    CallsWithin E F ctx callees bound := by
  suffices hall : ∀ m name decl fn sig, callees name → ctx.tree.function? name = some decl →
      ctx.tree.scalarFunction? decl = some fn →
        ctx.typed.table.signature { walk := 0, node := decl } = .ok sig →
          Calls E F fn sig (Eval.evalWithin ctx.tree m) from
    fun name decl fn sig hcallee hdecl hfn hsig m _ => hall m name decl fn sig hcallee hdecl hfn hsig
  intro m
  -- calls are evaluated with a smaller bound
  induction m using Nat.strong_induction_on with
  | _ m ih =>
      intro name decl fn sig hcallee hdecl hfn hsig
      obtain ⟨K, kind, names, hmethod⟩ := hscalars name decl fn sig hcallee hdecl hfn hsig
      obtain ⟨hmem, -⟩ := SyntaxTree.mem_of_function? hdecl
      obtain ⟨name', params, result, hnode⟩ := SyntaxTree.node_of_scalarFunction? hfn
      obtain ⟨g, hdeclared, htype, b, b', o₀, o₁, o', rb, ho₀, hlt, hstart, hcode, hF, hsame⟩ :=
        Emit.generate_defines hpool htags ho hrun hmem hnode hsig hmethod.takes
      refine ⟨hmethod.takes, g, hdeclared, by rw [htype]; rfl, fun values v hfits hv => ?_⟩
      cases m with
      | zero => cases hv
      | succ m =>
          rw [hmethod.takes.result, ← hmethod.result] at hstart
          have hopened := start_plain hpool hlt ho₀ hstart
          refine answers_of_body hpool htags hmethod hmodule hopened hcode hF hsame
            (by rw [htype]; rfl) (fun name decl fn sig hcallee hdecl hfn hsig m' hm' => ?_) hfits hv
          have hlt' : m' < m + 1 := hm'.elim (fun hzero => hzero ▸ Nat.succ_pos m) id
          exact ih m' hlt' name decl fn sig hcallee hdecl hfn hsig

end Lower

end ClassLang
