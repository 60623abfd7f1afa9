import ClassLang.Proofs.Lowering.TypedNodes

/-!
# Generating well-typed modules

A function that is given a body is well typed once its parameters were bound, its body was generated
and its exit block returns what the sites give. Functions are declared before any body is generated,
so a module of functions on Integers and Booleans is generated without misusing the builder.
-/

namespace ClassLang

open IR (BlockRef Build Builder FunctionId KeepsShared KeepsStraight Op Ty Value)
open IR.Builder (WellUsed)

variable {ctx : LoweringContext} {callees : String → Prop} {K : ScalarTypes} {f g : FunctionId}
  {τ : ScalarType} {pending : List Nat} {c : Nat} {b : Body} {o : Output}

/-! ## Bodies -/

/-- A function without a body has no instructions. -/
theorem IR.Module.IsTyped.of_hasBody {m : IR.Module} (h : (m.function f).hasBody = false) :
    m.IsTyped f := by
  rintro i ⟨k, hi⟩
  have hnone : (m.function f).blocks.size = 0 := by
    simpa [IR.Function.hasBody, Array.isEmpty] using h
  rw [IR.Function.block_of_le (by omega)] at hi
  cases hi

namespace IR.Build

/-- A function gets its entry and its exit block. -/
theorem open_wellUsed {b : Builder} (hf : f < b.module.functions.size) :
    let step : Build BlockRef := do
      let entry ← appendBlock f "entry"
      let exit ← appendBlock f "exit"
      setCurrentFunction f
      positionAtEnd entry
      pure exit
    KeepsShared step ∧ WellUsed f b (step.run b).2 := by
  have hsize := (b.appendBlock_run hf "entry").2.1.size
  constructor
  · exact (KeepsShared.appendBlock _ _).bind fun _ => (KeepsShared.appendBlock _ _).bind fun _ =>
      (KeepsShared.setCurrentFunction _).bind fun _ => (KeepsShared.positionAtEnd _).bind fun _ =>
        .pure _
  · refine (WellUsed.appendBlock hf "entry").trans ?_
    refine (WellUsed.appendBlock (hsize ▸ hf) "exit").trans ?_
    exact .of_functions rfl rfl rfl

/-- The exit block returns the values of the sites, which have the result type of the function. -/
theorem exit_wellUsed {b : Builder} (hat : b.At f c) (hopen : ((b.module.function f).block c).Open)
    {type : Ty} {sites : List (Value × BlockRef)} (hsites : ∀ site ∈ sites, site.1.type = type)
    (hresult : (b.module.function f).type.result = some type) :
    WellUsed f b ((do
      match ← phi type sites "return_value" with
      | some value => ret value
      | none => unreachable : Build Unit).run b).2 := by
  have hret : ∀ {b' : Builder} {value : Value}, WellUsed f b b' → value.type = type →
      (Op.ret (some value)).WellTyped b'.module f := fun hused hvalue => by
    rw [Op.WellTyped, hused.types, hresult, Option.map_some, hvalue]
  match sites with
  | [] => exact terminate_wellUsed hat hopen (show Op.WellTyped _ _ .unreachable from trivial)
  | [site] =>
      exact terminate_wellUsed hat hopen
        (hret (.refl f b) (hsites site (List.mem_singleton_self site)))
  | site :: site' :: rest =>
      have hphi : (Op.phi type (site :: site' :: rest)).WellTyped b.module f := hsites
      have hused := insert_wellUsed hat "return_value" hphi
      have hstraight : KeepsStraight f (insert "return_value" (.phi type (site :: site' :: rest))) :=
        .insert "return_value" rfl
      have hstraight := hstraight c b hat
      refine hused.trans (terminate_wellUsed (hstraight.at_ hat) ((hstraight.grows c).isOpen hopen)
        (hret hused ?_))
      exact type_insert hat "return_value" _

end IR.Build

namespace Lower

namespace Placed

/-- A parameter becomes a local. -/
theorem bindParam (hpool : ctx.pool.HasScalars) {index : Nat} {name : String}
    (hs : Sound ctx callees K f pending c b o) (hlocal : K.local? name = some τ)
    (hparam : (o.builder.module.function f).type.params.getD index default = τ.ty) :
    (building ctx callees K f).KeepsAt o ((bindParam ctx index name τ.id).run b) fun r o' =>
      ∃ c', Sound ctx callees K f pending c' r.2 o' := by
  refine get_bind_keeps ?_
  rw [hs.function]
  have hused := WellUsed.setParamName hs.at_ index name
  refine bind_keeps (hs.straight (R := fun _ => True) (.build (.setParamName index name))
    (build_types hs.built (.setParamName f index name) hused
      ⟨hs.locals.of_wellUsed hused rfl, trivial⟩)) ?_
  rintro _ b o' - hle ⟨hs, -⟩
  refine output_bind_keeps ?_
  have hvalue : (o'.builder.param f index).type = τ.ty := by
    rw [← hparam, ← hle.2.types]
    rfl
  refine (Types.bindLocal hpool hlocal hvalue pending c b o' hs).weaken ?_
  rintro r o' - - ⟨⟨c', hflowing, hopen⟩, -⟩
  exact ⟨c', hflowing.sound (hopen trivial)⟩

/-- The parameters become locals, in order. -/
theorem bindParams (hpool : ctx.pool.HasScalars) {params : List (String × ScalarType)}
    {declared : List Param} (start : Nat)
    (hdeclared : List.Forall₂ (fun p q => q.name = some p.1 ∧ q.type = p.2.id) params declared)
    (hlocals : ∀ p ∈ params, K.local? p.1 = some p.2)
    (htypes : ∀ i p, params[i]? = some p →
      (o.builder.module.function f).type.params.getD (start + i) default = p.2.ty)
    (hs : Sound ctx callees K f pending c b o) :
    (building ctx callees K f).KeepsAt o (((declared.zipIdx start).forM fun (param, index) =>
      match param.name with
      | some name => Lower.bindParam ctx index name param.type
      | none => Pure.pure () : Lower Unit).run b) fun r o' =>
        ∃ c', Sound ctx callees K f pending c' r.2 o' := by
  induction hdeclared generalizing start c b o with
  | nil => exact .pure ⟨hs.place.flow.sane, hs.built⟩ ⟨c, hs⟩
  | @cons p q params declared hhead _ ih =>
      rw [List.forall_mem_cons] at hlocals
      show (building ctx callees K f).KeepsAt o (((match q.name with
        | some name => Lower.bindParam ctx start name q.type
        | none => Pure.pure ()) >>= fun _ => (declared.zipIdx (start + 1)).forM fun item =>
          match item.1.name with
          | some name => Lower.bindParam ctx item.2 name item.1.type
          | none => Pure.pure () : Lower Unit).run b) _
      rw [hhead.1, hhead.2]
      refine bind_keeps (hs.bindParam hpool hlocals.1 (htypes 0 p rfl)) ?_
      rintro _ b o' - hle ⟨c, hs⟩
      refine ih (start + 1) hlocals.2 (fun i p' hp' => ?_) hs
      rw [hle.2.types, Nat.add_right_comm]
      exact htypes (i + 1) p' hp'

/-- The end of a body is reached: the value of its node is returned. -/
theorem fallThrough (hpool : ctx.pool.HasScalars) {body : NodeId} {kind : Kind}
    {value? : Option Value} (hs : Sound ctx callees K f pending c b o)
    (hvalue : ∀ value ∈ value?, kind.Admits value)
    (hscalar : ∀ σ, kind = .scalar σ → ctx.typed.table.HasScalar body σ) (hkind : kind ≠ .constant) :
    (building ctx callees K f).KeepsAt o ((fallThrough ctx value? body).run b) fun r o' =>
      Ended ctx callees K f pending c r.2 o' := by
  have hvoid : b.result ≠ .void := by
    rw [hs.result]
    cases K.result <;> decide
  refine get_bind_keeps ?_
  rw [if_neg hvoid]
  cases value? with
  | none => exact .of_error rfl ⟨⟨hs.place.flow.sane, fun path h => by cases h⟩, trivial⟩
  | some value =>
      have hvalue := hvalue value rfl
      cases kind with
      | constant => exact absurd rfl hkind
      | nothing => exact hvalue.elim
      | scalar σ =>
          have htells := typeOf_tells hpool (hscalar σ rfl)
          refine bind_keeps (hs.reads (typeOf_straight ctx body) fun r b' o' hrun => ?_) ?_
          · obtain ⟨hb, ho, -⟩ := htells b o r b' o' hs.walk hrun
            exact ⟨hb, ho⟩
          · rintro t _ _ - - ⟨rfl, rfl, hrun⟩
            obtain rfl : t = σ.id := (htells _ _ _ _ _ hs.walk hrun).2.2
            exact hs.returnValue hpool hvalue

/-- The code of a body. -/
theorem runBody (hpool : ctx.pool.HasScalars) {body : NodeId} {kind : Kind} {lower : Generator}
    (hbody : TypesNode ctx callees K f kind (lower body))
    (hscalar : ∀ σ, kind = .scalar σ → ctx.typed.table.HasScalar body σ) (hkind : kind ≠ .constant)
    (hs : Sound ctx callees K f pending c b o) :
    (building ctx callees K f).KeepsAt o ((runBody ctx lower body).run b) fun r o' =>
      ∃ c', Ended ctx callees K f pending c' r.2 o' := by
  refine bind_keeps (hbody pending c b o hs) ?_
  rintro value? b o - - ⟨⟨c', hflowing, -⟩, hvalue⟩
  refine bind_keeps hflowing.terminated ?_
  rintro _ _ o ho - ⟨rfl, heq⟩
  cases heq
  cases hended : o.builder.isTerminated with
  | true =>
      exact .pure ho ⟨c', ⟨hflowing.place, hflowing.place.endsOnce_of_isTerminated hended⟩,
        hflowing.built, hflowing.locals⟩
  | false =>
      refine ((hflowing.sound (hflowing.place.open_of_isTerminated hended)).fallThrough hpool hvalue
        hscalar hkind).weaken ?_
      exact fun _ _ _ _ hended => ⟨c', hended⟩

/-- The exit block. -/
theorem exitBlock (hpool : ctx.pool.HasScalars) (h : Ended ctx callees K f [1] c b o) :
    (building ctx callees K f).KeepsAt o ((exitBlock ctx).run b) fun _ _ => True := by
  obtain ⟨hclosing, -⟩ : _ ∧ Frame ctx True (fun _ => True) _ _ _ :=
    h.place.flow.closing (fun _ => True.intro) h.place.ended
  refine (building_of (exitBlock_keeps (S := Stage.plain K f) rfl (fun _ => True.intro) h.place)
    ?_).trivial
  have hvoid : b.result ≠ .void := by
    rw [h.place.flow.result]
    show K.result.id ≠ .void
    cases K.result <;> decide
  have hmoved : WellUsed f o.builder ((do
      Build.moveBlockToEnd ⟨f, 1⟩
      Build.positionAtEnd ⟨f, 1⟩ : Build Unit).run o.builder).2 :=
    (WellUsed.moveBlockToEnd h.place.flow.at_.function_lt 1).trans (.positionAtEnd f _ _)
  refine get_bind_keeps ?_
  rw [show b.exit = ⟨f, 1⟩ from h.place.flow.exit]
  refine bind_keeps (P := fun r o' => r.2 = b ∧ Closing True (Stage.plain K f) b o'.builder)
    (build_types h.built ((KeepsShared.moveBlockToEnd _).bind fun _ => .positionAtEnd _) hmoved
      ⟨rfl, hclosing⟩) ?_
  rintro _ _ o hbuilt - ⟨rfl, hclosing⟩
  rw [if_neg hvoid, hclosing.result]
  refine bind_keeps (valueType_keeps hpool hbuilt K.result) ?_
  rintro _ _ o - - ⟨heq, rfl⟩
  cases heq
  refine build_types hbuilt ?_ (Build.exit_wellUsed hclosing.at_ hclosing.isOpen
    (hclosing.exit_tracked trivial).values hbuilt.result) trivial
  refine (KeepsShared.phi _ _ _).bind fun value? => ?_
  cases value? with
  | none => exact .terminate _
  | some value => exact .terminate _

/-- The code of a function. -/
theorem methodCode (hpool : ctx.pool.HasScalars) (hsound : ctx.pool.Sound) {fn : ScalarFunction}
    {sig : Signature} {kind : Kind} {names : List String}
    (hfn : ScalarMethod ctx.tree ctx.typed.table callees fn sig K kind names)
    (htype : (o.builder.module.function f).type = Emit.scalarFnType fn)
    (hs : Sound ctx callees K f [1] 0 b o) :
    (building ctx callees K f).KeepsAt o ((Emit.methodCode ctx f none sig fn.body).run b)
      fun _ _ => True := by
  rw [methodCode_eq]
  refine bind_keeps (P := fun r o' => ∃ c, Ended ctx callees K f [1] c r.2 o') ?_ ?_
  · refine bind_keeps (hs.bindParams hpool 0 hfn.takes.params hfn.params fun i p hp => ?_) ?_
    · rw [htype, Nat.zero_add, List.getD_eq_getElem?_getD]
      show ((fn.params.map (·.2.ty))[i]?).getD default = _
      rw [List.getElem?_map, hp]
      rfl
    · rintro _ b o - - ⟨c, hs⟩
      refine hs.runBody hpool (types_code hpool hsound hfn.body _) (fun σ hσ => ?_) hfn.last.1
      subst hσ
      exact hfn.body.hasType
  · rintro _ b o - - ⟨c, hended⟩
    exact hended.exitBlock hpool

end Placed

/-- A function is opened for a body. -/
theorem start_types (hpool : ctx.pool.HasScalars) {g : FunctionId} {name : String}
    (hsane : o.builder.Sane) (hconsistent : o.Consistent ctx.pool)
    (hcallable : Callable ctx callees o.builder) (hlt : g < o.builder.module.functions.size)
    (hresult : (o.builder.module.function g).type.result = some K.result.ty) :
    (building ctx callees K g).KeepsAt o (start ctx g 0 none name K.result.id) fun b o' =>
      (o.builder.module.function g).hasBody = false ∧ Sound ctx callees K g [1] 0 b o' := by
  have htyped : (typing ctx callees K.result g).KeepsAt o (start ctx g 0 none name K.result.id)
      fun b o' => WellBuilt ctx callees K.result g o' ∧ HasLocals K g b o'.builder.module := by
    unfold start
    cases hbody : (o.builder.module.function g).hasBody with
    | true =>
        refine .of_error (e := .error (.typeMismatch s!"'{name}' is defined more than once"))
          (t := o) ?_ trivial
        rw [get_bind_apply, if_pos hbody]
        rfl
    | false =>
        have hbuilt : WellBuilt ctx callees K.result g o :=
          ⟨.of_hasBody hbody, hresult, hcallable, hconsistent⟩
        refine .bind_read hbuilt rfl ?_
        rw [if_neg (by rw [hbody]; exact Bool.false_ne_true)]
        refine .bind_read hbuilt (b := K.result.id) ?_ ?_
        · rw [Emit.resolve, hpool.resolveStrict_id]
          rfl
        · obtain ⟨hshared, hused⟩ := Build.open_wellUsed hlt
          have hconsistent' := (Output.CodeOnly.of_build hshared o).consistent hconsistent
          have hopened := hbuilt.of_wellUsed hused hconsistent'
          refine .bind (P := fun _ => WellBuilt ctx callees K.result g)
            (.of_ok rfl hopened hused hopened) ?_
          rintro exit o' - - hbuilt
          exact .pure hbuilt ⟨hbuilt, by rintro _ _ ⟨⟩⟩
  refine ((start_keeps hsane hlt).prod htyped).weaken ?_
  rintro b o' - - ⟨⟨hnone, hresolved, hstage⟩, hbuilt, hlocals⟩
  rw [hpool.resolveStrict_id] at hresolved
  exact ⟨hnone, hstage (Stage.plain K g) rfl rfl rfl (Except.ok.inj hresolved), hbuilt, hlocals⟩

end Lower

/-! ## Modules -/

/-- A statement is a function that may be called, and typing has recorded its signature. -/
structure IsCallee (ctx : LoweringContext) (callees : String → Prop) (statement : NodeId)
    (fn : ScalarFunction) (sig : Signature) : Prop where
  named : ∃ name, callees name ∧ ctx.tree.function? name = some statement
  function : ctx.tree.scalarFunction? statement = some fn
  signature : ctx.typed.table.signature { walk := 0, node := statement } = .ok sig
  takes : fn.Takes sig

/-- All statements of the unit are functions that may be called. -/
def LoweringContext.OnlyCallees (ctx : LoweringContext) (callees : String → Prop) : Prop :=
  ∀ statement ∈ ctx.tree.statements ctx.tree.root, ∃ fn sig, IsCallee ctx callees statement fn sig

/-- What a statement declares is there and has the type of its signature. -/
def IsDeclared (ctx : LoweringContext) (callees : String → Prop) (statement : NodeId) (o : Output) :
    Prop :=
  ∃ fn sig g, IsCallee ctx callees statement fn sig ∧
    o.builder.function? sig.linkName = some g ∧
      (o.builder.module.function g).type = Emit.scalarFnType fn

/-- What a statement defines has a body that is well typed. -/
def IsTyped (ctx : LoweringContext) (statement : NodeId) (o : Output) : Prop :=
  ∃ sig g, ctx.typed.table.signature { walk := 0, node := statement } = .ok sig ∧
    o.builder.function? sig.linkName = some g ∧
      (o.builder.module.function g).hasBody = true ∧ o.builder.module.IsTyped g

/-- If all statements were declared, what may be called has the type of its signature. -/
theorem Callable.of_declared (hall : ∀ statement ∈ ctx.tree.statements ctx.tree.root,
    IsDeclared ctx callees statement o) : Callable ctx callees o.builder := by
  intro name decl fn sig _ hdecl hfn hsig
  obtain ⟨fn', sig', g, hcallee, hg, htype⟩ := hall decl (SyntaxTree.mem_of_function? hdecl).1
  obtain rfl : fn' = fn := Option.some.inj (hcallee.function.symm.trans hfn)
  obtain rfl : sig' = sig := Except.ok.inj (hcallee.signature.symm.trans hsig)
  refine ⟨hcallee.takes, fun g' hg' => ?_⟩
  obtain rfl : g' = g := Option.some.inj (hg'.symm.trans hg)
  exact htype

/-- Declaring functions. -/
def declaring (ctx : LoweringContext) : Discipline Halt Output where
  inv o := o.builder.Sane ∧ o.Consistent ctx.pool
  le o o' := o'.builder.errors = o.builder.errors ∧
    ∀ name g, o.builder.function? name = some g → o'.builder.function? name = some g ∧
      (o'.builder.module.function g).type = (o.builder.module.function g).type
  fails _ _ _ := True
  refl _ := ⟨rfl, fun _ _ h => ⟨h, rfl⟩⟩
  trans h h' := ⟨h'.1.trans h.1, fun name g hg =>
    ⟨(h'.2 name g (h.2 name g hg).1).1,
      (h'.2 name g (h.2 name g hg).1).2.trans (h.2 name g hg).2⟩⟩
  fails_trans _ _ := trivial

/-- Functions got bodies, and nothing about it was wrong. -/
structure IR.Builder.Implements (b b' : Builder) : Prop where
  errors : b'.errors = b.errors
  declared : b'.declared = b.declared
  types : ∀ g, (b'.module.function g).type = (b.module.function g).type
  bodies : ∀ g, (b.module.function g).hasBody = true → b'.module.function g = b.module.function g

theorem IR.Builder.Implements.trans {b b' b'' : Builder} (h : b.Implements b')
    (h' : b'.Implements b'') : b.Implements b'' where
  errors := h'.errors.trans h.errors
  declared := h'.declared.trans h.declared
  types g := (h'.types g).trans (h.types g)
  bodies g hg := by rw [h'.bodies g (h.bodies g hg ▸ hg), h.bodies g hg]

/-- Giving bodies to functions. -/
def defining (ctx : LoweringContext) (callees : String → Prop) : Discipline Halt Output where
  inv o := o.builder.Sane ∧ o.Consistent ctx.pool ∧ Callable ctx callees o.builder
  le o o' := o.builder.Implements o'.builder
  fails _ _ _ := True
  refl _ := ⟨rfl, rfl, fun _ => rfl, fun _ _ => rfl⟩
  trans := .trans
  fails_trans _ _ := trivial

theorem isDeclared_stable {statement : NodeId} :
    (declaring ctx).Stable (IsDeclared ctx callees statement) := by
  rintro o o' - ⟨-, hle⟩ - ⟨fn, sig, g, hcallee, hg, htype⟩
  obtain ⟨hg', htype'⟩ := hle _ _ hg
  exact ⟨fn, sig, g, hcallee, hg', htype'.trans htype⟩

theorem isTyped_stable {statement : NodeId} :
    (defining ctx callees).Stable (IsTyped ctx statement) := by
  rintro o o' - hle - ⟨sig, g, hsig, hg, hbody, htyped⟩
  have hsame := hle.bodies g hbody
  refine ⟨sig, g, hsig, ?_, by rwa [hsame], fun i hi => ?_⟩
  · rwa [Builder.function?, hle.declared]
  · rw [hsame] at hi
    exact (htyped i hi).mono hle.types fun j hj => by rwa [hsame]

/-- A function without a body got a well-typed one. -/
theorem defining_of_building {α : Type} {step : Emit α} {Q : α → Output → Prop}
    (h : (building ctx callees K g).KeepsAt o step fun a o' =>
      (o.builder.module.function g).hasBody = false ∧ Q a o') :
    (defining ctx callees).KeepsAt o step fun a o' => o'.builder.module.IsTyped g ∧ Q a o' := by
  unfold Discipline.KeepsAt at h ⊢
  cases hstep : step o with
  | error e o' => exact True.intro
  | ok a o' =>
      simp only [hstep] at h ⊢
      obtain ⟨⟨hsane, hbuilt⟩, ⟨-, hused⟩, hnone, hQ⟩ := h
      refine ⟨⟨hsane, hbuilt.consistent, hbuilt.callable⟩,
        ⟨hused.errors, hused.declared, hused.types, fun g' hg' => hused.others g' fun heq => ?_⟩,
        hbuilt.typed, hQ⟩
      rw [heq, hnone] at hg'
      cases hg'

namespace Emit

variable {statement : NodeId} {fn : ScalarFunction} {sig : Signature}

/-- A function is declared. -/
theorem declareStatement_types (hpool : ctx.pool.HasScalars) (ho : (declaring ctx).inv o)
    (hcallee : IsCallee ctx callees statement fn sig) :
    (declaring ctx).KeepsAt o (declareStatement ctx statement) fun _ =>
      IsDeclared ctx callees statement := by
  obtain ⟨hsane, hconsistent⟩ := ho
  obtain ⟨name, params, result, hnode⟩ := SyntaxTree.node_of_scalarFunction? hcallee.function
  rw [declareStatement, hnode, hcallee.signature]
  refine .bind_read ⟨hsane, hconsistent⟩ rfl ?_
  refine .bind (P := fun g o' => o'.builder.function? sig.linkName = some g ∧
    (o'.builder.module.function g).type = scalarFnType fn) ?_ fun g o' ho' _ hg =>
      .pure ho' ⟨fn, sig, g, hcallee, hg⟩
  refine .bind_read ⟨hsane, hconsistent⟩ (signatureType_scalar hpool hcallee.takes o) ?_
  refine .bind_read ⟨hsane, hconsistent⟩ rfl ?_
  cases hname : o.builder.function? sig.linkName with
  | some g =>
      simp only [hname]
      split
      · exact .of_error rfl trivial
      · next hsame => exact .pure ⟨hsane, hconsistent⟩ ⟨hname, of_not_not hsame⟩
  | none =>
      have hd := IR.Builder.declareFunction_run hsane sig.linkName (scalarFnType fn)
      obtain ⟨hfound, -, htype⟩ := IR.Build.declareFunction_new o.builder hname (scalarFnType fn)
      have hshared := KeepsShared.declareFunction sig.linkName (scalarFnType fn)
      have herrors : ((Build.declareFunction sig.linkName (scalarFnType fn)).run
          o.builder).2.errors = o.builder.errors := by
        rw [IR.Build.run_declareFunction, hname]
      simp only [hname]
      exact .of_ok rfl ⟨hd.sane, (Output.CodeOnly.of_build hshared o).consistent hconsistent⟩
        ⟨herrors, fun name g hg => ⟨hd.declared name g hg,
          congrArg IR.Function.type (hd.kept g (hsane.declared name g hg))⟩⟩ ⟨hfound, htype⟩

/-- A function is defined. -/
theorem defineStatement_types (hpool : ctx.pool.HasScalars) (hsound : ctx.pool.Sound)
    (hscalars : ScalarMethods ctx.tree ctx.typed.table callees)
    (ho : (defining ctx callees).inv o) (hcallee : IsCallee ctx callees statement fn sig) :
    (defining ctx callees).KeepsAt o (defineStatement ctx statement) fun _ =>
      IsTyped ctx statement := by
  obtain ⟨hsane, hconsistent, hcallable⟩ := ho
  obtain ⟨name, hname, hdecl⟩ := hcallee.named
  obtain ⟨K, kind, locals, hmethod⟩ :=
    hscalars name statement fn sig hname hdecl hcallee.function hcallee.signature
  obtain ⟨_, params, result, hnode⟩ := SyntaxTree.node_of_scalarFunction? hcallee.function
  rw [defineStatement, hnode, defineMethod, hnode, hcallee.signature]
  refine .bind_read ⟨hsane, hconsistent, hcallable⟩ rfl ?_
  refine .bind (P := fun g o' => o' = o ∧ o.builder.function? sig.linkName = some g) ?_ ?_
  · refine .bind_read ⟨hsane, hconsistent, hcallable⟩ rfl ?_
    split
    · next g hg => exact .pure ⟨hsane, hconsistent, hcallable⟩ ⟨rfl, hg⟩
    · exact .of_error rfl trivial
  rintro g o - - ⟨rfl, hg⟩
  have htype := (hcallable name statement fn sig hname hdecl hcallee.function
    hcallee.signature).2 g hg
  have hstart : (building ctx callees K g).KeepsAt o (Lower.start ctx g 0 none sig.name sig.result)
      fun b o' => (o.builder.module.function g).hasBody = false ∧
        Lower.Sound ctx callees K g [1] 0 b o' := by
    rw [hcallee.takes.result, ← hmethod.result]
    exact Lower.start_types hpool hsane hconsistent hcallable (hsane.declared _ _ hg)
      (by rw [htype, hmethod.result]; rfl)
  have hdefined : (building ctx callees K g).KeepsAt o (do
      let b ← Lower.start ctx g 0 none sig.name sig.result
      let _ ← (methodCode ctx g none sig fn.body).run b
      Pure.pure ()) fun _ o' => (o.builder.module.function g).hasBody = false ∧
        (o'.builder.module.function g).hasBody = true := by
    refine .bind hstart ?_
    rintro b o' - hle ⟨hnone, hs⟩
    refine .bind (hs.methodCode hpool hsound hmethod (by rw [hle.2.types, htype])) ?_
    rintro _ o'' ho'' hle' -
    refine .pure ho'' ⟨hnone, ?_⟩
    exact hle'.2.hasBody hs.at_.hasBody
  refine (defining_of_building hdefined).weaken ?_
  rintro _ o' - hle ⟨htyped, hbody⟩
  refine ⟨sig, g, hcallee.signature, ?_, hbody, htyped⟩
  rwa [Builder.function?, hle.declared]

/-- **Plain code misuses nothing.** A module whose statements are all functions on Integers and
Booleans is generated without misusing the builder, and the instructions of all its functions are
well typed. -/
theorem generate_types (hpool : ctx.pool.HasScalars) (hsound : ctx.pool.Sound)
    (hscalars : ScalarMethods ctx.tree ctx.typed.table callees) (hall : ctx.OnlyCallees callees)
    (hsane : o.builder.Sane) (hconsistent : o.Consistent ctx.pool) {r : Unit} {F : Output}
    (hrun : generate ctx o = .ok r F) : F.builder.errors = o.builder.errors ∧
      ∀ statement ∈ ctx.tree.statements ctx.tree.root, IsTyped ctx statement F := by
  obtain ⟨⟨⟩, o₁, hdeclares, hdefines⟩ := bind_eq_ok.mp hrun
  have hdeclaring := Discipline.forM_keeps_each (D := declaring ctx)
    (P := IsDeclared ctx callees) _ ⟨hsane, hconsistent⟩
    (fun _ _ => isDeclared_stable) fun statement hstatement o ho _ => by
      obtain ⟨fn, sig, hcallee⟩ := hall statement hstatement
      exact declareStatement_types hpool ho hcallee
  obtain ⟨⟨hsane₁, hconsistent₁⟩, ⟨herrors₁, -⟩, hdeclared⟩ := hdeclaring.ok hdeclares
  have hdefining := Discipline.forM_keeps_each (D := defining ctx callees)
    (P := IsTyped ctx) _ ⟨hsane₁, hconsistent₁, .of_declared hdeclared⟩
    (fun _ _ => isTyped_stable) fun statement hstatement o ho _ => by
      obtain ⟨fn, sig, hcallee⟩ := hall statement hstatement
      exact defineStatement_types hpool hsound hscalars ho hcallee
  obtain ⟨-, hle, htyped⟩ := hdefining.ok hdefines
  exact ⟨hle.errors.trans herrors₁, htyped⟩

end Emit

end ClassLang
