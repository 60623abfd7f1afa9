import ClassLang.Proofs.Lowering.PatternBindings
import ClassLang.Proofs.Session.CaseNames
import ClassLang.Proofs.Typing.LaidModules
import ClassLang.Proofs.Typing.PlainBodies

/-!
# Typing functions on Integers and Booleans

The signature of such a function is that of its declaration, its body is typed in a frame that binds
its parameters, and in a unit of declarations no other statement touches what is recorded for it. So
the final table says of every plain function what its lowering relies on.
-/

namespace ClassLang

theorem lookup_of_mem_of_nodup {α : Type} {entries : List (String × α)} {entry : String × α}
    (hnodup : (entries.map (·.1)).Nodup) (hmem : entry ∈ entries) :
    entries.lookup entry.1 = some entry.2 := by
  induction entries with
  | nil => cases hmem
  | cons first rest ih =>
      rw [List.map_cons, List.nodup_cons] at hnodup
      rw [List.lookup_cons]
      rcases List.mem_cons.mp hmem with rfl | hrest
      · rw [beq_self_eq_true]
      · have hne : entry.1 ≠ first.1 := fun heq =>
          hnodup.1 (heq ▸ List.mem_map_of_mem hrest)
        rw [beq_false_of_ne hne]
        exact ih hnodup.2 hrest

namespace SyntaxTree

variable {tree : SyntaxTree} {decl : NodeId} {fn : ScalarFunction}

/-- The parameters of a function on Integers and Booleans stand with their names in its
declaration. -/
theorem params_of_scalarFunction? (h : tree.scalarFunction? decl = some fn) : ∃ name params result,
    tree.node decl = .methodDef name params (some result) fn.body ∧
      List.Forall₂ (fun param p => tree.paramName? param = some p.1) params fn.params := by
  unfold scalarFunction? at h
  split at h
  · next name params result body hnode =>
      obtain ⟨ps, hps, h⟩ := Option.bind_eq_some_iff.mp h
      obtain ⟨τ, -, ⟨⟩⟩ := Option.bind_eq_some_iff.mp h
      refine ⟨name, params, result, hnode, ?_⟩
      show List.Forall₂ _ params ps
      clear * - hps
      induction params generalizing ps with
      | nil =>
          cases hps
          exact .nil
      | cons param params ih =>
          rw [List.mapM_cons] at hps
          obtain ⟨p, hp, hps⟩ := Option.bind_eq_some_iff.mp hps
          obtain ⟨rest, hrest, ⟨⟩⟩ := Option.bind_eq_some_iff.mp hps
          refine .cons ?_ (ih rest hrest)
          split at hp
          · next name type hparam =>
              obtain ⟨τ, -, ⟨⟩⟩ := Option.bind_eq_some_iff.mp hp
              rw [paramName?, hparam]
          · cases hp
  · cases h

end SyntaxTree

namespace Typing

variable {σ : Type} {ctx : TypingContext σ} {final : TypeTable} {callees : String → Prop}
  {p : Pool} {s t u : TypingState σ} {decl : NodeId} {name : String} {fn : ScalarFunction}
  {sig : Signature} {locals : List (String × ScalarType)}

/-- The signature that is recorded for a plain function is that of its declaration. -/
theorem takes_of_plain (h : PlainFunction ctx.tree final callees name decl fn sig locals)
    {link : String → String} (hnamed : sig.NamedBy ctx.tree decl link) : fn.Takes sig := by
  obtain ⟨method, params, result, hnode, hparams⟩ :=
    SyntaxTree.params_of_scalarFunction? h.function
  have hdeclared := hnamed.params
  rw [SyntaxTree.methodParams, hnode] at hdeclared
  have hfilter : params.filterMap ctx.tree.paramName? = fn.params.map (·.1) := by
    clear hnode hdeclared
    generalize fn.params = ps at hparams
    induction hparams with
    | nil => rfl
    | cons hhead _ ih => rw [List.filterMap_cons, hhead, List.map_cons, ih]
  have hnames := hdeclared.names
  rw [hfilter, List.map_map] at hnames
  refine ⟨?_, (List.map_append ▸ h.distinct).of_append_left, h.result,
    hdeclared.varargs fun param hparam => ?_⟩
  · have hnames' := List.forall₂_eq_eq_eq ▸ hnames.symm
    have htypes' := List.forall₂_eq_eq_eq ▸ h.params.symm
    rw [List.forall₂_map_left_iff, List.forall₂_map_right_iff] at hnames' htypes'
    exact hnames'.mp (fun _ _ hname htype => ⟨hname.symm, htype.symm⟩) htypes'
  · obtain ⟨i, hi, rfl⟩ := List.mem_iff_getElem.mp hparam
    have hget := hparams.get hi (hparams.length_eq ▸ hi)
    exact Option.isSome_of_eq_some hget

/-! ## Bodies -/

theorem within_eq_ok {α : Type} {enter : TypingState σ → TypingState σ}
    {leave : TypingState σ → TypingState σ → TypingState σ} {step : Typing σ α} {a : α}
    (h : within enter leave step s = .ok a t) :
    ∃ u, step (enter s) = .ok a u ∧ t = leave s u := by
  unfold within at h
  split at h
  · next hstep =>
      cases h
      exact ⟨_, hstep, rfl⟩
  · cases h

/-- A body is typed in the frame of its parameters, and what it ends with is returned. -/
theorem walkMethod_ok {infer : NodeId → Typing σ TypeId} {params : List NodeId}
    {result : Option NodeId} {body : NodeId}
    (hnode : ctx.tree.node decl = .methodDef name params result body)
    (hsig : s.table.signature { walk := s.walk, node := decl } = .ok sig)
    (hrun : walkMethod ctx infer decl s = .ok ⟨⟩ u) : ∃ r v,
      infer body { s with
        scopes := s.scopes.push (methodFrame ctx params sig)
        returnType := some sig.result } = .ok r v ∧
      u = { v with scopes := v.scopes.pop, returnType := s.returnType } ∧
      (sig.result = .void ∨ r = .void ∨ v.pool.isUnresolved r = true ∨
        v.pool.canConvert r sig.result = true) := by
  unfold walkMethod at hrun
  simp only [hnode] at hrun
  obtain ⟨_, _, ⟨⟩, hrun⟩ := bind_eq_ok.mp hrun
  rw [get_bind_apply, hsig] at hrun
  obtain ⟨_, _, ⟨⟩, hrun⟩ := bind_eq_ok.mp hrun
  obtain ⟨r, w, hframe, hrun⟩ := bind_eq_ok.mp hrun
  obtain ⟨w', hreturn, rfl⟩ := within_eq_ok hframe
  obtain ⟨v, hbody, rfl⟩ := within_eq_ok hreturn
  refine ⟨r, v, hbody, ?_⟩
  rw [get_bind_apply] at hrun
  dsimp only at hrun
  split at hrun
  · cases hrun
  · next hends =>
      cases hrun
      refine ⟨rfl, ?_⟩
      by_contra hnot
      simp only [not_or] at hnot
      exact hends ⟨hnot.1, hnot.2.1, by simpa using hnot.2.2.1, by simpa using hnot.2.2.2⟩

/-- The frame of a plain function binds its parameters. -/
theorem methodFrame_scalars {params : List NodeId}
    (hparams : List.Forall₂ (fun param p => ctx.tree.paramName? param = some p.1) params fn.params)
    (htakes : fn.Takes sig) : (methodFrame ctx params sig).currentType = none ∧
      ∀ entry ∈ (methodFrame ctx params sig).names, ∃ q ∈ fn.params,
        entry = (q.1, .value q.2.id) := by
  unfold methodFrame
  refine ⟨?_, fun entry hentry => ?_⟩
  · generalize (params.zip sig.params).filterMap _ = values
    have hkeep (frame : Scope) : (frame.bindValues values).currentType = frame.currentType := by
      induction values generalizing frame with
      | nil => rfl
      | cons value values ih => exact ih _
    exact hkeep {}
  · rw [Scope.names_bindValues, List.append_nil, List.mem_reverse, List.mem_map] at hentry
    obtain ⟨⟨name, type⟩, hvalue, rfl⟩ := hentry
    rw [List.mem_filterMap] at hvalue
    obtain ⟨⟨node, param⟩, hzip, hvalue⟩ := hvalue
    obtain ⟨i, hi, heq⟩ := List.mem_iff_getElem.mp hzip
    rw [List.getElem_zip, Prod.mk.injEq] at heq
    obtain ⟨rfl, rfl⟩ := heq
    rw [List.length_zip, Nat.lt_min] at hi
    have hlt : i < fn.params.length := hparams.length_eq ▸ hi.1
    have hname := hparams.get hi.1 hlt
    have htype := (htakes.params.get hlt hi.2).2
    dsimp only at hvalue
    split at hvalue
    · next name' type' _ hnode _ =>
        cases hvalue
        refine ⟨fn.params[i], List.getElem_mem hlt, ?_⟩
        simp only [List.get_eq_getElem] at hname htype
        rw [SyntaxTree.paramName?, hnode] at hname
        rw [htype, Option.some.inj hname]
    · cases hvalue

/-- **What typing finds out about a plain function**: its body was typed at top level, and nothing
recorded for it was changed afterwards. -/
theorem method_of_plain (hshape : ctx.tree.TreeShaped) (hp : p.HasBasics)
    (h : PlainFunction ctx.tree final callees name decl fn sig locals) (htakes : fn.Takes sig)
    (ha : Accounted ctx (fun _ _ => True) s) (hpool : s.pool = p) (htop : AtTop s)
    (hbase : s.scopes.base.DeclaresOnly)
    (hcallees : ∀ name, callees name → ∃ decl fn sig, ctx.tree.function? name = some decl ∧
      ctx.tree.scalarFunction? decl = some fn ∧
      final.signature { walk := 0, node := decl } = .ok sig ∧
      fn.Takes sig ∧ s.exports.function? name = some sig)
    (hsig : s.table.signature { walk := 0, node := decl } = .ok sig) {fuel : Nat} {r : TypeId}
    (hrun : inferWithin ctx fuel decl s = .ok r t)
    (hfinal : t.table.SameOff (fun n => ¬ ctx.tree.Below decl n) final) :
    ∃ K kind names, ScalarMethod ctx.tree final callees fn sig K kind names := by
  obtain ⟨method, params, result, hnode, hparams⟩ :=
    SyntaxTree.params_of_scalarFunction? h.function
  obtain ⟨fuel', u, hmethod, rfl⟩ := inferWithin_ok hrun
  simp only [inferNode, hnode] at hmethod
  obtain ⟨⟨⟩, u', hwalk, hpure⟩ := bind_eq_ok.mp hmethod
  cases hpure
  obtain ⟨rb, v, hbody, rfl, hends⟩ := walkMethod_ok hnode (by rw [htop.walk]; exact hsig) hwalk
  let K : ScalarTypes :=
    { local? := fun name => (fn.params ++ locals).lookup name, result := fn.result }
  have hlocal : ∀ l ∈ fn.params ++ locals, K.local? l.1 = some l.2 := fun l hl =>
    lookup_of_mem_of_nodup h.distinct hl
  obtain ⟨hcurrent, hnames⟩ := methodFrame_scalars hparams htakes
  -- the frame of the body stands above that of the module
  have hentered : PlainSite ctx.tree final callees K p { s with
      scopes := s.scopes.push (methodFrame ctx params sig)
      returnType := some sig.result } :=
    { pool := hpool
      walk := htop.walk
      result := by rw [htakes.result]
      locals := ⟨_, by rw [ScopeChain.push, htop.inner], hcurrent, fun entry hentry => by
        obtain ⟨q, hq, rfl⟩ := hnames entry hentry
        exact ⟨q.2, rfl, hlocal q (List.mem_append_left _ hq)⟩⟩
      base := hbase
      callees := hcallees }
  have haccounted : Accounted ctx (fun _ _ => True) { s with
      scopes := s.scopes.push (methodFrame ctx params sig)
      returnType := some sig.result } :=
    { ha with scopes := ha.scopes.push methodFrame_plain }
  have hmem : fn.body ∈ (ctx.tree.node decl).children := by simp [hnode, Node.children]
  obtain ⟨-, hwalk', -⟩ := inferWithin_writes hshape haccounted hbody
  have hagrees : v.table.SameOff (fun n => ¬ ctx.tree.Below fn.body n) final := by
    have hzero : v.walk = 0 := hwalk'.trans htop.walk
    have hrecorded : (v.table.record { walk := 0, node := decl } .void).SameOff
        (fun n => ¬ ctx.tree.Below decl n) final := hzero ▸ hfinal
    refine (TypeTable.SameOff.record (fun hbelow => ?_) .void).trans
      (hrecorded.mono fun n hn hbelow => hn (.head hmem hbelow))
    exact absurd (hshape.le_of_below hbelow) (Nat.not_le_of_lt (hshape.child_lt hmem))
  obtain ⟨hv, -, kind, hkind, hcode⟩ := reads_of_plain hshape hp h.body
    (fun l hl => hlocal l (List.mem_append_right _ hl)) fuel' _ rb v haccounted hentered hbody
    hagrees
  refine ⟨K, kind, locals.map (·.1), htakes, rfl, fun q hq => hlocal q (List.mem_append_left _ hq),
    hcode, List.map_append ▸ h.distinct, ?_⟩
  rw [htakes.result, hv.pool] at hends
  exact hkind.of_ends hp hends

/-! ## Where declarations stand -/

/-- Typing is at top level, and the frame of the module binds no variables. -/
structure AtDeclarations (s : TypingState σ) : Prop extends AtTop s where
  base : s.scopes.base.DeclaresOnly

namespace AtDeclarations

/-- What leaves the context alone and binds no variables. -/
theorem later {l : Licence} (h : AtDeclarations s) (hle : Restores l s t)
    (hnone : ∀ b, ¬ l.Allows b) : AtDeclarations t := by
  refine ⟨h.toAtTop.later hle, ?_⟩
  obtain ⟨new, hbase, hnew⟩ := hle.base
  rw [hbase]
  refine ⟨fun entry hentry => ?_, h.base.currentType⟩
  rcases List.mem_append.mp hentry with hentry | hentry
  · rcases hnew entry hentry with ⟨r, hr, -⟩ | ⟨-, hallowed⟩
    · simp [hr]
    · exact absurd hallowed (hnone entry)
  · exact h.base.names entry hentry

/-- A step in which type expressions are read. -/
theorem keeps {α : Type} {step : Typing σ α} {Q : α → TypingState σ → Prop} (h : AtDeclarations s)
    (hkeeps : ((restoring ctx).discipline .types).KeepsAt s step Q) :
    (Discipline.onSuccess _ _).KeepsAt s step fun _ t => AtDeclarations t := by
  cases hrun : step s with
  | error e t => exact .of_error hrun trivial
  | ok a t => exact .of_ok hrun trivial trivial (h.later (hkeeps.ok hrun).2.1 fun _ => id)

/-- Types are laid out. -/
theorem layOutType (statement : NodeId) (h : AtDeclarations s) :
    (Discipline.onSuccess _ _).KeepsAt s (layOutType ctx statement) fun _ t => AtDeclarations t := by
  unfold Typing.layOutType
  split
  · next body hnode =>
      refine .bind (recorded_keeps trivial (fun _ => trivial) statement) ?_
      rintro r t - - ⟨rfl, -⟩
      refine .bind (h.keeps (WalkRules.collectIvarsInto_keeps WalkRules.typeExpr_keeps _ body true []
        t trivial)) fun ivars u _ _ hu => ?_
      cases hset : updatePool (·.setIvars r ivars) u with
      | error e v => exact .of_error hset trivial
      | ok a v =>
          obtain ⟨q, -, rfl⟩ := updatePool_eq_ok hset
          exact .of_ok hset trivial trivial ⟨⟨hu.walk, hu.inner⟩, hu.base⟩
  · next cases _ hnode =>
      refine .bind (recorded_keeps trivial (fun _ => trivial) statement) ?_
      rintro r t - - ⟨rfl, -⟩
      refine .bind (h.keeps (WalkRules.addCases_keeps WalkRules.typeExpr_keeps r cases False.elim
        trivial trivial False.elim).trivial) fun added u _ _ hu => ?_
      refine Discipline.forM_keeps (P := AtDeclarations) _ trivial hu fun variant _ v _ _ hv => ?_
      cases hname : v.pool.caseShortName? variant with
      | none =>
          refine .of_ok (a := ⟨⟩) (t := v) ?_ trivial trivial hv
          show EStateM.Result.ok () _ = _
          simp only [hname]
      | some name =>
          refine .of_ok (a := ⟨⟩) (t := { v with
            scopes := v.scopes.bindModule name (.type variant)
            exports := v.exports.setType name variant }) ?_ trivial trivial
            ⟨⟨hv.walk, hv.inner⟩, hv.base.bind (by simp)⟩
          show EStateM.Result.ok () _ = _
          simp only [hname]
  · exact .pure trivial h

/-- The signature of a function is declared. -/
theorem declareFunction (statement : NodeId) (name : String) (h : AtDeclarations s) :
    (Discipline.onSuccess _ _).KeepsAt s (declareFunction ctx statement name)
      fun _ t => AtDeclarations t := by
  refine .bind (h.keeps (WalkRules.signatureOf_keeps WalkRules.typeExpr_keeps False.elim none s
    trivial)) fun sig t _ _ ht => .bind_read trivial (b := t) rfl ?_
  dsimp only
  split
  · exact .bind (.of_error (Q := fun _ _ => False) rfl trivial) fun _ _ _ _ h => h.elim
  · refine .bind_read trivial (b := ⟨t.walk, statement⟩) rfl ?_
    exact .of_ok rfl trivial trivial ⟨⟨ht.walk, ht.inner⟩, ht.base⟩

/-- The signatures of methods are declared in the frame of their type. -/
theorem declareIn (statement body : NodeId) (h : AtDeclarations s) :
    (Discipline.onSuccess _ _).KeepsAt s (declareSignature.declareIn ctx statement body)
      fun _ t => AtDeclarations t := by
  refine .bind (recorded_keeps trivial (fun _ => trivial) statement) ?_
  rintro r t - - ⟨rfl, -⟩
  refine .bind_read trivial (b := t) rfl ?_
  let entered : TypingState σ := { t with
    scopes := t.scopes.push (.forType r (t.pool.ivars r)) }
  have hrestore : ((restoring ctx).discipline .types).KeepsAt entered
      (declareMethods ctx (typeExpr ctx) body r) fun _ _ => True :=
    WalkRules.declareMethodsWithin_keeps WalkRules.typeExpr_keeps _ body r trivial (.inl trivial)
      False.elim
  cases hrun : declareMethods ctx (typeExpr ctx) body r entered with
  | error e u => exact .of_error (within_error hrun) trivial
  | ok a u =>
      obtain ⟨-, hrestores, -⟩ := hrestore.ok hrun
      have hleft : Restores .types t { u with scopes := u.scopes.pop } :=
        .of_frame .forType (hrestores.of_types)
      exact .of_ok (within_ok hrun) trivial trivial (h.later hleft fun _ => id)

theorem declareSignature (statement : NodeId) (h : AtDeclarations s) :
    (Discipline.onSuccess _ _).KeepsAt s (declareSignature ctx statement)
      fun _ t => AtDeclarations t := by
  unfold Typing.declareSignature
  split
  · exact h.declareFunction statement _
  · exact h.declareFunction statement _
  · exact h.declareIn statement _
  · exact h.declareIn statement _
  · exact .pure trivial h

/-- The bodies of a declaration are typed. -/
theorem infer {statement : NodeId} {fuel : Nat} {r : TypeId} (h : AtDeclarations s)
    (hdecl : ∀ name, ¬ ctx.tree.DeclaresVar name statement)
    (hrun : inferWithin ctx fuel statement s = .ok r t) : AtDeclarations t := by
  have hrules : (restoring ctx).Keeps (.body fun name => ctx.tree.DeclaresVar name statement)
      (inferWithin ctx fuel statement) :=
    WalkRules.inferWithin_keeps fuel statement False.elim (fun _ h => h) True.intro
  obtain ⟨-, hle, -⟩ := (hrules s True.intro).ok hrun
  exact h.later hle fun b hallowed => hdecl b.1 hallowed.1

end AtDeclarations

/-! ## Statements -/

/-- Where the statements of a unit of declarations are typed: all signatures are recorded. -/
structure AtStatement (ctx : TypingContext σ) (p₀ : Pool) (N : TypeId → Prop) (s : TypingState σ) :
    Prop extends AtDeclarations s where
  accounted : Accounted ctx (fun _ _ => True) s
  confined : Confined ctx p₀ N s
  linked : s.pool.Linked
  signed : ∀ statement ∈ ctx.tree.statements ctx.tree.root, SignedOff ctx.tree s statement

namespace AtStatement

variable {p₀ : Pool} {N : TypeId → Prop} {statement : NodeId} {fuel : Nat} {r : TypeId}

theorem infer (hT : p₀.Territory N) (hshape : ctx.tree.TreeShaped) (h : AtStatement ctx p₀ N s)
    (hdecl : ∀ name, ¬ ctx.tree.DeclaresVar name statement)
    (hrun : inferWithin ctx fuel statement s = .ok r t) : AtStatement ctx p₀ N t := by
  obtain ⟨ht, hle, -⟩ := (inferWithin_accounted (G := fun _ => True) hshape.nodup_statements fuel
    statement s h.accounted fun _ _ _ => trivial).ok hrun
  obtain ⟨hconfined, hadvances, -⟩ := (inferWithin_confined hT fuel statement s h.confined).ok hrun
  exact ⟨h.toAtDeclarations.infer hdecl hrun, ht, hconfined, hadvances.passes.linked h.linked,
    fun other hother => (h.signed other hother).mono hle.toPreserves hle.owners⟩

/-- The types that plain code needs are in their places. -/
theorem hasBasics (h : AtStatement ctx p₀ N s) : s.pool.HasBasics where
  toHasScalars := h.confined.pool.sound.hasScalars
  void := (h.confined.pool.sound.builtin TypeId.void (by decide)).2
  linked := h.linked

/-- A function is offered with the signature that is recorded for it. -/
theorem function?_eq (h : AtStatement ctx p₀ N s)
    (hapart : FunctionsApart ctx.tree (ctx.tree.statements ctx.tree.root))
    (hdecl : ctx.tree.function? name = some decl) : ∃ sig link,
      s.table.signatures[({ walk := 0, node := decl } : Visit)]? = some sig ∧
        sig.NamedBy ctx.tree decl link ∧ s.exports.function? name = some sig := by
  obtain ⟨hmem, params, result, body, hnode⟩ := SyntaxTree.mem_of_function? hdecl
  have hmethod : ctx.tree.method? decl = some (name, none) := by
    rw [SyntaxTree.method?, hnode]
  obtain ⟨sig, hsig, hoffered, hnamed⟩ := (h.signed decl hmem).function
    (SyntaxTree.isMethod_iff.mpr (by simp [hmethod]))
  refine ⟨sig, _, hsig, hnamed, ?_⟩
  have hname (other : Signature) (statement : NodeId) (link : String → String)
      (hother : other.NamedBy ctx.tree statement link) :
      ∃ attr, ctx.tree.method? statement = some (other.name, attr) := hother.declared
  rw [Exports.function?]
  cases hfound : s.exports.functions.find? (·.name == name) with
  | none =>
      obtain ⟨attr, heq⟩ := hname _ _ _ hnamed
      rw [hmethod] at heq
      have hne := List.find?_eq_none.mp hfound sig hoffered
      rw [← (Prod.mk.inj (Option.some.inj heq)).1, beq_self_eq_true] at hne
      exact absurd rfl hne
  | some other =>
      -- functions of one name are one function
      obtain ⟨statement, hstatement, hismethod, hother⟩ :=
        h.accounted.functions other (List.mem_of_find?_eq_some hfound)
      obtain ⟨sig', hsig', -, hnamed'⟩ := (h.signed statement hstatement).function hismethod
      obtain rfl : other = sig' := Option.some.inj (hother.symm.trans hsig')
      obtain ⟨attr, heq⟩ := hname _ _ _ hnamed'
      have hsame : statement = decl := by
        by_contra hne
        exact hapart _ hstatement _ hmem hne _ _ _ _ heq hmethod
          (by simpa using List.find?_some hfound)
      subst hsame
      rw [Option.some.inj (hother.symm.trans hsig)]

end AtStatement

/-- Of the steps of a run, one is taken where those before it lead to. -/
theorem mapM_reaches {I : TypingState σ → Prop} {step : NodeId → Typing σ TypeId}
    {nodes : List NodeId} {node : NodeId} {rs : List TypeId}
    (hstep : ∀ n ∈ nodes, ∀ s r t, I s → step n s = .ok r t → I t) (hs : I s)
    (hrun : nodes.mapM step s = .ok rs u) (hmem : node ∈ nodes) :
    ∃ front back s' r t rs', nodes = front ++ node :: back ∧ I s' ∧ step node s' = .ok r t ∧
      back.mapM step t = .ok rs' u := by
  induction nodes generalizing s rs with
  | nil => cases hmem
  | cons first rest ih =>
      rw [List.mapM_cons] at hrun
      obtain ⟨r, t, hfirst, hrun⟩ := bind_eq_ok.mp hrun
      obtain ⟨rs', v, hrest, hpure⟩ := bind_eq_ok.mp hrun
      cases hpure
      by_cases heq : node = first
      · subst heq
        exact ⟨[], rest, s, r, t, rs', rfl, hs, hfirst, hrest⟩
      · obtain ⟨front, back, s', r', t', rs'', hsplit, hrun'⟩ :=
          ih (fun n hn => hstep n (List.mem_cons_of_mem first hn))
            (hstep first List.mem_cons_self s r t hs hfirst) hrest
            ((List.mem_cons.mp hmem).resolve_left heq)
        exact ⟨first :: front, back, s', r', t', rs'', by rw [hsplit]; rfl, hrun'⟩

theorem signature_of_getElem? {table : TypeTable} {v : Visit} (h : table.signatures[v]? = some sig) :
    table.signature v = .ok sig := by
  rw [TypeTable.signature, h]

/-- Typing the whole tree types its statements one after the other, and records no more than the
type of the tree itself. -/
theorem infer_root_ok {r : TypeId} (hshape : ctx.tree.TreeShaped)
    (hrun : Typing.infer ctx ctx.tree.root s = .ok r u) : ∃ fuel rs t,
      (ctx.tree.statements ctx.tree.root).mapM (inferWithin ctx fuel) s = .ok rs t ∧
        (t.walk = 0 → t.table.SameOff (fun n => ∀ statement ∈ ctx.tree.statements ctx.tree.root,
          ¬ ctx.tree.Below statement n) u.table) ∧ u.table.signatures = t.table.signatures := by
  unfold Typing.infer at hrun
  cases hroot : ctx.tree.node ctx.tree.root with
  | seq statements =>
      obtain ⟨fuel, t, hnode, rfl⟩ := inferWithin_ok hrun
      simp only [inferNode, hroot] at hnode
      obtain ⟨rs, hrs, -⟩ := foldlM_ok hnode
      have hstatements : ctx.tree.statements ctx.tree.root = statements := by
        rw [SyntaxTree.statements, hroot]
      rw [hstatements]
      refine ⟨fuel, rs, t, hrs, fun hwalk => ?_, rfl⟩
      rw [hwalk]
      refine .record (fun statement hstatement hbelow => ?_) r
      have hchild : statement ∈ (ctx.tree.node ctx.tree.root).children := by
        rw [hroot, Node.children]
        exact hstatement
      exact absurd (hshape.le_of_below hbelow) (Nat.not_le_of_lt (hshape.child_lt hchild))
  | _ =>
      have hstatements : ctx.tree.statements ctx.tree.root = [ctx.tree.root] := by
        simp [SyntaxTree.statements, hroot]
      rw [hstatements]
      exact ⟨_, [r], u, mapM_cons_ok hrun rfl, fun _ => .refl _ _, rfl⟩

/-- The bodies of plain functions were read. -/
theorem scalarMethods_of_infer {p₀ : Pool} {N : TypeId → Prop} {r : TypeId} (hT : p₀.Territory N)
    (hshape : ctx.tree.TreeShaped) (hs : AtStatement ctx p₀ N s)
    (hdecls : ∀ statement ∈ ctx.tree.statements ctx.tree.root, ∀ name,
      ¬ ctx.tree.DeclaresVar name statement)
    (hapart : FunctionsApart ctx.tree (ctx.tree.statements ctx.tree.root))
    (hrun : Typing.infer ctx ctx.tree.root s = .ok r u)
    (hfinal : u.table.SameOff (fun _ => False) final)
    (hsignatures : ∀ (v : Visit) sig, u.table.signatures[v]? = some sig →
      final.signatures[v]? = some sig) {names : String → Prop}
    (hplain : PlainFunctions ctx.tree final names) : ScalarMethods ctx.tree final names := by
  intro name decl fn sig hname hdecl hfn hsig
  obtain ⟨decl', fn', sig', locals, hfunction⟩ := hplain name hname
  obtain rfl : decl' = decl := Option.some.inj (hfunction.declared.symm.trans hdecl)
  obtain rfl : fn' = fn := Option.some.inj (hfunction.function.symm.trans hfn)
  obtain rfl : sig' = sig := Except.ok.inj (hfunction.signature.symm.trans hsig)
  obtain ⟨hmem, -⟩ := SyntaxTree.mem_of_function? hdecl
  obtain ⟨fuel, rs, v, hrs, hroot, hroot'⟩ := infer_root_ok hshape hrun
  obtain ⟨front, back, s', r', t, rs', hsplit, hs', hbody, hback⟩ :=
    mapM_reaches (I := AtStatement ctx p₀ N)
      (fun n hn s r t h hrun => h.infer hT hshape (hdecls n hn) hrun) hs hrs hmem
  obtain ⟨ht, hle, -⟩ := (inferWithin_accounted (G := fun _ => True) hshape.nodup_statements fuel
    decl' s' hs'.accounted fun _ _ _ => trivial).ok hbody
  obtain ⟨-, hwalk, hwrites, -, hback'⟩ := mapM_writes hshape ht hback
  have hlater (w : Visit) (sig : Signature) (h : s'.table.signatures[w]? = some sig) :
      final.signatures[w]? = some sig := by
    refine hsignatures w sig ?_
    rw [hroot']
    exact hback' w sig (hle.signatures w sig h)
  -- what is typed after the function stands below other statements
  have hagrees : t.table.SameOff (fun n => ¬ ctx.tree.Below decl' n) final := by
    have hzero : v.walk = 0 := hwalk.trans (hle.walk.trans hs'.walk)
    refine ((hwrites.mono ?_).trans ((hroot hzero).mono fun n hn => hn decl' hmem)).trans
      (hfinal.mono fun _ => False.elim)
    rintro n ⟨other, hother, hbelow⟩
    have hnodup := hshape.nodup_statements ctx.tree.root
    rw [hsplit] at hnodup
    have hne : other ≠ decl' := by
      rintro rfl
      exact (List.nodup_cons.mp hnodup.of_append_right).1 hother
    exact hshape.disjoint_statements (by rw [hsplit]; simp [hother]) hmem hne hbelow
  have htakes {name : String} {decl : NodeId} {fn : ScalarFunction} {sig : Signature}
      {locals : List (String × ScalarType)}
      (h : PlainFunction ctx.tree final names name decl fn sig locals) :
      fn.Takes sig ∧ s'.table.signatures[({ walk := 0, node := decl } : Visit)]? = some sig ∧
        s'.exports.function? name = some sig := by
    obtain ⟨sig', link, hrecorded, hnamed, hoffered⟩ := hs'.function?_eq hapart h.declared
    obtain rfl : sig' = sig := Except.ok.inj
      ((signature_of_getElem? (hlater _ _ hrecorded)).symm.trans h.signature)
    exact ⟨takes_of_plain h hnamed, hrecorded, hoffered⟩
  obtain ⟨htakes', hrecorded, -⟩ := htakes hfunction
  refine method_of_plain hshape hs'.hasBasics hfunction htakes' hs'.accounted rfl hs'.toAtTop
    hs'.base (fun name hname => ?_) (signature_of_getElem? hrecorded) hbody hagrees
  obtain ⟨decl, fn, sig, locals, hcallee⟩ := hplain name hname
  obtain ⟨htakes', -, hoffered⟩ := htakes hcallee
  exact ⟨decl, fn, sig, hcallee.declared, hcallee.function, hcallee.signature, htakes', hoffered⟩

/-- **Typing a unit reads its plain functions**: where a tree-shaped unit of declarations is typed,
the table says of every function on Integers and Booleans that calls only such functions what its
lowering relies on. -/
theorem calculate_scalarMethods (ctx : TypingContext σ) {p₀ : Pool} {N : TypeId → Prop}
    (hT : p₀.Territory N) (hlawful : ctx.importer.Lawful) (hshape : ctx.tree.TreeShaped)
    {imports : σ} (hfits : ctx.importer.ExportsFit p₀ N imports) (hlinked : p₀.Linked)
    (hdecls : ∀ statement ∈ ctx.tree.statements ctx.tree.root, ∀ name,
      ¬ ctx.tree.DeclaresVar name statement) :
    (Discipline.onSuccess _ _).KeepsAt { pool := p₀, imports } (calculate ctx) fun typed t =>
      typed = t.typed ∧ ∀ names, PlainFunctions ctx.tree t.table names →
        ScalarMethods ctx.tree t.table names := by
  have hnodup := hshape.nodup_statements
  -- nothing is asked of the functions that are imported
  have hany (p : Pool) (imports : σ) : ctx.importer.Linked (fun _ _ => True) p imports :=
    ⟨fun _ _ _ => trivial, fun _ _ _ _ _ => trivial⟩
  have hnames := declareTypes_named hT hlawful (fun _ _ _ _ _ _ _ _ _ _ _ _ => hany _ _)
    (ctx.tree.statements ctx.tree.root) (Confined.initial hT hfits) (Named.initial (hany p₀ imports))
  unfold calculate
  refine .bind hnames.succeeds ?_
  rintro _ s - - ⟨hconfined, hadvances, hnamed⟩
  have hs := hnamed.accounted hshape
  have hat : AtDeclarations s := ⟨⟨hnamed.walk, hnamed.inner⟩, hnamed.base⟩
  have hw : ∀ (u : TypingState σ) node, Writable ctx.tree (fun _ => True) u node :=
    fun _ _ _ _ _ => trivial
  have hlayOut : (confinement ctx p₀ N).KeepsAt s
      ((ctx.tree.statements ctx.tree.root).forM (Typing.layOutType ctx)) fun _ _ => True :=
    Discipline.forM_keeps (P := fun _ => True) _ hconfined trivial
      fun statement _ t ht _ _ => layOutType_confined hT ht
  refine .bind (((layOutTypes_accounted hnodup _ hs).succeeds.and hlayOut.succeeds).and
    (Discipline.forM_keeps (P := AtDeclarations) _ trivial hat
      fun statement _ t _ _ ht => ht.layOutType statement)) ?_
  rintro _ t - - ⟨⟨⟨ht, hst, -⟩, hconfined', hadvances', -⟩, hat'⟩
  have hsignatures := declareSignatures_accounted hshape ht (hst.walk.trans hnamed.walk) (.refl _)
    (fun _ _ => hw t _) (fun statement _ => hnamed.unsigned hs hst statement)
    fun statement hstatement hdecl => hst.grows.types _ (hnamed.declared statement hstatement hdecl)
  have hconfine : (confinement ctx p₀ N).KeepsAt t
      ((ctx.tree.statements ctx.tree.root).forM (Typing.declareSignature ctx)) fun _ _ => True :=
    Discipline.forM_keeps (P := fun _ => True) _ hconfined' trivial
      fun statement _ t ht _ _ => declareSignature_confined hT ht
  refine .bind ((hsignatures.succeeds.and hconfine.succeeds).and
    (Discipline.forM_keeps (P := AtDeclarations) _ trivial hat'
      fun statement _ t _ _ ht => ht.declareSignature statement)) ?_
  rintro _ u - - ⟨⟨⟨hu, htu, hsigned, hapart⟩, hconfined'', hadvances'', -⟩, hat''⟩
  have hstatement : AtStatement ctx p₀ N u := {
    toAtDeclarations := hat''
    accounted := hu
    confined := hconfined''
    linked := hadvances''.passes.linked (hadvances'.passes.linked (hadvances.passes.linked hlinked))
    signed := hsigned }
  refine .bind ((inferStatements_accounted hnodup hu (hw u ctx.tree.root)).succeeds.and
    (Discipline.onSuccess_run _ _)) ?_
  rintro _ v - - ⟨⟨hv, huv, -⟩, hrun⟩
  have hqueued : Queued ctx s := by
    intro id index decl e he
    simp [hnamed.expansionAt?_eq_none] at he
  refine .bind (drainPending_accounted hnodup _ hv (((hqueued.mono hst).mono htu).mono huv)) ?_
  rintro _ w - - ⟨-, -, -, hvw, -⟩
  refine .bind_read trivial (b := w) rfl (.pure trivial ⟨rfl, fun names hplain => ?_⟩)
  exact scalarMethods_of_infer hT hshape hstatement hdecls hapart hrun hvw.elsewhere hvw.signatures
    hplain

end Typing

end ClassLang
