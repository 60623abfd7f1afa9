import ClassLang.Proofs.Syntax.Placement
import ClassLang.Proofs.Typing.Accounting
import ClassLang.Proofs.Typing.RequestSite
import ClassLang.Typing.TypeExpr

/-!
# Declarations and type expressions account for their records

Declaring the methods of a body records a signature for each of them and a fresh walk for each
inclusion. An expansion of a template is declared in a fresh walk and queued, and so are the
expansions that its own declaration brings about.
-/

namespace ClassLang.Typing

variable {σ : Type} {ctx : TypingContext σ} {known : σ → String → Prop} {G F : NodeId → Prop}
  {s t : TypingState σ}

/-- Type expressions account for their records. -/
def TypeExprAccounted (ctx : TypingContext σ) (known : σ → String → Prop) (G F : NodeId → Prop)
    (typeExpr : NodeId → Typing σ TypeId) : Prop :=
  ∀ node s, Accounted ctx known s → Writable ctx.tree G s node →
    (accounting ctx known G F).KeepsAt s (typeExpr node) fun _ _ => True

/-! ## Members -/

/-- A trait that is found is the one of the tree. -/
theorem findTrait_accounted {name : String} (hs : Accounted ctx known s) :
    (accounting ctx known G F).KeepsAt s (findTrait name) fun body _ =>
      ctx.tree.traits.lookup name = some body := by
  refine .bind_read hs (b := s) rfl ?_
  split
  · next body hbody => exact .pure hs ((hs.scopes.findTrait_eq name).symm.trans hbody)
  · exact fail_accounted

theorem spell_accounted {r : TypeId} (hs : Accounted ctx known s) :
    (accounting ctx known G F).KeepsAt s (spell r) fun _ _ => True :=
  .bind_read hs (b := s) rfl (.pure hs trivial)

variable {typeExpr : NodeId → Typing σ TypeId}

/-- The layout of a class; it also writes the types in the traits that the class includes. -/
theorem collectIvarsInto_accounted (htype : TypeExprAccounted ctx known G F typeExpr) (fuel : Nat)
    (body : NodeId) (recording : Bool) (ivars : List (String × TypeId))
    (hs : Accounted ctx known s) (hw : Writable ctx.tree G s body)
    (htraits : ∀ entry ∈ ctx.tree.traits, Writable ctx.tree G s entry.2) :
    (accounting ctx known G F).KeepsAt s (collectIvarsInto ctx typeExpr fuel body recording ivars)
      fun _ _ => True := by
  induction fuel generalizing s body recording ivars with
  | zero => exact throw_accounted
  | succ fuel ih =>
      unfold collectIvarsInto
      refine Discipline.foldlM_keeps _ hs trivial fun statement hstatement ivars t ht hle _ => ?_
      have hstatement := (hw.below (SyntaxTree.below_of_mem_statements hstatement)).mono hle
      dsimp only
      split
      · next name type hnode =>
          refine .bind (htype type t ht (hstatement.child (by simp [hnode, Node.children])))
             fun declared u hu hle' _ => ?_
          split
          · exact .bind (fail_accounted (Q := fun _ _ => False)) fun _ _ _ _ h => h.elim
          · split
            · refine .bind (record_accounted (Q := fun _ _ => True) hu ?_ ?_
                (by simp [hnode, Node.declaresType]) trivial) fun _ v hv _ _ => .pure hv trivial
              · exact (hstatement.mono hle').self
              · simp [TypeTable.PartsCovered, hnode]
            · exact .pure hu trivial
      · next name hnode =>
          refine .bind (findTrait_accounted ht) fun traitBody u hu hle' htrait => ?_
          refine ih traitBody _ _ hu ?_ fun entry hentry => ?_
          · exact (htraits _ (mem_of_lookup_eq_some htrait)).mono (hle.trans hle')
          · exact (htraits entry hentry).mono (hle.trans hle')
      · exact .pure ht trivial

theorem caseFields_accounted (htype : TypeExprAccounted ctx known G F typeExpr) {caseName : String}
    {fields : List NodeId} (hs : Accounted ctx known s)
    (hw : ∀ field ∈ fields, Writable ctx.tree G s field) :
    (accounting ctx known G F).KeepsAt s (caseFields ctx typeExpr caseName fields)
      fun _ _ => True := by
  unfold caseFields
  refine (Discipline.mapM_keeps_all (P := fun _ _ => True) _ hs (fun _ _ _ _ _ _ h => h)
    fun field hfield t ht hle => ?_).trivial
  have hfield := (hw field hfield).mono hle
  split
  · next name type hnode =>
      refine .bind (htype type t ht (hfield.child (by simp [hnode, Node.children])))
        fun declared u hu hle' _ => ?_
      refine .bind (record_accounted (Q := fun _ _ => True) hu ?_ ?_
        (by simp [hnode, Node.declaresType]) trivial) fun _ v hv _ _ => .pure hv trivial
      · exact (hfield.mono hle').self
      · simp [TypeTable.PartsCovered, hnode]
  · exact fail_accounted

theorem addCases_accounted (htype : TypeExprAccounted ctx known G F typeExpr) (owner : TypeId)
    (cases : List NodeId) (hs : Accounted ctx known s)
    (hw : ∀ decl ∈ cases, Writable ctx.tree G s decl) :
    (accounting ctx known G F).KeepsAt s (addCases ctx typeExpr owner cases) fun _ _ => True := by
  unfold addCases
  refine .bind (spell_accounted hs) fun ownerName t ht hle _ => ?_
  refine (Discipline.mapM_keeps_all (P := fun _ _ => True) _ ht (fun _ _ _ _ _ _ h => h)
    fun decl hdecl u hu hle' => ?_).trivial
  have hdecl := (hw decl hdecl).mono (hle.trans hle')
  split
  · next name fields hnode =>
      refine .bind (caseFields_accounted htype hu fun field hfield => hdecl.child
        (by simpa [hnode, Node.children] using hfield)) fun declared v hv hle'' _ => ?_
      refine .bind_read hv (b := v) rfl (.bind (ofExcept_accounted hv (Q := fun r w =>
        v.pool.addCase owner (ownerName ++ "." ++ name) name declared = .ok r ∧ w = v)
        fun _ h => ⟨h, rfl⟩) ?_)
      rintro ⟨added, q⟩ w - - ⟨hadded, rfl⟩
      refine .bind (.of_ok (Q := fun _ x => x.walk = w.walk ∧ x.table = w.table) rfl
        (hv.setPool (.addCase hadded))
        (.of_same (.setPool _ (Pool.AddsNoMethod.addCase hadded).evolves) rfl) ⟨rfl, rfl⟩) ?_
      rintro - x hx hle''' -
      refine .bind (record_accounted (Q := fun _ _ => True) hx ?_ ?_
        (by simp [hnode, Node.declaresType]) trivial) fun _ y hy _ _ => .pure hy trivial
      · exact (hdecl.mono (hle''.trans hle''')).self
      · simp [TypeTable.PartsCovered, hnode]
  · exact fail_accounted

/-! ## Signatures -/

theorem declaredParams_accounted (htype : TypeExprAccounted ctx known G F typeExpr)
    {method : String} {params : List NodeId} (hs : Accounted ctx known s)
    (hw : ∀ param ∈ params, Writable ctx.tree G s param) :
    (accounting ctx known G F).KeepsAt s (declaredParams ctx typeExpr method params)
      fun declared _ => ctx.tree.ParamsDeclared params declared := by
  unfold declaredParams
  refine (Discipline.foldlM_keeps_through
    (P := fun done declared _ => ctx.tree.ParamsDeclared (done.map (·.1)) declared) _ [] hs
    ⟨rfl, fun _ => rfl⟩ ?_).weaken fun _ _ _ _ h => by simpa using h
  rintro ⟨param, i⟩ hmem done ⟨declared, varargs⟩ t ht hle ⟨hnames, hvarargs⟩
  have hparam := (hw param (List.fst_mem_of_mem_zipIdx hmem)).mono hle
  dsimp only
  split
  · next name type hnode =>
      refine .bind (htype type t ht (hparam.child (by simp [hnode, Node.children])))
        fun paramType u hu hle' _ => ?_
      refine .bind (record_accounted (Q := fun _ _ => True) hu ?_ ?_
        (by simp [hnode, Node.declaresType]) trivial) fun _ v hv _ _ => .pure hv ?_
      · exact (hparam.mono hle').self
      · simp [TypeTable.PartsCovered, hnode]
      · exact ⟨by simpa [SyntaxTree.paramName?, hnode] using hnames, fun hall => hvarargs
          fun param hparam => hall param (by simp [hparam])⟩
  · next hnode =>
      split
      · refine .pure ht ⟨by simpa [SyntaxTree.paramName?, hnode] using hnames, fun hall => ?_⟩
        have htyped := hall param (by simp)
        simp [SyntaxTree.paramName?, hnode] at htyped
      · exact fail_accounted
  · exact fail_accounted

/-- The link name that a state gives to the name of a method or function without an attribute. -/
def linkIn (s : TypingState σ) (owner : Option TypeId) : String → String :=
  match owner with
  | some owner => methodLink (s.pool.display owner)
  | none => functionLink s.package

theorem linkName_accounted {owner : Option TypeId} {attr : Option Attribute} {name : String}
    (hs : Accounted ctx known s) :
    (accounting ctx known G F).KeepsAt s (linkName owner attr name) fun link u =>
      attr = none → link = linkIn u owner name := by
  unfold linkName
  split
  · exact .pure hs fun h => by cases h
  · exact .bind_read hs rfl (.pure hs fun _ => rfl)
  · split
    · next hmain => exact .pure hs fun _ => by simp [linkIn, functionLink, hmain]
    · next hmain =>
        refine .bind_read hs (b := s) rfl (.pure hs fun _ => ?_)
        cases hpackage : s.package <;> simp [linkIn, functionLink, hmain, hpackage]

theorem signatureOf_accounted (htype : TypeExprAccounted ctx known G F typeExpr) {node : NodeId}
    (owner : Option TypeId) (hs : Accounted ctx known s) (hw : Writable ctx.tree G s node) :
    (accounting ctx known G F).KeepsAt s (signatureOf ctx typeExpr node owner) fun sig u =>
      sig.NamedBy ctx.tree node (linkIn u owner) := by
  have hbuild : ∀ name params result attr, ctx.tree.method? node = some (name, attr) →
      ctx.tree.methodParams node = params →
      (∀ part ∈ params ++ result.toList, part ∈ (ctx.tree.node node).children) →
      (accounting ctx known G F).KeepsAt s
        (signatureOf.build ctx typeExpr owner name params result attr) fun sig u =>
          sig.NamedBy ctx.tree node (linkIn u owner) := by
    intro name params result attr hmethod hparams hparts
    unfold signatureOf.build
    have hlink : ∀ (declared : List Param × Bool) (r : TypeId) u, Accounted ctx known u →
        ctx.tree.ParamsDeclared params declared →
        (accounting ctx known G F).KeepsAt u (do
          let linkName ← linkName owner attr name
          pure (Signature.mk name linkName declared.1 r declared.2)) fun sig v =>
            sig.NamedBy ctx.tree node (linkIn v owner) := by
      refine fun declared r u hu hdeclared => .bind (linkName_accounted hu)
        fun link v hv _ hlink => .pure hv ⟨⟨attr, hmethod⟩, fun hplain => hlink ?_, ?_⟩
      · simpa [hmethod] using hplain
      · rw [hparams]
        exact hdeclared
    refine .bind (declaredParams_accounted htype hs fun param hparam =>
      hw.child (hparts param (by simp [hparam]))) fun declared t ht hle hdeclared => ?_
    dsimp only
    cases result with
    | none => exact hlink declared .void t ht hdeclared
    | some result =>
        refine .bind (htype result t ht ((hw.child (hparts result (by simp))).mono hle)) ?_
        exact fun r u hu _ _ => hlink declared r u hu hdeclared
  unfold signatureOf
  split
  · next hnode =>
      exact hbuild _ _ _ _ (by simp [SyntaxTree.method?, hnode])
        (by simp [SyntaxTree.methodParams, hnode]) fun part hpart => by
          rw [hnode, Node.children, List.mem_append]
          exact .inl hpart
  · next hnode =>
      exact hbuild _ _ _ _ (by simp [SyntaxTree.method?, hnode])
        (by simp [SyntaxTree.methodParams, hnode]) fun part hpart => by
          rwa [hnode, Node.children]
  · exact fail_accounted

/-! ## Methods -/

/-- What is expected before the methods of a body are declared: the statements of the body are
members of a type declaration that were not declared yet. -/
structure Undeclared (tree : SyntaxTree) (s : TypingState σ) (statement : NodeId) : Prop where
  comes : Comes tree s { walk := s.walk, node := statement }
  signature : ¬ s.table.HasSignature { walk := s.walk, node := statement }
  inclusion : s.table.inclusion? { walk := s.walk, node := statement } = none

/-- Other statements stay undeclared. -/
theorem Undeclared.mono {tree : SyntaxTree} {statement : NodeId}
    (h : Undeclared tree s statement) (hs : Accounted ctx known s) (hle : Preserves G F s t)
    (hF : ¬ F statement) : Undeclared tree t statement := by
  have hfresh := hle.fresh { walk := s.walk, node := statement } hs.walk_lt fun h => hF h.2
  refine ⟨?_, ?_, ?_⟩ <;> rw [hle.walk]
  · exact h.comes.mono hs.distinct hle
  · exact fun hsig => h.signature (hfresh.1 hsig)
  · by_contra hsome
    have := hfresh.2 (Option.isSome_iff_ne_none.mpr hsome)
    simp [h.inclusion] at this

/-- Recording the signature of a statement that has none. -/
theorem Preserves.of_setSignature {statement : NodeId} {sig : Signature}
    (hfree : ¬ s.table.HasSignature { walk := s.walk, node := statement })
    (htable : t.table = s.table.setSignature { walk := s.walk, node := statement } sig)
    (hwalk : t.walk = s.walk) (htemplates : t.templates = s.templates)
    (himports : t.imports = s.imports) (hpool : s.pool.Evolves t.pool)
    (hfunctions : s.exports.functions ⊆ t.exports.functions) (hpackage : t.package = s.package) :
    Preserves G (· = statement) s t where
  walk := hwalk
  next_le := by rw [htable]; exact Nat.le_refl _
  grows := by rw [htable]; exact ⟨fun _ h => h, fun _ h => h⟩
  elsewhere _ _ := by rw [htable]; exact ⟨rfl, rfl⟩
  signatures v other hother := by
    rw [htable, TypeTable.getElem?_setSignature, if_neg]
    · exact hother
    · rintro rfl
      exact hfree (by simp [TypeTable.HasSignature, hother])
  inclusions _ _ h := by rw [htable]; exact h
  fresh v _ hnot := by
    rw [htable]
    refine ⟨fun hsig => ?_, id⟩
    rw [TypeTable.HasSignature, TypeTable.getElem?_setSignature, if_neg] at hsig
    · exact hsig
    · rintro rfl
      exact hnot ⟨rfl, rfl⟩
  decls := by rw [htemplates]
  expansions _ _ _ h := by rwa [htemplates]
  imports := himports
  pool := hpool
  functions := hfunctions
  package := hpackage

theorem Accounted.signatures_lt_setSignature (hs : Accounted ctx known s) {statement : NodeId}
    {sig : Signature} (v : Visit)
    (hv : (s.table.setSignature { walk := s.walk, node := statement } sig).HasSignature v) :
    v.walk < s.table.nextInstance := by
  rw [TypeTable.HasSignature, TypeTable.getElem?_setSignature] at hv
  split at hv
  · next heq => exact heq ▸ hs.walk_lt
  · exact hs.signatures_lt v hv

/-- Registering a method and recording its signature. -/
theorem addMethod_accounted {owner : TypeId} {sig : Signature} {statement : NodeId}
    (hs : Accounted ctx known s) (hmethod : ctx.tree.IsMethod statement)
    (hfree : Undeclared ctx.tree s statement)
    (hnamed : sig.NamedBy ctx.tree statement (methodLink (s.pool.display owner))) :
    (accounting ctx known G (· = statement)).KeepsAt s (do
      updatePool (·.addMethod owner sig)
      let v ← visit statement
      modifyTable (·.setSignature v sig)) fun _ u =>
        u.table.Registered ctx.tree u.pool owner (s.pool.methodNames owner)
          { walk := u.walk, node := statement } := by
  cases hadd : s.pool.addMethod owner sig with
  | error e =>
      have hupdate : updatePool (·.addMethod owner sig) s = .error (.error e) s := by
        show (ofExcept (s.pool.addMethod owner sig) >>= fun pool => modify fun s =>
          { s with pool }) s = _
        rw [hadd]
        rfl
      exact .bind (.of_error (Q := fun _ _ => False) hupdate trivial) fun _ _ _ _ h => h.elim
  | ok q =>
      have hupdate : updatePool (·.addMethod owner sig) s = .ok () { s with pool := q } := by
        show (ofExcept (s.pool.addMethod owner sig) >>= fun pool => modify fun s =>
          { s with pool }) s = _
        rw [hadd]
        rfl
      let after : TypingState σ := { s with
        pool := q
        table := s.table.setSignature { walk := s.walk, node := statement } sig }
      have hkeeps : Preserves G (· = statement) s after :=
        .of_setSignature hfree.signature rfl rfl rfl rfl (Pool.Change.addMethod hadd).evolves
          (List.Subset.refl _) rfl
      refine .of_ok (a := ()) (t := after) ?_ ?_
        ⟨hkeeps, List.Subset.refl _, fun _ _ _ _ h => .inl h, fun _ _ _ h => h⟩ ?_
      · show EStateM.bind (updatePool _) _ s = _
        simp only [EStateM.bind, hupdate]
        rfl
      · refine { hs with
          complete := ⟨hs.complete.parts, hs.complete.receivers⟩
          signatures_lt := hs.signatures_lt_setSignature
          methods := ?_
          functions := fun other hother => hs.function_mono hkeeps hother }
        intro r other hother
        rcases List.mem_append.mp (Pool.addMethod_methods hadd r hother) with hold | hnew
        · exact hs.method_mono hkeeps hold
        · rw [List.mem_singleton] at hnew
          subst hnew
          refine .inr ⟨{ walk := s.walk, node := statement }, hmethod, ?_, ?_⟩
          · exact hfree.comes.mono hs.distinct hkeeps
          · rw [TypeTable.getElem?_setSignature, if_pos rfl]
      · obtain ⟨⟨name, hname⟩, hnew, hmem⟩ := Pool.addMethod_registers hadd
        rw [Pool.display_of_nominalName hname] at hnamed
        refine ⟨sig, name, ?_, hmem, hnew, hkeeps.pool.nominalName? hname, hnamed⟩
        rw [TypeTable.getElem?_setSignature, if_pos rfl]

/-- The methods of a body, and those of the traits it includes, are registered on the type. -/
def DeclaresBody (ctx : TypingContext σ) (known : σ → String → Prop) (G : NodeId → Prop)
    (owner : TypeId) (step : NodeId → Typing σ Unit) : Prop :=
  ∀ body s, Accounted ctx known s → Writable ctx.tree G s body →
    (∀ statement ∈ ctx.tree.statements body, Undeclared ctx.tree s statement) →
      (accounting ctx known G (· ∈ ctx.tree.statements body)).KeepsAt s (step body) fun _ u =>
        u.table.Registers ctx.tree u.pool owner (s.pool.methodNames owner)
          ((ctx.tree.statements body).map fun statement => { walk := u.walk, node := statement })

/-- The state in which an inclusion was given a fresh walk. -/
def openInclusion (s : TypingState σ) (statement : NodeId) : TypingState σ :=
  { s with
    table := s.table.freshInstance.2.setInclusion { walk := s.walk, node := statement }
      s.table.nextInstance }

theorem inclusion?_openInclusion (s : TypingState σ) (statement : NodeId) (v : Visit) :
    (openInclusion s statement).table.inclusion? v =
      if v = { walk := s.walk, node := statement } then some s.table.nextInstance
      else s.table.inclusion? v :=
  TypeTable.inclusion?_setInclusion _ _ v _

/-- Opening an inclusion adds nothing else. -/
theorem Undeclared.openInclusion_preserves {statement : NodeId}
    (hfree : Undeclared ctx.tree s statement) :
    Preserves G (· = statement) s (openInclusion s statement) := by
  refine { Preserves.refl (G := G) (F := (· = statement)) s with
    next_le := Nat.le_succ _
    grows := ⟨fun _ h => h, fun _ h => h⟩
    inclusions := fun v walk hwalk => ?_
    fresh := fun v _ hnot => ⟨id, fun hsome => ?_⟩ }
  · rw [inclusion?_openInclusion, if_neg]
    · exact hwalk
    · rintro rfl
      rw [hfree.inclusion] at hwalk
      cases hwalk
  · rw [inclusion?_openInclusion, if_neg] at hsome
    · exact hsome
    · rintro rfl
      exact hnot ⟨rfl, rfl⟩

/-- The walk of an inclusion can be entered. -/
theorem Accounted.openInclusion {statement : NodeId} (hs : Accounted ctx known s)
    (hfree : Undeclared ctx.tree s statement) :
    Accounted ctx known { openInclusion s statement with walk := s.table.nextInstance } := by
  have hkeeps := hfree.openInclusion_preserves (G := fun _ => False)
  refine { hs with
    complete := ⟨hs.complete.parts, hs.complete.receivers⟩
    walk_lt := Nat.lt_succ_self _
    signatures_lt := fun v hv => Nat.lt_succ_of_lt (hs.signatures_lt v hv)
    inclusions_lt := fun v walk hwalk => ?_
    inclusions_inj := fun v w walk hv hw => ?_
    expansions_lt := fun id index decl e he => ?_
    methods := fun r sig hsig => hs.method_mono hkeeps hsig }
  · have hwalk : (Typing.openInclusion s statement).table.inclusion? v = some walk := hwalk
    rw [inclusion?_openInclusion] at hwalk
    split at hwalk
    · next heq =>
        cases hwalk
        exact ⟨heq ▸ hs.walk_lt, Nat.lt_succ_self _⟩
    · have hold := hs.inclusions_lt v walk hwalk
      exact ⟨hold.1, Nat.lt_succ_of_lt hold.2⟩
  · have hv : (Typing.openInclusion s statement).table.inclusion? v = some walk := hv
    have hw : (Typing.openInclusion s statement).table.inclusion? w = some walk := hw
    rw [inclusion?_openInclusion] at hv hw
    split at hv <;> split at hw
    · next heq heq' => rw [heq, heq']
    · cases hv
      exact absurd (hs.inclusions_lt w _ hw).2 (Nat.lt_irrefl _)
    · cases hw
      exact absurd (hs.inclusions_lt v _ hv).2 (Nat.lt_irrefl _)
    · exact hs.inclusions_inj v w walk hv hw
  · have hold := hs.expansions_lt id index decl e he
    exact ⟨hold.1, Nat.lt_succ_of_lt hold.2⟩

/-- The statements of an included trait are still to be declared in the walk of the inclusion. -/
theorem Undeclared.openInclusion {statement inner body : NodeId} {name : String}
    (hs : Accounted ctx known s) (hfree : Undeclared ctx.tree s statement)
    (hnode : ctx.tree.node statement = .inclusion name)
    (hbody : ctx.tree.traits.lookup name = some body) (hinner : inner ∈ ctx.tree.statements body) :
    Undeclared ctx.tree { openInclusion s statement with walk := s.table.nextInstance } inner := by
  refine ⟨?_, fun hsig => ?_, ?_⟩
  · obtain ⟨decl, hdecl, body', walk, member, hbody', hwalk, hmember, hreach⟩ :=
      hfree.comes.mono hs.distinct (hfree.openInclusion_preserves (G := fun _ => False))
    refine ⟨decl, hdecl, body', walk, member, hbody', hwalk, hmember, hreach.tail ?_⟩
    refine ⟨name, body, hnode, ?_, hbody, hinner⟩
    exact (inclusion?_openInclusion s statement _).trans (if_pos rfl)
  · exact absurd (hs.signatures_lt _ hsig) (Nat.lt_irrefl _)
  · refine (inclusion?_openInclusion s statement _).trans ?_
    rw [if_neg]
    · by_contra hsome
      obtain ⟨walk, hwalk⟩ := Option.ne_none_iff_exists'.mp hsome
      have hold := hs.inclusions_lt _ walk hwalk
      exact absurd (Nat.lt_trans hold.1 hold.2) (Nat.lt_irrefl _)
    · intro heq
      rw [Visit.mk.injEq] at heq
      exact absurd (heq.1 ▸ hs.walk_lt) (Nat.lt_irrefl _)

theorem findTrait_run (s : TypingState σ) (name : String) :
    findTrait name s = match s.scopes.findTrait name with
      | some body => .ok body s
      | none => .error (.error (.uninitialized name)) s := by
  show (match s.scopes.findTrait name with
    | some body => pure body
    | none => fail (.uninitialized name) : Typing σ NodeId) s = _
  cases s.scopes.findTrait name <;> rfl

/-- An inclusion is given a fresh walk, in which the methods of the trait are declared. -/
theorem inclusion_accounted {step : NodeId → Typing σ Unit} {statement : NodeId} {name : String}
    {owner : TypeId} (hstep : DeclaresBody ctx known G owner step) (hs : Accounted ctx known s)
    (hnode : ctx.tree.node statement = .inclusion name)
    (hfree : Undeclared ctx.tree s statement) :
    (accounting ctx known G (· = statement)).KeepsAt s (do
      let traitBody ← findTrait name
      let included ← modifyGet fun s =>
        let (walk, table) := s.table.freshInstance
        (walk, { s with table })
      let v ← visit statement
      modifyTable (·.setInclusion v included)
      withWalk included (step traitBody)) fun _ u =>
        u.table.Registers ctx.tree u.pool owner (s.pool.methodNames owner)
          [{ walk := u.walk, node := statement }] := by
  have hfind := findTrait_run s name
  cases htrait : s.scopes.findTrait name with
  | none =>
      rw [htrait] at hfind
      exact .bind (.of_error (Q := fun _ _ => False) hfind trivial) fun _ _ _ _ h => h.elim
  | some body =>
      rw [htrait] at hfind
      have hbody := (hs.scopes.findTrait_eq name).symm.trans htrait
      have hpositive : 0 < s.table.nextInstance := Nat.lt_of_le_of_lt (Nat.zero_le _) hs.walk_lt
      have hinner := hstep body _ (hs.openInclusion hfree)
        (fun hzero => absurd hzero (Nat.ne_of_gt hpositive))
        fun inner hinner => hfree.openInclusion hs hnode hbody hinner
      refine .bind_read hs hfind ?_
      show (accounting ctx known G (· = statement)).KeepsAt s (fun _ =>
        withWalk s.table.nextInstance (step body) (openInclusion s statement)) _
      unfold Discipline.KeepsAt withWalk within
      unfold Discipline.KeepsAt at hinner
      cases hrun : step body { openInclusion s statement with walk := s.table.nextInstance } with
      | error e t => trivial
      | ok a t =>
          simp only [hrun] at hinner ⊢
          obtain ⟨ht, hle, hdeclared⟩ := hinner
          have hkeeps : Preserves G (· = statement) s { t with walk := s.walk } := by
            refine hfree.openInclusion_preserves.trans (u := t)
              (.setContext (openInclusion s statement) _ s.table.nextInstance _)
              hle.toPreserves (.setContext t _ s.walk _) rfl fun v hv hwalk _ => ?_
            exact absurd (hwalk ▸ hv) (Nat.lt_irrefl _)
          have hwalk : t.table.inclusion? { walk := s.walk, node := statement } =
              some s.table.nextInstance :=
            hle.inclusions _ _ ((inclusion?_openInclusion s statement _).trans (if_pos rfl))
          refine ⟨ht.setWalk t.returnType (Nat.lt_of_lt_of_le hs.walk_lt hkeeps.next_le),
            ⟨hkeeps, hle.pending, hle.expanded, hle.owners⟩, .inclusion hnode hwalk hbody ?_⟩
          rwa [hle.walk] at hdeclared

/-- Type expressions need no signatures and inclusions of their own. -/
theorem TypeExprAccounted.weaken {typeExpr : NodeId → Typing σ TypeId} {F : NodeId → Prop}
    (h : TypeExprAccounted ctx known G (fun _ => False) typeExpr) :
    TypeExprAccounted ctx known G F typeExpr :=
  fun node s hs hw => weaken_accounting (h node s hs hw) fun _ h => h.elim

/-- A loop over distinct statements, with an invariant `I` of those that were processed. Each
statement adds records for what it owns only, so the others stay free until it is their turn. -/
theorem forM_owned (Own : NodeId → NodeId → Prop) (Free : NodeId → TypingState σ → Prop)
    {I : List NodeId → TypingState σ → Prop} {body : NodeId → Typing σ Unit}
    (statements done : List NodeId) (hs : Accounted ctx known s) (hI : I done s)
    (hnodup : statements.Nodup) (hfree : ∀ statement ∈ statements, Free statement s)
    (hkeep : ∀ a ∈ statements, ∀ b ∈ statements, a ≠ b → ∀ t u, Accounted ctx known t →
      Accounts ctx G (Own a) t u → Free b t → Free b u)
    (hbody : ∀ done, ∀ statement ∈ statements, ∀ t, Accounted ctx known t → t.walk = s.walk →
      Free statement t → I done t →
      (accounting ctx known G (Own statement)).KeepsAt t (body statement) fun _ =>
        I (done ++ [statement])) :
    (accounting ctx known G fun node => ∃ statement ∈ statements, Own statement node).KeepsAt s
      (statements.forM body) fun _ => I (done ++ statements) := by
  induction statements generalizing s done with
  | nil => exact .pure hs (by simpa using hI)
  | cons statement statements ih =>
      rw [List.nodup_cons] at hnodup
      show (accounting ctx known G _).KeepsAt s (body statement >>= fun _ => statements.forM body) _
      -- that the step adds records for its own statement only is used before it is forgotten
      have hfirst := (hbody done statement (by simp) s hs rfl (hfree statement (by simp)) hI).weaken
        (R := fun _ t => I (done ++ [statement]) t ∧ ∀ other ∈ statements, Free other t)
        fun _ t _ hle hI => ⟨hI, fun other hother =>
          hkeep statement (by simp) other (List.mem_cons_of_mem _ hother)
            (fun heq => hnodup.1 (heq ▸ hother)) s t hs hle
            (hfree other (List.mem_cons_of_mem _ hother))⟩
      refine .bind (weaken_accounting hfirst fun node hnode => ⟨statement, by simp, hnode⟩)
        fun _ t ht hle ⟨hI, hrest⟩ => ?_
      have hloop := ih _ ht hI hnodup.2 hrest
        (fun a ha b hb => hkeep a (List.mem_cons_of_mem _ ha) b (List.mem_cons_of_mem _ hb))
        fun done other hother u hu hwalk =>
          hbody done other (List.mem_cons_of_mem _ hother) u hu (hwalk.trans hle.walk)
      rw [List.append_assoc, List.singleton_append] at hloop
      exact weaken_accounting hloop fun node ⟨other, hother, hown⟩ =>
        ⟨other, List.mem_cons_of_mem _ hother, hown⟩

/-- One statement of a type's body. -/
theorem declareMember_accounted {step : NodeId → Typing σ Unit} {owner : TypeId}
    {statement : NodeId} (htype : TypeExprAccounted ctx known G (fun _ => False) typeExpr)
    (hstep : DeclaresBody ctx known G owner step) (hs : Accounted ctx known s)
    (hw : Writable ctx.tree G s statement) (hfree : Undeclared ctx.tree s statement) :
    (accounting ctx known G (· = statement)).KeepsAt s
      (do
        let declare : Typing σ Unit := do
          let sig ← signatureOf ctx typeExpr statement (some owner)
          updatePool (·.addMethod owner sig)
          let v ← visit statement
          modifyTable (·.setSignature v sig)
        match ctx.tree.node statement with
        | .methodDef .. => declare
        | .methodDec .. => declare
        | .inclusion name => do
          let traitBody ← findTrait name
          let included ← modifyGet fun s =>
            let (walk, table) := s.table.freshInstance
            (walk, { s with table })
          let v ← visit statement
          modifyTable (·.setInclusion v included)
          withWalk included (step traitBody)
        | _ => pure ()) fun _ u =>
          u.table.Registers ctx.tree u.pool owner (s.pool.methodNames owner)
            [{ walk := u.walk, node := statement }] := by
  have hmethod (h : ctx.tree.IsMethod statement) :
      (accounting ctx known G (· = statement)).KeepsAt s (do
        let sig ← signatureOf ctx typeExpr statement (some owner)
        updatePool (·.addMethod owner sig)
        let v ← visit statement
        modifyTable (·.setSignature v sig)) fun _ u =>
          u.table.Registers ctx.tree u.pool owner (s.pool.methodNames owner)
            [{ walk := u.walk, node := statement }] := by
    have hsig := (signatureOf_accounted htype (some owner) hs hw).weaken
      (R := fun sig u => Undeclared ctx.tree u statement ∧
        sig.NamedBy ctx.tree statement (methodLink (u.pool.display owner)))
      fun _ u _ hle hnamed => ⟨hfree.mono hs hle.toPreserves id, hnamed⟩
    refine .bind (weaken_accounting hsig fun _ h => h.elim) fun sig u hu hle ⟨hfree, hnamed⟩ => ?_
    refine (addMethod_accounted hu h hfree hnamed).weaken fun _ v _ _ hv => .single ?_ fun _ =>
      hv.mono (.refl _) (fun _ _ h => h) (hle.pool.methodNames_subset owner)
    intro name hnode
    simp [SyntaxTree.IsMethod, hnode] at h
  dsimp only
  split
  · next hnode => exact hmethod (by simp [SyntaxTree.IsMethod, hnode])
  · next hnode => exact hmethod (by simp [SyntaxTree.IsMethod, hnode])
  · next name hnode => exact inclusion_accounted hstep hs hnode hfree
  · next hdef hdec hincl =>
      refine .pure hs (.single hincl fun h => ?_)
      unfold SyntaxTree.IsMethod at h
      split at h
      · next hnode => exact absurd hnode (hdef _ _ _ _)
      · next hnode => exact absurd hnode (hdec _ _ _ _)
      · exact h.elim

/-- The methods of a body are registered, those of included traits with signatures in fresh
walks. -/
theorem declareMethodsWithin_accounted
    (htype : TypeExprAccounted ctx known G (fun _ => False) typeExpr)
    (hnodup : ∀ node, (ctx.tree.statements node).Nodup) (owner : TypeId) (fuel : Nat) :
    DeclaresBody ctx known G owner fun body => declareMethodsWithin ctx typeExpr fuel body owner := by
  induction fuel with
  | zero => exact fun _ _ _ _ _ => throw_accounted
  | succ fuel ih =>
      intro body s hs hw hfree
      unfold declareMethodsWithin
      have hloop := forM_owned (fun statement node => node = statement)
        (fun statement t => Undeclared ctx.tree t statement)
        (I := fun done u => u.walk = s.walk ∧ s.pool.Evolves u.pool ∧
          u.table.Registers ctx.tree u.pool owner (s.pool.methodNames owner)
            (done.map fun statement => { walk := s.walk, node := statement }))
        (ctx.tree.statements body) [] hs ⟨rfl, .refl _, .nil⟩ (hnodup body) hfree
        (fun a _ b _ hne t u ht hle h => h.mono ht hle.toPreserves (Ne.symm hne))
        fun done statement hstatement t ht hwalk hfree ⟨_, hpool, hI⟩ =>
          (declareMember_accounted htype ih ht (fun hzero =>
            hw.below (SyntaxTree.below_of_mem_statements hstatement) (hwalk.symm.trans hzero))
            hfree).weaken fun _ u _ hle h => ⟨hle.walk.trans hwalk, hpool.trans hle.pool, by
              rw [hle.walk, hwalk] at h
              rw [List.map_append, List.map_singleton]
              exact hI.append h hle.pool hle.signatures hle.inclusions
                (hpool.methodNames_subset owner) (List.Subset.refl _)⟩
      have howned : ∀ node, (∃ statement ∈ ctx.tree.statements body, node = statement) →
          node ∈ ctx.tree.statements body := by
        rintro node ⟨statement, hstatement, rfl⟩
        exact hstatement
      refine (weaken_accounting hloop howned).weaken fun _ u _ _ h => ?_
      rw [h.1]
      exact h.2.2

/-! ## Expansions -/

/-- The statements in the body of a type declaration. -/
def InBody (tree : SyntaxTree) (decl statement : NodeId) : Prop :=
  ∃ body, tree.bodyOf? decl = some body ∧ statement ∈ tree.statements body

theorem Writable.of_pos {tree : SyntaxTree} {node : NodeId} (h : 0 < s.walk) :
    Writable tree G s node :=
  fun hzero => absurd hzero (Nat.ne_of_gt h)

/-- The members of an expanded type are declared in its walk. -/
theorem declareExpanded_accounted
    (htype : TypeExprAccounted ctx known G (fun _ => False) typeExpr)
    (hnodup : ∀ node, (ctx.tree.statements node).Nodup) (decl : NodeId) (r : TypeId)
    (hs : Accounted ctx known s) (hpos : 0 < s.walk)
    (hfree : ∀ statement, InBody ctx.tree decl statement → Undeclared ctx.tree s statement) :
    (accounting ctx known G (InBody ctx.tree decl)).KeepsAt s
      (declareExpanded ctx typeExpr decl r) fun _ u =>
        MembersDeclared ctx.tree u.table u.pool decl r u.walk := by
  -- declaring the methods of the body, after steps that declared nothing
  have hmethods : ∀ body u, ctx.tree.bodyOf? decl = some body → Accounted ctx known u →
      Accounts ctx G (fun _ => False) s u →
      (accounting ctx known G (InBody ctx.tree decl)).KeepsAt u
        (declareMethods ctx typeExpr body r) fun _ v =>
          MembersDeclared ctx.tree v.table v.pool decl r v.walk := by
    intro body u hbody hu hle
    have hdeclare := declareMethodsWithin_accounted htype hnodup r (ctx.tree.size + 1) body u hu
      (.of_pos (hle.walk.symm ▸ hpos)) fun statement hstatement =>
        (hfree statement ⟨body, hbody, hstatement⟩).mono hs hle.toPreserves id
    refine (weaken_accounting hdeclare fun _ h => ⟨body, hbody, h⟩).weaken fun _ v _ _ hv => ?_
    intro body' hbody'
    rw [hbody] at hbody'
    cases hbody'
    exact hv.mono (.refl _) (fun _ _ h => h) (fun _ _ h => h) (List.nil_subset _)
  unfold declareExpanded
  split
  · next name param body hnode =>
      have hbody : ctx.tree.bodyOf? decl = some body := by simp [SyntaxTree.bodyOf?, hnode]
      have hivars := (collectIvarsInto_accounted htype (ctx.tree.size + 1) body true [] hs
        (.of_pos hpos) fun _ _ => .of_pos hpos).weaken
        (R := fun _ u => Accounts ctx G (fun _ => False) s u) fun _ _ _ hle _ => hle
      refine .bind (weaken_accounting hivars fun _ h => h.elim) fun ivars u hu _ hle => ?_
      refine .bind (modifyScopes_accounted (Q := fun _ v => Accounts ctx G (fun _ => False) s v)
        hu hu.scopes.foldl_addIvar (hle.trans (.of_same (.setContext _ _ _ _) rfl)))
        fun _ v hv _ hle => ?_
      refine .bind (updatePool_accounted (Q := fun _ w => Accounts ctx G (fun _ => False) s w)
        hv fun p hp => ⟨.setIvars hp, hle.trans
          (.of_same (.setPool _ (Pool.AddsNoMethod.setIvars hp).evolves) rfl)⟩)
        fun _ w hw _ hle => ?_
      exact hmethods body w hbody hw hle
  · next name param cases body hnode =>
      have hbody : ctx.tree.bodyOf? decl = body := by simp [SyntaxTree.bodyOf?, hnode]
      have hcases := (addCases_accounted htype r cases hs fun _ _ => .of_pos hpos).weaken
        (R := fun _ u => Accounts ctx G (fun _ => False) s u) fun _ _ _ hle _ => hle
      refine .bind (weaken_accounting hcases fun _ h => h.elim) fun added u hu _ hle => ?_
      cases body with
      | some body => exact hmethods body u hbody hu hle
      | none => exact .pure hu (by simp [MembersDeclared, hbody])
  · next hclass hdata =>
      refine .pure hs fun body hbody => ?_
      unfold SyntaxTree.bodyOf? at hbody
      split at hbody
      · next hnode => exact absurd hnode (hclass _ _ _)
      · next hnode => exact absurd hnode (hdata _ _ _ _)
      · cases hbody

/-- The expansions after one was added to a template. -/
theorem expansionAt?_set {templates : List Template} {id : TemplateId} {template : Template}
    (hid : templates[id]? = some template) (e : Expansion) (other index : Nat) :
    expansionAt? (templates.set id { template with expansions := template.expansions ++ [e] })
      other index =
      if other = id ∧ index = template.expansions.length then some (template.decl, e)
      else expansionAt? templates other index := by
  have hlt := (List.getElem?_eq_some_iff.mp hid).1
  unfold expansionAt?
  by_cases hother : other = id
  · subst hother
    rw [List.getElem?_set_self hlt, hid]
    simp only [Option.bind_some, true_and]
    split
    · next h => simp [h]
    · next h =>
        rw [List.getElem?_append]
        split
        · rfl
        · next hnot =>
            rw [List.getElem?_eq_none (by simp; omega), List.getElem?_eq_none (by omega)]
  · rw [List.getElem?_set_ne (Ne.symm hother), if_neg fun h => hother h.1]

theorem within_ok {α : Type} {enter : TypingState σ → TypingState σ}
    {leave : TypingState σ → TypingState σ → TypingState σ} {step : Typing σ α} {a : α}
    (h : step (enter s) = .ok a t) : within enter leave step s = .ok a (leave s t) := by
  rw [within, h]

theorem within_error {α : Type} {enter : TypingState σ → TypingState σ}
    {leave : TypingState σ → TypingState σ → TypingState σ} {step : Typing σ α} {e : Halt}
    (h : step (enter s) = .error e t) : within enter leave step s = .error e (leave s t) := by
  rw [within, h]

/-- The state in which an expansion was registered. -/
def openExpansion (s : TypingState σ) (id : TemplateId) (template : Template) (name : String)
    (arg r : TypeId) (p : Pool) : TypingState σ :=
  { s with
    pool := p
    scopes := s.scopes.bindModule name (.type r)
    table := s.table.freshInstance.2.record
      { walk := s.table.nextInstance, node := template.decl } r
    templates := s.templates.set id { template with
      expansions := template.expansions ++
        [{ args := [arg], type := r, walk := s.table.nextInstance }] } }

/-- The state in which the members of a new expansion are declared. -/
def enterExpansion (s : TypingState σ) (id : TemplateId) (template : Template) (name : String)
    (arg r : TypeId) (p : Pool) : TypingState σ :=
  (openExpansion s id template name arg r p).relocate {
    inner := [(Scope.forType r []).bind template.param (.type arg)]
    walk := s.table.nextInstance
    returnType := none }

/-- The state after the members were declared and the expansion was queued. -/
def leaveExpansion (s : TypingState σ) (id : TemplateId) (template : Template)
    (t : TypingState σ) : TypingState σ :=
  { t.relocate s.site with pending := t.pending ++ [(id, template.expansions.length)] }

/-- Make a new expansion: register it, declare its members in a fresh walk, and queue it. -/
def makeExpansion (ctx : TypingContext σ) (typeExpr : NodeId → Typing σ TypeId) (id : TemplateId)
    (template : Template) (name : String) (arg : TypeId) (f : Pool → TypeId × Pool) :
    Typing σ TypeId := do
  let walk ← modifyGet fun s =>
    let (walk, table) := s.table.freshInstance
    (walk, { s with table })
  let t ← makeType f
  let index ← addExpansion id { args := [arg], type := t, walk }
  modifyScopes (·.bindModule name (.type t))
  modifyTable (·.record { walk, node := template.decl } t)
  withIsolatedFrame walk ((Scope.forType t []).bind template.param (.type arg))
    (declareExpanded ctx typeExpr template.decl t)
  modify fun s => { s with pending := s.pending ++ [(id, index)] }
  pure t

section OpenExpansion

variable {id : TemplateId} {template : Template} {name : String} {arg r : TypeId} {p : Pool}

section Making

variable {f : Pool → TypeId × Pool} (hfound : s.templates.getD id default = template)

include hfound

theorem makeExpansion_eq : makeExpansion ctx typeExpr id template name arg f s = (do
      withIsolatedFrame s.table.nextInstance
        ((Scope.forType (f s.pool).1 []).bind template.param (.type arg))
        (declareExpanded ctx typeExpr template.decl (f s.pool).1)
      modify fun s => { s with pending := s.pending ++ [(id, template.expansions.length)] }
      pure (f s.pool).1 : Typing σ TypeId)
        (openExpansion s id template name arg (f s.pool).1 (f s.pool).2) := by
  subst hfound
  rfl

/-- The members are declared in the state that was entered. -/
theorem makeExpansion_ok {a : Unit} (h : declareExpanded ctx typeExpr template.decl (f s.pool).1
      (enterExpansion s id template name arg (f s.pool).1 (f s.pool).2) = .ok a t) :
    makeExpansion ctx typeExpr id template name arg f s =
      .ok (f s.pool).1 (leaveExpansion s id template t) := by
  have hwithin : withIsolatedFrame s.table.nextInstance
      ((Scope.forType (f s.pool).1 []).bind template.param (.type arg))
      (declareExpanded ctx typeExpr template.decl (f s.pool).1)
      (openExpansion s id template name arg (f s.pool).1 (f s.pool).2) =
        .ok a (t.relocate s.site) := within_ok h
  rw [makeExpansion_eq hfound, bind_of_ok hwithin]
  rfl

theorem makeExpansion_error {e : Halt} (h : declareExpanded ctx typeExpr template.decl (f s.pool).1
      (enterExpansion s id template name arg (f s.pool).1 (f s.pool).2) = .error e t) :
    makeExpansion ctx typeExpr id template name arg f s = .error e (t.relocate s.site) := by
  have hwithin : withIsolatedFrame s.table.nextInstance
      ((Scope.forType (f s.pool).1 []).bind template.param (.type arg))
      (declareExpanded ctx typeExpr template.decl (f s.pool).1)
      (openExpansion s id template name arg (f s.pool).1 (f s.pool).2) =
        .error e (t.relocate s.site) := within_error h
  rw [makeExpansion_eq hfound]
  simp only [Bind.bind, EStateM.bind, hwithin]

end Making

theorem expansionAt?_openExpansion (hid : s.templates[id]? = some template) (other index : Nat) :
    expansionAt? (openExpansion s id template name arg r p).templates other index =
      if other = id ∧ index = template.expansions.length then
        some (template.decl, { args := [arg], type := r, walk := s.table.nextInstance })
      else expansionAt? s.templates other index :=
  expansionAt?_set hid _ other index

theorem decls_openExpansion (hid : s.templates[id]? = some template) :
    (openExpansion s id template name arg r p).templates.map (·.decl) =
      s.templates.map (·.decl) := by
  refine List.ext_getElem? fun i => ?_
  simp only [openExpansion, List.map_set, List.getElem?_set, List.length_map, List.getElem?_map]
  split
  · next h =>
      have hlt := (List.getElem?_eq_some_iff.mp hid).1
      rw [if_pos (h ▸ hlt), ← h, hid, Option.map_some]
  · rfl

/-- Registering an expansion keeps all records. -/
theorem Accounted.openExpansion_preserves (hs : Accounted ctx known s)
    (hid : s.templates[id]? = some template) (hp : s.pool.AddsNoMethod p) :
    Preserves G F s (openExpansion s id template name arg r p) := by
  refine { Preserves.refl (G := G) (F := F) s with
    next_le := Nat.le_succ _
    grows := ⟨(s.table.freshInstance.2.grows_record _ r).types, fun _ h => h⟩
    elsewhere := fun node _ => ⟨?_, rfl⟩
    decls := decls_openExpansion hid
    expansions := fun other index x hx => ?_
    pool := hp.evolves }
  · refine (s.table.freshInstance.2.get?_record _ _ r).trans (if_neg fun heq => ?_)
    rw [Visit.mk.injEq] at heq
    exact absurd (heq.1 ▸ hs.walk_lt) (Nat.not_lt_zero _)
  · rw [expansionAt?_openExpansion hid, if_neg]
    · exact hx
    · rintro ⟨rfl, rfl⟩
      simp [expansionAt?, hid] at hx

/-- Registering an expansion of a class or data type keeps the invariant. -/
theorem Accounted.openExpansion (hs : Accounted ctx known s)
    (hid : s.templates[id]? = some template) (hp : s.pool.AddsNoMethod p)
    (hdecl : ctx.tree.IsTypeDecl template.decl) :
    Accounted ctx known (openExpansion s id template name arg r p) := by
  have hkeeps : Preserves (fun _ => False) (fun _ => False) s
      (Typing.openExpansion s id template name arg r p) := hs.openExpansion_preserves hid hp
  have hcount : (Typing.openExpansion s id template name arg r p).templates.length =
      s.templates.length := by
    simpa using congrArg List.length hkeeps.decls
  have hpositive : 0 < s.table.nextInstance := Nat.lt_of_le_of_lt (Nat.zero_le _) hs.walk_lt
  refine { hs with
    complete := ?_
    walk_lt := Nat.lt_succ_of_lt hs.walk_lt
    signatures_lt := fun v hv => Nat.lt_succ_of_lt (hs.signatures_lt v hv)
    inclusions_lt := fun v walk hwalk => ?_
    expansions_lt := fun other index decl e he => ?_
    expansions_inj := fun id index decl e id' index' decl' e' he he' hwalk => ?_
    scopes := ?_
    templates := ?_
    distinct := ?_
    methods := fun t sig hsig => hs.method_mono hkeeps (hp.methods t hsig) }
  · have hsame : s.table.freshInstance.2.Complete ctx.tree :=
      ⟨hs.complete.parts, hs.complete.receivers⟩
    refine hsame.record ?_
    unfold SyntaxTree.IsTypeDecl at hdecl
    unfold TypeTable.PartsCovered
    split at hdecl <;> simp_all
  · have hold := hs.inclusions_lt v walk hwalk
    exact ⟨hold.1, Nat.lt_succ_of_lt hold.2⟩
  · rw [expansionAt?_openExpansion hid] at he
    split at he
    · cases he
      exact ⟨hpositive, Nat.lt_succ_self _⟩
    · have hold := hs.expansions_lt other index decl e he
      exact ⟨hold.1, Nat.lt_succ_of_lt hold.2⟩
  · rw [expansionAt?_openExpansion hid] at he he'
    split at he <;> split at he'
    · next h h' => exact ⟨h.1.trans h'.1.symm, h.2.trans h'.2.symm⟩
    · cases he
      exact absurd (hwalk ▸ (hs.expansions_lt id' index' decl' e' he').2) (Nat.lt_irrefl _)
    · cases he'
      exact absurd (hwalk.symm ▸ (hs.expansions_lt id index decl e he).2) (Nat.lt_irrefl _)
    · exact hs.expansions_inj id index decl e id' index' decl' e' he he' hwalk
  · rw [hcount]
    exact hs.scopes.bindModule (by simp)
  · rw [decls_openExpansion hid]
    exact hs.templates
  · rw [decls_openExpansion hid]
    exact hs.distinct

/-- The members of an expansion that was just registered are still to be declared. -/
theorem Accounted.undeclared_openExpansion (hs : Accounted ctx known s)
    (hid : s.templates[id]? = some template) {t : TypingState σ}
    (ht : SameRecords (Typing.openExpansion s id template name arg r p) t)
    (hwalk : t.walk = s.table.nextInstance) {statement : NodeId}
    (hbody : InBody ctx.tree template.decl statement) : Undeclared ctx.tree t statement := by
  obtain ⟨body, hbody, hstatement⟩ := hbody
  refine ⟨?_, ?_, ?_⟩ <;> rw [hwalk]
  · refine ⟨template.decl, ?_, body, s.table.nextInstance, statement, hbody, ?_, hstatement, .refl⟩
    · refine (hs.templates template.decl ?_).1
      exact List.mem_map_of_mem (List.mem_of_getElem? hid)
    · rw [TypedModule.isInstance_iff]
      · refine .inl ⟨id, template.expansions.length,
          { args := [arg], type := r, walk := s.table.nextInstance }, ?_, rfl⟩
        show expansionAt? t.templates _ _ = _
        rw [ht.templates, expansionAt?_openExpansion hid, if_pos ⟨rfl, rfl⟩]
      · show (t.templates.map (·.decl)).Nodup
        rw [ht.templates, decls_openExpansion hid]
        exact hs.distinct
  · rw [ht.table]
    exact fun hsig => absurd (hs.signatures_lt _ hsig) (Nat.lt_irrefl _)
  · rw [ht.table]
    by_contra hsome
    obtain ⟨walk, hwalk⟩ := Option.ne_none_iff_exists'.mp hsome
    have hold := hs.inclusions_lt _ walk hwalk
    exact absurd (Nat.lt_trans hold.1 hold.2) (Nat.lt_irrefl _)

/-- An expansion is registered, declared in a fresh walk and queued. -/
theorem makeExpansion_accounted
    (htype : TypeExprAccounted ctx known G (fun _ => False) typeExpr)
    (hnodup : ∀ node, (ctx.tree.statements node).Nodup) (name : String) (arg : TypeId)
    (f : Pool → TypeId × Pool) (hs : Accounted ctx known s)
    (hid : s.templates[id]? = some template)
    (hp : s.pool.AddsNoMethod (f s.pool).2) (hdecl : ctx.tree.IsTypeDecl template.decl) :
    (accounting ctx known G (fun _ => False)).KeepsAt s
      (makeExpansion ctx typeExpr id template name arg f) fun _ _ => True := by
  have hfound : s.templates.getD id default = template := by simp [List.getD, hid]
  let opened := openExpansion s id template name arg (f s.pool).1 (f s.pool).2
  let isolated := enterExpansion s id template name arg (f s.pool).1 (f s.pool).2
  have hopened : Accounted ctx known opened := hs.openExpansion hid hp hdecl
  have hkeeps : Preserves G (fun _ => False) s opened := hs.openExpansion_preserves hid hp
  have hpositive : 0 < s.table.nextInstance := Nat.lt_of_le_of_lt (Nat.zero_le _) hs.walk_lt
  have hisolated : Accounted ctx known isolated :=
    (hopened.setScopes (hopened.scopes.isolate.push (Scope.Plain.forType.bind (by simp)))).setWalk
      none (Nat.lt_succ_self _)
  have hinner := declareExpanded_accounted htype hnodup template.decl (f s.pool).1 hisolated
    hpositive fun statement hbody =>
      hs.undeclared_openExpansion hid (⟨rfl, rfl, rfl, rfl⟩ : SameRecords opened isolated) rfl
        hbody
  cases hrun : declareExpanded ctx typeExpr template.decl (f s.pool).1 isolated with
  | error e t => exact .of_error (makeExpansion_error hfound hrun) trivial
  | ok a t =>
      obtain ⟨ht, hle, hdeclared⟩ := hinner.ok hrun
      have hlt : s.walk < t.table.nextInstance :=
        Nat.lt_of_lt_of_le hs.walk_lt (Nat.le_trans hkeeps.next_le hle.next_le)
      have hleft : Preserves G (fun _ => False) s (t.relocate s.site) := by
        refine hkeeps.trans (u := t) (.setContext opened _ _ _) hle.toPreserves
          (.setContext t _ _ _) rfl fun v hv hwalk _ => ?_
        exact absurd (hwalk ▸ hv) (Nat.lt_irrefl _)
      have hfinal : Preserves G (fun _ => False) s (leaveExpansion s id template t) :=
        { hleft with grows := ⟨hleft.grows.types, hleft.grows.targets⟩ }
      have hcount : t.templates.length = s.templates.length := by
        simpa [TypingState.relocate] using congrArg List.length hleft.decls
      have hscopes := hs.scopes
      rw [← hcount] at hscopes
      have hleftInv : Accounted ctx known (t.relocate s.site) :=
        (ht.setScopes (ht.scopes.restore hscopes)).setWalk _ hlt
      have hpending : t.pending ⊆ (leaveExpansion s id template t).pending :=
        fun x hx => List.mem_append_left _ hx
      refine .of_ok (makeExpansion_ok hfound hrun) { hleftInv with } ⟨hfinal, fun x hx => hpending (hle.pending hx),
        fun other index decl e he => ?_, fun decl hdecl owner howner => ?_⟩ trivial
      · rcases hle.expanded other index decl e he with hold | ⟨hmem, hnew⟩
        · change expansionAt? opened.templates other index = _ at hold
          rw [expansionAt?_openExpansion hid] at hold
          split at hold
          · next heq =>
              cases hold
              rw [hle.walk] at hdeclared
              exact .inr ⟨by simp [heq, leaveExpansion], hdeclared⟩
          · exact .inl hold
        · exact .inr ⟨hpending hmem, hnew⟩
      · refine hle.owners decl hdecl owner ?_
        refine (s.table.freshInstance.2.get?_record _ _ _).trans ((if_neg fun heq => ?_).trans howner)
        exact absurd (Visit.mk.inj heq).1 (Nat.ne_of_lt hpositive)

end OpenExpansion

theorem expand_accounted (htype : TypeExprAccounted ctx known G (fun _ => False) typeExpr)
    (hnodup : ∀ node, (ctx.tree.statements node).Nodup) {id : TemplateId} {args : List TypeId}
    (hs : Accounted ctx known s) (hid : id < s.templates.length) :
    (accounting ctx known G F).KeepsAt s (expand ctx typeExpr id args) fun _ _ => True := by
  refine weaken_accounting (F := fun _ => False) ?_ fun _ h => h.elim
  obtain ⟨template, htemplate⟩ : ∃ template, s.templates[id]? = some template :=
    ⟨_, List.getElem?_eq_getElem hid⟩
  refine .bind_read hs (b := s) rfl ?_
  have hget : s.templates.getD id default = template := by simp [List.getD, htemplate]
  rw [hget]
  dsimp only
  split
  · exact .pure hs trivial
  · split
    · next arg _ =>
        refine .bind_read hs (b := _) rfl (.bind_read hs (b := _) rfl ?_)
        have hmake (name : String) (f : Pool → TypeId × Pool)
            (hp : s.pool.AddsNoMethod (f s.pool).2)
            (hdecl : ctx.tree.IsTypeDecl template.decl) :=
          makeExpansion_accounted htype hnodup name arg f hs htemplate hp hdecl
        split
        · next hnode =>
            exact hmake _ (·.newReference _) (.push rfl) (by simp [SyntaxTree.IsTypeDecl, hnode])
        · next hnode =>
            exact hmake _ (·.newData _) (.push rfl) (by simp [SyntaxTree.IsTypeDecl, hnode])
        · exact .of_error rfl trivial
    · exact fail_accounted

theorem namedType_accounted {name : String} (hs : Accounted ctx known s) :
    (accounting ctx known G F).KeepsAt s (namedType name) fun _ _ => True := by
  refine .bind_read hs (b := s) rfl ?_
  dsimp only
  split
  · exact .pure hs trivial
  · exact fail_accounted
  · split <;> exact fail_accounted

theorem declaresType_of_isTypeExpr {d : Node} (h : d.isTypeExpr) : d.declaresType = false := by
  unfold Node.isTypeExpr at h
  split at h
  case h_6 => cases h
  all_goals rfl

/-- A type that is written out has no parts that are typed as code. -/
theorem partsCovered_of_isTypeExpr {table : TypeTable} {v : Visit}
    (h : (ctx.tree.node v.node).isTypeExpr) : table.PartsCovered ctx.tree v := by
  unfold Node.isTypeExpr at h
  unfold TypeTable.PartsCovered
  split at h
  case h_6 => cases h
  all_goals next hnode => simp [hnode]

/-- Type expressions account for what they bring about. -/
theorem typeExprWithin_accounted (hnodup : ∀ node, (ctx.tree.statements node).Nodup) (fuel : Nat) :
    TypeExprAccounted ctx known G F (typeExprWithin ctx fuel) := by
  suffices TypeExprAccounted ctx known G (fun _ => False) (typeExprWithin ctx fuel) from
    this.weaken
  induction fuel with
  | zero => exact fun _ _ _ _ => throw_accounted
  | succ fuel ih =>
      intro node s hs hw
      have hrecord : (ctx.tree.node node).isTypeExpr → ∀ r u, Accounted ctx known u →
          Accounts ctx G (fun _ => False) s u → True →
          (accounting ctx known G fun _ => False).KeepsAt u (do record node r; pure r)
            fun _ _ => True := by
        intro htype r u hu hle _
        exact .bind (record_accounted (Q := fun _ _ => True) hu (hw.mono hle).self
          (partsCovered_of_isTypeExpr htype) (by simp [declaresType_of_isTypeExpr htype]) trivial)
          fun _ v hv _ _ => .pure hv trivial
      have hargs : ∀ (args : List NodeId) t, Accounted ctx known t → Accounts ctx G (fun _ => False) s t →
          (∀ arg ∈ args, arg ∈ (ctx.tree.node node).children) →
          (accounting ctx known G fun _ => False).KeepsAt t (args.mapM (typeExprWithin ctx fuel))
            fun _ _ => True := by
        intro args t ht hle hargs
        refine (Discipline.mapM_keeps_all (P := fun _ _ => True) args ht (fun _ _ _ _ _ _ h => h)
          fun arg harg u hu hle' => ih arg u hu ?_).trivial
        exact ((hw.child (hargs arg harg)).mono hle).mono hle'
      unfold typeExprWithin
      dsimp only
      split
      · next hnode =>
          exact .bind (namedType_accounted hs)
            (hrecord (by simp [hnode, Node.isTypeExpr]))
      · next target hnode =>
          refine .bind (ih target s hs (hw.child (by simp [hnode, Node.children])))
            fun r u hu hle _ => ?_
          refine .bind (makeType_accounted (Q := fun _ _ => True) hu (.pointer r) trivial)
            fun p v hv hle' _ => ?_
          exact hrecord (by simp [hnode, Node.isTypeExpr]) p v hv (hle.trans hle') trivial
      · next name args hnode =>
          refine .bind_read hs (b := s) rfl ?_
          split
          · exact .bind (fail_accounted (Q := fun _ _ => False)) fun _ _ _ _ h => h.elim
          · next id hid =>
              refine .bind (hargs args s hs (.refl s) (by simp [hnode, Node.children]))
                fun types u hu hle _ => ?_
              have hlt : id < u.templates.length := by
                have hlt := hs.scopes.findTemplate_lt hid
                rwa [← List.length_map (·.decl), ← hle.decls, List.length_map] at hlt
              refine .bind (expand_accounted ih hnodup hu hlt) fun r v hv hle' _ => ?_
              exact hrecord (by simp [hnode, Node.isTypeExpr]) r v hv (hle.trans hle') trivial
      · next params result hnode =>
          refine .bind (hargs params s hs (.refl s) fun arg harg => by
            simp [hnode, Node.children, harg]) fun types u hu hle _ => ?_
          refine .bind (ih result u hu ((hw.child (by simp [hnode, Node.children])).mono hle))
            fun r v hv hle' _ => ?_
          refine .bind (makeType_accounted (Q := fun _ _ => True) hv (.closure _ _ _) trivial)
            fun p w hw' hle'' _ => ?_
          exact hrecord (by simp [hnode, Node.isTypeExpr]) p w hw' ((hle.trans hle').trans hle'')
            trivial
      · next type hnode =>
          exact .bind (ih type s hs (hw.child (by simp [hnode, Node.children])))
            (hrecord (by simp [hnode, Node.isTypeExpr]))
      · exact .bind (fail_accounted (Q := fun _ _ => False)) fun _ _ _ _ h => h.elim

theorem typeExpr_accounted (hnodup : ∀ node, (ctx.tree.statements node).Nodup) :
    TypeExprAccounted ctx known G F (Typing.typeExpr ctx) :=
  typeExprWithin_accounted hnodup _

end ClassLang.Typing
