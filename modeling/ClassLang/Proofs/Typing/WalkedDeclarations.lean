import ClassLang.Proofs.Typing.WalkRules

/-!
# Declarations and type expressions keep the rules of a walk

Whatever `WalkRules` there are, layouts, cases, signatures and methods are declared in keeping with
them, generic types are expanded in keeping with them, and what a type expression denotes is as the
rules say. All of this holds under any licence, since nothing but the frame of an expansion gets new
names. Under strict rules members are declared on types that take them, and an expansion has all its
cases when it is queued.
-/

namespace ClassLang.Typing.WalkRules

variable {σ : Type} {ctx : TypingContext σ} {rules : WalkRules ctx} {l : Licence}
  {s : TypingState σ} {typeExpr : NodeId → Typing σ TypeId}

variable (rules) in
/-- Type expressions are read with a bound on their nesting, and they keep the rules under any
licence. -/
structure TypeExprKeeps (typeExpr : NodeId → Typing σ TypeId) : Prop where
  bounded : ∃ fuel, typeExpr = typeExprWithin ctx fuel
  denotes : ∀ l node, (rules.strict → (ctx.tree.node node).isTypeExpr) →
    rules.Denotes l (typeExpr node)

/-- The type that a part of a node denotes. -/
theorem TypeExprKeeps.part (htype : rules.TypeExprKeeps typeExpr) {node part : NodeId} {d : Node}
    (hnode : ctx.tree.node node = d) (hpart : part ∈ d.typeParts) :
    rules.Denotes l (typeExpr part) :=
  htype.denotes l part (typePart (by rwa [hnode]))

/-- Internal errors are not ruled out, as those of a node at a place where it must not stand. -/
theorem not_strict {P : Prop} (h : rules.strict → P) (hP : ¬ P) : ¬ rules.strict :=
  fun hstrict => hP (h hstrict)

/-! ## Members -/

theorem findTrait_keeps (name : String) : rules.Keeps l (findTrait name) := by
  refine .get fun s => ?_
  split
  · exact .pure _
  · exact .fail (by simp)

theorem collectIvarsInto_keeps (htype : rules.TypeExprKeeps typeExpr) (fuel : Nat) (body : NodeId)
    (recording : Bool) (ivars : List (String × TypeId)) :
    rules.Keeps l (collectIvarsInto ctx typeExpr fuel body recording ivars) := by
  induction fuel generalizing body recording ivars with
  | zero => exact .outOfFuel
  | succ fuel ih =>
      unfold collectIvarsInto
      refine .foldlM fun ivars statement _ => ?_
      dsimp only
      split
      · next hnode =>
        refine (htype.part hnode (by simp [Node.typeParts])).keeps.bind fun declared => ?_
        split
        · exact .stop (by simp)
        · split
          · exact (Keeps.record _ _ (by rw [hnode]; rfl)).bind fun _ => .pure _
          · exact .pure _
      · exact (findTrait_keeps _).bind fun traitBody => ih traitBody _ _
      · exact .pure _

theorem caseFields_keeps (htype : rules.TypeExprKeeps typeExpr) (caseName : String)
    (fields : List NodeId) : rules.Keeps l (caseFields ctx typeExpr caseName fields) := by
  refine .mapM fun field _ => ?_
  split
  · next hnode =>
      exact (htype.part hnode (by simp [Node.typeParts])).keeps.bind fun _ =>
        (Keeps.record _ _ (by rw [hnode]; rfl)).bind fun _ => .pure _
  · exact .mismatch _

/-- A case is declared: its fields are typed, and it is added. -/
theorem addCase_keeps (htype : rules.TypeExprKeeps typeExpr) {owner : TypeId} {ownerName name : String}
    {cases fields : List NodeId} {count : Nat} {decl : NodeId}
    (hdecl : cases[count]? = some decl) (hnode : ctx.tree.node decl = .caseDef name fields)
    (hs : rules.inv l s) (hfilling : rules.filling l owner cases count s)
    (howner : rules.strict → s.pool.HasCases owner 0) :
    (rules.discipline l).KeepsAt s (do
      let fields ← caseFields ctx typeExpr name fields
      let s ← get
      let (t, pool) ← ofExcept (s.pool.addCase owner (ownerName ++ "." ++ name) name fields)
      set { s with pool }
      record decl t
      pure t) fun r t => rules.denoted r t ∧ rules.filling l owner cases (count + 1) t ∧
        (rules.follows → ∀ n, s.pool.HasCases owner n → t.pool.HasCases owner (n + 1)) := by
  refine .bind (types_at hs (caseFields_keeps htype name fields s (rules.types hs).enters))
    fun fields u hu hle ⟨_, hread⟩ => ?_
  have hcount (hfollows : rules.follows) (n) (h : s.pool.HasCases owner n) :
      u.pool.HasCases owner n := h.mono ((rules.followed hfollows).evolves hle)
  refine .bind_read hu rfl (.bind (ofExcept_at (Q := fun new v => v = u ∧
    u.pool.addCase owner (ownerName ++ "." ++ name) name fields = .ok new) hu
    (fun h => Pool.addCase_faultless (hcount (rules.follows_of_strict h) 0 (howner h)))
    fun new hnew => ⟨rfl, hnew⟩) ?_)
  rintro ⟨r, q⟩ u - - ⟨rfl, hnew⟩
  obtain ⟨hinv, hle', hfilled⟩ := rules.case hu (rules.filling_mono hs hread hfilling) hdecl hnode hnew
  refine .bind (P := fun _ w => w = { u with pool := q }) (.of_ok rfl hinv hle' rfl) ?_
  rintro - _ - - rfl
  refine .bind (types_at hinv (Keeps.record decl r (by rw [hnode]; rfl) _ (rules.types hinv).enters))
    fun _ w hw hle'' ⟨_, hread'⟩ => .pure hw ⟨?_, rules.filling_mono hinv hread' hfilled, ?_⟩
  · exact rules.denoted_mono hinv hle'' (rules.denoted_case hu hnew)
  · intro hfollows n h
    exact ((hcount hfollows n h).addCase hnew).mono ((rules.followed hfollows).evolves hle'')

/-- The cases of a data type are like the types that type expressions denote, and all of them are
added. -/
theorem addCases_keeps (htype : rules.TypeExprKeeps typeExpr) (owner : TypeId)
    (cases : List NodeId) (hcases : rules.strict → ∀ decl ∈ cases, (ctx.tree.node decl).isCase)
    (hs : rules.inv l s) (hfilling : rules.filling l owner cases 0 s)
    (howner : rules.strict → s.pool.HasCases owner 0) :
    (rules.discipline l).KeepsAt s (addCases ctx typeExpr owner cases) fun added t =>
      (∀ r ∈ added, rules.denoted r t) ∧
        (rules.follows → s.pool.HasCases owner 0 → t.pool.HasCases owner cases.length) := by
  refine .bind_read hs (b := s.pool.display owner) rfl ?_
  refine (Discipline.mapM_keeps_collecting (P := fun added t => (∀ r ∈ added, rules.denoted r t) ∧
    rules.filling l owner cases added.length t ∧
    (rules.follows → s.pool.HasCases owner 0 → t.pool.HasCases owner added.length)) cases [] hs
    ⟨by simp, hfilling, fun _ h => h⟩ fun i decl hi added t hlength ht hle h => ?_).weaken
      fun added t _ _ ⟨h, hlength⟩ => ⟨h.1, fun hfollows hs => hlength ▸ h.2.2 hfollows hs⟩
  obtain ⟨hadded, hfilling, hcount⟩ := h
  obtain rfl : added.length = i := by simpa using hlength
  split
  · next name fields hnode =>
      refine (addCase_keeps htype hi hnode ht hfilling fun h =>
        (howner h).mono ((rules.followed (rules.follows_of_strict h)).evolves hle)).weaken ?_
      rintro r u hu hle' ⟨hr, hfilling', hcount'⟩
      refine ⟨fun r' hr' => ?_, by simpa using hfilling', fun hfollows h => ?_⟩
      · rcases List.mem_append.mp hr' with hr' | hr'
        · exact rules.denoted_mono ht hle' (hadded r' hr')
        · exact List.mem_singleton.mp hr' ▸ hr
      · simpa using hcount' hfollows _ (hcount hfollows h)
  · next hnode =>
      refine fails_at fun h => absurd (hcases h decl (List.mem_of_getElem? hi)) ?_
      unfold Node.isCase
      split
      · next heq => exact absurd heq (hnode _ _)
      · simp

/-! ## Signatures and methods -/

theorem declaredParams_keeps (htype : rules.TypeExprKeeps typeExpr) (method : String)
    (params : List NodeId) : rules.Keeps l (declaredParams ctx typeExpr method params) := by
  refine .foldlM ?_
  rintro ⟨declared, varargs⟩ ⟨param, i⟩ -
  dsimp only
  split
  · next hnode =>
      exact (htype.part hnode (by simp [Node.typeParts])).keeps.bind fun _ =>
        (Keeps.record _ _ (by rw [hnode]; rfl)).bind fun _ => .pure _
  · split
    · exact .pure _
    · exact .mismatch _
  · exact .mismatch _

theorem linkName_keeps (owner : Option TypeId) (attr : Option Attribute) (name : String) :
    rules.Keeps l (linkName owner attr name) := by
  unfold linkName
  split
  · exact .pure _
  · exact (Keeps.spell _).bind fun _ => .pure _
  · split
    · exact .pure _
    · exact .qualified _

theorem signatureOf_keeps (htype : rules.TypeExprKeeps typeExpr) {node : NodeId}
    (hmethod : rules.strict → ctx.tree.IsMethod node) (owner : Option TypeId) :
    rules.Keeps l (signatureOf ctx typeExpr node owner) := by
  have hbuild (name params written attr) (hwritten : ∀ result ∈ written,
      rules.Denotes l (typeExpr result)) :
      rules.Keeps l (signatureOf.build ctx typeExpr owner name params written attr) := by
    refine (declaredParams_keeps htype _ _).bind fun declared => ?_
    dsimp only
    cases written with
    | none => exact (linkName_keeps _ _ _).bind fun _ => .pure _
    | some written =>
        exact (hwritten written rfl).keeps.bind fun _ => (linkName_keeps _ _ _).bind fun _ => .pure _
  unfold signatureOf
  split
  · next hnode =>
      exact hbuild _ _ _ _ fun result hresult =>
        htype.part hnode (by simpa [Node.typeParts, Option.mem_def] using hresult)
  · next hnode =>
      exact hbuild _ _ _ _ fun result hresult =>
        htype.part hnode (by simpa [Node.typeParts, Option.mem_def] using hresult)
  · next hdef hdec =>
      refine .internal (not_strict hmethod fun h => ?_)
      unfold SyntaxTree.IsMethod at h
      split at h
      · next hnode => exact hdef _ _ _ _ hnode
      · next hnode => exact hdec _ _ _ _ hnode
      · exact h

/-- An included trait body is declared in the walk that is opened for it. -/
theorem declareIncluded_keeps {step : NodeId → Typing σ Unit} {owner : TypeId}
    (hstep : ∀ body t, rules.inv l t → (rules.strict → t.pool.TakesMethods owner) →
      (rules.discipline l).KeepsAt t (step body) fun _ _ => True)
    (statement traitBody : NodeId) (hs : rules.inv l s)
    (hmembers : rules.declares ∨ ∃ owner, l = .members owner)
    (howner : rules.strict → s.pool.TakesMethods owner) :
    (rules.discipline l).KeepsAt s (do
      let included ← modifyGet fun s =>
        let (walk, table) := s.table.freshInstance
        (walk, { s with table })
      let v ← visit statement
      modifyTable (·.setInclusion v included)
      withWalk included (step traitBody)) fun _ _ => True := by
  let opened : TypingState σ := { s with
    table := s.table.freshInstance.2.setInclusion ⟨s.walk, statement⟩ s.table.nextInstance }
  obtain ⟨hopened, hle⟩ := rules.table (l := l) hs (.inclusion statement) rfl
    fun _ _ h => .inl h
  have hincluded : opened.table.inclusion? ⟨s.walk, statement⟩ = some s.table.nextInstance := by
    simp [opened, TypeTable.inclusion?, TypeTable.setInclusion]
  have hentered : rules.inv l { opened with walk := s.table.nextInstance } :=
    (rules.walk hopened hincluded hmembers).enters
  -- opening the walk and recording the inclusion are one step of the rules
  exact .of_later (withWalk s.table.nextInstance (step traitBody)) rfl hle
    (Keeps.withWalk hopened hincluded hmembers (hstep traitBody _ hentered howner))

theorem declareMethodsWithin_keeps (htype : rules.TypeExprKeeps typeExpr) (fuel : Nat)
    (body : NodeId) (owner : TypeId) (hs : rules.inv l s)
    (hmembers : rules.declares ∨ ∃ owner, l = .members owner)
    (howner : rules.strict → s.pool.TakesMethods owner) :
    (rules.discipline l).KeepsAt s (declareMethodsWithin ctx typeExpr fuel body owner)
      fun _ _ => True := by
  induction fuel generalizing s body with
  | zero => exact Keeps.outOfFuel s hs
  | succ fuel ih =>
      unfold declareMethodsWithin
      refine Discipline.forM_keeps (P := fun _ => True) _ hs True.intro
        fun statement _ t ht hle _ => ?_
      have htakes {u : TypingState σ} (hle' : rules.le l t u) :
          rules.strict → u.pool.TakesMethods owner := fun h =>
        (howner h).mono ((rules.followed (rules.follows_of_strict h)).evolves (rules.trans hle hle'))
      have hmethod (h : ctx.tree.IsMethod statement) : (rules.discipline l).KeepsAt t (do
          let sig ← signatureOf ctx typeExpr statement (some owner)
          updatePool (·.addMethod owner sig)
          let v ← visit statement
          modifyTable (·.setSignature v sig)) fun _ _ => True := by
        refine .bind (signatureOf_keeps htype (fun _ => h) _ t ht) fun sig u hu hle' _ => ?_
        refine .bind (Keeps.updatePool hu (fun _ => .addMethod)
          (fun _ h t => .inl (Pool.KeepsLayouts.addMethod h t))
          fun h => Pool.addMethod_faultless (htakes hle' h)) fun _ v hv _ _ => ?_
        obtain ⟨hrecorded, hle''⟩ := rules.table (l := l) hv (.signature statement sig) rfl
          fun _ _ h => .inl h
        exact .of_ok rfl hrecorded hle'' True.intro
      dsimp only
      split
      · next hnode => exact hmethod (by simp [SyntaxTree.IsMethod, hnode])
      · next hnode => exact hmethod (by simp [SyntaxTree.IsMethod, hnode])
      · refine .bind (findTrait_keeps _ t ht) fun traitBody u hu hle' _ => ?_
        exact declareIncluded_keeps (fun body v hv => ih body hv) statement traitBody hu hmembers
          (htakes hle')
      · exact .pure ht True.intro

/-! ## Expansions -/

/-- The type of an expansion is of the kind that its declaration asks for. -/
def KindFits (d : Node) (p : Pool) (r : TypeId) : Prop :=
  match d with
  | .classDef .. => p.IsClass r
  | .dataDef .. => p.HasCases r 0
  | _ => True

theorem KindFits.mono {d : Node} {p q : Pool} {r : TypeId} (h : KindFits d p r) (he : p.Evolves q) :
    KindFits d q r := by
  unfold KindFits at h ⊢
  split
  · exact Pool.IsClass.mono h he
  · exact Pool.HasCases.mono h he
  · exact True.intro

theorem declareExpanded_keeps (htype : rules.TypeExprKeeps typeExpr) (decl : NodeId) (r : TypeId)
    (hs : rules.inv (.members r) s)
    (hfilling : ∀ name param cases body, ctx.tree.node decl = .dataDef name param cases body →
      rules.filling (.members r) r cases 0 s)
    (hkind : rules.follows → KindFits (ctx.tree.node decl) s.pool r) :
    (rules.discipline (.members r)).KeepsAt s (declareExpanded ctx typeExpr decl r) fun _ t =>
      rules.follows → CasesLaidOut ctx.tree t.pool decl r := by
  have hivars (ivars : List (String × TypeId)) : rules.Keeps (.members r) (modifyScopes fun c =>
      ivars.foldl (fun c entry => c.addIvar entry.1 entry.2) c) := by
    intro s hs
    induction ivars generalizing s with
    | nil => exact .of_ok rfl hs (rules.refl _ s) True.intro
    | cons entry ivars ih =>
        obtain ⟨hinv, hle⟩ := @rules.ivar r s entry.1 entry.2 hs
        obtain ⟨hinv', hle', -⟩ := (ih _ hinv).ok rfl
        exact .of_ok rfl hinv' (rules.trans hle hle') True.intro
  have hevolves {t : TypingState σ} (hle : rules.le (.members r) s t) :
      rules.follows → s.pool.Evolves t.pool := fun h => (rules.followed h).evolves hle
  have hfollows := rules.follows_of_strict
  unfold declareExpanded
  split
  · next hnode =>
      simp only [hnode, KindFits] at hkind
      refine .bind (collectIvarsInto_keeps htype _ _ _ _ s hs) fun ivars t ht hle₁ _ => ?_
      refine .bind (hivars ivars t ht) fun _ u hu hle₂ _ => ?_
      have hlayout (q : Pool) (h : u.pool.setIvars r ivars = .ok q) (other : TypeId) :
          q.ivarList other = u.pool.ivarList other ∨ rules.laysOut ∨
            Licence.members r = .members other := by
        by_cases hother : other = r
        · exact .inr (.inr (hother ▸ rfl))
        · exact .inl ((Pool.ivarList_setIvars h).2 other hother)
      refine .bind (Keeps.updatePool hu (fun _ => .setIvars) hlayout fun h => Pool.setIvars_faultless
        ((hkind (hfollows h)).mono (hevolves (rules.trans hle₁ hle₂) (hfollows h))))
        fun _ v hv hle₃ _ => ?_
      have hle := rules.trans hle₁ (rules.trans hle₂ hle₃)
      refine (declareMethodsWithin_keeps htype _ _ _ hv (.inr ⟨r, rfl⟩) fun h =>
        .inl ((hkind (hfollows h)).mono (hevolves hle (hfollows h)))).weaken fun _ w _ _ _ _ => ?_
      simp [CasesLaidOut, hnode]
  · next cases body hnode =>
      simp only [hnode, KindFits] at hkind
      refine .bind (addCases_keeps htype r cases (fun h => ?_) hs (hfilling _ _ _ _ hnode)
        fun h => hkind (hfollows h)) fun added t ht hle h => ?_
      · have hfits := (rules.guarantees h).regular.kind decl
        simpa [hnode, SyntaxTree.kindsFit] using hfits
      have hlaid {u : TypingState σ} (hle' : rules.le (.members r) t u) :
          rules.follows → CasesLaidOut ctx.tree u.pool decl r := by
        intro hfollows name param cases' body' hnode'
        rw [hnode] at hnode'
        cases hnode'
        exact (h.2 hfollows (hkind hfollows)).mono ((rules.followed hfollows).evolves hle')
      split
      · refine (declareMethodsWithin_keeps htype _ _ _ ht (.inr ⟨r, rfl⟩) fun hstrict =>
          .inr ((hkind (hfollows hstrict)).mono (hevolves hle (hfollows hstrict)))).weaken
            fun _ u _ hle' _ => hlaid hle'
      · exact .pure ht (hlaid (rules.refl _ t))
  · next hdata =>
      exact .pure hs fun _ name param cases body hnode => absurd hnode (hdata _ _ _ _)

/-- A new expansion is registered, declared in isolation and queued. -/
theorem makeExpansion_keeps (htype : rules.TypeExprKeeps typeExpr) {id : TemplateId}
    {template : Template} {name : String} {arg : TypeId} {f : Pool → TypeId × Pool}
    (hs : rules.inv l s) (hid : rules.known id s) (harg : rules.denoted arg s)
    (hnew : Expanding s id template name arg (f s.pool).1 (f s.pool).2)
    (hkind : rules.follows → KindFits (ctx.tree.node template.decl) (f s.pool).2 (f s.pool).1) :
    (rules.discipline l).KeepsAt s (makeExpansion ctx typeExpr id template name arg f)
      fun r t => rules.denoted r t ∧ (rules.follows → IsExpansion t id r) := by
  let opened := openExpansion s id template name arg (f s.pool).1 (f s.pool).2
  let entered := enterExpansion s id template name arg (f s.pool).1 (f s.pool).2
  have henters := rules.expansion_enters hs hid harg hnew
  have hinner := declareExpanded_keeps htype template.decl (f s.pool).1 henters.1 henters.2 hkind
  cases hrun : declareExpanded ctx typeExpr template.decl (f s.pool).1 entered with
  | error e t =>
      obtain ⟨hfails, hstrict⟩ := hinner.error hrun
      exact .of_error (makeExpansion_error hnew.found hrun)
        ⟨rules.expansion_breaks hs hid harg hnew hfails, hstrict⟩
  | ok a t =>
      obtain ⟨ht, hle, hlaid⟩ := hinner.ok hrun
      have hdeclared : ∃ fuel, declareExpanded ctx (typeExprWithin ctx fuel) template.decl
          (f s.pool).1 entered = .ok () t := by
        obtain ⟨fuel, rfl⟩ := htype.bounded
        exact ⟨fuel, hrun⟩
      obtain ⟨hinv, hle', hdenoted⟩ := rules.expansion_leaves hs hid harg hnew ht hle hdeclared hlaid
      refine .of_ok (makeExpansion_ok hnew.found hrun) hinv hle' ⟨hdenoted, fun h => ?_⟩
      -- the new expansion was registered before its members were declared
      have hlt := (rules.followed h).template_lt hs hid
      have hfound : s.templates[id]? = some template := by
        rw [← hnew.found]
        simp [List.getD_eq_getElem?_getD, hlt]
      have hat' : expansionAt? opened.templates id template.expansions.length = some (template.decl,
          { args := [arg], type := (f s.pool).1, walk := s.table.nextInstance }) := by
        rw [expansionAt?_openExpansion hfound, if_pos ⟨rfl, rfl⟩]
      have hentered : IsExpansion entered id (f s.pool).1 := ⟨_, _, _, hat', rfl⟩
      have hmade : IsExpansion t id (f s.pool).1 := (rules.followed h).expansions hle hentered
      exact hmade

theorem expand_keeps (htype : rules.TypeExprKeeps typeExpr) {id : TemplateId} {args : List TypeId}
    (hs : rules.inv l s) (hid : rules.known id s) (hargs : ∀ arg ∈ args, rules.denoted arg s) :
    (rules.discipline l).KeepsAt s (expand ctx typeExpr id args) fun r t =>
      rules.denoted r t ∧ (rules.follows → IsExpansion t id r) := by
  refine .bind_read hs (b := s) rfl ?_
  generalize htemplate : s.templates.getD id default = template
  dsimp only
  split
  · next e he =>
      have hmem : e ∈ (s.templates.getD id default).expansions :=
        htemplate ▸ List.mem_of_find?_eq_some he
      obtain ⟨index, hat⟩ := List.mem_iff_getElem?.mp hmem
      exact .pure hs ⟨rules.denoted_expansion hs hmem,
        fun _ => ⟨index, _, e, expansionAt?_eq_some_iff.2 ⟨rfl, hat⟩, rfl⟩⟩
  · next hmissing =>
      split
      · next arg =>
          have harg := hargs arg (by simp)
          have hmissing : ∀ e ∈ template.expansions, s.pool.sameTypes e.args [arg] = false := by
            simpa [List.find?_eq_none] using hmissing
          refine .bind_read hs (b := _) rfl (.bind_read hs (b := _) rfl ?_)
          split
          · next hnode =>
              refine makeExpansion_keeps htype (f := (·.newReference _)) hs hid harg
                ⟨htemplate, hmissing, .inl rfl⟩ fun _ => ?_
              simp only [hnode, KindFits]
              exact ⟨_, _, _, Pool.data_push_self _ _⟩
          · next hnode =>
              refine makeExpansion_keeps htype (f := (·.newData _)) hs hid harg
                ⟨htemplate, hmissing, .inr rfl⟩ fun _ => ?_
              simp only [hnode, KindFits]
              exact ⟨_, _, _, Pool.data_push_self _ _, Nat.le_refl _⟩
          · next hclass hdata =>
              refine .bind (Keeps.freshWalk s hs) fun _ _ _ _ _ => stops_at fun h => ?_
              obtain ⟨template', hat, hnominal⟩ := (rules.guarantees h).template hs hid
              rw [List.getD_eq_getElem?_getD, hat, Option.getD_some] at htemplate
              unfold Node.isNominal at hnominal
              split at hnominal
              · next hnode => exact absurd (htemplate ▸ hnode) (hclass _ _ _)
              · next hnode => exact absurd (htemplate ▸ hnode) (hdata _ _ _ _)
              · cases hnominal
      · exact mismatch_at

/-! ## Type expressions -/

theorem namedType_denotes (name : String) : rules.Denotes l (namedType name) := by
  intro s hs
  refine .bind_read hs (b := s) rfl ?_
  dsimp only
  split
  · next r hr => exact .pure hs (rules.denoted_name hs hr)
  · exact mismatch_at
  · split
    · exact mismatch_at
    · exact fails_at fun _ => Halt.not_isInternal_of_kind (by simp)

/-- The types that several type expressions denote. -/
theorem mapM_denotes {nodes : List NodeId} (hnodes : ∀ node ∈ nodes, rules.Denotes l (typeExpr node))
    (hs : rules.inv l s) :
    (rules.discipline l).KeepsAt s (nodes.mapM typeExpr) fun types t =>
      ∀ r ∈ types, rules.denoted r t :=
  Discipline.mapM_keeps_all nodes hs denoted_stable fun node hnode t ht _ => hnodes node hnode t ht

/-- Type expressions keep the rules, whatever the bound on their nesting. -/
theorem typeExprWithin_keeps (fuel : Nat) : rules.TypeExprKeeps (typeExprWithin ctx fuel) := by
  induction fuel with
  | zero => exact ⟨⟨0, rfl⟩, fun _ _ _ _ _ => fails_at fun _ => Halt.not_isInternal_outOfFuel⟩
  | succ fuel ih =>
      refine ⟨⟨fuel + 1, rfl⟩, fun l node hplace => Denotes.of_types fun s hs => ?_⟩
      have hrecord {d : Node} (hnode : ctx.tree.node node = d) (hany : d.takesAnyType = true)
          (r : TypeId) (t : TypingState σ) (ht : rules.inv .types t) (hr : rules.denoted r t) :
          (rules.discipline .types).KeepsAt t (do record node r; pure r) rules.denoted :=
        .bind (Keeps.record node r (hnode ▸ hany) t ht) fun _ u hu hle _ =>
          .pure hu (rules.denoted_mono ht hle hr)
      unfold typeExprWithin
      dsimp only
      split
      · next hnode =>
          exact .bind (namedType_denotes _ s hs) fun r t ht _ hr => hrecord hnode rfl r t ht hr
      · next hnode =>
          refine .bind (ih.part hnode (by simp [Node.typeParts]) s hs) fun target t ht _ htarget => ?_
          obtain ⟨hinv, hle⟩ := rules.pool (l := .types) ht (.pointer t.pool target)
            fun r => .inl (Pool.KeepsLayouts.pointer t.pool target r)
          exact .bind (.of_ok rfl hinv hle (rules.denoted_pointer ht htarget))
            fun r u hu _ hr => hrecord hnode rfl r u hu hr
      · next name args hnode =>
          refine .bind_read hs (b := s) rfl ?_
          split
          · exact stops_at fun _ => Halt.not_isInternal_of_kind (by simp)
          · next id hid =>
              have hknown := rules.known_template hs hid
              refine .bind (mapM_denotes (fun arg harg => ih.part hnode harg) hs)
                fun types t ht hle htypes => ?_
              have hknown' := rules.known_mono hs hle hknown
              exact .bind (expand_keeps ih ht hknown' htypes) fun r u hu _ hr =>
                hrecord hnode rfl r u hu hr.1
      · next params result hnode =>
          have hpart {part : NodeId} (h : part ∈ params ++ [result]) :
              rules.Denotes .types (typeExprWithin ctx fuel part) := ih.part hnode h
          refine .bind (mapM_denotes (fun param hparam => hpart (List.mem_append_left _ hparam)) hs)
            fun types t ht _ htypes => ?_
          refine .bind (hpart (by simp) t ht) fun r u hu hle hr => ?_
          have htypes' : ∀ param ∈ types, rules.denoted param u :=
            fun param hparam => rules.denoted_mono ht hle (htypes param hparam)
          obtain ⟨hinv, hle'⟩ := rules.pool (l := .types) hu (.closure u.pool types r [])
            fun t => .inl (Pool.KeepsLayouts.closure u.pool types r [] t)
          exact .bind (.of_ok rfl hinv hle' (rules.denoted_closure hu htypes' hr))
            fun r v hv _ hr => hrecord hnode rfl r v hv hr
      · next hnode =>
          exact .bind (ih.part hnode (by simp [Node.typeParts]) s hs) fun r t ht _ hr =>
            hrecord hnode rfl r t ht hr
      · next h₁ h₂ h₃ h₄ h₅ =>
          refine stops_at fun h => absurd (hplace h) ?_
          unfold Node.isTypeExpr
          split
          · next hnode => exact absurd hnode (h₅ _ _)
          · next hnode => exact absurd hnode (h₁ _)
          · next hnode => exact absurd hnode (h₂ _)
          · next hnode => exact absurd hnode (h₃ _ _)
          · next hnode => exact absurd hnode (h₄ _ _)
          · simp

theorem typeExpr_keeps : rules.TypeExprKeeps (Typing.typeExpr ctx) :=
  typeExprWithin_keeps _

end ClassLang.Typing.WalkRules
