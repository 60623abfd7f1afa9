import ClassLang.Proofs.Lowering.Symbols

/-!
# The turn of a declaration

Bodies are generated one after the other: statement by statement, and for a type declaration walk by
walk and method by method. `Turn` says in which state generating comes to a declaration. If no walk
is used twice, no declaration has two turns. So when it is the turn of a declaration, a function
that got its body on the way is one of another declaration with the same link name.
-/

namespace ClassLang

open Relation (ReflTransGen)

/-! ## Loops -/

/-- Before a loop comes to an item, bodies are generated for the others. -/
theorem Emit.Names.before {β : Type} {names : String → Prop} {items : List β}
    {body : β → Emit PUnit} {item : β} {o o' : Output} (hnodup : items.Nodup)
    (h : ∀ other ∈ items, other ≠ item → Names names (body other))
    (hcomes : LoopComesTo items body o item o') (ho : o.Intact) :
    o'.Intact ∧ BodiesUnder names o.builder o'.builder := by
  obtain ⟨before, after, rfl, hrun⟩ := hcomes
  have hfirst := List.disjoint_of_nodup_append hnodup
  refine (Names.forM fun other hother => h other (by simp [hother]) ?_).run ho hrun
  rintro rfl
  exact hfirst hother (by simp)

/-! ## Walks -/

/-- Every inclusion has a walk of its own, and a declaration is expanded once in a walk. -/
structure TypedModule.WalksFresh (m : TypedModule) : Prop where
  inclusions : m.table.InclusionsAscend
  expansions : ∀ decl template, m.templateFor? decl = some template →
    (template.expansions.map (·.walk)).Nodup

/-- Typing numbers its walks. -/
theorem Typing.Delivered.walksFresh {σ : Type} {ctx : TypingContext σ} {known : σ → String → Prop}
    {s : TypingState σ} (h : Delivered ctx known s) : s.typed.WalksFresh where
  inclusions := ⟨fun v walk hwalk => (h.accounted.inclusions_lt v walk hwalk).1,
    h.accounted.inclusions_inj⟩
  expansions decl template htemplate := by
    obtain ⟨id, hid⟩ := List.mem_iff_getElem?.mp (List.mem_of_find?_eq_some htemplate)
    have hat : ∀ index e, template.expansions[index]? = some e →
        expansionAt? s.templates id index = some (template.decl, e) := by
      intro index e he
      have hid : s.templates[id]? = some template := hid
      simp [expansionAt?, hid, he]
    rw [List.nodup_iff_getElem?_ne_getElem?]
    intro i j hij hj heq
    rw [List.length_map] at hj
    rw [List.getElem?_map, List.getElem?_map, List.getElem?_eq_getElem hj,
      List.getElem?_eq_getElem (Nat.lt_trans hij hj), Option.map_some, Option.map_some,
      Option.some.injEq] at heq
    have hsame := h.accounted.expansions_inj _ _ _ _ _ _ _ _
      (hat i _ (List.getElem?_eq_getElem (Nat.lt_trans hij hj)))
      (hat j _ (List.getElem?_eq_getElem hj)) heq
    exact absurd hsame.2 (Nat.ne_of_lt hij)

section Nodup

variable {ctx : LoweringContext} {walk : InstanceId}

/-- The statement comes to each of the methods, and none is listed twice. -/
def LoweringContext.FindsOnce (ctx : LoweringContext) (visit : Visit)
    (found : List (InstanceId × NodeId)) : Prop :=
  found.Nodup ∧ ∀ item ∈ found,
    ReflTransGen (ctx.typed.table.Includes ctx.tree) visit { walk := item.1, node := item.2 }

/-- What different statements of one walk come to is different. -/
theorem nodup_flatten_of_findsOnce (hascend : ctx.typed.table.InclusionsAscend)
    {statements : List NodeId} {found : List (List (InstanceId × NodeId))}
    (hnodup : statements.Nodup)
    (h : List.Forall₂ (fun statement => ctx.FindsOnce { walk, node := statement })
      statements found) :
    found.flatten.Nodup ∧ ∀ item ∈ found.flatten, ∃ statement ∈ statements,
      ReflTransGen (ctx.typed.table.Includes ctx.tree) { walk, node := statement }
        { walk := item.1, node := item.2 } := by
  induction h with
  | nil => simp
  | @cons statement methods statements found hhead _ ih =>
      rw [List.nodup_cons] at hnodup
      obtain ⟨ihnodup, ihreached⟩ := ih hnodup.2
      rw [List.flatten_cons]
      refine ⟨List.nodup_append.mpr ⟨hhead.1, ihnodup, ?_⟩, fun item hitem => ?_⟩
      · rintro item hitem _ hitem' rfl
        obtain ⟨other, hother, hreached⟩ := ihreached item hitem'
        have hsame : (⟨walk, statement⟩ : Visit) = ⟨walk, other⟩ :=
          hascend.eq_of_reached rfl (hhead.2 item hitem) hreached
        cases hsame
        exact hnodup.1 hother
      · rcases List.mem_append.mp hitem with hitem | hitem
        · exact ⟨statement, by simp, hhead.2 item hitem⟩
        · obtain ⟨other, hother, hreached⟩ := ihreached item hitem
          exact ⟨other, List.mem_cons_of_mem _ hother, hreached⟩

namespace Emit

/-- No method is found twice in a body. -/
theorem methodsWithin_nodup (hshape : ctx.tree.TreeShaped)
    (hascend : ctx.typed.table.InclusionsAscend) (fuel : Nat) (body : NodeId) (o : Output) :
    (Discipline.onSuccess Halt Output).KeepsAt o (methodsWithin ctx fuel body walk) fun found _ =>
      found.Nodup ∧ ∀ item ∈ found, ∃ statement ∈ ctx.tree.statements body,
        ReflTransGen (ctx.typed.table.Includes ctx.tree) { walk, node := statement }
          { walk := item.1, node := item.2 } := by
  induction fuel generalizing body walk o with
  | zero => exact .of_error rfl True.intro
  | succ fuel ih =>
      refine .bind (Discipline.mapM_keeps (P := fun statement methods _ =>
        ctx.FindsOnce { walk, node := statement } methods) _ True.intro
        (fun _ _ _ _ _ _ _ _ h => h) fun statement hstatement u _ _ => ?_)
        fun found u _ _ hfound => .pure True.intro
          (nodup_flatten_of_findsOnce hascend (hshape.nodup_statements body) hfound)
      have hself : ctx.FindsOnce { walk, node := statement } [(walk, statement)] := by
        refine ⟨List.nodup_singleton _, fun item hitem => ?_⟩
        obtain rfl := List.mem_singleton.mp hitem
        exact .refl
      split
      · exact .pure True.intro hself
      · exact .pure True.intro hself
      · next name hnode =>
          split
          · exact .of_error rfl True.intro
          · exact .of_error rfl True.intro
          · next included traitBody hincluded htrait =>
              refine (ih traitBody u).weaken fun methods _ _ _ hmethods =>
                ⟨hmethods.1, fun item hitem => ?_⟩
              obtain ⟨inner, hinner, hreached⟩ := hmethods.2 item hitem
              exact .head ⟨name, traitBody, hnode, hincluded, htrait, hinner⟩ hreached
      · exact .pure True.intro ⟨List.nodup_nil, by simp⟩

theorem methods_nodup (hshape : ctx.tree.TreeShaped)
    (hascend : ctx.typed.table.InclusionsAscend) (decl : NodeId) (o : Output) :
    (Discipline.onSuccess Halt Output).KeepsAt o (methods ctx decl walk) fun found _ =>
      found.Nodup := by
  unfold methods
  dsimp only
  split
  · exact (methodsWithin_nodup hshape hascend _ _ o).weaken fun _ _ _ _ h => h.1
  · exact .pure True.intro List.nodup_nil

/-- No walk of a declaration is found twice. -/
theorem typeInstances_nodup (hfresh : ctx.typed.WalksFresh) (decl : NodeId) (o : Output) :
    (Discipline.onSuccess Halt Output).KeepsAt o (typeInstances ctx decl) fun found _ =>
      found.Nodup := by
  unfold typeInstances
  split
  · next template htemplate =>
      refine .pure True.intro (.of_map Prod.fst ?_)
      rw [List.map_map]
      exact hfresh.expansions decl template htemplate
  · refine .bind (Discipline.onSuccess_run _ o) fun t u _ _ _ => ?_
    exact .pure True.intro (List.nodup_singleton _)

end Emit

end Nodup

/-! ## Turns -/

namespace Emit

variable {ctx : LoweringContext} {o₀ o : Output} {d : Declaration}

/-- A declaration that has a turn is one of the module. -/
theorem Turn.has (h : Turn ctx o₀ d o) : ctx.typed.Has ctx.tree d := by
  cases h with
  | function hstatement hdef => exact ⟨hstatement.mem, hdef.isMethod⟩
  | @method decl walk owner visit _ _ o₁ _ o₃ _ _ hstatement hinstances hinstance hfound hmethod =>
      obtain ⟨-, -, hall⟩ := (typeInstances_instances decl o₁).ok hinstances
      obtain ⟨-, -, hhas⟩ := (methods_has hstatement.mem ((hall _).mp hinstance.mem) o₃).ok hfound
      exact (hhas visit).mp hmethod.mem

theorem Turn.isDefinition (h : Turn ctx o₀ d o) : ctx.tree.IsDefinition d.visit.node := by
  cases h with
  | function _ hdef => exact hdef
  | method _ _ _ _ _ hdef => exact hdef

/-- Before the turn of a declaration, bodies are generated for others. -/
theorem Turn.bodies (hchecked : ReturnsChecked ctx) (hshape : ctx.tree.TreeShaped)
    (hfresh : ctx.typed.WalksFresh) (h : Turn ctx o₀ d o) (ho : o₀.Intact) :
    o.Intact ∧ BodiesUnder (ctx.LinksOf (· ≠ d)) o₀.builder o.builder := by
  have hothers : ∀ {D : Declaration → Prop} {step : Emit PUnit}, Names (ctx.LinksOf D) step →
      (∀ other, D other → other ≠ d) → Names (ctx.LinksOf (· ≠ d)) step :=
    fun h hD => h.mono (LoweringContext.LinksOf.mono hD)
  have hstatements : ∀ statement u, statement = d.top →
      LoopComesTo (ctx.tree.statements ctx.tree.root) (defineStatement ctx) o₀ statement u →
        u.Intact ∧ BodiesUnder (ctx.LinksOf (· ≠ d)) o₀.builder u.builder := by
    rintro _ u rfl hcomes
    refine Names.before (hshape.nodup_statements _) (fun statement hmem hne => ?_) hcomes ho
    refine hothers (defineStatement_names hchecked hmem) ?_
    rintro _ htop rfl
    exact hne htop.symm
  cases h with
  | function hstatement => exact hstatements _ _ rfl hstatement
  | @method decl walk owner visit instances found o₁ o₂ o₃ o₄ _ hstatement hinstances hinstance
      hfound hmethod =>
      obtain ⟨ho₁, hbodies₁⟩ := hstatements _ _ rfl hstatement
      -- the walks before this one
      obtain ⟨ho₂, hbodies₂⟩ := (typeInstances_names decl).run ho₁ hinstances
      obtain ⟨-, -, hall⟩ := (typeInstances_instances decl o₁).ok hinstances
      obtain ⟨-, -, hnodup⟩ := (typeInstances_nodup hfresh decl o₁).ok hinstances
      obtain ⟨ho₃, hbodies₃⟩ := Names.before hnodup (fun item hitem hne =>
        hothers (defineType_names hchecked hstatement.mem ((hall item).mp hitem)) (by
          rintro _ ⟨_, rfl⟩ heq
          cases heq
          exact hne rfl)) hinstance ho₂
      -- the methods before this one
      obtain ⟨ho₄, hbodies₄⟩ := (methods_names decl walk).run ho₃ hfound
      obtain ⟨-, -, hhas⟩ := (methods_has hstatement.mem ((hall _).mp hinstance.mem) o₃).ok hfound
      obtain ⟨-, -, hnodup'⟩ := (methods_nodup hshape hfresh.inclusions decl o₃).ok hfound
      obtain ⟨ho₅, hbodies₅⟩ := Names.before hnodup' (fun item hitem hne =>
        hothers (defineMember_names hchecked ((hhas ⟨item.1, item.2⟩).mp hitem)) (by
          rintro _ rfl heq
          cases heq
          exact hne rfl)) hmethod ho₄
      exact ⟨ho₅, hbodies₁.trans (hbodies₂.trans (hbodies₃.trans (hbodies₄.trans hbodies₅)))⟩

/-- When a module is generated, every declaration with a body has its turn. -/
theorem exists_turn (hrun : generate ctx o₀ = .ok ⟨⟩ o) :
    ∃ o₁, (ctx.tree.statements ctx.tree.root).forM (declareStatement ctx) o₀ = .ok ⟨⟩ o₁ ∧
      ∀ d, ctx.typed.Has ctx.tree d → ctx.tree.IsDefinition d.visit.node →
        ∃ u, Turn ctx o₁ d u := by
  obtain ⟨_, o₁, hdeclare, hdefine⟩ := bind_eq_ok.mp hrun
  refine ⟨o₁, hdeclare, fun d hd hdef => ?_⟩
  obtain ⟨u, u', hturn, hstatement⟩ := LoopComesTo.of_ok hdefine hd.declares.1
  cases d with
  | function statement => exact ⟨u, .function hturn hdef⟩
  | method decl walk owner visit =>
      obtain ⟨htop, hinstance, ⟨body, member, hbody, -⟩, -⟩ := id hd
      have hdecl : defineStatement ctx decl = forInstances ctx decl (defineType ctx) := by
        unfold SyntaxTree.bodyOf? at hbody
        unfold defineStatement
        split at hbody <;> simp_all
      rw [show (Declaration.method decl walk owner visit).top = decl from rfl, hdecl] at hstatement
      obtain ⟨instances, v, hinstances, hloop⟩ := bind_eq_ok.mp hstatement
      obtain ⟨-, -, hall⟩ := (typeInstances_instances decl u).ok hinstances
      obtain ⟨w, w', hinstanceTurn, htype⟩ :=
        LoopComesTo.of_ok hloop ((hall (walk, owner)).mpr hinstance)
      obtain ⟨found, x, hfound, hmembers⟩ := bind_eq_ok.mp htype
      obtain ⟨-, -, hhas⟩ := (methods_has htop hinstance w).ok hfound
      obtain ⟨y, y', hmethodTurn, -⟩ := LoopComesTo.of_ok hmembers ((hhas visit).mpr hd)
      exact ⟨y, .method hturn hinstances hinstanceTurn hfound hmethodTurn hdef⟩

/-! ## Functions of declarations -/

/-- If any error is tolerated, every module is ready. -/
theorem moduleReady_of_tolerant (ctx : LoweringContext) :
    ModuleReady (fun _ => True) (fun _ => False) ctx where
  types _ _ _ _ _ _ := True.intro
  inclusions _ _ _ _ _ _ := ⟨fun _ => True.intro, fun _ => True.intro⟩
  signatures _ _ _ _ _ _ := True.intro
  bodies statement _ visit _ name params result body _ := by
    refine ⟨fun _ _ => True.intro, fun _ => True, fun node _ => ?_, True.intro⟩
    unfold NodeReady
    split <;> simp [CallReady, TypeKnown, PartReady, TargetKnown, FunctionKnown]

variable (hdeclare :
  (ctx.tree.statements ctx.tree.root).forM (declareStatement ctx) o₀ = .ok ⟨⟩ o)

include hdeclare

/-- Once everything is declared, every declaration has a function. -/
theorem declared_function (hd : ctx.typed.Has ctx.tree d) {link : String}
    (hlink : ctx.typed.linkName? d = some link) : ∃ id, o.builder.function? link = some id := by
  have hdeclared := declareStatements_safe (o := o₀)
    ⟨True.intro, fun _ _ => True.intro, fun _ _ => True.intro⟩ (moduleReady_of_tolerant ctx)
    fun _ hname => hname.elim
  obtain ⟨-, -, hlinks⟩ := hdeclared.ok hdeclare
  obtain ⟨sig, hsig, rfl⟩ := TypedModule.linkName?_eq_some_iff.mp hlink
  exact Option.isSome_iff_exists.mp
    (hlinks _ ⟨d.top, hd.declares.1, d.visit, sig, hd.declares.2, hsig, rfl⟩)

variable (ctx) in
/-- Two declarations have the same function exactly if they have the same link name. -/
theorem declared_functions (ho : o₀.Intact) {d' : Declaration} (hd : ctx.typed.Has ctx.tree d)
    (hd' : ctx.typed.Has ctx.tree d') {link link' : String}
    (hlink : ctx.typed.linkName? d = some link) (hlink' : ctx.typed.linkName? d' = some link') :
    ∃ id id', o.builder.function? link = some id ∧ o.builder.function? link' = some id' ∧
      (id = id' ↔ link = link') := by
  obtain ⟨id, hid⟩ := declared_function hdeclare hd hlink
  obtain ⟨id', hid'⟩ := declared_function hdeclare hd' hlink'
  have hintact := ((declareStatements_names fun _ => False).run ho hdeclare).1
  refine ⟨id, id', hid, hid', ?_, ?_⟩
  · rintro rfl
    exact (hintact.numbered link id hid).2 link' hid'
  · rintro rfl
    exact Option.some.inj (hid.symm.trans hid')

/-- At the turn of a declaration its function has no body, unless it had one at first, has the name
of a lambda or the link name of another declaration. -/
theorem Turn.body (hchecked : ReturnsChecked ctx) (hshape : ctx.tree.TreeShaped)
    (hfresh : ctx.typed.WalksFresh) (ho : o₀.Intact) {u : Output} (hturn : Turn ctx o d u)
    {link : String} (hlink : ctx.typed.linkName? d = some link) :
    ∃ id, u.builder.function? link = some id ∧ ((u.builder.module.function id).hasBody = true →
      (o₀.builder.module.function id).hasBody = true ∨ IsLambdaName link ∨
        ctx.LinksOf (· ≠ d) link) := by
  obtain ⟨hintact, hdeclared⟩ :=
    (declareStatements_names (ctx.LinksOf (· ≠ d))).run ho hdeclare
  obtain ⟨hintact', hbodies⟩ := hturn.bodies hchecked hshape hfresh hintact
  obtain ⟨id, hid⟩ := declared_function hdeclare hturn.has hlink
  have hid' := hbodies.declared link id hid
  refine ⟨id, hid', fun hbody => ?_⟩
  cases hfirst : (o₀.builder.module.function id).hasBody with
  | true => exact .inl rfl
  | false =>
      obtain ⟨name, hname, hnames⟩ := (hdeclared.trans hbodies).named id hfirst hbody
      obtain rfl := (hintact'.numbered name id hname).2 link hid'
      exact .inr hnames.symm

end Emit

/-- The link name of a declaration with a body is that of another one only if they clash. -/
theorem Typing.Delivered.clash_of_linksOf {σ : Type} {ctx : TypingContext σ}
    {known : σ → String → Prop} {s : TypingState σ} (h : Delivered ctx known s)
    (hdisplay : s.typed.DisplaysApart ctx.tree s.pool) {d : Declaration}
    (hd : s.typed.Has ctx.tree d) (hdef : ctx.tree.IsDefinition d.visit.node) {link : String}
    (hlink : s.typed.linkName? d = some link)
    (hother : LoweringContext.LinksOf { tree := ctx.tree, pool := s.pool, typed := s.typed }
      (· ≠ d) link) : ∃ d', s.typed.Clash ctx.tree s.pool s.package d d' := by
  obtain ⟨d', hne, hd', hdef', hlink'⟩ := hother
  obtain ⟨name, hname⟩ := hdef.plainName?
  obtain ⟨name', hname'⟩ := hdef'.plainName?
  rw [h.linkName_eq hd hname] at hlink
  have hlink' := TypedModule.linkName?_eq_some_iff.mpr hlink'
  rw [h.linkName_eq hd' hname'] at hlink'
  have heq := Option.some.inj (hlink.trans hlink'.symm)
  exact ⟨d', Ne.symm hne, hd, hd', name, name', hname, hname',
    (h.spelled_eq_iff hdisplay hd hd' (Ne.symm hne) hname hname').mp heq⟩

end ClassLang
