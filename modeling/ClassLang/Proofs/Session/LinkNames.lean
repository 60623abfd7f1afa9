import ClassLang.Proofs.Lowering.Turns
import ClassLang.Proofs.Session.ControlFlow

/-!
# Link names identify declarations

Functions and methods of a unit are known to the generated code by their link names only. Without an
attribute a link name is spelled from the names of type and method, with underscores between them,
or it is the qualified name of a function. In a tree-shaped unit these are apart, unless type and
method meet at different underscores, or a function is named like a method is linked. Declarations
with link names of their own have functions of their own, and none gets a body before its turn.
-/

namespace ClassLang

/-- In a new output functions that are declared under different names are different. -/
theorem Output.ofName_numbered (name : String) : (Output.ofName name).builder.Numbered := by
  have hempty : (IR.Builder.ofName name).Numbered := fun name' id h => by
    simp [IR.Builder.ofName, IR.Builder.function?] at h
  have hmalloc := (IR.Retains.declareFunction "malloc"
    { params := [.i64], result := some .ptr }).numbered _ hempty
  exact (IR.Retains.declareFunction "free" { params := [.ptr], result := none }).numbered _ hmalloc

namespace Session

variable {store : ModuleStore} {fuel : Nat} {tree : SyntaxTree} {s : Pool × Session Output}
  {typed : TypedModule} {t : TypingState (Session Output)}

/-! ## Where generating begins -/

/-- Functions that are declared under different names are different, also after a failure. -/
def numbering : Discipline Halt Output where
  inv o := o.Registered ∧ o.builder.Numbered
  le _ _ := True
  fails _ _ o' := o'.Registered ∧ o'.builder.Numbered
  refl _ := True.intro
  trans _ _ := True.intro
  fails_trans _ h := h

theorem upheld_numbering (store : ModuleStore) : Upheld store numbering where
  start name := ⟨.of_none rfl, Output.ofName_numbered name⟩
  stop _ _ ho := ho
  intact h := h
  generate {fuel tree s typed t} _ _ _ ho := by
    have hkeeps := Emit.generate_registers
      (LoweringContext.bodiesScoped_of_lax { tree, pool := t.pool, typed }) _ ho.1
    cases hrun : Emit.generate { tree, pool := t.pool, typed } t.imports.output with
    | ok _ o =>
        obtain ⟨hregistered, hevolves, -⟩ := hkeeps.ok hrun
        exact .of_ok hrun ⟨hregistered, hevolves.numbered ho.2⟩ True.intro True.intro
    | error h o =>
        obtain ⟨-, hregistered, hnumbered⟩ := hkeeps.error hrun
        exact .of_error hrun ⟨hregistered, hnumbered ho.2⟩

/-- What generating begins with after a unit was typed, wherever in a session. -/
theorem Generating.intact (h : Generating store fuel tree s)
    (hrun : Typing.calculate { tree, importer := importerWithin Backend.code store fuel }
      { pool := s.1, imports := s.2 } = .ok typed t) :
    t.imports.output.Intact ∧ ReturnsChecked { tree, pool := t.pool, typed } := by
  obtain ⟨⟨hregistered, hnumbered⟩, hchecked, hsound⟩ := (upheld_numbering store).typed h hrun
  exact ⟨⟨(upheld_building store).calculated h hrun, hregistered, hnumbered⟩,
    Typing.ModuleChecked.returnsChecked hchecked hsound⟩

/-- Everything is declared and typed in a tree-shaped unit, wherever its compilation begins, and what
was found while names were declared stays as it is. -/
theorem Begins.delivered {γ : Type} {backend : Backend γ} {s : Pool × Session γ}
    {t : TypingState (Session γ)} (h : Begins backend store fuel tree s) (hshape : tree.TreeShaped)
    (hrun : Typing.calculate { tree, importer := importerWithin backend store fuel }
      { pool := s.1, imports := s.2 } = .ok typed t) :
    typed = t.typed ∧
      Typing.Delivered { tree, importer := importerWithin backend store fuel } (fun _ _ => True) t ∧
      ∃ u, (tree.statements tree.root).forM (Typing.declareType
        { tree, importer := importerWithin backend store fuel }) { pool := s.1, imports := s.2 } =
          .ok () u ∧ Typing.Since tree u t := by
  have hsound := h.sound
  -- nothing is asked of the functions that are imported
  have hlinked : ∀ p session, (importerWithin backend store fuel).Linked (fun _ _ => True) p
      session := fun _ _ => ⟨fun _ _ _ => True.intro, fun _ _ _ _ _ => True.intro⟩
  have hdelivered := Typing.calculate_delivered_since
    { tree, importer := importerWithin backend store fuel } hsound.pool.territory
    (importerWithin_lawful backend store fuel) (fun _ _ _ _ _ _ _ _ _ _ _ _ => hlinked _ _)
    hshape (hsound.confined backend store fuel tree).imports (hlinked _ _)
  exact (hdelivered.ok hrun).2.2

theorem Generating.delivered (h : Generating store fuel tree s) (hshape : tree.TreeShaped)
    (hrun : Typing.calculate { tree, importer := importerWithin Backend.code store fuel }
      { pool := s.1, imports := s.2 } = .ok typed t) :
    typed = t.typed ∧ Typing.Delivered
      { tree, importer := importerWithin Backend.code store fuel } (fun _ _ => True) t :=
  have hdelivered := h.begins.delivered hshape hrun
  ⟨hdelivered.1, hdelivered.2.1⟩

/-! ## Link names -/

/-- Link names identify declarations. Let a tree-shaped unit be typed, wherever in a session, and let
the types that it declares be displayed differently. Then two different declarations without
attributes have the same link name exactly if they are spelled alike. Once the unit is declared,
declarations have the same function exactly if they have the same link name. When generating comes
to the body of a declaration that clashes with no other one, its function has no body, so it is not
defined more than once, unless it had a body before this unit or has the name of a lambda. Whenever
the unit is generated, it came to the bodies of all declarations that have one. -/
theorem link_names_identify_declarations (h : Generating store fuel tree s)
    (hshape : tree.TreeShaped)
    (hrun : Typing.calculate { tree, importer := importerWithin Backend.code store fuel }
      { pool := s.1, imports := s.2 } = .ok typed t)
    (hdisplay : typed.DisplaysApart tree t.pool) :
    (∀ d d' name name', d ≠ d' → typed.Has tree d → typed.Has tree d' →
      d.plainName? tree = some name → d'.plainName? tree = some name' →
        ∃ link link', typed.linkName? d = some link ∧ typed.linkName? d' = some link' ∧
          (link = link' ↔ d.SpelledAlike t.pool t.package d' name name')) ∧
    (∀ o, (tree.statements tree.root).forM
        (Emit.declareStatement { tree, pool := t.pool, typed }) t.imports.output = .ok () o →
      (∀ d d' link link', typed.Has tree d → typed.Has tree d' →
        typed.linkName? d = some link → typed.linkName? d' = some link' →
          ∃ id id', o.builder.function? link = some id ∧ o.builder.function? link' = some id' ∧
            (id = id' ↔ link = link')) ∧
      ∀ d u, Emit.Turn { tree, pool := t.pool, typed } o d u →
        (∀ d', ¬ typed.Clash tree t.pool t.package d d') →
          ∃ link id, typed.linkName? d = some link ∧ u.builder.function? link = some id ∧
            ((u.builder.module.function id).hasBody = true →
              (t.imports.output.builder.module.function id).hasBody = true ∨
                IsLambdaName link)) ∧
    ∀ u, Backend.code.generate tree t.pool typed t.imports.output = .ok () u →
      ∃ o, (tree.statements tree.root).forM
          (Emit.declareStatement { tree, pool := t.pool, typed }) t.imports.output = .ok () o ∧
        ∀ d, typed.Has tree d → tree.IsDefinition d.visit.node →
          ∃ u, Emit.Turn { tree, pool := t.pool, typed } o d u := by
  obtain ⟨hintact, hchecked⟩ := h.intact hrun
  obtain ⟨rfl, hdelivered⟩ := h.delivered hshape hrun
  refine ⟨fun d d' name name' hne hd hd' hname hname' => ?_, fun o hdeclare => ⟨?_, ?_⟩,
    fun u hgenerate => Emit.exists_turn hgenerate⟩
  · exact ⟨_, _, hdelivered.linkName_eq hd hname, hdelivered.linkName_eq hd' hname',
      hdelivered.spelled_eq_iff hdisplay hd hd' hne hname hname'⟩
  · intro d d' link link' hd hd' hlink hlink'
    exact Emit.declared_functions { tree, pool := t.pool, typed := t.typed } hdeclare hintact hd hd'
      hlink hlink'
  · intro d u hturn hclash
    obtain ⟨name, hname⟩ := hturn.isDefinition.plainName?
    have hlink := hdelivered.linkName_eq hturn.has hname
    obtain ⟨id, hid, hbody⟩ :=
      hturn.body hdeclare hchecked hshape hdelivered.walksFresh hintact hlink
    refine ⟨_, id, hlink, hid, fun h => ?_⟩
    rcases hbody h with hfirst | hlambda | hother
    · exact .inl hfirst
    · exact .inr hlambda
    · obtain ⟨d', hd'⟩ :=
        hdelivered.clash_of_linksOf hdisplay hturn.has hturn.isDefinition hlink hother
      exact absurd hd' (hclash d')

/-- A unit with two classes that have a method of one name. -/
def sameNameUnit : SyntaxTree :=
  .ofStatements #[.namedType "Integer", .number 1, .methodDef "x" [] (some 0) 1, .seq [2],
    .classDef "A" none 3, .namedType "Integer", .number 2, .methodDef "x" [] (some 5) 6, .seq [7],
    .classDef "B" none 8] [4, 9]

/-- In `sameNameUnit` the methods have different link names, and no body of the first one is in the
way of the second one. -/
theorem link_names_identify_same_names :
    ∃ typed t, firstRun {} sameNameUnit = .ok typed t ∧
      ∃ link link' id u o, typed.linkName? (.method 4 0 8 ⟨0, 2⟩) = some link ∧
        typed.linkName? (.method 9 0 9 ⟨0, 7⟩) = some link' ∧ link ≠ link' ∧
        Emit.Turn { tree := sameNameUnit, pool := t.pool, typed } o (.method 9 0 9 ⟨0, 7⟩) u ∧
        u.builder.function? link' = some id ∧
        ((u.builder.module.function id).hasBody = true →
          (t.imports.output.builder.module.function id).hasBody = true ∨ IsLambdaName link') := by
  have htyped : okWith (fun typed t => decide (typed.DisplaysApart sameNameUnit t.pool ∧
      typed.HasInstance 4 0 8 ∧ typed.HasInstance 9 0 9 ∧ t.pool.display 8 = "A" ∧
      t.pool.display 9 = "B" ∧ okWith (fun _ _ => ()) (Backend.code.generate sameNameUnit t.pool
        typed t.imports.output) = some ())) (firstRun {} sameNameUnit) = some true := by
    decide +kernel
  obtain ⟨typed, t, hrun, hfacts⟩ := exists_of_okWith htyped
  obtain ⟨hdisplay, hA, hB, hdisplayA, hdisplayB, hgenerate⟩ := of_decide_eq_true hfacts
  obtain ⟨⟨⟩, w, hgenerated, -⟩ := exists_of_okWith hgenerate
  obtain ⟨hapart, hdeclared, hturns⟩ := link_names_identify_declarations
    (.unit (.start "main") sameNameUnit) (by decide) hrun hdisplay
  have hfirst : typed.Has sameNameUnit (.method 4 0 8 ⟨0, 2⟩) :=
    .of_statement 3 (by decide) hA (by decide) (by decide) True.intro
  have hsecond : typed.Has sameNameUnit (.method 9 0 9 ⟨0, 7⟩) :=
    .of_statement 8 (by decide) hB (by decide) (by decide) True.intro
  have hunclashed : ∀ d', ¬ typed.Clash sameNameUnit t.pool t.package (.method 9 0 9 ⟨0, 7⟩) d' := by
    rintro d' ⟨-, -, hd', name, name', hname, -, hspelled⟩
    cases hname
    cases d' with
    | function statement =>
        have htop : statement ∈ [4, 9] := hd'.1
        rcases List.mem_pair.mp htop with rfl | rfl <;> exact hd'.2.elim
    | method =>
        have hunderscore := hspelled.underscore
        rw [hdisplayB] at hunderscore
        exact absurd hunderscore (by decide)
  obtain ⟨o, hdeclare, hturns⟩ := hturns w hgenerated
  obtain ⟨v, hturn⟩ := hturns _ hsecond ⟨_, _, _, _, rfl⟩
  obtain ⟨link', id, hlink', hid, hbody⟩ := (hdeclared o hdeclare).2 _ v hturn hunclashed
  obtain ⟨link, other, hlink, hother, hspelled⟩ :=
    hapart _ _ _ _ (by simp) hfirst hsecond rfl rfl
  obtain rfl : link' = other := Option.some.inj (hlink'.symm.trans hother)
  refine ⟨typed, t, hrun, link, link', id, v, o, hlink, hlink', fun heq => ?_, hturn, hid, hbody⟩
  have hunderscore := (hspelled.mp heq).underscore
  rw [hdisplayA] at hunderscore
  exact absurd hunderscore (by decide)

/-- A unit with the classes `A` and `A_b`, whose methods `b_c` and `c` meet at different
underscores. -/
def overlapUnit : SyntaxTree :=
  .ofStatements #[.namedType "Integer", .number 1, .methodDef "b_c" [] (some 0) 1, .seq [2],
    .classDef "A" none 3, .namedType "Integer", .number 2, .methodDef "c" [] (some 5) 6, .seq [7],
    .classDef "A_b" none 8] [4, 9]

/-- A unit with a function that is named like the method of its class is linked. -/
def shadowUnit : SyntaxTree :=
  .ofStatements #[.namedType "Integer", .number 1, .methodDef "x" [] (some 0) 1, .seq [2],
    .classDef "A" none 3, .namedType "Integer", .number 2, .methodDef "_Tc_A_x" [] (some 5) 6] [4, 7]

/-- A unit whose two classes share their body. -/
def sharedBodyUnit : SyntaxTree :=
  .ofStatements #[.namedType "Integer", .number 1, .methodDef "x" [] (some 0) 1, .seq [2],
    .classDef "A" none 3, .classDef "B" none 3] [4, 5]

/-- Two different declarations without attributes have the same link name although the types of the
unit are displayed differently, and the unit is refused when it is generated. -/
def Collide (tree : SyntaxTree) (d d' : Declaration) (reason : String) : Prop :=
  ∃ typed t, firstRun {} tree = .ok typed t ∧ typed.DisplaysApart tree t.pool ∧ d ≠ d' ∧
    typed.Has tree d ∧ typed.Has tree d' ∧
    (d.plainName? tree).isSome ∧ (d'.plainName? tree).isSome ∧
    (∃ link, typed.linkName? d = some link ∧ typed.linkName? d' = some link) ∧
    firstHalts {} tree = (none, some (.error (.typeMismatch reason)))

theorem overlapUnit_collides : Collide overlapUnit (.method 4 0 8 ⟨0, 2⟩) (.method 9 0 9 ⟨0, 7⟩)
    "'c' is defined more than once" := by
  have htyped : okWith (fun typed t => decide (typed.DisplaysApart overlapUnit t.pool ∧
      typed.HasInstance 4 0 8 ∧ typed.HasInstance 9 0 9 ∧
      typed.linkName? (.method 4 0 8 ⟨0, 2⟩) = some "_Tc_A_b_c" ∧
      typed.linkName? (.method 9 0 9 ⟨0, 7⟩) = some "_Tc_A_b_c")) (firstRun {} overlapUnit) =
      some true := by decide +kernel
  obtain ⟨typed, t, hrun, hfacts⟩ := exists_of_okWith htyped
  obtain ⟨hdisplay, hA, hAb, hlink, hlink'⟩ := of_decide_eq_true hfacts
  exact ⟨typed, t, hrun, hdisplay, by simp,
    .of_statement 3 (by decide) hA (by decide) (by decide) True.intro,
    .of_statement 8 (by decide) hAb (by decide) (by decide) True.intro,
    rfl, rfl, ⟨_, hlink, hlink'⟩, by decide +kernel⟩

theorem shadowUnit_collides : Collide shadowUnit (.method 4 0 8 ⟨0, 2⟩) (.function 7)
    "'_Tc_A_x' is declared twice with different types" := by
  have htyped : okWith (fun typed t => decide (typed.DisplaysApart shadowUnit t.pool ∧
      typed.HasInstance 4 0 8 ∧ typed.linkName? (.method 4 0 8 ⟨0, 2⟩) = some "_Tc_A_x" ∧
      typed.linkName? (.function 7) = some "_Tc_A_x")) (firstRun {} shadowUnit) = some true := by
    decide +kernel
  obtain ⟨typed, t, hrun, hfacts⟩ := exists_of_okWith htyped
  obtain ⟨hdisplay, hA, hlink, hlink'⟩ := of_decide_eq_true hfacts
  exact ⟨typed, t, hrun, hdisplay, by simp,
    .of_statement 3 (by decide) hA (by decide) (by decide) True.intro,
    ⟨by decide, True.intro⟩, rfl, rfl, ⟨_, hlink, hlink'⟩, by decide +kernel⟩

theorem sharedBodyUnit_collides :
    Collide sharedBodyUnit (.method 4 0 8 ⟨0, 2⟩) (.method 5 0 9 ⟨0, 2⟩)
      "'x' is defined more than once" := by
  have htyped : okWith (fun typed t => decide (typed.DisplaysApart sharedBodyUnit t.pool ∧
      typed.HasInstance 4 0 8 ∧ typed.HasInstance 5 0 9 ∧
      typed.linkName? (.method 4 0 8 ⟨0, 2⟩) = some "_Tc_B_x" ∧
      typed.linkName? (.method 5 0 9 ⟨0, 2⟩) = some "_Tc_B_x")) (firstRun {} sharedBodyUnit) =
      some true := by decide +kernel
  obtain ⟨typed, t, hrun, hfacts⟩ := exists_of_okWith htyped
  obtain ⟨hdisplay, hA, hB, hlink, hlink'⟩ := of_decide_eq_true hfacts
  exact ⟨typed, t, hrun, hdisplay, by simp,
    .of_statement 3 (by decide) hA (by decide) (by decide) True.intro,
    .of_statement 3 (by decide) hB (by decide) (by decide) True.intro,
    rfl, rfl, ⟨_, hlink, hlink'⟩, by decide +kernel⟩

/-- Declarations collide that are spelled alike, and so do those that share a node. -/
theorem link_names_collide :
    overlapUnit.TreeShaped ∧ Collide overlapUnit (.method 4 0 8 ⟨0, 2⟩) (.method 9 0 9 ⟨0, 7⟩)
        "'c' is defined more than once" ∧
      shadowUnit.TreeShaped ∧ Collide shadowUnit (.method 4 0 8 ⟨0, 2⟩) (.function 7)
        "'_Tc_A_x' is declared twice with different types" ∧
      Collide sharedBodyUnit (.method 4 0 8 ⟨0, 2⟩) (.method 5 0 9 ⟨0, 2⟩)
        "'x' is defined more than once" :=
  ⟨by decide, overlapUnit_collides, by decide, shadowUnit_collides, sharedBodyUnit_collides⟩

end Session

end ClassLang
