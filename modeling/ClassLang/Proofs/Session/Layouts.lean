import ClassLang.Proofs.Lowering.IvarSlots
import ClassLang.Proofs.Session.LinkNames
import ClassLang.Proofs.Typing.LaidModules

/-!
# Typing and generating share the layouts of classes

The layout of a class is collected once, from its body and those of the traits that it includes.
Method bodies are typed with the instance variables of the layout in scope, and generating searches
the layout again, by name. In tree-shaped units that are accepted both see the same.
-/

namespace ClassLang

namespace Session

variable {γ : Type} {backend : Backend γ} {store : ModuleStore} {fuel : Nat} {tree : SyntaxTree}
  {s : Pool × Session γ}

/-- Typing and generating share the layouts of classes. Let a tree-shaped unit be accepted, wherever
in a session. Then every class and every expansion of a generic class has the instance variables that
its body declares, in source order and with those of each included trait in the place of the
inclusion; each has the type that its type expression denotes there, and their names are distinct.
Where that is, `InstanceLaidOut` tells by the steps of this run once its names were declared.
For every instance variable that generating a method of the class comes to, be it read or assigned
and be the method its own or that of a trait, the recorded type is the one that the layout has at
the index where generating looks. -/
theorem layouts_shared (h : Begins backend store fuel tree s) (hshape : tree.TreeShaped)
    {typed : TypedModule} {t : TypingState (Session γ)}
    (hrun : Typing.calculate { tree, importer := importerWithin backend store fuel }
      { pool := s.1, imports := s.2 } = .ok typed t) :
    let ctx : TypingContext (Session γ) := { tree, importer := importerWithin backend store fuel }
    ∃ named, (tree.statements tree.root).forM (Typing.declareType ctx)
        { pool := s.1, imports := s.2 } = .ok ⟨⟩ named ∧
      ∀ decl ∈ tree.statements tree.root, ∀ name param body walk owner,
        tree.node decl = .classDef name param body → typed.HasInstance decl walk owner →
          Typing.InstanceLaidOut ctx named t decl body walk owner (t.pool.ivars owner) ∧
          ∀ visit, typed.Has tree (.method decl walk owner visit) → ∀ method params result code,
            tree.node visit.node = .methodDef method params result code → ∀ node ivar,
              LoweringContext.LowersIvar { tree, pool := t.pool, typed } visit.walk code node ivar →
                ∃ r index, SlotAgrees { tree, pool := t.pool, typed } owner ⟨visit.walk, node⟩ ivar
                  r index := by
  intro ctx
  have howned := Typing.calculate_owned ctx h.sound.pool.territory
    (importerWithin_lawful backend store fuel) hshape
    (h.sound.confined backend store fuel tree).imports
  have hapart := Typing.calculate_walks_apart hrun
  obtain ⟨-, -, rfl, named, hnamed, hs⟩ := howned.ok hrun
  obtain ⟨-, hdelivered, -⟩ := h.delivered hshape hrun
  refine ⟨named, hnamed, fun decl htop name param body walk owner hnode hinstance => ?_⟩
  have hlaid := hdelivered.class_laidOut hs htop hnode hinstance
  exact ⟨hlaid, fun visit hvisit method params result code hmethod node ivar hlowers =>
    hdelivered.slot_agrees hs hshape hapart hlaid.distinct hvisit hmethod hlowers⟩

/-- A class `Person` that includes the trait `Named` between two instance variables of its own, and a
generic class `Box`, of which `main` makes a box of integers. A method of the trait reads an instance
variable, and each class has a method that assigns one. -/
def personUnit : SyntaxTree :=
  .ofStatements #[.namedType "String", .ivarDecl "name" 0, .ivar "name",
    .methodDef "label" [] none 2, .seq [1, 3], .traitDef "Named" 4,
    .namedType "Integer", .ivarDecl "id" 6, .inclusion "Named", .namedType "Boolean",
    .ivarDecl "adult" 9, .ivar "adult", .bool true, .assign 11 12, .methodDef "grow" [] none 13,
    .seq [7, 8, 10, 14], .classDef "Person" none 15, .namedType "T", .ivarDecl "value" 17,
    .namedType "T", .typed "v" 19, .ivar "value", .ident "v", .assign 21 22,
    .methodDef "put" [20] none 23, .seq [18, 24], .classDef "Box" (some "T") 25,
    .namedType "Integer", .templatedInstance "Box" [27] [], .methodDef "main" [] none 28]
    [5, 16, 26, 29]

/-- The instance variable of `Named` stands between those of `Person`, and its method reads it at
index 1. Each class finds what it assigns, too, `Box` in the walk of its expansion. -/
theorem layouts_shared_person :
    ∃ typed t, firstRun {} personUnit = .ok typed t ∧
      t.pool.ivars 8 = [("id", .integer), ("name", .string), ("adult", .boolean)] ∧
      t.pool.ivars 9 = [("value", .integer)] ∧
      SlotAgrees { tree := personUnit, pool := t.pool, typed } 8 ⟨1, 2⟩ "name" .string 1 ∧
      SlotAgrees { tree := personUnit, pool := t.pool, typed } 8 ⟨0, 11⟩ "adult" .boolean 2 ∧
      SlotAgrees { tree := personUnit, pool := t.pool, typed } 9 ⟨2, 21⟩ "value" .integer 0 := by
  have htyped : okWith (fun typed t => decide (typed.HasInstance 16 0 8 ∧
      typed.HasInstance 26 2 9 ∧ typed.table.inclusion? ⟨0, 8⟩ = some 1 ∧
      t.pool.ivars 8 = [("id", .integer), ("name", .string), ("adult", .boolean)] ∧
      t.pool.ivars 9 = [("value", .integer)])) (firstRun {} personUnit) = some true := by
    decide +kernel
  obtain ⟨typed, t, hrun, hfacts⟩ := exists_of_okWith htyped
  obtain ⟨hperson, hbox, hincluded, hpersonIvars, hboxIvars⟩ := of_decide_eq_true hfacts
  have hbegins : Begins Backend.code {} (({} : ModuleStore).size + 1) personUnit
      (Pool.initial, { output := Output.ofName "main" }) :=
    .unit (.start (Output.ofName "main")) personUnit
  obtain ⟨_, -, hshared⟩ := layouts_shared hbegins (by decide) hrun
  obtain ⟨-, hpersonSlots⟩ := hshared 16 (by decide) "Person" none 15 0 8 (by decide) hperson
  obtain ⟨-, hboxSlots⟩ := hshared 26 (by decide) "Box" (some "T") 25 2 9 (by decide) hbox
  have hlabel : typed.Has personUnit (.method 16 0 8 ⟨1, 3⟩) :=
    ⟨by decide, hperson, ⟨15, 8, by decide, by decide,
      .single ⟨"Named", 4, by decide, hincluded, by decide, by decide⟩⟩, True.intro⟩
  have hgrow : typed.Has personUnit (.method 16 0 8 ⟨0, 14⟩) :=
    .of_statement 15 (by decide) hperson (by decide) (by decide) True.intro
  have hput : typed.Has personUnit (.method 26 2 9 ⟨2, 24⟩) :=
    .of_statement 25 (by decide) hbox (by decide) (by decide) True.intro
  obtain ⟨r, i, hname⟩ := hpersonSlots _ hlabel "label" [] none 2 (by decide) 2 "name"
    (.read .refl rfl)
  obtain ⟨r', j, hadult⟩ := hpersonSlots _ hgrow "grow" [] none 13 (by decide) 11 "adult"
    (.written .refl rfl rfl)
  obtain ⟨r'', k, hvalue⟩ := hboxSlots _ hput "put" [20] none 23 (by decide) 21 "value"
    (.written .refl rfl rfl)
  obtain ⟨rfl, rfl⟩ := hname.eq_of_entry 1 (by rw [hpersonIvars]; decide)
    (by rw [hpersonIvars]; rfl)
  obtain ⟨rfl, rfl⟩ := hadult.eq_of_entry 2 (by rw [hpersonIvars]; decide)
    (by rw [hpersonIvars]; rfl)
  obtain ⟨rfl, rfl⟩ := hvalue.eq_of_entry 0 (by rw [hboxIvars]; decide)
    (by rw [hboxIvars]; rfl)
  exact ⟨typed, t, hrun, hpersonIvars, hboxIvars, hname, hadult, hvalue⟩

end Session

end ClassLang
