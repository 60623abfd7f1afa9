import ClassLang.Proofs.Session.Frame
import ClassLang.Proofs.Typing.NamedModules

/-!
# A case has one name

Constructions find a case by its name in scope; patterns look through the cases of the type that is
matched, from the first one on. Where no two cases of a data type share a name, both find the same
case, whatever a session has compiled before. There is one exception: in a generic declaration the
name of the type parameter means the case that the declaration was expanded with, and hides the case
of that name.
-/

namespace ClassLang

/-- Operations on a pool keep data types and their cases in step. -/
theorem Pool.Passes.linked {ok : Pool → Prop} {p q : Pool} (h : Pool.Passes ok p q)
    (hp : p.Linked) : q.Linked := by
  induction h with
  | refl => exact hp
  | step _ hchange _ ih => exact ih.change hchange

namespace Session

variable {γ : Type} {backend : Backend γ} {store : ModuleStore} {fuel : Nat} {tree : SyntaxTree}
  {s : Pool × Session γ}

/-! ## Names in a session -/

/-- Types go by the names under which the modules of the session offer them. -/
def OffersByName (s : Pool × Session γ) : Prop :=
  ∀ id e, s.2.exports? id = some e → e.Spelled s.1

/-- Compiling a unit offers types by their names, if its importer does. -/
theorem compileWith_spelled (backend : Backend γ) {importer : Importer (Session γ)}
    (hlawful : importer.Lawful) (hkeeps : importer.KeepsNames)
    (hexports : importer.exports? = exports?) {p : Pool} {N : TypeId → Prop} {session : Session γ} (hT : p.Territory N)
    (hfits : importer.ExportsFit p N session) (hs : OffersByName (p, session))
    (tree : SyntaxTree) :
    OffersByName (finalState (compileWith backend importer tree (p, session))) ∧
      ∀ typed after, compileWith backend importer tree (p, session) = .ok typed after →
        typed.exports.Spelled after.1 := by
  have hbegin : Typing.Declaring { tree, importer } { pool := p, imports := session } :=
    .initial hT.sound.initial_evolves hT.sound.indexed fun id e he => hs id e (hexports ▸ he)
  have hcalc := Typing.calculate_spelled hT hlawful hkeeps (.initial hT hfits) hbegin
  have hoffers {q : Pool} {after : Session γ} (h : importer.Spelled q after) :
      OffersByName (q, after) := fun id e he => h id e (hexports ▸ he)
  unfold compileWith
  cases hrun : Typing.calculate { tree, importer } { pool := p, imports := session } with
  | error h t =>
      simp only [hrun]
      exact ⟨hoffers (hcalc.error hrun), fun _ _ heq => by cases heq⟩
  | ok typed t =>
      obtain ⟨-, -, rfl, ht⟩ := hcalc.ok hrun
      have hafter : OffersByName (t.pool, t.imports) := hoffers ht.imports
      simp only [hrun]
      cases backend.generate tree t.pool t.typed t.imports.output with
      | error h output => exact ⟨hafter, fun _ _ heq => by cases heq⟩
      | ok _ output =>
          refine ⟨hafter, fun _ _ heq => ?_⟩
          cases heq
          exact ht.exports

/-- Imports of a session offer types by their names. -/
theorem importerWithin_keepsNames (backend : Backend γ) (store : ModuleStore) (fuel : Nat) :
    (importerWithin backend store fuel).KeepsNames := by
  induction fuel with
  | zero => exact fun path dotted p session N _ _ hs => hs
  | succ fuel ih =>
      intro path dotted p session N hT hfits hs
      -- the unit is compiled while its import is in progress, which does not matter here
      let marked : Session γ := { session with inProgress := dotted :: session.inProgress }
      have hoffers : OffersByName (p, marked) := hs
      have hfits' : (importerWithin backend store fuel).ExportsFit p N marked := by
        intro id e he
        rw [importerWithin_exports] at he
        exact hfits id e he
      have hnested := compileWith_spelled backend (importerWithin_lawful backend store fuel) ih
        (importerWithin_exports fuel) hT hfits' hoffers
      have hcases := resolve_resolved backend store fuel path dotted p session
      generalize (importerWithin backend store (fuel + 1)).resolve path dotted (p, session) = result
        at hcases
      cases hcases with
      | known => exact hs
      | refused => exact hs
      | @failed tree h after hload hrun =>
          have hafter := (hnested tree).1
          rw [hrun] at hafter
          exact hafter
      | @compiled tree typed after hload hrun =>
          obtain ⟨hafter, hoffered⟩ := hnested tree
          rw [hrun] at hafter
          intro id e he
          simp only [importerWithin_exports, exports?, Session.register, finalState,
            List.getElem?_append] at he
          split at he
          · exact hafter id e he
          · rw [List.getElem?_singleton] at he
            split at he <;> cases he
            exact hoffered typed after hrun

/-- In every state of a session modules offer types by their names. -/
theorem Reachable.offersByName (h : Reachable backend store s) : OffersByName s := by
  induction h with
  | start => exact fun id e he => by simp [exports?] at he
  | @next s tree h _ ih =>
      exact (compileWith_spelled backend (importerWithin_lawful backend store _)
        (importerWithin_keepsNames backend store _) (importerWithin_exports _)
        h.sound.pool.territory h.sound.exportsFit ih tree).1

/-- In every state of a session data types and their cases name each other. -/
theorem Reachable.linked (h : Reachable backend store s) : s.1.Linked := by
  induction h with
  | start => exact .initial
  | @next s tree h _ ih =>
      exact (h.sound.compileWith backend store _ tree).passes.linked ih

/-- The typing of a unit begins with cases that go by their names. -/
theorem declaring (hsound : Sound s) (hs : OffersByName s) (fuel : Nat) (tree : SyntaxTree) :
    Typing.Declaring { tree, importer := importerWithin backend store fuel }
      { pool := s.1, imports := s.2 } := by
  refine .initial hsound.pool.initial_evolves hsound.pool.indexed fun id e he => ?_
  rw [importerWithin_exports] at he
  exact hs id e he

/-- Every compilation, nested ones included, begins in a state in which modules offer types by their
names, and data types and their cases name each other. -/
theorem Begins.offersByName (h : Begins backend store fuel tree s) :
    OffersByName s ∧ s.1.Linked := by
  induction h with
  | unit h => exact ⟨Reachable.offersByName h, Reachable.linked h⟩
  | @imported fuel tree _ _ _ before _ _ _ s hbegins _ hbefore _ _ ih =>
      have hsound := Begins.sound hbegins
      have hT := hsound.pool.territory
      have hlawful := importerWithin_lawful backend store (fuel + 1)
      have hconfined := hsound.confined backend store (fuel + 1) tree
      have hkeeps := Typing.declareTypes_spelled hT hlawful
        (importerWithin_keepsNames backend store (fuel + 1)) before hconfined
        (declaring hsound ih.1 (fuel + 1) tree)
      have hconfines := Discipline.forM_keeps (P := fun _ => True) before hconfined True.intro
        fun statement _ _ ht _ _ => Typing.declareType_confined hT hlawful statement ht
      obtain ⟨-, hle, -⟩ := hconfines.ok hbefore
      obtain ⟨-, -, hs⟩ := hkeeps.ok hbefore
      refine ⟨fun id e he => hs.imports id e ?_, hle.passes.linked ih.2⟩
      rw [importerWithin_exports]
      exact he

/-! ## Building and matching -/

/-- A pool that came about while the pool grew from one to another. -/
structure Between (p u q : Pool) : Prop where
  passes : Pool.Passes (fun _ => True) p u
  evolves : u.Evolves q

/-- A pattern that names the type finds this case, once the case is there, and never another one. -/
def PatternFinds (ctx : TypingContext (Session γ)) (name : String) (subject c : TypeId)
    (u : TypingState (Session γ)) : Prop :=
  ∀ type, ctx.tree.node type = .namedType name →
    (c < u.pool.size → ∃ w, Typing.patternCase ctx type subject u = .ok c w) ∧
      ∀ found w, Typing.patternCase ctx type subject u = .ok found w → found = c

/-- A pattern finds the case of a data type that has the name, if no other case has it. -/
theorem patternFinds_of_distinct {ctx : TypingContext (Session γ)} {p : Pool} {name : String}
    {owner subject c : TypeId} {tag : Nat} {u : TypingState (Session γ)} (hlinked : u.pool.Linked)
    (hevolves : u.pool.Evolves p) (hp : p.Linked) (hplace : (p.data c).place? = some (tag, owner))
    (hname : (p.data c).shortName? = some name)
    (hdistinct : ((p.cases owner).map p.caseShortName?).Nodup)
    (hsubject : u.pool.resolve subject = owner) : PatternFinds ctx name subject c u := by
  intro type hnode
  have hlist : u.pool.cases subject = u.pool.caseList owner := by
    rw [Pool.cases, Pool.view, hsubject, Pool.caseList]
    cases u.pool.data owner <;> rfl
  obtain ⟨hcases, hmem⟩ := hp.mem_cases hplace
  have hshort : p.caseShortName? c = some name := Pool.caseShortName?_of_shortName? hname
  -- the cases that are there now keep their names, which are all different in the end
  have hunique {found : TypeId} (hfound : found ∈ u.pool.caseList owner)
      (hcalled : u.pool.caseShortName? found = some name) : found = c := by
    obtain ⟨k, hk⟩ := hlinked.place?_of_mem hfound
    have hlt := Pool.lt_size_of_place? hk
    rw [Pool.caseShortName?_of_place? hk, ← hevolves.shortName?_eq hlt] at hcalled
    have hlater : found ∈ p.cases owner := hcases ▸ (hevolves.caseList_prefix owner).subset hfound
    exact List.inj_on_of_nodup_map hdistinct hlater (hcases ▸ hmem)
      ((Pool.caseShortName?_of_shortName? hcalled).trans hshort.symm)
  unfold Typing.patternCase
  simp only [hnode, get_bind_apply, hlist]
  refine ⟨fun hlt => ?_, fun found w hok => ?_⟩
  · have hplace' : (u.pool.data c).place? = some (tag, owner) :=
      (hevolves.place?_eq hlt).symm.trans hplace
    have hname' : (u.pool.data c).shortName? = some name :=
      (hevolves.shortName?_eq hlt).symm.trans hname
    cases hfind : (u.pool.caseList owner).find? (fun t => u.pool.caseShortName? t == some name) with
    | none =>
        have hnone := List.find?_eq_none.mp hfind c (hlinked.mem_cases hplace').2
        exact absurd (beq_iff_eq.mpr (Pool.caseShortName?_of_shortName? hname')) hnone
    | some found =>
        have hcalled : u.pool.caseShortName? found = some name := by
          simpa using List.find?_some hfind
        obtain rfl := hunique (List.mem_of_find?_eq_some hfind) hcalled
        exact ⟨_, rfl⟩
  · cases hfind : (u.pool.caseList owner).find? (fun t => u.pool.caseShortName? t == some name) with
    | none =>
        rw [hfind] at hok
        cases hok
    | some other =>
        rw [hfind] at hok
        cases hok
        exact hunique (List.mem_of_find?_eq_some hfind) (by simpa using List.find?_some hfind)

/-- A case name means the same case when building and when matching. Let a unit be typed in a
session, and let a node of it build the case `c` of a data type of which no two cases share a name.
Then the node is a bare name, a call or an instance, and either its name is that of `c`, and
whenever a pattern of that name is typed over a subject of the data type, it finds `c`; or the name
is that of a type parameter, and its generic declaration was expanded with `c`. -/
theorem case_names_agree (h : Begins backend store fuel tree s) {typed : TypedModule}
    {t : TypingState (Session γ)}
    (hrun : Typing.calculate { tree, importer := importerWithin backend store fuel }
      { pool := s.1, imports := s.2 } = .ok typed t)
    {visit : Visit} {target : Target} (htarget : typed.table.targets[visit]? = some target)
    {c : TypeId} (hbuilt : target.built? = some c) {link short : String} {tag : Nat}
    {owner : TypeId} {fields : List (String × TypeId)}
    (hcase : t.pool.view c = .variant link short tag owner fields)
    (hdistinct : ((t.pool.cases owner).map t.pool.caseShortName?).Nodup) :
    ∃ name, (tree.node visit.node).writtenName? = some name ∧
      (name = short ∧ (∀ (u : TypingState (Session γ)) subject, Between s.1 u.pool t.pool →
          u.pool.resolve subject = owner →
            PatternFinds { tree, importer := importerWithin backend store fuel } name subject c u) ∨
        name ≠ short ∧ StandsFor typed.templates name c) := by
  let ctx : TypingContext (Session γ) := { tree, importer := importerWithin backend store fuel }
  obtain ⟨hoffers, hlinked⟩ := h.offersByName
  have hT := h.sound.pool.territory
  have hlawful := importerWithin_lawful backend store fuel
  have hconfined := h.sound.confined backend store fuel tree
  have hcalc := Typing.calculate_spelled hT hlawful (importerWithin_keepsNames backend store fuel)
    hconfined (declaring h.sound hoffers fuel tree)
  obtain ⟨-, -, rfl, ht⟩ := hcalc.ok hrun
  obtain ⟨-, hle, -⟩ := (Typing.calculate_confined hT hlawful hconfined).ok hrun
  obtain ⟨hwritten, hnamed⟩ := ht.targets htarget hbuilt
  have hdata : t.pool.data c = .variant link short tag owner fields := by
    rwa [Pool.view, hwritten.resolve_eq] at hcase
  obtain ⟨name, hname, hspelled⟩ := hnamed short (by rw [hdata]; rfl)
  refine ⟨name, hname, ?_⟩
  by_cases heq : name = short
  · subst heq
    refine .inl ⟨rfl, fun u subject hbetween hsubject => ?_⟩
    exact patternFinds_of_distinct (hbetween.passes.linked hlinked) hbetween.evolves
      (hle.passes.linked hlinked) (by rw [hdata]; rfl) (by rw [hdata]; rfl) hdistinct hsubject
  · exact .inr ⟨heq, hspelled.resolve_left (Ne.symm heq)⟩

/-- A unit with a generic data type `Option` of cases `None` and `Some`; `main` makes a `Some` of an
integer and matches it against `Some`. -/
def optionUnit : SyntaxTree :=
  .ofStatements #[.namedType "T", .typed "value" 0, .caseDef "None" [], .caseDef "Some" [1],
    .dataDef "Option" (some "T") [2, 3] none, .namedType "Integer", .number 3,
    .templatedInstance "Some" [5] [6], .namedType "Some", .pattern 8 none ["x"], .ident "x",
    .ret (some 10), .arm 9 11, .select 7 [12], .number 0, .seq [13, 14], .namedType "Integer",
    .methodDef "main" [] (some 16) 15] [4, 17]

/-- A data type `Maybe` of cases `Just` and `T`, and a generic class whose type parameter is called
`T`, too. Its method matches `T` against `T`; `main` calls it on an instance for `Just`. -/
def hidingUnit : SyntaxTree :=
  .ofStatements #[.caseDef "Just" [], .caseDef "T" [], .dataDef "Maybe" none [0, 1] none,
    .namedType "Integer", .ident "T", .namedType "T", .pattern 5 none [], .number 1, .ret (some 7),
    .arm 6 8, .select 4 [9], .number 0, .ret (some 11), .seq [10, 12],
    .methodDef "get" [] (some 3) 13, .seq [14], .classDef "Box" (some "T") 15, .namedType "Just",
    .templatedInstance "Box" [17] [], .call (some 18) "get" [], .methodDef "main" [] (some 3) 19]
    [2, 16, 20]

/-- What a unit without imports is typed with. -/
def loneContext (tree : SyntaxTree) : TypingContext (Session Unit) where
  tree
  importer := importerWithin Backend.typesOnly {} 1

/-- Typing a unit in a new session. -/
def loneTyping (tree : SyntaxTree) : EStateM.Result Halt (TypingState (Session Unit)) TypedModule :=
  Typing.calculate (loneContext tree) { pool := Pool.initial, imports := { output := () } }

/-- The instance `Some` of `optionUnit` builds the case that the pattern `Some` finds. -/
theorem case_names_agree_option :
    ∃ typed t, loneTyping optionUnit = .ok typed t ∧
      (typed.table.targets[(⟨0, 7⟩ : Visit)]?.bind Target.built?) = some 10 ∧
      ∀ (u : TypingState (Session Unit)) subject, Between Pool.initial u.pool t.pool →
        u.pool.resolve subject = 8 → PatternFinds (loneContext optionUnit) "Some" subject 10 u := by
  have hruns : okWith (fun typed t => (typed.table.targets[(⟨0, 7⟩ : Visit)]?.bind Target.built?,
      t.pool.view 10, (t.pool.cases 8).map t.pool.caseShortName?)) (loneTyping optionUnit) =
        some (some 10, .variant "Option<Integer>.Some" "Some" 1 8 [("value", .integer)],
          [some "None", some "Some"]) := by decide +kernel
  obtain ⟨typed, t, hrun, hfacts⟩ := exists_of_okWith hruns
  simp only [Prod.mk.injEq] at hfacts
  obtain ⟨hbuilt, hview, hnames⟩ := hfacts
  obtain ⟨target, htarget, hbuilds⟩ := Option.bind_eq_some_iff.1 hbuilt
  have hbegins : Begins Backend.typesOnly {} 1 optionUnit (Pool.initial, { output := () }) :=
    .unit (.start ()) optionUnit
  have hdistinct : ((t.pool.cases 8).map t.pool.caseShortName?).Nodup := by
    rw [hnames]
    decide
  obtain ⟨name, hname, ⟨rfl, hfinds⟩ | ⟨hne, -⟩⟩ :=
    case_names_agree hbegins hrun htarget hbuilds hview hdistinct
  · exact ⟨typed, t, hrun, hbuilt, hfinds⟩
  · exact absurd (Option.some.inj hname).symm hne

/-- A unit with a data type that has two cases of the name `A`; `main` builds an `A` and matches it
against `A`. -/
def repeatingUnit : SyntaxTree :=
  .ofStatements #[.namedType "Integer", .typed "first" 0, .caseDef "A" [1], .typed "second" 0,
    .caseDef "A" [3], .dataDef "Twice" none [2, 4] none, .number 5, .call none "A" [6],
    .namedType "A", .pattern 8 none ["v"], .ident "v", .ret (some 10), .arm 9 11, .select 7 [12],
    .number 0, .seq [13, 14], .methodDef "main" [] (some 0) 15] [5, 16]

/-- In a unit, a node that is written with a name builds a case, but a pattern of that name over the
data type of the case finds another one. -/
def Disagrees (tree : SyntaxTree) (visit : Visit) (name : String) (type : NodeId) : Prop :=
  ∃ typed t c link short tag owner fields found w, loneTyping tree = .ok typed t ∧
    (tree.node visit.node).writtenName? = some name ∧
    typed.table.targets[visit]?.bind Target.built? = some c ∧
    t.pool.view c = .variant link short tag owner fields ∧ tree.node type = .namedType name ∧
    Typing.patternCase (loneContext tree) type owner t = .ok found w ∧ found ≠ c

/-- In `hidingUnit` the name `T` builds the case `Just`, which the type parameter of that name
stands for, but a pattern that names `T` finds the other case. In `repeatingUnit` the second case `A`
is built and the first one is found. -/
theorem case_names_disagree :
    Disagrees hidingUnit ⟨1, 4⟩ "T" 5 ∧ Disagrees repeatingUnit ⟨0, 7⟩ "A" 8 := by
  constructor
  · have hruns : okWith (fun typed t => (typed.table.targets[(⟨1, 4⟩ : Visit)]?.bind Target.built?,
        t.pool.view 9,
        okWith (fun found _ => found) (Typing.patternCase (loneContext hidingUnit) 5 8 t)))
          (loneTyping hidingUnit) =
        some (some 9, .variant "Maybe.Just" "Just" 0 8 [], some 10) := by decide +kernel
    obtain ⟨typed, t, hrun, hfacts⟩ := exists_of_okWith hruns
    simp only [Prod.mk.injEq] at hfacts
    obtain ⟨hbuilt, hview, hpattern⟩ := hfacts
    obtain ⟨found, w, hfound, rfl⟩ := exists_of_okWith hpattern
    exact ⟨typed, t, 9, _, _, _, 8, _, 10, w, hrun, rfl, hbuilt, hview, rfl, hfound, by decide⟩
  · have hruns : okWith (fun typed t => (typed.table.targets[(⟨0, 7⟩ : Visit)]?.bind Target.built?,
        t.pool.view 10,
        okWith (fun found _ => found) (Typing.patternCase (loneContext repeatingUnit) 8 8 t)))
          (loneTyping repeatingUnit) =
        some (some 10, .variant "Twice.A" "A" 1 8 [("second", .integer)], some 9) := by
      decide +kernel
    obtain ⟨typed, t, hrun, hfacts⟩ := exists_of_okWith hruns
    simp only [Prod.mk.injEq] at hfacts
    obtain ⟨hbuilt, hview, hpattern⟩ := hfacts
    obtain ⟨found, w, hfound, rfl⟩ := exists_of_okWith hpattern
    exact ⟨typed, t, 10, _, _, _, 8, _, 9, w, hrun, rfl, hbuilt, hview, rfl, hfound, by decide⟩

end Session

end ClassLang
