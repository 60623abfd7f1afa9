import ClassLang.Proofs.Lowering.GrowthSteps
import ClassLang.Proofs.Session.ControlFlow

/-!
# What the names of a pattern stand for

A pattern binds its binder to the matched value and its field names to the fields of the matched
case, and of several entries for one name the last one counts. Typing enters the fields first and
the binder after them; generated code binds the binder first and the fields after it. The two
orders are `PatternPart.typed` and `PatternPart.lowered`. They give every name the same meaning,
except a binder that is also the name of a field: the body of the arm is typed with the matched
value under that name, and reads the field.
-/

namespace ClassLang

open IR (Build Builder Value)

/-- What a name of a pattern stands for. -/
inductive PatternPart where
  /-- The value that is matched. -/
  | subject
  /-- A field of the matched case, by its position. -/
  | field (index : Nat)
deriving DecidableEq, Repr

namespace PatternPart

/-- The field names with what they stand for, the last one first. -/
def ofFields (fields : List String) : List (String × PatternPart) :=
  (fields.zipIdx.map fun (name, index) => (name, field index)).reverse

/-- The binder stands for the matched value. -/
def ofBinder (binder : Option String) : List (String × PatternPart) :=
  binder.toList.map (·, subject)

/-- The names of a pattern in the frame that an arm is typed in. The first entry of a name
counts. -/
def typed (binder : Option String) (fields : List String) : List (String × PatternPart) :=
  ofBinder binder ++ ofFields fields

/-- The names of a pattern in the scope that the code of an arm is generated in. -/
def lowered (binder : Option String) (fields : List String) : List (String × PatternPart) :=
  ofFields fields ++ ofBinder binder

variable {binder : Option String} {fields : List String} {name : String}

theorem lookup_ofBinder :
    (ofBinder binder).lookup name = if binder = some name then some subject else none := by
  cases binder with
  | none => rfl
  | some bound =>
      by_cases h : bound = name
      · subst h
        simp [ofBinder]
      · have hne : (name == bound) = false := by simp [Ne.symm h]
        simp [ofBinder, List.lookup_cons, hne, h]

/-- A name is found among the fields exactly if it is the name of one. -/
theorem lookup_ofFields_eq_none : (ofFields fields).lookup name = none ↔ name ∉ fields := by
  rw [List.lookup_eq_none_iff]
  simp only [ofFields, List.mem_reverse, List.mem_map, Prod.exists, forall_exists_index, and_imp]
  constructor
  · intro h hmem
    obtain ⟨index, hlt, heq⟩ := List.getElem_of_mem hmem
    have hzip : (name, index) ∈ fields.zipIdx := by
      rw [List.mem_zipIdx_iff_getElem?, List.getElem?_eq_some_iff]
      exact ⟨hlt, heq⟩
    simpa using h _ name index hzip rfl
  · rintro h _ field index hzip rfl
    have hmem : field ∈ fields := List.fst_mem_of_mem_zipIdx hzip
    simp only [bne_iff_ne, ne_eq]
    rintro rfl
    exact h hmem

/-- What is found among the fields is a field. -/
theorem lookup_ofFields_ne_subject : (ofFields fields).lookup name ≠ some subject := by
  intro h
  have hmem := mem_of_lookup_eq_some h
  simp [ofFields] at hmem

/-- The two orders differ on a name that is binder and field at once, and on no other. -/
theorem lookup_typed_eq_lowered_iff :
    (typed binder fields).lookup name = (lowered binder fields).lookup name ↔
      ¬ (binder = some name ∧ name ∈ fields) := by
  simp only [typed, lowered, List.lookup_append, lookup_ofBinder]
  by_cases hbinder : binder = some name
  · by_cases hfield : name ∈ fields
    · have hfound := lookup_ofFields_eq_none.not.2 (not_not.2 hfield)
      obtain ⟨part, hpart⟩ := Option.ne_none_iff_exists'.1 hfound
      have hne : (ofFields fields).lookup name ≠ some subject := lookup_ofFields_ne_subject
      rw [hpart] at hne
      simp [hbinder, hfield, hpart]
      rintro rfl
      exact hne rfl
    · simp [hbinder, hfield, lookup_ofFields_eq_none.2 hfield]
  · simp [hbinder]

end PatternPart

/-! ## Typing -/

namespace Scope

/-- Values are entered one after the other, each in front of those before it. -/
theorem names_bindValues (frame : Scope) (values : List (String × TypeId)) :
    (frame.bindValues values).names =
      (values.map fun (name, t) => (name, Binding.value t)).reverse ++ frame.names := by
  induction values generalizing frame with
  | nil => rfl
  | cons value values ih =>
      have hstep := ih (frame.bind value.1 (.value value.2))
      simpa [bindValues, bind] using hstep

end Scope

namespace PatternPart

/-- The type of a part of a pattern for the case `t`, with values of type `subject` matched. -/
def type (p : Pool) (subject t : TypeId) : PatternPart → TypeId
  | .subject => subject
  | .field index => ((p.caseFields t).map (·.2)).getD index .void

end PatternPart

/-- The names of a list with what stands at their positions in another list. -/
theorem zip_eq_map_zipIdx {α : Type} {names : List String} {items : List α} (default : α)
    (h : names.length = items.length) :
    names.zip items = names.zipIdx.map fun (name, index) => (name, items.getD index default) := by
  refine List.ext_getElem (by simp [h]) fun index hlt _ => ?_
  have hitem : index < items.length := by simpa [h] using hlt
  simp [hitem]

namespace Typing

open Discipline (onSuccess)

variable {σ : Type} {ctx : TypingContext σ} {s s' : TypingState σ} {t owner : TypeId}

/-- A pattern names one of the cases of the data type. -/
theorem patternCase_onSuccess (type : NodeId) (owner : TypeId) (s : TypingState σ) :
    (onSuccess Halt (TypingState σ)).KeepsAt s (patternCase ctx type owner) fun t u =>
      t ∈ s.pool.cases owner ∧ (s.pool.caseShortName? t).isSome ∧ u.pool = s.pool := by
  unfold patternCase
  split
  · refine .bind_read True.intro (b := s) rfl ?_
    dsimp only
    split
    · exact True.intro
    · next name t ht =>
        have hname := List.find?_some ht
        refine .of_ok rfl True.intro True.intro ⟨List.mem_of_find?_eq_some ht, ?_, rfl⟩
        rw [beq_iff_eq.1 hname]
        rfl
  · exact True.intro

/-- The frame of a case holds its field names, all of them or none. -/
theorem caseFrame_onSuccess (t : TypeId) (fields : List String) (s : TypingState σ) :
    (onSuccess Halt (TypingState σ)).KeepsAt s (caseFrame t fields) fun frame u =>
      (fields = [] ∨ fields.length = (s.pool.caseFields t).length) ∧ u = s ∧
        ∀ subject, frame.names = (PatternPart.ofFields fields).map fun (name, part) =>
          (name, .value (part.type s.pool subject t)) := by
  unfold caseFrame
  refine .bind_read True.intro (b := s) rfl ?_
  dsimp only
  split
  · next hnil =>
      rw [List.isEmpty_iff] at hnil
      subst hnil
      exact .pure True.intro ⟨.inl rfl, rfl, fun _ => rfl⟩
  · split
    · exact True.intro
    · next hlength =>
        rw [ne_eq, not_not] at hlength
        refine .pure True.intro ⟨.inr hlength, rfl, fun subject => ?_⟩
        rw [Scope.names_bindValues, zip_eq_map_zipIdx .void (by simpa using hlength)]
        simp [PatternPart.ofFields, PatternPart.type, Function.comp_def]

/-- The frame of an arm holds the names of its pattern in the order `PatternPart.typed`. -/
theorem inferPattern_onSuccess (scrutinee : TypeId) (onDynamic : Bool) (type : NodeId)
    (binder : Option String) (fields : List String) (s : TypingState σ) :
    (onSuccess Halt (TypingState σ)).KeepsAt s
      (inferPattern ctx scrutinee onDynamic type binder fields) fun (frame, t) u =>
        (onDynamic = true → fields = []) ∧
        (onDynamic = false → t ∈ s.pool.cases scrutinee ∧ (s.pool.caseShortName? t).isSome ∧
          u.pool = s.pool ∧ (fields = [] ∨ fields.length = (s.pool.caseFields t).length)) ∧
        frame.names = (PatternPart.typed binder fields).map fun (name, part) =>
          (name, .value (part.type u.pool (if onDynamic then t else scrutinee) t)) := by
  have hbinder (t : TypeId) (frame : Scope) :
      (frame.bindValues (binder.toList.map ((·, t)))).names =
        ((PatternPart.ofBinder binder).map fun (name, _) => (name, .value t)) ++ frame.names := by
    rw [Scope.names_bindValues]
    cases binder <;> rfl
  unfold inferPattern
  dsimp only
  split
  · next hdynamic =>
      refine .bind (P := fun _ _ => True) ?_ fun t u _ _ _ => ?_
      · unfold Discipline.KeepsAt
        split <;> trivial
      · split
        · exact True.intro
        · next hfields =>
            have hnil : fields = [] := by simpa using hfields
            refine .pure True.intro ⟨fun _ => hnil, by simp [hdynamic], ?_⟩
            rw [hbinder]
            cases binder <;> simp [PatternPart.typed, PatternPart.ofBinder, PatternPart.ofFields,
              PatternPart.type, hnil]
  · next hdata =>
      refine .bind (patternCase_onSuccess type scrutinee s) fun t u _ _ ⟨hcase, hname, hpool⟩ => ?_
      refine .bind (caseFrame_onSuccess t fields u) fun frame v _ _ ⟨hlength, heq, hframe⟩ => ?_
      subst heq
      refine .pure True.intro ⟨by simp [hdata], fun _ => ⟨hcase, hname, hpool, hpool ▸ hlength⟩, ?_⟩
      rw [hbinder, hframe scrutinee]
      cases binder <;> simp [PatternPart.typed, PatternPart.ofBinder, PatternPart.type]

end Typing

/-! ## Generated code -/

namespace Emit

/-- Read the field at a position of the case with the layout `struct` at `value`. The tag comes
before the fields. -/
def readField (ctx : LoweringContext) (struct : IR.Ty) (value : Value) (index : Nat) (name : String)
    (fieldType : TypeId) : Emit Value := do
  let type ← valueType ctx fieldType
  build do
    let slot ← Build.structField struct value (index + 1) (name ++ ".ptr")
    Build.load type slot name

/-- The fields of the parts of a case are those that the pool knows. -/
theorem caseParts_ok {ctx : LoweringContext} {t : TypeId} {parts : CaseParts} {o o' : Output}
    (h : caseParts ctx t o = .ok parts o') : o' = o ∧ parts.fields = ctx.pool.caseFields t := by
  unfold caseParts at h
  unfold Pool.caseFields
  cases hview : ctx.pool.view t <;> rw [hview] at h <;> cases h
  exact ⟨rfl, rfl⟩

/-- Read the fields of the case `t` at `value`, one for each name, in their order. -/
def readFields (ctx : LoweringContext) (value : Value) (t : TypeId) (names : List String) :
    Emit (List Value) := do
  let parts ← caseParts ctx t
  let struct ← layout ctx t
  (names.zip parts.fields).zipIdx.mapM fun ((name, _, fieldType), index) =>
    readField ctx struct value index name fieldType

end Emit

/-- What stands for a part of a pattern, given the matched value and the fields that were read. -/
def PatternPart.value (parts : Value × List Value) : PatternPart → Value
  | .subject => parts.1
  | .field index => parts.2.getD index default

namespace Lower

variable (ctx : LoweringContext) {b b' : Body} {o o' : Output}

/-- The matched value and its fields, as far as a pattern for the case or type `t` names them. A
value is taken out of its box only for a binder. -/
def readParts (value : Value) (t : TypeId) (onDynamic : Bool) (binder : Option String)
    (fields : List String) : Lower (Value × List Value) := do
  if onDynamic then
    match binder with
    | some _ => return (← unboxDynamic ctx value t, [])
    | none => return (value, [])
  else if fields.isEmpty then return (value, [])
  else return (value, ← Emit.readFields ctx value t fields)

/-- A loop that reads a value for each item and binds a name to it reads the values in their order,
and leaves all of them behind, the last one first. -/
theorem forM_read_bind {α : Type} {step : α → Lower Unit} {read : α → Emit Value} {name : α → String}
    (hstep : ∀ item b o b' o', (step item).run b o = .ok ((), b') o' →
      ∃ v, read item o = .ok v o' ∧ b' = { b with scope := (name item, .fixed v) :: b.scope })
    {items : List α} (h : (items.forM step).run b o = .ok ((), b') o') :
    ∃ loaded, items.mapM read o = .ok loaded o' ∧ loaded.length = items.length ∧
      b' = { b with scope :=
        ((items.zip loaded).map fun (item, v) => (name item, .fixed v)).reverse ++ b.scope } := by
  induction items generalizing b o with
  | nil =>
      cases h
      exact ⟨[], rfl, rfl, rfl⟩
  | cons item items ih =>
      obtain ⟨_, b₁, o₁, hfirst, hrest⟩ := bind_ok h
      obtain ⟨v, hread, rfl⟩ := hstep item b o b₁ o₁ hfirst
      obtain ⟨loaded, hloaded, hlength, rfl⟩ := ih hrest
      refine ⟨v :: loaded, ?_, by simp [hlength], by simp⟩
      rw [List.mapM_cons]
      exact bind_eq_ok.mpr ⟨v, o₁, hread, bind_eq_ok.mpr ⟨loaded, o', hloaded, rfl⟩⟩

/-- Binding the fields reads them, and puts their names in front of the scope. -/
theorem bindFields_ok {value : Value} {t : TypeId} {fields : List String}
    (hlength : fields.length = (ctx.pool.caseFields t).length)
    (h : (bindFields ctx value t fields).run b o = .ok ((), b') o') :
    ∃ loaded, Emit.readFields ctx value t fields o = .ok loaded o' ∧
      loaded.length = fields.length ∧
      b' = { b with scope := ((PatternPart.ofFields fields).map fun (name, part) =>
        (name, .fixed (part.value (value, loaded)))) ++ b.scope } := by
  unfold bindFields at h
  obtain ⟨parts, _, o₁, hcase, hrest⟩ := bind_ok h
  obtain ⟨rfl, hparts⟩ := lift_ok hcase
  obtain ⟨struct, _, o₂, hlayout, hloop⟩ := bind_ok hrest
  obtain ⟨rfl, hstruct⟩ := lift_ok hlayout
  obtain ⟨-, hfields⟩ := Emit.caseParts_ok hparts
  have hstep (item : (String × String × TypeId) × Nat) (b : Body) (o : Output) (b' : Body)
      (o' : Output) (h : (do
        let type ← Emit.valueType ctx item.1.2.2
        let loaded ← build do
          let slot ← Build.structField struct value (item.2 + 1) (item.1.1 ++ ".ptr")
          Build.load type slot item.1.1
        bind item.1.1 (.fixed loaded) : Lower Unit).run b o = .ok ((), b') o') :
      ∃ v, Emit.readField ctx struct value item.2 item.1.1 item.1.2.2 o = .ok v o' ∧
        b' = { b with scope := (item.1.1, .fixed v) :: b.scope } := by
    obtain ⟨type, _, v, htype, hrest⟩ := bind_ok h
    obtain ⟨rfl, htype'⟩ := lift_ok htype
    obtain ⟨loaded, _, w, hload, hbind⟩ := bind_ok hrest
    obtain ⟨rfl, hload'⟩ := lift_ok hload
    cases hbind
    exact ⟨loaded, bind_eq_ok.mpr ⟨type, v, htype', hload'⟩, rfl⟩
  obtain ⟨loaded, hloaded, hcount, rfl⟩ := forM_read_bind hstep hloop
  have hall : loaded.length = fields.length := by simpa [hfields, ← hlength] using hcount
  refine ⟨loaded, ?_, hall, ?_⟩
  · exact bind_eq_ok.mpr ⟨parts, o₁, hparts, bind_eq_ok.mpr ⟨struct, o₂, hstruct, hloaded⟩⟩
  · congr 2
    rw [PatternPart.ofFields, List.map_reverse, List.map_map]
    congr 1
    refine List.ext_getElem (by simp [hall, hfields, hlength]) fun index hlt _ => ?_
    have hindex : index < loaded.length := by
      simp only [List.length_map, List.length_zip] at hlt
      omega
    simp [PatternPart.value, hindex]

/-- The fields go in front of a scope that begins with the binder. -/
theorem bindFields_binder_ok {value : Value} {t : TypeId} (binder : Option String)
    {fields : List String}
    (hlength : fields = [] ∨ fields.length = (ctx.pool.caseFields t).length)
    (h : (if !fields.isEmpty then bindFields ctx value t fields else pure () : Lower Unit).run
      { b with scope := ((PatternPart.ofBinder binder).map fun (name, _) =>
        (name, .fixed value)) ++ b.scope } o = .ok ((), b') o') :
    ∃ parts, (readParts ctx value t false binder fields).run b o = .ok (parts, b) o' ∧
      parts.2.length = fields.length ∧
      b' = { b with scope := ((PatternPart.lowered binder fields).map fun (name, part) =>
        (name, .fixed (part.value parts))) ++ b.scope } := by
  have hbinder (loaded : List Value) :
      ((PatternPart.ofBinder binder).map fun (name, _) => (name, Storage.fixed value)) =
        (PatternPart.ofBinder binder).map fun (name, part) =>
          (name, .fixed (part.value (value, loaded))) := by
    cases binder <;> rfl
  by_cases hnil : fields = []
  · subst hnil
    cases h
    refine ⟨(value, []), rfl, rfl, ?_⟩
    rw [hbinder []]
    rfl
  · rw [if_pos (by simp [hnil])] at h
    obtain ⟨loaded, hloaded, hall, rfl⟩ := bindFields_ok ctx (hlength.resolve_left hnil) h
    refine ⟨(value, loaded), ?_, hall, ?_⟩
    · have hread : readParts ctx value t false binder fields = do
          let loaded ← liftM (Emit.readFields ctx value t fields)
          return (value, loaded) := by
        simp [readParts, hnil]
      rw [hread]
      exact run_bind_ok (run_lift_ok hloaded b) rfl
    · rw [hbinder loaded]
      simp [PatternPart.lowered]

/-- Reading a box leaves the body as it is. -/
theorem unboxDynamic_ok {value v : Value} {t : TypeId}
    (h : (unboxDynamic ctx value t).run b o = .ok (v, b') o') : b' = b := by
  unfold unboxDynamic at h
  obtain ⟨_, _, o₁, hlayout, hrest⟩ := bind_ok h
  obtain ⟨rfl, -⟩ := lift_ok hlayout
  obtain ⟨_, _, o₂, htype, hload⟩ := bind_ok hrest
  obtain ⟨rfl, -⟩ := lift_ok htype
  exact (lift_ok hload).1

/-- Binding the names of a pattern reads its parts, and puts the names in the order
`PatternPart.lowered` in front of those around the arm. -/
theorem bindPattern_ok {value : Value} {t : TypeId} {onDynamic : Bool} {binder : Option String}
    {fields : List String} (hdynamic : onDynamic = true → fields = [])
    (hlength : onDynamic = false → fields = [] ∨ fields.length = (ctx.pool.caseFields t).length)
    (h : (bindPattern ctx value t onDynamic binder fields).run b o = .ok ((), b') o') :
    ∃ parts, (readParts ctx value t onDynamic binder fields).run b o = .ok (parts, b) o' ∧
      parts.2.length = fields.length ∧
      b' = { b with scope := ((PatternPart.lowered binder fields).map fun (name, part) =>
        (name, .fixed (part.value parts))) ++ b.scope } := by
  cases onDynamic with
  | true =>
      obtain rfl := hdynamic rfl
      cases binder with
      | none =>
          cases h
          exact ⟨(value, []), rfl, rfl, rfl⟩
      | some name =>
          obtain ⟨v, _, o₁, hunbox, hbind⟩ := bind_ok h
          obtain rfl := unboxDynamic_ok ctx hunbox
          cases hbind
          exact ⟨(v, []), run_bind_ok hunbox rfl, rfl, rfl⟩
  | false =>
      cases binder with
      | none => exact bindFields_binder_ok ctx none (hlength rfl) h
      | some name => exact bindFields_binder_ok ctx (some name) (hlength rfl) h

end Lower

/-! ## Both together -/

/-- The fields of a case that was found in a sound pool stay as they are. -/
theorem Pool.Sound.caseFields_eq {p q : Pool} {owner t : TypeId} (h : p.Sound)
    (ht : t ∈ p.cases owner) (hname : (p.caseShortName? t).isSome) (he : p.Evolves q) :
    q.caseFields t = p.caseFields t := by
  have hclosed : p.Closed t := by
    unfold Pool.cases at ht
    split at ht
    · next hview => exact h.members (t := p.resolve owner) (by
        rw [show p.data (p.resolve owner) = _ from hview]
        exact List.mem_append_left _ ht)
    · simp at ht
  have hview : p.view t = p.data t := by rw [Pool.view, hclosed.resolve_eq]
  have hview' : q.view t = q.data t := by rw [Pool.view, (hclosed.mono he).resolve_eq]
  have hbecomes := he.becomes t hclosed.lt_size
  unfold Pool.caseShortName? at hname
  unfold Pool.caseFields
  rw [hview] at hname ⊢
  rw [hview']
  generalize q.data t = later at hbecomes ⊢
  cases hd : p.data t <;> simp [hd] at hname
  rw [hd] at hbecomes
  cases hbecomes
  rfl

/-- The frame that the body of an arm is typed in holds the names of the pattern with the types of
their parts, in the order `PatternPart.typed`. The scope that its code is generated in holds them
with the values of their parts, which the same code reads, in the order `PatternPart.lowered`. So a
name stands for the same part in both, except a binder that is also the name of a field. -/
theorem pattern_parts_agree_iff {σ : Type} {typing : TypingContext σ} {lowering : LoweringContext}
    {scrutinee t : TypeId} {onDynamic : Bool} {type : NodeId} {binder : Option String}
    {fields : List String} {s s' : TypingState σ} {frame : Scope} (hsound : s.pool.Sound)
    (htyped : Typing.inferPattern typing scrutinee onDynamic type binder fields s =
      .ok (frame, t) s')
    (hpool : s'.pool.Evolves lowering.pool) {value : Value} {b b' : Body} {o o' : Output}
    (hlowered : (Lower.bindPattern lowering value t onDynamic binder fields).run b o =
      .ok ((), b') o') :
    frame.names = ((PatternPart.typed binder fields).map fun (name, part) =>
        (name, .value (part.type s'.pool (if onDynamic then t else scrutinee) t))) ∧
      (∃ parts,
        (Lower.readParts lowering value t onDynamic binder fields).run b o = .ok (parts, b) o' ∧
        parts.2.length = fields.length ∧
        b' = { b with scope := ((PatternPart.lowered binder fields).map fun (name, part) =>
          (name, .fixed (part.value parts))) ++ b.scope }) ∧
      ∀ name, (PatternPart.typed binder fields).lookup name =
          (PatternPart.lowered binder fields).lookup name ↔
        ¬ (binder = some name ∧ name ∈ fields) := by
  obtain ⟨-, -, hdynamic, hcase, hnames⟩ :=
    (Typing.inferPattern_onSuccess scrutinee onDynamic type binder fields s).ok htyped
  have hlength (hdata : onDynamic = false) :
      fields = [] ∨ fields.length = (lowering.pool.caseFields t).length := by
    obtain ⟨hmem, hname, hsame, hlength⟩ := hcase hdata
    rwa [hsound.caseFields_eq hmem hname (hsame ▸ hpool)]
  exact ⟨hnames, Lower.bindPattern_ok lowering hdynamic hlength hlowered,
    fun name => PatternPart.lookup_typed_eq_lowered_iff⟩

namespace Session

/-- A unit with a data type `Box` whose case `Wrap` holds a text, and a function that matches a box
against `Wrap`, with the binder `x` and the given name for the field. The body of the arm tells the
cases of `x` apart: 1 stands for `Empty` and 2 for `Wrap`. -/
def boxUnit (field : String) : SyntaxTree :=
  .ofStatements #[.namedType "String", .typed "item" 0, .caseDef "Empty" [], .caseDef "Wrap" [1],
    .dataDef "Box" none [2, 3] none, .namedType "Box", .namedType "Integer", .typed "b" 5,
    .ident "x", .namedType "Empty", .pattern 9 none [], .number 1, .ret (some 11), .arm 10 12,
    .namedType "Wrap", .pattern 14 none [], .number 2, .ret (some 16), .arm 15 17,
    .select 8 [13, 18], .ident "b", .namedType "Wrap", .pattern 21 (some "x") [field], .arm 22 19,
    .select 20 [23], .number 0, .seq [24, 25], .methodDef "look" [7] (some 6) 26, .text "",
    .call none "Wrap" [28], .call none "look" [29], .namedType "Integer",
    .methodDef "main" [] (some 31) 30] [4, 27, 32]

/-- The pool after `boxUnit` was compiled. -/
@[irreducible] def boxPool : Pool :=
  (finalState (loneRun (boxUnit "x"))).1

/-- Typing the pattern of `boxUnit` once more, in the pool that compiling it led to. -/
def boxTyping : EStateM.Result Halt (TypingState Unit) (Scope × TypeId) :=
  Typing.inferPattern { tree := boxUnit "x", importer := .none } 8 false 21 (some "x") ["x"]
    { pool := boxPool, imports := () }

/-- What generating code finds for `boxUnit`, apart from the records of its nodes. -/
def boxContext : LoweringContext :=
  { tree := boxUnit "x", pool := boxPool, typed := { table := {}, templates := [], exports := {} } }

/-- Binding the names of the pattern of `boxUnit` for a box that is given as an address. -/
def boxLowering : EStateM.Result Halt Output (Unit × Body) :=
  (Lower.bindPattern boxContext (.param 0 0 .ptr) 10 false (some "x") ["x"]).run
    { function := 0, walk := 0, owner := none, name := "look", result := .integer, exit := ⟨0, 0⟩ }
    (Output.ofName "main")

/-- In `boxUnit` the binder is the name of a field: typing binds it to the box, and the code binds
it to the text in the box. -/
theorem pattern_parts_agree_iff_box :
    ∃ frame s' b' o', boxTyping = .ok (frame, 10) s' ∧ boxLowering = .ok ((), b') o' ∧
      frame.names.lookup "x" = some (.value 8) ∧
      (∃ text, b'.scope.lookup "x" = some (.fixed text) ∧
        Emit.readFields boxContext (.param 0 0 .ptr) 10 ["x"] (Output.ofName "main") =
          .ok [text] o') ∧
      (PatternPart.typed (some "x") ["x"]).lookup "x" ≠
        (PatternPart.lowered (some "x") ["x"]).lookup "x" := by
  have hsound : boxPool.Sound := by
    unfold boxPool
    exact ((Reachable.start (Output.ofName "main")).next (boxUnit "x")).sound.pool
  have htyping : okWith (fun r s => (r.2, s.pool)) boxTyping = some (10, boxPool) := by
    decide +kernel
  have hlowering : okWith (fun _ _ => ()) boxLowering = some () := by decide +kernel
  obtain ⟨⟨frame, t⟩, s, htyped, heq⟩ := exists_of_okWith htyping
  obtain ⟨⟨_, b'⟩, o, hlowered, -⟩ := exists_of_okWith hlowering
  obtain ⟨rfl, hpool⟩ := Prod.mk.inj heq
  have hevolves : s.pool.Evolves boxContext.pool := by
    rw [show s.pool = boxContext.pool from hpool]
    exact .refl _
  obtain ⟨hnames, ⟨parts, hparts, hlength, hscope⟩, hagree⟩ :=
    pattern_parts_agree_iff hsound htyped hevolves hlowered
  have hread : (Lower.readParts boxContext (.param 0 0 .ptr) 10 false (some "x") ["x"]) = do
      let loaded ← liftM (Emit.readFields boxContext (.param 0 0 .ptr) 10 ["x"])
      return (.param 0 0 .ptr, loaded) := rfl
  rw [hread] at hparts
  obtain ⟨loaded, _, _, hfields, hrest⟩ := Lower.bind_ok hparts
  cases hrest
  obtain ⟨text, rfl⟩ := List.length_eq_one_iff.1 hlength
  refine ⟨frame, s, b', o, htyped, hlowered, ?_, ⟨text, ?_, (Lower.lift_ok hfields).2⟩, fun h => ?_⟩
  · rw [hnames]
    rfl
  · rw [hscope]
    rfl
  · exact (hagree "x").1 h ⟨rfl, by decide⟩

/-- What a field is called matters for an arm that never mentions it: under a name of its own the
binder is told to be a `Wrap`, but under the name of the binder the text in the box is taken for a
box. -/
theorem field_named_as_binder_confuses :
    mainResult (boxUnit "item") = some (.int .w32 2) ∧
      mainResult (boxUnit "x") = some (.int .w32 1) := by
  constructor <;> decide +kernel

end Session

end ClassLang
