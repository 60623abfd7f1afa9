import ClassLang.Proofs.Session.Carrying
import ClassLang.Proofs.Session.Forwarding

/-!
# What a session shares

All modules of a session are generated into one output, over one pool of types that grows. Whoever asks
first for the struct of a type, the record of a text or the like, everyone is given the same from then
on. A `History` is what was asked for so far, by whatever module; `History.consistent` is what holds
after each of its steps. Sessions have such histories while their units compile:
`Session.Generated.history`.
-/

namespace ClassLang

open Emit (Request)

/-- A class was one as soon as it was in the pool. -/
theorem Key.IsClass.of_later {p q : Pool} {key : Key} (h : key.IsClass q) (he : p.Evolves q)
    (hlt : ∀ t, key = .layout t → t < p.size) : key.IsClass p := by
  obtain ⟨t, name, ivars, methods, rfl, hdata⟩ := h
  have hbecomes := he.becomes t (hlt t rfl)
  rw [hdata] at hbecomes
  generalize hd : p.data t = d at hbecomes
  cases hbecomes with
  | same => exact ⟨t, _, _, _, rfl, hd⟩
  | reference => exact ⟨t, _, _, _, rfl, hd⟩

/-! ## Histories -/

/-- A request that was answered, in a pool and with an output before and after. -/
structure Answer where
  pool : Pool
  key : Key
  handle : Handle
  before : Output
  after : Output

/-- What was asked for, the last request first, until the types and the output of a session became
these. -/
inductive History : Pool → Output → List Answer → Prop
  | start (name : String) : History Pool.initial (.ofName name) []
  /-- Types are made and declared. -/
  | types {p q : Pool} {o : Output} {answers : List Answer} (h : History p o answers)
      (hq : q.Sound) (he : p.Evolves q) : History q o answers
  | code {p : Pool} {o o' : Output} {answers : List Answer} (h : History p o answers)
      (hcode : o.CodeOnly o') : History p o' answers
  | request {ctx : LoweringContext} {o o' : Output} {answers : List Answer} {request : Request}
      {key : Key} {handle : Handle} (h : History ctx.pool o answers)
      (hkey : request.HasKey ctx.pool key) (hrun : request.run ctx o = .ok handle o') :
      History ctx.pool o' (⟨ctx.pool, key, handle, o, o'⟩ :: answers)

/-- The answer was right when it was given, and what it gave is still there. -/
structure Answer.Stands (a : Answer) (p : Pool) (o : Output) : Prop where
  sound : a.pool.Sound
  evolves : a.pool.Evolves p
  consistent : a.after.Consistent a.pool
  remembered : a.after.handle? a.key = some a.handle
  errors : a.after.builder.errors = a.before.builder.errors
  kept : a.after.Keeps o

namespace Answer.Stands

variable {a : Answer} {p q : Pool} {o o' : Output} {fields : List IR.Ty}

theorem mono (h : a.Stands p o) (he : p.Evolves q) (hkeeps : o.Keeps o') : a.Stands q o' :=
  { h with evolves := h.evolves.trans he, kept := h.kept.trans hkeeps }

theorem known (h : a.Stands p o) : o.handle? a.key = some a.handle :=
  h.kept.handles _ _ h.remembered

/-- The fields that a key had when it was asked for are those it has, unless it is a class that got
other instance variables. -/
theorem fields_last (h : a.Stands p o) (hp : p.Sound) (hfields : a.key.Fields a.pool a.after fields)
    (hsame : ∀ t, a.key = .layout t → p.ivarList t = a.pool.ivarList t) : a.key.Fields p o fields :=
  (hfields.of_evolves h.sound hp h.evolves (fun t heq _ => hsame t heq)
    fun _ _ => h.consistent.lt_size).mono h.kept.handles

/-- Closures of one shape have the struct of the shape. -/
theorem shaped (h : a.Stands p o) (ho : o.Consistent p) {shape : ClosureShape}
    (hshape : a.key.HasShape p shape) : o.handle? (.closure shape) = some a.handle := by
  have hkey := h.known
  generalize a.key = key at hshape hkey
  cases hshape with
  | shape => exact hkey
  | type ht hparams hresult hcaptures =>
      obtain ⟨shape', hshape', hmade⟩ := ho.closures _ _ _ _ _ ht hkey
      rwa [hshape'.unique (.type ht hparams hresult hcaptures)] at hmade

end Answer.Stands

/-- The class was asked for when its struct was made. -/
def AskedFor (answers : List Answer) (p : Pool) (o : Output) : Prop :=
  ∀ key struct, key.IsClass p → o.handle? key = some (.struct struct) → ∃ a ∈ answers,
    a.key = key ∧ ∃ id fields, struct = .struct id ∧
      o.builder.module.structs.body? id = some fields ∧ key.Fields a.pool a.after fields

namespace History

variable {p : Pool} {o o' : Output} {answers : List Answer}

theorem consistent (h : History p o answers) : p.Sound ∧ o.Consistent p := by
  induction h with
  | start name => exact ⟨Pool.sound_initial, .of_new _ name⟩
  | types _ hq he ih => exact ⟨hq, ih.2.of_evolves ih.1 hq he⟩
  | code _ hcode ih => exact ⟨ih.1, hcode.consistent ih.2⟩
  | request _ hkey hrun ih => exact ⟨ih.1, (Request.answers ih.1 ih.2 hkey hrun).consistent⟩

theorem stands (h : History p o answers) : ∀ a ∈ answers, a.Stands p o := by
  induction h with
  | start name => simp
  | types _ _ he ih => exact fun a ha => (ih a ha).mono he (.refl _)
  | code _ hcode ih => exact fun a ha => (ih a ha).mono (.refl _) hcode.keeps
  | @request ctx o o' answers request key handle h hkey hrun ih =>
      have hp := h.consistent.1
      have hanswers := Request.answers hp h.consistent.2 hkey hrun
      intro a ha
      rcases List.mem_cons.mp ha with rfl | ha
      · exact ⟨hp, .refl _, hanswers.consistent, hanswers.answer, hanswers.errors, .refl o'⟩
      · exact (ih a ha).mono (.refl _) hanswers.toKeeps

/-- No struct of a class is made on the way to something else. -/
theorem askedFor (h : History p o answers) : AskedFor answers p o := by
  induction h with
  | start name =>
      intro key struct _ hkey
      cases key <;> cases hkey
  | types h hq he ih =>
      intro key struct hclass hkey
      -- the class had a struct, so it was in the pool
      refine ih key struct (hclass.of_later he fun t heq => ?_) hkey
      exact h.consistent.2.lt_size (heq ▸ hkey)
  | @code p o o' answers h hcode ih =>
      intro key struct hclass hkey
      rw [hcode.handles] at hkey
      obtain ⟨a, ha, heq, id, fields, hid, hbody, hfields⟩ := ih key struct hclass hkey
      exact ⟨a, ha, heq, id, fields, hid, hcode.structs ▸ hbody, hfields⟩
  | @request ctx o o' answers request key handle h hkey hrun ih =>
      have hanswers := Request.answers h.consistent.1 h.consistent.2 hkey hrun
      intro other struct hclass hother
      cases hbefore : o.handle? other with
      | some handle' =>
          have hsame := hanswers.handles other handle' hbefore
          rw [hother] at hsame
          cases hsame
          obtain ⟨a, ha, heq, id, fields, hid, hbody, hfields⟩ := ih other struct hclass hbefore
          exact ⟨a, List.mem_cons_of_mem _ ha, heq, id, fields, hid,
            hanswers.structs id fields hbody, hfields⟩
      | none =>
          -- the request made the struct, so it was a request for this class
          obtain rfl : key = other := by
            by_contra hne
            obtain ⟨t, name, ivars, methods, rfl, hdata⟩ := hclass
            rw [hanswers.classes t name ivars methods hdata hne, hbefore] at hother
            cases hother
          have hhandle := hanswers.answer
          rw [hother] at hhandle
          cases hhandle
          obtain ⟨id, fields, hid, hbody, hfields⟩ := hanswers.made hbefore struct rfl
          exact ⟨_, List.mem_cons_self, rfl, id, fields, hid, hbody, hfields⟩

/-- Two requests were given the same exactly if they had the same key, or asked for closures of the
same shape. -/
theorem handle_eq_iff (h : History p o answers) {a b : Answer} (ha : a ∈ answers)
    (hb : b ∈ answers) : a.handle = b.handle ↔
      a.key = b.key ∨ ∃ shape, a.key.HasShape p shape ∧ b.key.HasShape p shape := by
  have ho := h.consistent.2
  have ha' := h.stands a ha
  have hb' := h.stands b hb
  constructor
  · intro heq
    exact ho.injective _ _ _ ha'.known (heq ▸ hb'.known)
  · rintro (heq | ⟨shape, hshape, hshape'⟩)
    · have hknown := hb'.known
      rw [← heq, ha'.known] at hknown
      exact Option.some.inj hknown
    · have hknown := hb'.shaped ho hshape'
      rw [ha'.shaped ho hshape] at hknown
      exact Option.some.inj hknown

/-- A struct that was given has one body, with the fields that its key had when it was asked for. -/
theorem exists_body (h : History p o answers) {a : Answer} (ha : a ∈ answers) {struct : IR.Ty}
    (hstruct : a.handle = .struct struct) : ∃ id fields, struct = .struct id ∧
      a.after.builder.module.structs.body? id = some fields ∧
      o.builder.module.structs.body? id = some fields ∧
      ∃ b ∈ answers, b.key = a.key ∧ b.key.Fields b.pool b.after fields := by
  have ha' := h.stands a ha
  obtain ⟨id, fields, hid, hbody, hfields⟩ :=
    ha'.consistent.structs _ struct (hstruct ▸ ha'.remembered)
  have hbody' := ha'.kept.structs id fields hbody
  refine ⟨id, fields, hid, hbody, hbody', ?_⟩
  by_cases hclass : a.key.IsClass p
  · -- the class may have been asked for before, with other instance variables
    obtain ⟨b, hb, hkey, id', fields', hid', hbody'', hfields'⟩ :=
      h.askedFor a.key struct hclass (hstruct ▸ ha'.known)
    cases hid.symm.trans hid'
    cases hbody'.symm.trans hbody''
    exact ⟨b, hb, hkey, hkey ▸ hfields'⟩
  · exact ⟨a, ha, rfl, hfields fun hwas => hclass (hwas.of_evolves ha'.evolves)⟩

/-- What is made once in a session is shared by all its modules. After any requests, made over a pool
that grows meanwhile: a further request with the key of an earlier one is given the same, and the
output stays as it is. Two requests were given the same exactly if they had the same key, or asked for
closures of the same shape. Each struct that was given has one body since then, with the fields that
its type had, in order, when it was asked for; they are still those of its type, unless it is a class
that got other instance variables. No request misused the builder, which to give a struct a second
body would have been. -/
theorem requests_are_shared (h : History p o answers) :
    (∀ ctx : LoweringContext, ctx.pool = p → ∀ a ∈ answers, ∀ request : Request,
      request.HasKey p a.key → request.run ctx o = .ok a.handle o) ∧
    (∀ a ∈ answers, ∀ b ∈ answers, (a.handle = b.handle ↔
      a.key = b.key ∨ ∃ shape, a.key.HasShape p shape ∧ b.key.HasShape p shape)) ∧
    (∀ a ∈ answers, ∀ struct, a.handle = .struct struct → ∃ id fields, struct = .struct id ∧
      a.after.builder.module.structs.body? id = some fields ∧
      o.builder.module.structs.body? id = some fields ∧
      ∃ b ∈ answers, b.key = a.key ∧ a.key.Fields b.pool b.after fields ∧
        ((∀ t, a.key = .layout t → p.ivarList t = b.pool.ivarList t) → a.key.Fields p o fields)) ∧
    ∀ a ∈ answers, a.after.builder.errors = a.before.builder.errors := by
  refine ⟨?_, fun a ha b hb => h.handle_eq_iff ha hb, fun a ha struct hstruct => ?_,
    fun a ha => (h.stands a ha).errors⟩
  · rintro ctx rfl a ha request hkey
    exact Request.run_of_known hkey (h.stands a ha).known
  · obtain ⟨id, fields, hid, hbody, hbody', b, hb, hkey, hfields⟩ := h.exists_body ha hstruct
    have hlast := (h.stands b hb).fields_last h.consistent.1 hfields
    rw [hkey] at hfields hlast
    exact ⟨id, fields, hid, hbody, hbody', b, hb, hkey, hfields, hlast⟩

/-- What is generated adds to what was asked for. -/
theorem of_trace {ctx : LoweringContext} (h : History ctx.pool o answers) (htrace : o.Trace ctx o') :
    ∃ more, History ctx.pool o' (more ++ answers) := by
  induction htrace with
  | refl => exact ⟨[], h⟩
  | code _ hcode ih =>
      obtain ⟨more, hmore⟩ := ih
      exact ⟨more, hmore.code hcode⟩
  | request _ hrun ih =>
      obtain ⟨more, hmore⟩ := ih
      obtain ⟨key, hkey⟩ := Request.exists_key hrun
      exact ⟨_ :: more, hmore.request hkey hrun⟩

end History

/-! ## Histories of sessions -/

/-- Generating a module is code and requests. -/
theorem Emit.generate_traces {ctx : LoweringContext} {o o' : Output}
    (hrun : Emit.generate ctx o = .ok () o') : o.Trace ctx o' := by
  have hsafe := Emit.generate_safe tolerant_not_misused (o := o)
    (moduleReady_not_misused : ModuleReady _ _ ctx) fun name (h : False) => h.elim
  exact (hsafe.ok hrun).2.1.2

namespace Session

variable {store : ModuleStore}

/-- Whatever is typed and generated, the history goes on. -/
theorem carried_history (answers : List Answer) :
    Carried fun p o => ∃ more, History p o (more ++ answers) where
  mono _ hq he h := by
    obtain ⟨more, h⟩ := h
    exact ⟨more, h.types hq he⟩
  generate ctx o o' h hrun := by
    obtain ⟨more, h⟩ := h
    obtain ⟨more', h'⟩ := h.of_trace (Emit.generate_traces hrun)
    exact ⟨more' ++ more, List.append_assoc more' more answers ▸ h'⟩

/-- The states of a session that generates code, as long as its units compile. -/
abbrev Generated (store : ModuleStore) : Pool × Session Output → Prop :=
  Course Backend.code store (fun output => ∃ name, output = Output.ofName name) fun _ run =>
    ∃ typed after, run = .ok typed after

theorem Generated.start (name : String) :
    Generated store (Pool.initial, { output := Output.ofName name }) :=
  Course.start ⟨name, rfl⟩

theorem Generated.next {s after : Pool × Session Output} {tree : SyntaxTree} {typed : TypedModule}
    (h : Generated store s) (hrun : compileUnit Backend.code store tree s = .ok typed after) :
    Generated store after := by
  have hnext := Course.next h ⟨typed, after, hrun⟩
  rwa [hrun] at hnext

/-- The types and the output of a session come from one history, whatever its units import. -/
theorem Generated.history {s : Pool × Session Output} (h : Generated store s) :
    ∃ answers, History s.1 s.2.output answers := by
  induction h with
  | start hstart =>
      obtain ⟨name, rfl⟩ := hstart
      exact ⟨[], .start name⟩
  | next h hpermits ih =>
      obtain ⟨answers, ih⟩ := ih
      obtain ⟨typed, after, hrun⟩ := hpermits
      obtain ⟨more, hmore⟩ :=
        (carried_history answers).compileUnit h.sound ⟨[], ih⟩ hrun
      rw [hrun]
      exact ⟨more ++ answers, hmore⟩

/-- Two modules that declare a class of the same name. -/
def cellStore : ModuleStore :=
  { modules := [("a", cellUnit), ("b", cellUnit)] }

/-- A unit that imports both. -/
def cellsUnit : SyntaxTree :=
  .ofStatements #[.importModule ["a"], .importModule ["b"]] [0, 1]

/-- The two classes print alike and have different structs. A text that is asked for twice has one
record. -/
theorem requests_are_shared_cells :
    ∃ typed s, compileUnit Backend.code cellStore cellsUnit
        (Pool.initial, { output := Output.ofName "main" }) = .ok typed s ∧
      s.1.display 8 = s.1.display 9 ∧
      ∃ (ctx : LoweringContext) (first second record : Handle) (o : Output), ctx.pool = s.1 ∧
        (Request.layout 8).run ctx s.2.output = .ok first s.2.output ∧
        (Request.layout 9).run ctx s.2.output = .ok second s.2.output ∧ first ≠ second ∧
        (Request.stringLiteral "Cell").run ctx s.2.output = .ok record o ∧
        (Request.stringLiteral "Cell").run ctx o = .ok record o ∧
        o.builder.errors = s.2.output.builder.errors := by
  have hruns : okWith (fun typed s => decide (s.1.display 8 = s.1.display 9 ∧
      s.1.resolveStrict 8 = .ok 8 ∧ s.1.resolveStrict 9 = .ok 9 ∧
      (s.1.data 8).nominalName?.isSome ∧
      (s.2.output.layouts.lookup 8).isSome ∧ (s.2.output.layouts.lookup 9).isSome ∧
      okWith (fun _ _ => ()) ((Request.stringLiteral "Cell").run
        { tree := cellsUnit, pool := s.1, typed } s.2.output) = some ()))
      (compileUnit Backend.code cellStore cellsUnit
        (Pool.initial, { output := Output.ofName "main" })) = some true := by
    decide +kernel
  obtain ⟨typed, s, hrun, hfacts⟩ := exists_of_okWith hruns
  obtain ⟨hdisplay, hfirst, hsecond, hnominal, hmade, hmade', htext⟩ := of_decide_eq_true hfacts
  let ctx : LoweringContext := { tree := cellsUnit, pool := s.1, typed }
  obtain ⟨record, o, hrecord, -⟩ := exists_of_okWith htext
  obtain ⟨first, hlookup⟩ := Option.isSome_iff_exists.mp hmade
  obtain ⟨second, hlookup'⟩ := Option.isSome_iff_exists.mp hmade'
  have hkey : (Request.layout 8).HasKey ctx.pool (.layout 8) := .layout hfirst
  have hkey' : (Request.layout 9).HasKey ctx.pool (.layout 9) := .layout hsecond
  have hask : (Request.layout 8).run ctx s.2.output = .ok (.struct first) s.2.output :=
    Request.run_of_known hkey (by rw [Output.handle?, hlookup]; rfl)
  have hask' : (Request.layout 9).run ctx s.2.output = .ok (.struct second) s.2.output :=
    Request.run_of_known hkey' (by rw [Output.handle?, hlookup']; rfl)
  -- the requests so far are those of the units, and then these three
  let asked : Answer := ⟨s.1, .layout 8, .struct first, s.2.output, s.2.output⟩
  let asked' : Answer := ⟨s.1, .layout 9, .struct second, s.2.output, s.2.output⟩
  let text : Answer := ⟨s.1, .text "Cell", record, s.2.output, o⟩
  have hsession : Generated cellStore s := (Generated.start "main").next hrun
  obtain ⟨answers, hanswers⟩ := hsession.history
  have hlayouts : History ctx.pool s.2.output (asked' :: asked :: answers) :=
    (hanswers.request hkey hask).request hkey' hask'
  have hhistory : History s.1 o (text :: asked' :: asked :: answers) :=
    hlayouts.request (.stringLiteral "Cell") hrecord
  obtain ⟨hknown, hequal, -, herrors⟩ := hhistory.requests_are_shared
  refine ⟨typed, s, hrun, hdisplay, ctx, .struct first, .struct second, record, o, rfl, hask, hask',
    fun heq => ?_, hrecord, hknown ctx rfl text (by simp) _ (.stringLiteral "Cell"),
    herrors text (by simp)⟩
  rcases (hequal asked (by simp) asked' (by simp)).mp heq with hkeys | ⟨shape, hshape, -⟩
  · cases hkeys
  · -- a class is no closure
    cases hshape with
    | type hdata => simp [hdata, TypeData.nominalName?] at hnominal

end Session

end ClassLang
