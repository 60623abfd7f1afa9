import ClassLang.Proofs.Pool.Stability
import ClassLang.Proofs.Session.ControlFlow
import ClassLang.Proofs.Session.Storage
import ClassLang.Proofs.Typing.DeferredOperators

/-!
# Types at run time

A boxed value is told by the address of the record of its type. The records are kept by position in
the pool: two requests in a session are answered with the same record exactly if the types stand for
the same position. For everything but closures that is equality of types. Equality of closures is
told by their parts, and two closures with equal parts may stand at two positions: a closure that
captures something always gets a position of its own, and a lambda keeps the one it got while its
parameters were open.
-/

namespace ClassLang

open IR (Value)

/-! ## Known types -/

namespace Pool

variable {p q : Pool} {t u : TypeId}

/-- A type that stands for an open derived type has no operator on its root. -/
theorem Sound.operator?_eq_none_of_view (h : p.Sound) {root rhs : TypeId} {op : BinaryOp}
    (hview : p.view t = .derived root op rhs) : p.operator? root op = none := by
  have hself : p.resolve t = t := by
    rcases h.resolve_eq_or_closed t with heq | hclosed
    · exact heq
    · have hvar := hclosed.isVar_eq_false
      rw [← view, hview] at hvar
      cases hvar
  have hd : p.data t = .derived root op rhs := by rwa [view, hself] at hview
  cases hop : p.operator? root op with
  | none => rfl
  | some operation =>
      have hresolve := resolve_derived h.wellFounded_looksAt hd
      rw [hop] at hresolve
      have hvar := isVar_resultType h.founded.data_boolean hop
      rw [← show p.resolve t = operation.resultType (p.resolve root) from hresolve, ← view,
        hview] at hvar
      cases hvar

/-- The types that are found to be concrete are the known ones. -/
theorem Sound.resolveStrict_eq_ok_iff (h : p.Sound) :
    p.resolveStrict t = .ok u ↔ p.isUnresolved t = false ∧ p.resolve t = u := by
  constructor
  · suffices ∀ fuel t u, p.resolveStrictWithin fuel t = .ok u →
        p.isUnresolved t = false ∧ p.resolve t = u from this _ t u
    intro fuel
    induction fuel with
    | zero =>
        intro t u hok
        unfold resolveStrictWithin at hok
        cases hd : p.data (p.resolve t) <;> simp [hd] at hok <;>
          exact ⟨by rw [isUnresolved, view, hd]; rfl, hok⟩
    | succ fuel ih =>
        intro t u hok
        unfold resolveStrictWithin at hok
        cases hd : p.data (p.resolve t) with
        | «var» target => simp [hd] at hok
        | derived root op rhs =>
            simp only [hd, bind, Except.bind] at hok
            cases hroot : p.resolveStrictWithin fuel root with
            | error e => simp [hroot] at hok
            | ok known =>
                cases hrhs : p.resolveStrictWithin fuel rhs with
                | error e => simp [hroot, hrhs] at hok
                | ok other =>
                    simp only [hroot, hrhs] at hok
                    -- a type that resolves to a derived one has no operator on its root, so the
                    -- result of the operator is never asked for
                    obtain ⟨hknown, rfl⟩ := ih root known hroot
                    obtain ⟨operation, hop, -⟩ := operatorResult_eq_ok_iff.mp hok
                    rw [operator?, view, resolve_resolve_of_resolved hknown, ← view,
                      ← operator?, h.operator?_eq_none_of_view hd] at hop
                    cases hop
        | _ =>
            simp only [hd, Except.ok.injEq] at hok
            exact ⟨by rw [isUnresolved, view, hd]; rfl, hok⟩
  · rintro ⟨hknown, rfl⟩
    exact resolveStrictWithin_of_resolved hknown _

end Pool

/-! ## Records in a session -/

namespace Session

variable {store : ModuleStore}

/-- In every state of a session different types have different records. -/
theorem Coding.registered {s : Pool × Session Output} (h : Coding store s) :
    s.2.output.Registered :=
  (upheld_registering store).coding h

/-! ## Requests -/

/-- The record of a type of the pool was asked for while code was generated, and the pool and the
output became those of the state. -/
inductive Requested (s : Pool × Session Output) : TypeId → Value → Prop
  | intro {ctx : LoweringContext} {before after : Output} {t : TypeId} {record : Value}
      (sound : ctx.pool.Sound) (lt_size : t < ctx.pool.size) (evolves : ctx.pool.Evolves s.1)
      (registered : before.Registered) (run : Emit.runtimeType ctx t before = .ok record after)
      (kept : ∀ u r, after.record? u = some r → s.2.output.record? u = some r) :
      Requested s t record

/-- The answer to a request stands in the table under the position that the type stands for. -/
theorem Requested.record? {s : Pool × Session Output} {t : TypeId} {record : Value}
    (h : Requested s t record) (hs : s.1.Sound) :
    s.2.output.record? (s.1.resolve t) = some record := by
  cases h with
  | @intro ctx before after _ _ hsound hlt hevolves hregistered hrun hkept =>
      have hkeeps : (registering False False).KeepsAt before (Emit.runtimeType ctx t) _ :=
        Emit.runtimeType_registers t hregistered
      obtain ⟨-, -, u, hu, hrecord⟩ := hkeeps.ok hrun
      obtain ⟨hknown, rfl⟩ := hsound.resolveStrict_eq_ok_iff.mp hu
      -- the type was known when it was asked for, so it still stands for the same position
      rw [hsound.founded.resolve_of_evolves hs.founded hevolves (hsound.resolve_lt_size hlt) hknown]
      exact hkept _ _ hrecord

/-- What stands in the table is the answer to a further request. -/
theorem Coding.requested {s : Pool × Session Output} (h : Coding store s) {t : TypeId}
    {record : Value} (hlt : t < s.1.size) (hknown : s.1.isUnresolved t = false)
    (hrecord : s.2.output.record? (s.1.resolve t) = some record) : Requested s t record := by
  let typed : TypedModule := { table := {}, templates := [], exports := {} }
  let ctx : LoweringContext := { tree := .ofStatements #[] [], pool := s.1, typed }
  have hrun : Emit.runtimeType ctx t s.2.output = .ok record s.2.output := by
    have hresolve := h.sound.pool.resolveStrict_eq_ok_iff.mpr ⟨hknown, rfl⟩
    have hok : Emit.resolve ctx t s.2.output = .ok (s.1.resolve t) s.2.output := by
      rw [Emit.resolve, hresolve]
      rfl
    have hget : (get : Emit Output) s.2.output = .ok s.2.output s.2.output := rfl
    rw [Output.record?] at hrecord
    simp only [Emit.runtimeType, bind, EStateM.bind, hok, hget, hrecord]
    rfl
  exact ⟨h.sound.pool, hlt, .refl _, h.registered, hrun, fun _ _ hr => hr⟩

/-- Records tell positions apart. Two requests in a session have the same answer exactly if the
types stand for the same position, and then the types are equal. Equal types have different records
only if both are closures and one of them has a capture or a part that was a variable. -/
theorem records_tell_positions {s : Pool × Session Output} (h : Coding store s) {t u : TypeId}
    {record record' : Value} (ht : Requested s t record) (hu : Requested s u record') :
    (record = record' ↔ s.1.resolve t = s.1.resolve u) ∧
      (record = record' → s.1.sameType t u = true) ∧
      (s.1.sameType t u = true → record ≠ record' →
        (∃ params result captures, s.1.view t = .closure params result captures) ∧
        (∃ params result captures, s.1.view u = .closure params result captures) ∧
        ¬ (s.1.Plain (s.1.resolve t) ∧ s.1.Plain (s.1.resolve u))) := by
  have hsound := h.sound
  have ht' := ht.record? hsound.pool
  have hu' := hu.record? hsound.pool
  have hiff : record = record' ↔ s.1.resolve t = s.1.resolve u := by
    constructor
    · rintro rfl
      exact h.registered.injective _ _ _ ht' hu'
    · intro heq
      rw [heq, hu'] at ht'
      exact (Option.some.inj ht').symm
  refine ⟨hiff, fun heq => Pool.sameType_of_resolve_eq (hiff.mp heq), fun hsame hne => ?_⟩
  have hresolve := mt hiff.mpr hne
  obtain ⟨hclosure, hclosure'⟩ := (Pool.sameType_cases hsame).resolve_left hresolve
  refine ⟨hclosure, hclosure', fun ⟨hplain, hplain'⟩ => hresolve ?_⟩
  exact hsound.pool.indexed.interned.resolve_eq_of_sameTypeWithin hplain hplain' hsame

/-- A unit with three functions: `apply` calls a function of integers, `test` returns 1 if a box
holds a function of integers and 0 otherwise, and `main` passes the lambda `|x| x + 1` to both. -/
def dynamicUnit : SyntaxTree :=
  .ofStatements #[.namedType "Integer", .closureType [0] 0, .typed "f" 1, .number 1,
    .call none "f" [3], .methodDef "apply" [2] (some 0) 4, .namedType "Dynamic", .typed "d" 6,
    .ident "d", .namedType "Integer", .closureType [9] 9, .pattern 10 none [], .number 1,
    .ret (some 12), .arm 11 13, .select 8 [14], .number 0, .seq [15, 16],
    .methodDef "test" [7] (some 9) 17, .ident "x", .ident "x", .number 1, .binary .add 20 21,
    .lambda [19] [] 22, .var "f" none 23, .ident "f", .call none "apply" [25], .ident "f",
    .call none "test" [27], .seq [24, 26, 28], .namedType "Integer",
    .methodDef "main" [] (some 30) 29] [5, 18, 31]

/-- A session after `dynamicUnit`. -/
@[irreducible] def dynamicSession : Pool × Session Output :=
  finalState (compileUnit Backend.code {} dynamicUnit
    (Pool.initial, { output := Output.ofName "main" }))

theorem coding_dynamicSession : Coding {} dynamicSession := by
  unfold dynamicSession
  exact .next (.start "main") dynamicUnit

/-- The type that is tested and the type of the lambda, which are equal. -/
theorem dynamicSession_types :
    dynamicSession.1.resolve 8 = 8 ∧ dynamicSession.1.resolve 11 = 11 ∧
      dynamicSession.1.sameType 8 11 = true := by
  decide +kernel

/-- Both types were asked for. -/
theorem dynamicSession_requests :
    ∃ record record', Requested dynamicSession 8 record ∧ Requested dynamicSession 11 record' := by
  obtain ⟨hsize, hknown, hknown', hrecord, hrecord'⟩ : 11 < dynamicSession.1.size ∧
      dynamicSession.1.isUnresolved 8 = false ∧ dynamicSession.1.isUnresolved 11 = false ∧
      (dynamicSession.2.output.record? (dynamicSession.1.resolve 8)).isSome ∧
      (dynamicSession.2.output.record? (dynamicSession.1.resolve 11)).isSome := by decide +kernel
  obtain ⟨record, h⟩ := Option.isSome_iff_exists.mp hrecord
  obtain ⟨record', h'⟩ := Option.isSome_iff_exists.mp hrecord'
  have hsize' : 8 < dynamicSession.1.size := Nat.lt_trans (by decide) hsize
  exact ⟨record, record', coding_dynamicSession.requested hsize' hknown h,
    coding_dynamicSession.requested hsize hknown' h'⟩

/-- The two records of `dynamicSession` are told apart. -/
theorem records_tell_positions_dynamic :
    ∃ record record', Requested dynamicSession 8 record ∧ Requested dynamicSession 11 record' ∧
      record ≠ record' ∧ ¬ (dynamicSession.1.Plain 8 ∧ dynamicSession.1.Plain 11) := by
  obtain ⟨record, record', ht, hu⟩ := dynamicSession_requests
  obtain ⟨h8, h11, hsame⟩ := dynamicSession_types
  obtain ⟨hiff, -, hclosures⟩ := records_tell_positions coding_dynamicSession ht hu
  rw [h8, h11] at hiff hclosures
  have hne : record ≠ record' := fun heq => by simpa using hiff.mp heq
  exact ⟨record, record', ht, hu, hne, (hclosures hsame hne).2.2⟩

/-- A lambda whose parameters were found to be integers has the type of functions of integers, but
not its record: boxed, it takes no arm for that type. -/
theorem lambda_record_differs :
    dynamicSession.1.sameType 8 11 = true ∧
      (∃ record record', Requested dynamicSession 8 record ∧ Requested dynamicSession 11 record' ∧
        record ≠ record') ∧
      mainResult dynamicUnit = some (.int .w32 0) := by
  obtain ⟨record, record', ht, hu⟩ := dynamicSession_requests
  obtain ⟨h8, h11, hsame⟩ := dynamicSession_types
  refine ⟨hsame, ⟨record, record', ht, hu, ?_⟩, by decide +kernel⟩
  rintro rfl
  have hpool := coding_dynamicSession.sound.pool
  have heq := coding_dynamicSession.registered.injective _ _ _ (ht.record? hpool) (hu.record? hpool)
  rw [h8, h11] at heq
  cases heq

end Session

end ClassLang
