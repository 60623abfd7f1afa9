import ClassLang.Proofs.Discipline
import ClassLang.Proofs.Pool.Stability

/-!
# Updates of a pool

Four operations change an entry that is there: a case is added to a data type, a class is laid out,
a method is registered, and a variable is forwarded. For each of them it is said exactly when it
succeeds and what the pool is then (`addCase_eq_ok_iff` and the like): the named entry is another one
and all else is as before (`Rewrites`). An operation that is refused leaves the pool as it is.

A session asks for one operation after the other and goes on when one is refused, which is a `run` of
requests. Over a run entries keep their kind, and a forwarded variable its target.
-/

namespace ClassLang

/-- The kind of an entry, by the position of its constructor. -/
def TypeData.kind (d : TypeData) : Nat :=
  d.ctorIdx

/-- An entry that changes keeps its kind. -/
theorem TypeData.Becomes.kind_eq {d d' : TypeData} (h : d.Becomes d') : d'.kind = d.kind := by
  cases h <;> rfl

namespace Pool

variable {p q : Pool} {t owner added var target : TypeId} {d : TypeData}

/-! ## One entry -/

/-- The pool `q` has `d` at the position `t`, and all else is as in `p`. -/
structure Rewrites (p : Pool) (t : TypeId) (d : TypeData) (q : Pool) : Prop where
  inside : t < p.size
  size : q.size = p.size
  entry : q.data t = d
  others : ∀ u, u ≠ t → q.data u = p.data u
  kinds : q.kinds = p.kinds
  pointers : q.pointers = p.pointers
  closures : q.closures = p.closures

/-- Pools with the same entries, classifications and tables are the same. -/
theorem eq_of_data_eq (hsize : q.size = p.size) (hdata : ∀ t, q.data t = p.data t)
    (hkinds : q.kinds = p.kinds) (hpointers : q.pointers = p.pointers)
    (hclosures : q.closures = p.closures) : q = p := by
  have hentries : q.entries = p.entries := by
    refine Array.ext hsize fun i hi hi' => ?_
    simpa [data, hi, hi'] using hdata i
  obtain ⟨entries, kinds, pointers, closures⟩ := q
  obtain ⟨entries', kinds', pointers', closures'⟩ := p
  cases hentries
  cases hkinds
  cases hpointers
  cases hclosures
  rfl

/-- Only replacing the entry rewrites it. -/
theorem rewrites_iff : p.Rewrites t d q ↔ t < p.size ∧ q = p.set t d := by
  constructor
  · intro h
    refine ⟨h.inside, eq_of_data_eq ?_ (fun u => ?_) h.kinds h.pointers h.closures⟩
    · rw [h.size, size_set]
    · rw [data_set]
      split
      · next heq => rw [heq.1, h.entry]
      · next hne => exact h.others u fun heq => hne ⟨heq, h.inside⟩
  · rintro ⟨hlt, rfl⟩
    exact {
      inside := hlt
      size := size_set p t d
      entry := data_set_self p d hlt
      others := fun u hu => data_set_of_ne p d hu
      kinds := rfl
      pointers := rfl
      closures := rfl }

/-- An entry that is not `Void` is rewritten by replacing it. -/
theorem rewrites_iff_of_data_ne (h : p.data t ≠ .void) : p.Rewrites t d q ↔ q = p.set t d := by
  rw [rewrites_iff, and_iff_right (lt_size_of_data_ne h)]

/-! ## Exact effects -/

/-- A case is added to a data type: it stands at the end of the pool, knows its place among the
cases, and is the last one in the list of its owner. -/
theorem addCase_eq_ok_iff {name shortName : String} {fields : List (String × TypeId)} :
    p.addCase owner name shortName fields = .ok (added, q) ↔
      ∃ ownerName cases methods, p.data owner = .data ownerName cases methods ∧ added = p.size ∧
        (p.push (.variant name shortName cases.length owner fields)).2.Rewrites owner
          (.data ownerName (cases ++ [added]) methods) q := by
  have hrewrites {ownerName : String} {cases : List TypeId} {methods : List Signature}
      (hd : p.data owner = .data ownerName cases methods) (d d' : TypeData) :
      (p.push d).2.Rewrites owner d' q ↔ q = (p.push d).2.set owner d' := by
    refine rewrites_iff_of_data_ne ?_
    rw [data_push_of_lt p d (lt_size_of_data_ne (by simp [hd])), hd]
    simp
  constructor
  · intro h
    obtain ⟨ownerName, cases, methods, hd, rfl, hq⟩ := addCase_cases h
    exact ⟨ownerName, cases, methods, hd, rfl, (hrewrites hd _ _).mpr hq⟩
  · rintro ⟨ownerName, cases, methods, hd, rfl, hq⟩
    rw [(hrewrites hd _ _).mp hq]
    simp [addCase, hd]

/-- A class is laid out: it gets other instance variables. -/
theorem setIvars_eq_ok_iff {ivars : List (String × TypeId)} :
    p.setIvars t ivars = .ok q ↔ ∃ name old methods, p.data t = .reference name old methods ∧
      p.Rewrites t (.reference name ivars methods) q := by
  constructor
  · intro h
    obtain ⟨name, old, methods, hd, hq⟩ := setIvars_cases h
    exact ⟨name, old, methods, hd, (rewrites_iff_of_data_ne (by simp [hd])).mpr hq⟩
  · rintro ⟨name, old, methods, hd, hq⟩
    rw [(rewrites_iff_of_data_ne (by simp [hd])).mp hq]
    simp [setIvars, hd]

/-- A method is registered on a class or data type that has none of its name: it is the last one. -/
theorem addMethod_eq_ok_iff {sig : Signature} :
    p.addMethod owner sig = .ok q ↔ sig.name ∉ p.methodNames owner ∧
      ((∃ name ivars methods, p.data owner = .reference name ivars methods ∧
          p.Rewrites owner (.reference name ivars (methods ++ [sig])) q) ∨
        ∃ name cases methods, p.data owner = .data name cases methods ∧
          p.Rewrites owner (.data name cases (methods ++ [sig])) q) := by
  constructor
  · intro h
    refine ⟨(addMethod_registers h).2.1, ?_⟩
    obtain ⟨-, ⟨name, ivars, methods, hd, hq⟩ | ⟨name, cases, methods, hd, hq⟩⟩ := addMethod_eq h
    · exact .inl ⟨name, ivars, methods, hd, (rewrites_iff_of_data_ne (by simp [hd])).mpr hq⟩
    · exact .inr ⟨name, cases, methods, hd, (rewrites_iff_of_data_ne (by simp [hd])).mpr hq⟩
  · rintro ⟨hnew, h⟩
    have hany (methods : List Signature) (hd : (p.data owner).methods = methods) :
        methods.any (·.name == sig.name) = false := by
      simpa [methodNames, hd] using hnew
    rcases h with ⟨name, ivars, methods, hd, hq⟩ | ⟨name, cases, methods, hd, hq⟩ <;>
      rw [(rewrites_iff_of_data_ne (by simp [hd])).mp hq] <;>
        simp [addMethod, hd, hany methods (by simp [hd, TypeData.methods])]

/-- An open variable is forwarded to what the target stands for, unless that is the variable. -/
theorem unify_eq_ok_iff :
    p.unify var target = .ok q ↔ p.data var = .var none ∧
      if p.resolve target = var then q = p
      else p.Rewrites var (.var (some (p.resolve target))) q := by
  constructor
  · intro h
    obtain ⟨hd, rfl⟩ := unify_eq h
    refine ⟨hd, ?_⟩
    split
    · rfl
    · exact (rewrites_iff_of_data_ne (by simp [hd])).mpr rfl
  · rintro ⟨hd, hq⟩
    split at hq
    · next heq => simp [unify, hd, heq, hq]
    · next hne =>
        rw [rewrites_iff_of_data_ne (by simp [hd])] at hq
        simp [unify, hd, hne, hq]

/-! ## Runs -/

/-- An operation on a pool that is asked for. -/
inductive Request where
  | pointer (target : TypeId)
  | closure (params : List TypeId) (result : TypeId) (captures : List TypeId)
  | freshVar
  | derive (root : TypeId) (op : BinaryOp) (rhs : TypeId)
  | newReference (name : String)
  | newData (name : String)
  | addCase (owner : TypeId) (name shortName : String) (fields : List (String × TypeId))
  | setIvars (t : TypeId) (ivars : List (String × TypeId))
  | addMethod (owner : TypeId) (sig : Signature)
  | unify (var target : TypeId)

/-- Answer a request by the type that was made, if it makes one, or by an error. The pool is kept if
the request is refused. -/
def Request.answer : Request → EStateM CompileError Pool (Option TypeId)
  | .pointer target => fun p => made (p.pointer target)
  | .closure params result captures => fun p => made (p.closure params result captures)
  | .freshVar => fun p => made p.freshVar
  | .derive root op rhs => fun p => made (p.derive root op rhs)
  | .newReference name => fun p => made (p.newReference name)
  | .newData name => fun p => made (p.newData name)
  | .addCase owner name shortName fields => fun p =>
    match p.addCase owner name shortName fields with
    | .ok result => made result
    | .error e => .error e p
  | .setIvars t ivars => fun p => changed p (p.setIvars t ivars)
  | .addMethod owner sig => fun p => changed p (p.addMethod owner sig)
  | .unify var target => fun p => changed p (p.unify var target)
where
  /-- A type was made. -/
  made : TypeId × Pool → EStateM.Result CompileError Pool (Option TypeId)
    | (t, q) => .ok (some t) q
  /-- The pool was changed, or it was not. -/
  changed (p : Pool) : Except CompileError Pool → EStateM.Result CompileError Pool (Option TypeId)
    | .ok q => .ok none q
    | .error e => .error e p

/-- The pool after a request, whether it was refused or not. -/
def afterRequest (p : Pool) (request : Request) : Pool :=
  finalState (request.answer p)

/-- The pool after requests, of which some may be refused. -/
def run (p : Pool) (requests : List Request) : Pool :=
  requests.foldl afterRequest p

/-- A request that is answered is an operation on the pool. -/
theorem Request.change_of_answer {request : Request} {result : Option TypeId}
    (h : request.answer p = .ok result q) : p.Change q := by
  cases request with
  | pointer target => cases h; exact .pointer p target
  | closure params r captures => cases h; exact .closure p params r captures
  | freshVar => cases h; exact .freshVar p
  | derive root op rhs => cases h; exact .derive p root op rhs
  | newReference name => cases h; exact .newReference p name
  | newData name => cases h; exact .newData p name
  | addCase owner name shortName fields =>
      simp only [answer] at h
      split at h
      · next hadd => cases h; exact .addCase hadd
      · cases h
  | setIvars t ivars =>
      simp only [answer] at h
      cases hset : p.setIvars t ivars <;> rw [hset] at h <;> cases h
      exact .setIvars hset
  | addMethod owner sig =>
      simp only [answer] at h
      cases hadd : p.addMethod owner sig <;> rw [hadd] at h <;> cases h
      exact .addMethod hadd
  | unify var target =>
      simp only [answer] at h
      cases hunify : p.unify var target <;> rw [hunify] at h <;> cases h
      exact .unify hunify

/-- An update that is refused leaves the pool as it is. -/
theorem Request.eq_of_unchanged {update : Except CompileError Pool} {e : CompileError}
    (h : answer.changed p update = .error e q) : q = p := by
  cases update with
  | ok r => cases h
  | error e' =>
      cases h
      rfl

/-- A request that is refused leaves the pool as it is. -/
theorem Request.eq_of_refused {request : Request} {e : CompileError}
    (h : request.answer p = .error e q) : q = p := by
  cases request with
  | addCase owner name shortName fields =>
      simp only [answer] at h
      split at h
      · cases h
      · cases h
        rfl
  | setIvars | addMethod | unify => exact eq_of_unchanged h
  | _ => cases h

/-- Entries evolve with each request. -/
theorem afterRequest_evolves (p : Pool) (request : Request) :
    p.Evolves (p.afterRequest request) := by
  unfold afterRequest
  cases h : request.answer p with
  | ok result q => exact (Request.change_of_answer h).evolves
  | error e q => exact Request.eq_of_refused h ▸ .refl p

/-- Entries evolve over a run. -/
theorem run_evolves (p : Pool) (requests : List Request) : p.Evolves (p.run requests) := by
  induction requests generalizing p with
  | nil => exact .refl p
  | cons request requests ih => exact (p.afterRequest_evolves request).trans (ih _)

/-- Updates are atomic, local and final. A request that is refused leaves the pool as it is. The
four that update an entry succeed exactly in the cases listed, and then only this entry is another
one: a data type gets a case at the end of its list, which is also a new entry at the end of the pool;
a class gets other instance variables; a class or data type gets a method of a name that it does not
have yet, after those it has; and an open variable is forwarded to what the target stands for, or
nothing changes if that is the variable itself. Over a run of requests, some of which may be refused,
the pool keeps its entries, each of them keeps its kind, and a forwarded variable keeps its target. -/
theorem updates_atomic_local_final (p : Pool) :
    (∀ (request : Request) e q, request.answer p = .error e q → q = p) ∧
    (∀ owner name shortName fields added q,
      p.addCase owner name shortName fields = .ok (added, q) ↔
        ∃ ownerName cases methods, p.data owner = .data ownerName cases methods ∧ added = p.size ∧
          (p.push (.variant name shortName cases.length owner fields)).2.Rewrites owner
            (.data ownerName (cases ++ [added]) methods) q) ∧
    (∀ t ivars q, p.setIvars t ivars = .ok q ↔
      ∃ name old methods, p.data t = .reference name old methods ∧
        p.Rewrites t (.reference name ivars methods) q) ∧
    (∀ owner sig q, p.addMethod owner sig = .ok q ↔ sig.name ∉ p.methodNames owner ∧
      ((∃ name ivars methods, p.data owner = .reference name ivars methods ∧
          p.Rewrites owner (.reference name ivars (methods ++ [sig])) q) ∨
        ∃ name cases methods, p.data owner = .data name cases methods ∧
          p.Rewrites owner (.data name cases (methods ++ [sig])) q)) ∧
    (∀ var target q, p.unify var target = .ok q ↔ p.data var = .var none ∧
      if p.resolve target = var then q = p
      else p.Rewrites var (.var (some (p.resolve target))) q) ∧
    ∀ requests, p.size ≤ (p.run requests).size ∧
      (∀ t < p.size, ((p.run requests).data t).kind = (p.data t).kind) ∧
      ∀ t target, p.data t = .var (some target) → (p.run requests).data t = .var (some target) := by
  refine ⟨fun _ _ _ => Request.eq_of_refused, fun _ _ _ _ _ _ => addCase_eq_ok_iff,
    fun _ _ _ => setIvars_eq_ok_iff, fun _ _ _ => addMethod_eq_ok_iff, fun _ _ _ => unify_eq_ok_iff,
    fun requests => ?_⟩
  have hevolves := p.run_evolves requests
  exact ⟨hevolves.size_le, fun t ht => (hevolves.becomes t ht).kind_eq,
    fun t target hd => hevolves.data_forwarded hd⟩

/-- A variable that was forwarded is not forwarded again, and the run goes on after the refusal. -/
example :
    ((initial.freshVar.2.run [.unify 8 .integer, .unify 8 .char, .newReference "Box"]).data 8,
      (initial.freshVar.2.run [.unify 8 .integer, .unify 8 .char, .newReference "Box"]).data 9) =
      (.var (some .integer), .reference "Box" [] []) := by
  decide +kernel

end Pool

end ClassLang
