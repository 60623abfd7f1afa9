import ClassLang.Proofs.Typing.Arguments
import ClassLang.Types.Pool
import ClassLang.Typing.State

/-!
# Only imports report cycles

An import cycle is found by the session alone. Nothing that is asked of the pool, of the findings of
typing or of the arguments of a call is answered by one.
-/

namespace ClassLang

/-- The halt is not the report of an import cycle. -/
def Halt.NoCycle (h : Halt) : Prop :=
  ∀ path, h ≠ .error (.importCycle path)

/-- If there is an error, it is no import cycle. -/
def FreeOfCycles {α : Type} (r : Except CompileError α) : Prop :=
  ∀ path, r ≠ .error (.importCycle path)

theorem FreeOfCycles.noCycle {α : Type} {r : Except CompileError α} {e : CompileError}
    (h : FreeOfCycles r) (he : r = .error e) : Halt.NoCycle (.error e) := by
  intro path heq
  cases heq
  exact h path he

namespace Pool

variable (p : Pool)

theorem operatorResult_free (l : TypeId) (op : BinaryOp) (r : TypeId) :
    FreeOfCycles (p.operatorResult l op r) := by
  intro path h
  unfold operatorResult at h
  split at h
  · cases h
  · split at h <;> cases h

theorem resolveStrict_free (t : TypeId) : FreeOfCycles (p.resolveStrict t) := by
  suffices ∀ fuel t, FreeOfCycles (p.resolveStrictWithin fuel t) from this _ t
  intro fuel
  induction fuel with
  | zero =>
      intro t path h
      unfold resolveStrictWithin at h
      dsimp only at h
      split at h <;> cases h
  | succ fuel ih =>
      intro t path h
      unfold resolveStrictWithin at h
      dsimp only at h
      split at h
      · cases h
      · next root op rhs hd =>
          simp only [bind, Except.bind] at h
          cases hl : p.resolveStrictWithin fuel root with
          | error e =>
              rw [hl] at h
              cases h
              exact ih root path hl
          | ok l =>
              cases hr : p.resolveStrictWithin fuel rhs with
              | error e =>
                  rw [hl, hr] at h
                  cases h
                  exact ih rhs path hr
              | ok r =>
                  rw [hl, hr] at h
                  exact p.operatorResult_free l op r path h
      · cases h

theorem findOperation_free (t : TypeId) (name : String) :
    FreeOfCycles (p.findOperation t name) := by
  intro path h
  unfold findOperation at h
  dsimp only at h
  split at h <;> cases h

theorem addCase_free (owner : TypeId) (name shortName : String)
    (fields : List (String × TypeId)) : FreeOfCycles (p.addCase owner name shortName fields) := by
  intro path h
  unfold addCase at h
  split at h <;> cases h

theorem setIvars_free (t : TypeId) (ivars : List (String × TypeId)) :
    FreeOfCycles (p.setIvars t ivars) := by
  intro path h
  unfold setIvars at h
  split at h <;> cases h

theorem addMethod_free (owner : TypeId) (sig : Signature) :
    FreeOfCycles (p.addMethod owner sig) := by
  intro path h
  unfold addMethod at h
  dsimp only at h
  split at h
  · split at h <;> cases h
  · split at h <;> cases h
  · cases h

theorem unify_free (var target : TypeId) : FreeOfCycles (p.unify var target) := by
  intro path h
  unfold unify at h
  dsimp only at h
  split at h <;> cases h

end Pool

namespace TypeTable

variable (table : TypeTable) (visit : Visit)

theorem typeOf_free : FreeOfCycles (table.typeOf visit) := by
  intro path h
  unfold typeOf at h
  split at h <;> cases h

theorem target_free : FreeOfCycles (table.target visit) := by
  intro path h
  unfold target at h
  split at h <;> cases h

theorem signature_free : FreeOfCycles (table.signature visit) := by
  intro path h
  unfold signature at h
  split at h <;> cases h

end TypeTable

theorem orderArguments_free {α : Type} (sig : Signature) (args : List (Option String × α)) :
    FreeOfCycles (orderArguments sig args) := by
  intro path h
  rcases orderArguments_error h with ⟨_, _, he⟩ | ⟨_, he⟩ <;> cases he

end ClassLang
