import Mathlib.Logic.Relation
import ClassLang.Execution.Machine

/-!
# Taking steps

`Context.Reaches` relates two states of the machine if running code gets from the first one to the
second one, and `Reaches.run_eq` turns this into a statement about bounded runs. Memory only gets
further objects while code runs in which every store is to an object of its own: `Memory.Grows` says
that all older objects are as they were.
-/

namespace ClassLang.Execution

open IR (FunctionId Instruction Op Value)

/-! ## Memory -/

namespace Memory

variable {m m' m'' : Memory}

/-- Objects may have been added; those that were there hold what they held. -/
structure Grows (m m' : Memory) : Prop where
  size : m.objects.size ≤ m'.objects.size
  kept : ∀ k, k < m.objects.size → m'.objects[k]? = m.objects[k]?

namespace Grows

theorem refl (m : Memory) : m.Grows m :=
  ⟨Nat.le_refl _, fun _ _ => rfl⟩

theorem trans (h : m.Grows m') (h' : m'.Grows m'') : m.Grows m'' where
  size := Nat.le_trans h.size h'.size
  kept k hk := (h'.kept k (Nat.lt_of_lt_of_le hk h.size)).trans (h.kept k hk)

/-- What is loaded from an object that was there is still loaded from it. -/
theorem load?_eq (h : m.Grows m') (t : IR.Ty) {k : ObjectId} (offset : Nat)
    (hk : k < m.objects.size) : m'.load? t (.place k offset) = m.load? t (.place k offset) := by
  simp only [load?, h.kept k hk]

/-- A new object. -/
theorem allocate (h : m.Grows m') : m.Grows m'.allocate.2 where
  size := by
    simp only [Memory.allocate, Array.size_push]
    exact Nat.le_succ_of_le h.size
  kept k hk := by
    have hlt := Nat.lt_of_lt_of_le hk h.size
    simp only [Memory.allocate, Array.getElem?_push, Nat.ne_of_lt hlt, if_false]
    exact h.kept k hk

end Grows

/-- Something can be stored in every object. -/
theorem store?_place {k : ObjectId} (hk : k < m.objects.size) (v : Datum) (offset : Nat) :
    m.store? v (.place k offset) =
      some { objects := m.objects.modify k (·.insert offset v) } := by
  simp [store?, hk]

/-- Storing adds no object. -/
theorem size_store? {v : Datum} {a : Address} (h : m.store? v a = some m') :
    m'.objects.size = m.objects.size := by
  cases a with
  | null => simp [store?] at h
  | code _ => simp [store?] at h
  | place k offset =>
      simp only [store?, Option.ite_none_right_eq_some, Option.some.injEq] at h
      obtain ⟨-, rfl⟩ := h
      simp

/-- Storing in a younger object leaves the older ones alone. -/
theorem Grows.store? {v : Datum} {k : ObjectId} {offset : Nat} (h : m.Grows m')
    (hk : m.objects.size ≤ k) (hstore : m'.store? v (.place k offset) = some m'') :
    m.Grows m'' := by
  refine ⟨by rw [size_store? hstore]; exact h.size, fun j hj => ?_⟩
  simp only [Memory.store?, Option.ite_none_right_eq_some, Option.some.injEq] at hstore
  obtain ⟨-, rfl⟩ := hstore
  rw [Array.getElem?_modify, if_neg (by omega)]
  exact h.kept j hj

end Memory

/-! ## Steps -/

namespace Context

variable {η : Type} (ctx : Context η)

/-- The machine goes from one state to another in one step. -/
def Steps (s t : State η) : Prop :=
  ctx.step? s = some (.running t)

/-- The machine goes from one state to another in some number of steps. -/
def Reaches : State η → State η → Prop :=
  Relation.ReflTransGen ctx.Steps

variable {ctx} {s t u : State η}

namespace Reaches

theorem refl (s : State η) : ctx.Reaches s s :=
  Relation.ReflTransGen.refl

theorem trans (h : ctx.Reaches s t) (h' : ctx.Reaches t u) : ctx.Reaches s u :=
  Relation.ReflTransGen.trans h h'

theorem single (h : ctx.Steps s t) : ctx.Reaches s t :=
  Relation.ReflTransGen.single h

theorem tail (h : ctx.Reaches s t) (h' : ctx.Steps t u) : ctx.Reaches s u :=
  Relation.ReflTransGen.tail h h'

/-- A run goes on from every state that is reached. -/
theorem run_eq (h : ctx.Reaches s t) : ∃ n, ∀ more, ctx.run (n + more) s = ctx.run more t := by
  induction h using Relation.ReflTransGen.head_induction_on with
  | refl => exact ⟨0, fun more => by rw [Nat.zero_add]⟩
  | head hstep _ ih =>
      obtain ⟨n, hn⟩ := ih
      refine ⟨n + 1, fun more => ?_⟩
      rw [Nat.succ_add, run, hstep]
      exact hn more

/-- A run that reaches a state whose next step ends it is over. -/
theorem run_finished (h : ctx.Reaches s t) {result : Option Datum} {world : World η}
    (hlast : ctx.step? t = some (.finished result world)) :
    ∃ n, ctx.run n s = .finished result world := by
  obtain ⟨n, hn⟩ := h.run_eq
  refine ⟨n + 1, ?_⟩
  rw [hn, run, hlast]

end Reaches

/-- The next instruction of a frame is executed. -/
theorem step?_cons {i : Instruction} {r : List Instruction} (h : s.frame.code = i :: r) :
    ctx.step? s = ctx.execute? { s.frame with code := r } s.callers s.world i.id i.op := by
  rw [step?, h]

end Context

end ClassLang.Execution
