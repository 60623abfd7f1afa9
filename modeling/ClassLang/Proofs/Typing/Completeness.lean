import ClassLang.Proofs.Typing.Members

/-!
# Complete tables

Typing records the type of a node after it has typed the parts of the node. So in a table that
typing made, a node with a type has parts with types, and meanings where the generator asks for
them: the table is `Complete`. This is a property of each entry, so it is kept by recording an entry
whose parts are recorded.
-/

namespace ClassLang.TypeTable

variable {table table' : TypeTable} {tree : SyntaxTree} {v w : Visit}

/-- The visit has a recorded type. -/
def HasType (table : TypeTable) (v : Visit) : Prop :=
  (table.get? v).isSome

/-- The visit has a recorded meaning. -/
def HasTarget (table : TypeTable) (v : Visit) : Prop :=
  (table.targets[v]?).isSome

/-- The visit has a recorded signature. -/
def HasSignature (table : TypeTable) (v : Visit) : Prop :=
  (table.signatures[v]?).isSome

/-- An expression or statement that was typed: it has a type, and a name has a meaning. -/
def Covers (table : TypeTable) (tree : SyntaxTree) (v : Visit) : Prop :=
  table.HasType v ∧ ∀ name, tree.node v.node = .ident name → table.HasTarget v

/-- The parts of a node were typed, and a call has a meaning. -/
def PartsCovered (table : TypeTable) (tree : SyntaxTree) (v : Visit) : Prop :=
  match tree.node v.node with
  | .seq statements => ∀ statement ∈ statements, table.Covers tree { v with node := statement }
  | .var _ _ value => table.Covers tree { v with node := value }
  | .assign target value =>
    table.HasType { v with node := target } ∧ table.Covers tree { v with node := value }
  | .call _ _ args =>
    table.HasTarget v ∧ ∀ arg ∈ args, table.Covers tree { v with node := arg }
  | .namedArg _ value => table.Covers tree { v with node := value }
  | .templatedInstance _ _ args =>
    table.HasTarget v ∧ ∀ arg ∈ args, table.Covers tree { v with node := arg }
  | .binary _ lhs rhs =>
    table.Covers tree { v with node := lhs } ∧ table.Covers tree { v with node := rhs }
  | .unary _ operand => table.Covers tree { v with node := operand }
  | .branch cond yes no =>
    table.Covers tree { v with node := cond } ∧ table.Covers tree { v with node := yes } ∧
      ∀ no' ∈ no, table.Covers tree { v with node := no' }
  | .loop cond body =>
    table.Covers tree { v with node := cond } ∧ table.Covers tree { v with node := body }
  | .select cond arms =>
    table.Covers tree { v with node := cond } ∧ ∀ arm ∈ arms, ∀ matched body,
      tree.node arm = .arm matched body →
        table.HasType { v with node := matched } ∧ table.Covers tree { v with node := body }
  | .ret value => ∀ value' ∈ value, table.Covers tree { v with node := value' }
  | .lambda _ _ body => table.Covers tree { v with node := body }
  | .methodDef _ _ _ body => table.Covers tree { v with node := body }
  | _ => True

/-- The meaning is one for which the receiver of a call is evaluated. -/
def NeedsReceiver (target : Target) : Prop :=
  (∃ sig, target = .method sig) ∨ ∃ index, target = .element index

/-- The receiver of a call was typed. -/
def ReceiverCovered (table : TypeTable) (tree : SyntaxTree) (v : Visit) : Prop :=
  ∀ receiver method args, tree.node v.node = .call (some receiver) method args →
    table.Covers tree { v with node := receiver }

/-- Every node with a type has typed parts, and receivers were typed where they are evaluated. -/
structure Complete (table : TypeTable) (tree : SyntaxTree) : Prop where
  parts : ∀ v, table.HasType v → table.PartsCovered tree v
  receivers : ∀ v target, table.targets[v]? = some target → NeedsReceiver target →
    table.ReceiverCovered tree v

/-- Types and meanings are never lost. -/
structure Grows (table table' : TypeTable) : Prop where
  types : ∀ v, table.HasType v → table'.HasType v
  targets : ∀ v, table.HasTarget v → table'.HasTarget v

theorem Grows.refl (table : TypeTable) : table.Grows table :=
  ⟨fun _ h => h, fun _ h => h⟩

theorem Grows.trans {table'' : TypeTable} (h : table.Grows table') (h' : table'.Grows table'') :
    table.Grows table'' :=
  ⟨fun v hv => h'.types v (h.types v hv), fun v hv => h'.targets v (h.targets v hv)⟩

theorem Covers.mono (h : table.Covers tree v) (hgrows : table.Grows table') :
    table'.Covers tree v :=
  ⟨hgrows.types v h.1, fun name hname => hgrows.targets v (h.2 name hname)⟩

theorem PartsCovered.mono (h : table.PartsCovered tree v) (hgrows : table.Grows table') :
    table'.PartsCovered tree v := by
  unfold PartsCovered at h ⊢
  split
  all_goals rename_i hnode; simp only [hnode] at h
  · exact fun statement hstatement => (h statement hstatement).mono hgrows
  · exact h.mono hgrows
  · exact ⟨hgrows.types _ h.1, h.2.mono hgrows⟩
  · exact ⟨hgrows.targets _ h.1, fun arg harg => (h.2 arg harg).mono hgrows⟩
  · exact h.mono hgrows
  · exact ⟨hgrows.targets _ h.1, fun arg harg => (h.2 arg harg).mono hgrows⟩
  · exact ⟨h.1.mono hgrows, h.2.mono hgrows⟩
  · exact h.mono hgrows
  · exact ⟨h.1.mono hgrows, h.2.1.mono hgrows, fun no hno => (h.2.2 no hno).mono hgrows⟩
  · exact ⟨h.1.mono hgrows, h.2.mono hgrows⟩
  · refine ⟨h.1.mono hgrows, fun arm harm matched body hbody => ?_⟩
    exact ⟨hgrows.types _ (h.2 arm harm matched body hbody).1,
      (h.2 arm harm matched body hbody).2.mono hgrows⟩
  · exact fun value hvalue => (h value hvalue).mono hgrows
  · exact h.mono hgrows
  · exact h.mono hgrows
  · trivial

theorem ReceiverCovered.mono (h : table.ReceiverCovered tree v) (hgrows : table.Grows table') :
    table'.ReceiverCovered tree v :=
  fun receiver method args hnode => (h receiver method args hnode).mono hgrows

/-! ## Recording -/

theorem get?_record (table : TypeTable) (v w : Visit) (t : TypeId) :
    (table.record v t).get? w = if w = v then some t else table.get? w :=
  getElem?_insert_visit table.types v w t

theorem hasType_record {t : TypeId} : (table.record v t).HasType v := by
  simp [HasType]

theorem grows_record (table : TypeTable) (v : Visit) (t : TypeId) :
    table.Grows (table.record v t) := by
  refine ⟨fun w hw => ?_, fun _ h => h⟩
  rw [HasType, get?_record]
  split
  · rfl
  · exact hw

theorem hasTarget_setTarget {target : Target} : (table.setTarget v target).HasTarget v := by
  simp [HasTarget, setTarget]

theorem grows_setTarget (table : TypeTable) (v : Visit) (target : Target) :
    table.Grows (table.setTarget v target) := by
  refine ⟨fun _ h => h, fun w hw => ?_⟩
  rw [HasTarget, setTarget, getElem?_insert_visit]
  split
  · rfl
  · exact hw

theorem getElem?_setSignature (table : TypeTable) (v w : Visit) (sig : Signature) :
    (table.setSignature v sig).signatures[w]? =
      if w = v then some sig else table.signatures[w]? :=
  getElem?_insert_visit table.signatures v w sig

theorem inclusion?_setInclusion (table : TypeTable) (v w : Visit) (walk : InstanceId) :
    (table.setInclusion v walk).inclusion? w =
      if w = v then some walk else table.inclusion? w :=
  getElem?_insert_visit table.inclusions v w walk

/-- Recording the type of a node whose parts were typed. -/
theorem Complete.record (h : table.Complete tree) {t : TypeId}
    (hv : table.PartsCovered tree v) : (table.record v t).Complete tree := by
  have hgrows := table.grows_record v t
  refine ⟨fun w hw => ?_, fun w target htarget hneeds => ?_⟩
  · rw [HasType, get?_record] at hw
    split at hw
    · next heq => exact heq ▸ hv.mono hgrows
    · exact (h.parts w hw).mono hgrows
  · exact (h.receivers w target htarget hneeds).mono hgrows

/-- Recording a meaning; where it needs a receiver, the receiver was typed. -/
theorem Complete.setTarget (h : table.Complete tree) {target : Target}
    (hv : NeedsReceiver target → table.ReceiverCovered tree v) :
    (table.setTarget v target).Complete tree := by
  have hgrows := table.grows_setTarget v target
  refine ⟨fun w hw => (h.parts w hw).mono hgrows, fun w other hother hneeds => ?_⟩
  rw [TypeTable.setTarget, getElem?_insert_visit] at hother
  split at hother
  · next heq =>
      cases hother
      exact heq ▸ (hv hneeds).mono hgrows
  · exact (h.receivers w other hother hneeds).mono hgrows

end ClassLang.TypeTable
