import ClassLang.Proofs.Lowering.Declared
import ClassLang.Proofs.Lowering.Requests

/-!
# Traces of code and requests

The structs and constants that are shared come from requests; all the rest that is generated is code.
`Output.Trace` is how an output comes from another one by both. `Emit.Reads` says that a step does
neither.
-/

namespace ClassLang

namespace Output

open Emit (Request)

/-- Code was generated, and nothing was made that is shared. -/
structure CodeOnly (o o' : Output) : Prop where
  handles : ∀ key, o'.handle? key = o.handle? key
  structs : o'.builder.module.structs = o.builder.module.structs
  globals : o'.builder.module.globals = o.builder.module.globals

theorem CodeOnly.of_build {α : Type} {step : IR.Build α} (h : IR.KeepsShared step) (o : Output) :
    CodeOnly o { o with builder := (step.run o.builder).2 } :=
  ⟨fun key => by cases key <;> rfl, h.structs_eq o.builder, h.globals_eq o.builder⟩

namespace CodeOnly

variable {p : Pool} {o o' : Output}

theorem keeps (h : o.CodeOnly o') : o.Keeps o' :=
  ⟨fun key _ hkey => (h.handles key).trans hkey, fun _ _ hid => h.structs ▸ hid⟩

theorem consistent (h : o.CodeOnly o') (ho : o.Consistent p) : o'.Consistent p where
  structs key struct hkey := by
    rw [h.handles] at hkey
    obtain ⟨id, fields, hid, hbody, hfields⟩ := ho.structs key struct hkey
    exact ⟨id, fields, hid, h.structs ▸ hbody, fun hplain => (hfields hplain).mono h.keeps.handles⟩
  records key record hkey := by
    rw [h.handles] at hkey
    exact h.globals ▸ ho.records key record hkey
  closures t params result captures handle ht hkey := by
    rw [h.handles] at hkey
    obtain ⟨shape, hshape, hmade⟩ := ho.closures t params result captures handle ht hkey
    exact ⟨shape, hshape, h.keeps.handles _ _ hmade⟩
  injective key key' handle hkey hkey' := by
    rw [h.handles] at hkey hkey'
    exact ho.injective key key' handle hkey hkey'

end CodeOnly

/-- Code is generated and requests are answered, one after the other. -/
inductive Trace (ctx : LoweringContext) (o : Output) : Output → Prop
  | refl : Trace ctx o o
  | code {o₁ o' : Output} (h : Trace ctx o o₁) (hcode : CodeOnly o₁ o') : Trace ctx o o'
  | request {o₁ o' : Output} {request : Request} {handle : Handle} (h : Trace ctx o o₁)
      (hrun : request.run ctx o₁ = .ok handle o') : Trace ctx o o'

theorem Trace.trans {ctx : LoweringContext} {o o₁ o' : Output} (h : o.Trace ctx o₁)
    (h' : o₁.Trace ctx o') : o.Trace ctx o' := by
  induction h' with
  | refl => exact h
  | code _ hcode ih => exact ih.code hcode
  | request _ hrun ih => exact ih.request hrun

end Output

/-! ## Steps that make nothing -/

namespace Emit

variable {α β : Type} {ctx : LoweringContext}

/-- The step leaves the output alone if it succeeds. -/
def Reads (step : Emit α) : Prop :=
  ∀ o a o', step o = .ok a o' → o' = o

namespace Reads

theorem pure (a : α) : Reads (Pure.pure a : Emit α) := by
  rintro o _ _ ⟨⟩
  rfl

theorem fail (e : CompileError) : Reads (Emit.fail e : Emit α) := by
  rintro o _ _ ⟨⟩

theorem bind {step : Emit α} {next : α → Emit β} (h : Reads step) (hnext : ∀ a, Reads (next a)) :
    Reads (step >>= next) := by
  intro o b o' hrun
  obtain ⟨a, o₁, hstep, hrest⟩ := bind_eq_ok.mp hrun
  exact (hnext a _ _ _ hrest).trans (h _ _ _ hstep)

theorem mapM {items : List β} {body : β → Emit α} (h : ∀ item, Reads (body item)) :
    Reads (items.mapM body) := by
  induction items with
  | nil => exact pure _
  | cons item items ih =>
      rw [List.mapM_cons]
      exact (h item).bind fun _ => ih.bind fun _ => pure _

end Reads

theorem resolve_reads (t : TypeId) : Reads (resolve ctx t) := by
  unfold resolve
  cases ctx.pool.resolveStrict t with
  | ok u => exact .pure u
  | error e => exact .fail e

theorem valueType_reads (t : TypeId) : Reads (valueType ctx t) := by
  refine (resolve_reads t).bind fun u => ?_
  cases ctx.pool.data u <;> first | exact .pure _ | exact .fail _

theorem returnType_reads (t : TypeId) : Reads (returnType ctx t) := by
  refine (resolve_reads t).bind fun u => ?_
  split
  · exact .pure _
  · exact (valueType_reads t).bind fun _ => .pure _

theorem closureFnType_reads (params : List TypeId) (result : TypeId) :
    Reads (closureFnType ctx params result) :=
  (Reads.mapM valueType_reads).bind fun _ => (returnType_reads result).bind fun _ => .pure _

theorem signatureType_reads (sig : Signature) (receiver : Bool) :
    Reads (signatureType ctx sig receiver) :=
  (Reads.mapM valueType_reads).bind fun _ => (returnType_reads sig.result).bind fun _ => .pure _

theorem caseParts_reads (t : TypeId) : Reads (caseParts ctx t) := by
  unfold caseParts
  split
  · exact .pure _
  · exact .fail _

end Emit

end ClassLang
