import ClassLang.Proofs.Lowering.FlowBodies
import ClassLang.Proofs.Lowering.FollowingModule
import ClassLang.Proofs.Lowering.RunningNodes

/-!
# Running functions

The parameters of a function are copied into locals, then its body runs, and whatever value it
returns or comes to its end with is what the exit block returns. So a function whose body was
generated answers every call as it is evaluated.
-/

namespace ClassLang

open Execution (Context Datum State World)
open IR (BlockRef Build FunctionId HasOperands Instruction KeepsAdding Ty Value)
open IR.HasOperands (Below)

variable {η : Type} {E : Context η} {F : Output} {K : ScalarTypes} {f : FunctionId} {n c : Nat}
  {b b' : Body} {o o' : Output} {P : Execution.Frame → Prop} {names : List String}

/-! ## Evaluating a function -/

namespace Eval

/-- Give locals their values. -/
def writeAll (values : List (String × Scalar)) : Eval Unit :=
  values.forM fun (name, v) => write name v

/-- The body of a function with these values of its parameters: it always leaves with a value, its
own one where its end is reached. -/
def body (f : ScalarFunction) (eval : NodeId → Eval (Option Scalar)) (values : List Scalar) :
    Eval Unit := do
  writeAll ((f.params.map (·.1)).zip values)
  leave (← value eval f.body)

theorem run_writeAll (values : List (String × Scalar)) (l : Locals) :
    (writeAll values).run l = some (.ok ⟨⟩, values.foldl (fun l entry => l.set entry.1 entry.2) l) := by
  induction values generalizing l with
  | nil => rfl
  | cons entry values ih =>
      show (write entry.1 entry.2 >>= fun _ => writeAll values).run l = _
      rw [run_bind, run_write]
      exact ih _

theorem foldl_set {values : List (String × Scalar)} (h : (values.map (·.1)).Nodup) (l : Locals) :
    values.foldl (fun l entry => l.set entry.1 entry.2) l =
      fun name => (values.lookup name).or (l name) := by
  induction values generalizing l with
  | nil => rfl
  | cons entry values ih =>
      rw [List.map_cons, List.nodup_cons] at h
      rw [List.foldl_cons, ih h.2]
      funext name
      rw [List.lookup_cons]
      by_cases hname : name = entry.1
      · subst hname
        have hnone : values.lookup entry.1 = none := by
          rw [List.lookup_eq_none_iff]
          intro p hp
          simpa using fun heq => h.1 (List.mem_map.mpr ⟨p, hp, heq.symm⟩)
        simp [hnone, Locals.set]
      · simp [beq_eq_false_iff_ne.mpr hname, hname, Locals.set]

/-- What a function gives is the value that its body leaves with, as one of the result type. -/
theorem body_of_result? {f : ScalarFunction} {eval : NodeId → Eval (Option Scalar)}
    {values : List Scalar} {v : Scalar} (hnames : (f.params.map (·.1)).Nodup) (hfits : f.Fits values)
    (h : f.result? eval values = some v) :
    ∃ u l, (body f eval values).run (fun _ => none) = some (.error u, l) ∧
      u.passTo f.result = some v := by
  have hlength : values.length = f.params.length := by
    rw [← List.length_map, hfits, List.length_map]
  have hlocals : ((f.params.map (·.1)).zip values).foldl
      (fun (l : Locals) entry => l.set entry.1 entry.2) (fun _ => none) = f.locals values := by
    rw [foldl_set (by rwa [List.map_fst_zip (by simp [hlength])])]
    funext name
    exact Option.or_none
  obtain ⟨⟨outcome, l⟩, hrun, h⟩ := Option.bind_eq_some_iff.mp h
  rw [body, run_bind, run_writeAll, Option.bind_some, hlocals]
  show ∃ u l, (value eval f.body >>= leave).run _ = _ ∧ _
  rw [value, bind_assoc, run_bind, hrun, Option.bind_some]
  cases outcome with
  | error u => exact ⟨u, l, rfl, h⟩
  | ok last =>
      obtain ⟨u, rfl, hpass⟩ := Option.bind_eq_some_iff.mp h
      exact ⟨u, l, rfl, hpass⟩

end Eval

namespace Lower

variable {ctx : LoweringContext}

/-! ## Parameters -/

/-- The name of a parameter matters to nothing that runs. -/
theorem bindParam_ok [CaseTags] (hready : Ready K f c b o) {index : Nat} {name : String} {t : TypeId}
    {r : Unit} (hrun : (bindParam ctx index name t).run b o = .ok (r, b') o') :
    ∃ o₁, Goes K f [] c b o c b o₁ ∧ (∀ k, ((o₁.builder.module.function f).block k).code =
        ((o.builder.module.function f).block k).code) ∧
      (bindLocal ctx name (o₁.builder.param f index) t).run b o₁ = .ok (r, b') o' := by
  obtain ⟨_, b₀, o₀, hget, hrun⟩ := bind_ok hrun
  cases hget
  rw [hready.function] at hrun
  obtain ⟨_, b₁, o₁, hname, hrun⟩ := bind_ok hrun
  obtain ⟨-, hadds, -, -⟩ := Adds.build (.setParamName (n := 0) index name) b c o hready.function
    hready.at_ hready.shaped (Nat.zero_le _) hready.below _ _ _ hname
  obtain ⟨rfl, -, rfl⟩ := build_ok hname
  obtain ⟨_, _, _, ⟨⟩, hrun⟩ := bind_ok hrun
  refine ⟨_, .of_adds hready hadds, fun k => ?_, hrun⟩
  rw [IR.Function.block, (KeepsAdding.setParamName_same hready.at_ index name).1, IR.Function.block]

/-- A parameter becomes a local that has the argument as its value. -/
theorem Simulates.bindParam [CaseTags] (hpool : ctx.pool.HasScalars) {index : Nat} {name : String}
    {v : Scalar} {τ : ScalarType} (hlocal : K.local? name = some τ)
    (htype : (F.builder.module.function f).type.params.getD index default = τ.ty)
    (hvalue : ∀ fr, P fr → v.type = τ ∧ fr.args[index]? = some v.datum) :
    Simulates E F K f [name] n P (Eval.write name v) (bindParam ctx index name τ.id)
      fun _ _ _ => True := by
  constructor
  · intro b c o hready hn r b' o' hrun
    obtain ⟨o₁, hgoes₁, -, hrun⟩ := bindParam_ok hready hrun
    obtain ⟨⟨c', hgoes⟩, hr⟩ := (Simulates.bindLocal (E := E) (F := F) (P := fun _ => False) (v := v)
      hpool name hlocal fun _ => False.elim).advances b c o₁ hgoes₁.ready
        (Nat.le_trans hn hgoes₁.next_le) r b' o' hrun
    exact ⟨⟨c', hgoes₁.trans hgoes⟩, hr⟩
  · intro b c o hready hn r b' o' hrun T hT hK hincl l s hhere hPs
    obtain ⟨o₁, hgoes₁, hcode, hrun⟩ := bindParam_ok hready hrun
    have hn₁ := Nat.le_trans hn hgoes₁.next_le
    have hf := hready.function
    have hlocals := Simulates.bindLocal (E := E) (F := F) (K := K) (f := f) (n := n)
      (P := fun fr => v.type = τ ∧ (o₁.builder.param f index).Denotes v fr) hpool name hlocal
      fun fr hfr => hfr
    obtain ⟨⟨c', hgoes⟩, -⟩ := hlocals.advances b c o₁ hgoes₁.ready hn₁ r b' o' hrun
    -- the function has the type that it has in the end
    have hkept := (hincl.grows.builder.kept.types f hgoes.ready.at_.function_lt).2
    have hkept' := (hgoes.leads.grows.builder.kept.types f hgoes₁.ready.at_.function_lt).2
    obtain ⟨hv, harg⟩ := hvalue s.frame hPs
    have hdenotes : (o₁.builder.param f index).Denotes v s.frame := by
      refine ⟨?_, harg⟩
      rw [hv, ← htype, hkept, hkept']
      rfl
    have hfT : T.body.function = f := (hincl.before hgoes.leads).function.trans hf
    refine (hlocals.runs b c o₁ hgoes₁.ready hn₁ r b' o' hrun T hT hK hincl l s
      (hgoes₁.here hready hcode hfT hhere) ⟨hv, hdenotes⟩).mono ?_
    rintro _ l' t ⟨hhere', hkeeps, -⟩
    rw [hf] at hkeeps ⊢
    exact ⟨hhere', hkeeps.mono hgoes₁.next_le, trivial⟩

/-- The parameters become locals, in order. -/
theorem Simulates.bindParams [CaseTags] (hpool : ctx.pool.HasScalars) {params : List (String × ScalarType)}
    {declared : List Param} {values : List Scalar} (start : Nat)
    (hdeclared : List.Forall₂ (fun p q => q.name = some p.1 ∧ q.type = p.2.id) params declared)
    (hvalues : values.map (·.type) = params.map (·.2))
    (hlocals : ∀ p ∈ params, K.local? p.1 = some p.2)
    (htypes : ∀ i p, params[i]? = some p →
      (F.builder.module.function f).type.params.getD (start + i) default = p.2.ty)
    (hP : Stable n P) (hargs : ∀ fr, P fr → ∀ i v, values[i]? = some v →
      fr.args[start + i]? = some v.datum) :
    Simulates E F K f (params.map (·.1)) n P (Eval.writeAll ((params.map (·.1)).zip values))
      ((declared.zipIdx start).forM fun (param, index) =>
        match param.name with
        | some name => Lower.bindParam ctx index name param.type
        | none => Pure.pure ())
      fun _ _ _ => True := by
  induction hdeclared generalizing values start n P with
  | nil => exact .pure trivial fun _ _ => trivial
  | @cons p q params declared hhead _ ih =>
      cases values with
      | nil => cases hvalues
      | cons v values =>
          obtain ⟨hv, hvalues⟩ := List.cons.inj hvalues
          rw [List.forall_mem_cons] at hlocals
          have hfirst : Simulates E F K f [p.1] n P (Eval.write p.1 v)
              (Lower.bindParam ctx start p.1 p.2.id) fun _ _ _ => True :=
            .bindParam hpool hlocals.1 (htypes 0 p rfl) fun fr hfr => ⟨hv, hargs fr hfr 0 v rfl⟩
          show Simulates E F K f ([p.1] ++ params.map (·.1)) n P
            (Eval.write p.1 v >>= fun _ => Eval.writeAll ((params.map (·.1)).zip values))
            ((match q.name with
              | some name => Lower.bindParam ctx start name q.type
              | none => Pure.pure ()) >>= fun _ => (declared.zipIdx (start + 1)).forM fun item =>
                match item.1.name with
                | some name => Lower.bindParam ctx item.2 name item.1.type
                | none => Pure.pure ()) _
          rw [hhead.1, hhead.2]
          refine hfirst.bind hP fun _ _ n' hle _ => ?_
          refine ih _ hvalues hlocals.2 (fun i p' hp' => ?_) ((hP.mono hle).and (.const n' True))
            fun fr hfr i v' hv' => ?_
          · rw [Nat.add_right_comm]
            exact htypes (i + 1) p' hp'
          · rw [Nat.add_right_comm]
            exact hargs fr hfr.1 (i + 1) v' hv'

/-! ## The end of a body -/

/-- Reading the body tells the declared result. -/
theorem Simulates.get_bind {α β : Type} [HasOperands β] {x : Eval α} {next : Body → Lower β}
    {Q : α → β → Execution.Frame → Prop}
    (h : ∀ b : Body, b.result = K.result.id → Simulates E F K f names n P x (next b) Q) :
    Simulates E F K f names n P x (get >>= next) Q :=
  ⟨fun b c o hready hn r b' o' hrun => (h b hready.result).advances b c o hready hn r b' o' hrun,
    fun b c o hready hn => .get ((h b hready.result).runs b c o hready hn)⟩

theorem typeOf_keepsBody (node : NodeId) : KeepsBody (typeOf ctx node) :=
  .get_bind fun _ => (KeepsBody.lift _).bind fun _ => .lift _

/-- Where the end of a body is reached, the value of its node is returned. -/
theorem Simulates.fallThrough [CaseTags] (hpool : ctx.pool.HasScalars) {body : NodeId} {kind : Kind}
    {last? : Option Scalar} {value? : Option Value} (hbelow : Below n value?)
    (hscalar : ∀ σ, kind = .scalar σ →
      ctx.typed.table.HasScalar body σ ∧ K.result.accepts σ = true)
    (hkind : kind ≠ .constant) (Q : Unit → Unit → Execution.Frame → Prop) :
    Simulates E F K f [] n (kind.Gives last? value?)
      (Eval.ofOption last? >>= fun v => (Eval.leave v : Eval Unit)) (fallThrough ctx value? body) Q := by
  refine .get_bind fun b hresult => ?_
  have hvoid : b.result ≠ .void := by
    rw [hresult]
    cases K.result <;> decide
  rw [if_neg hvoid]
  cases value? with
  | none => exact .of_fails (by rintro _ _ _ _ _ ⟨⟩)
  | some value =>
      have hvalue := hbelow value rfl
      have hadvances : Advances K f [] n (typeOf ctx body >>= fun t => Lower.returnValue ctx value t) := by
        refine Advances.bind (.of_adds (typeOf_adds ctx body) (typeOf_keepsBody body))
          fun t n' hle _ => returnValue_advances (hvalue.mono hle) t
      cases kind with
      | constant => exact absurd rfl hkind
      | nothing => exact .of_false hadvances fun fr hfr => nomatch hfr
      | scalar σ =>
          obtain ⟨htype, haccepts⟩ := hscalar σ rfl
          cases last? with
          | none =>
              refine .of_false hadvances ?_
              rintro fr ⟨_, _, ⟨⟩, -⟩
          | some v =>
              refine .ask (typeOf_tells hpool htype) fun _ heq => ?_
              subst heq
              show Simulates E F K f [] n _ (Pure.pure v >>= fun v => Eval.leave v) _ Q
              rw [pure_bind]
              refine .returnValue hpool hvalue haccepts ?_ Q
              rintro fr ⟨_, _, ⟨⟩, ⟨⟩, hgives⟩
              exact hgives

/-- A body is generated as it is evaluated. -/
theorem Simulates.runBody [CaseTags] (hpool : ctx.pool.HasScalars) {body : NodeId} {kind : Kind}
    {eval : NodeId → Eval (Option Scalar)} {lower : NodeId → Lower (Option Value)}
    (hbody : Simulates E F K f names 0 (fun _ => True) (eval body) (lower body) kind.Gives)
    (hscalar : ∀ σ, kind = .scalar σ → ctx.typed.table.HasScalar body σ ∧ K.result.accepts σ = true)
    (hkind : kind ≠ .constant) :
    Simulates E F K f names 0 (fun _ => True) (Eval.value eval body >>= fun v => Eval.leave v)
      (runBody ctx lower body) fun (_ : Unit) _ _ => True := by
  rw [Eval.value, bind_assoc, ← List.append_nil names]
  refine hbody.bind (.const 0 True) fun last? value? n' _ hbelow => ?_
  refine Simulates.unlessTerminated ?_ (.pure trivial)
  exact (Simulates.fallThrough hpool hbelow hscalar hkind _).weaken (fun _ h => h.2) fun _ _ _ => id

/-! ## The exit block -/

/-- An empty exit block gets the instructions that return the values of the sites. -/
theorem returnsSites_exit {builder : IR.Builder} (hat : builder.At f 1)
    (hempty : ((builder.module.function f).block 1).instructions = []) (ty : Ty)
    (sites : List (Value × BlockRef)) :
    let r := (do
      match ← Build.phi ty sites "return_value" with
      | some value => Build.ret value
      | none => Build.unreachable : Build Unit).run builder
    IR.ReturnsSites f sites ((r.2.module.function f).block 1).instructions := by
  have hopen : ((builder.module.function f).block 1).Open := .of_nil hempty
  rcases sites with - | ⟨⟨value, site⟩, - | ⟨next, rest⟩⟩
  · obtain ⟨i, hi, hx⟩ := IR.terminate_extends hat hopen .unreachable
    show List.map _ (((((Build.terminate .unreachable).run builder).2.module.function f).block
      1).instructions) = _
    rw [hx.self, hempty, List.nil_append, List.map_singleton, hi]
  · obtain ⟨i, hi, hx⟩ := IR.terminate_extends hat hopen (.ret (some value))
    show List.map _ (((((Build.terminate (.ret (some value))).run builder).2.module.function f).block
      1).instructions) = _
    rw [hx.self, hempty, List.nil_append, List.map_singleton, hi]
  · -- two sites or more: their values are merged, and the merged one is returned
    let merge : IR.Op := .phi ty ((value, site) :: next :: rest)
    obtain ⟨phi, hphi, hvalue, hx⟩ := IR.insert_extends hat "return_value" merge
    have hopen' : ((((Build.insert "return_value" merge).run builder).2.module.function f).block
        1).Open := ((IR.KeepsStraight.insert _ rfl 1 _ hat).grows 1).isOpen hopen
    obtain ⟨ret, hret, hx'⟩ := IR.terminate_extends (hx.at_ hat) hopen'
      (.ret (some (.result f phi.id ty)))
    rw [← show _ = Value.result f phi.id ty from hvalue] at hret hx'
    refine ⟨phi, ret, ty, ?_, hphi, hret.trans (by rw [hvalue]; rfl)⟩
    exact (hx.trans hx').self.trans (by rw [hempty]; rfl)

/-- The exit block of a body returns the values of the sites. -/
theorem exitBlock_ok [CaseTags] (hpool : ctx.pool.HasScalars) (hready : Ready K f c b o)
    (hexit : b.exit = ⟨f, 1⟩) (hspare : Spare f c 1 o) {r : Unit}
    (hrun : (exitBlock ctx).run b o = .ok (r, b') o') :
    b' = b ∧ IR.ReturnsSites f b.returnSites ((o'.builder.module.function f).block 1).instructions := by
  have hrun' : (build (do
        Build.moveBlockToEnd b.exit
        Build.positionAtEnd b.exit) >>= fun _ =>
      if b.result = .void then build Build.retVoid
      else liftM (Emit.valueType ctx b.result) >>= fun type => build do
        match ← Build.phi type b.returnSites "return_value" with
        | some value => Build.ret value
        | none => Build.unreachable).run b o = .ok (r, b') o' := hrun
  have hvoid : b.result ≠ .void := by
    rw [hready.result]
    cases K.result <;> decide
  rw [hexit, if_neg hvoid, hready.result, build_bind, bind_assoc] at hrun'
  obtain ⟨_, b₁, o₁, hmove, hrun₁⟩ := bind_ok hrun'
  have hgoes := moveBlockToEnd_ok hready Nat.one_ne_zero hmove
  have hspare₁ := hspare.goes hgoes
  obtain ⟨_, b₂, o₂, hposition, hrun₂⟩ := bind_ok hrun₁
  obtain ⟨rfl, -, -⟩ := build_ok hmove
  obtain ⟨rfl, -, rfl⟩ := build_ok hposition
  have hready₂ := hgoes.ready.positionAtEnd hspare₁.lt
  obtain ⟨ty, b₃, o₃, hty, hlast⟩ := bind_ok hrun₂
  obtain ⟨rfl, rfl, rfl⟩ := valueType_tells hpool K.result _ _ _ _ _ hready₂.walk hty
  obtain ⟨rfl, -, rfl⟩ := build_ok hlast
  refine ⟨rfl, returnsSites_exit hready₂.at_ ?_ _ _⟩
  rw [← (hready₂.shaped.builder.functions f).code_eq Nat.one_ne_zero]
  exact hspare₁.code

end Lower

namespace Activation

variable {T : Activation η} {s : State η} {v : Scalar}

/-- The exit block returns the value that the machine has come with. -/
theorem Leaving.returns (h : T.Leaving E v s)
    (hsites : IR.ReturnsSites T.body.function T.body.returnSites
      ((T.code E).block 1).instructions) :
    ∃ v' t last world, v.passTo T.types.result = some v' ∧ E.Reaches s t ∧
      E.step? t = some (Context.leave last (some v'.datum) world T.callers) ∧
        last.waiting = T.waiting ∧ world.host = T.host ∧ T.before.Grows world.memory := by
  obtain ⟨⟨l, hholds⟩, hblock, hcode, k, value, ref, v', hprevious, hfind, hpass, hdenotes⟩ := h
  rcases hlist : T.body.returnSites with - | ⟨⟨value₀, site⟩, - | ⟨next, rest⟩⟩
  · rw [hlist] at hfind
    cases hfind
  · rw [hlist] at hfind hsites
    obtain ⟨i, hi, hop⟩ := List.map_eq_singleton_iff.mp hsites
    obtain ⟨hmem, -⟩ := List.mem_singleton.mp (List.mem_of_find?_eq_some hfind)
    rw [hi] at hcode
    refine ⟨v', s, { s.frame with code := [] }, s.world, hpass, .refl s, ?_, hholds.waiting,
      hholds.host, hholds.memory⟩
    rw [Context.step?_cons hcode, hop, Context.execute?, E.eval?_code, hdenotes.eval?, hholds.callers]
    rfl
  · -- the value of the site that the machine comes from is chosen first
    rw [hlist] at hsites
    obtain ⟨phi, ret, ty, hi, hphi, hret⟩ := hsites
    rw [hi] at hcode
    have hchosen : (T.body.returnSites.find? fun site => some site.2.block == s.frame.previous) =
        some (value, ref) := by
      rw [hprevious]
      exact hfind
    rw [hlist] at hchosen
    let fr : Execution.Frame := { s.frame with code := [ret] }
    have hmerge : E.Steps s ⟨fr.setResult phi.id v'.datum, s.callers, s.world⟩ := by
      rw [Context.Steps, Context.step?_cons hcode, hphi, Context.execute?, hchosen]
      show (E.eval? { s.frame with code := [ret] } value >>= fun d => _) = _
      rw [E.eval?_code, hdenotes.eval?]
      rfl
    refine ⟨v', _, { fr.setResult phi.id v'.datum with code := [] }, s.world, hpass, .single hmerge, ?_,
      hholds.waiting, hholds.host, hholds.memory⟩
    have hresult : E.eval? { fr.setResult phi.id v'.datum with code := [] }
        (.result T.body.function phi.id ty) = some v'.datum := by
      rw [E.eval?_code]
      exact setResult_self _ _ _
    rw [Context.step?_cons (r := []) rfl, hret, Context.execute?, hresult, hholds.callers]
    rfl

end Activation

/-! ## Entering a function -/

/-- The frames after the slots of a function were made: each slot has an object of its own. -/
theorem reaches_slots {slots rest : List Instruction} (hslots : ∀ i ∈ slots, i.op.isAlloca = true)
    (hids : (slots.map (·.id)).Nodup) {s : State η} (hcode : s.frame.code = slots ++ rest) :
    ∃ results memory, E.Reaches s ⟨{ s.frame with code := rest, results }, s.callers,
        { s.world with memory }⟩ ∧
      s.world.memory.Grows memory ∧
      (∀ i ∈ slots, results[i.id]? = some (.address (.place
        (s.world.memory.objects.size + (slots.map (·.id)).idxOf i.id) 0))) ∧
      (∀ id, id ∉ slots.map (·.id) → results[id]? = s.frame.results[id]?) ∧
      memory.objects.size = s.world.memory.objects.size + slots.length := by
  induction slots generalizing s with
  | nil =>
      refine ⟨s.frame.results, s.world.memory, ?_, .refl _, by simp, fun _ _ => rfl, rfl⟩
      rw [← List.nil_append rest, ← hcode]
      exact .refl s
  | cons i slots ih =>
      rw [List.forall_mem_cons] at hslots
      rw [List.map_cons, List.nodup_cons] at hids
      obtain ⟨t, hop⟩ : ∃ t, i.op = .alloca t := by
        have hi := hslots.1
        cases hop : i.op <;> rw [hop] at hi <;> first | exact ⟨_, rfl⟩ | cases hi
      let next : State η := ⟨{ s.frame with code := slots ++ rest }.setResult i.id
        (.address s.world.memory.allocate.1), s.callers,
        { s.world with memory := s.world.memory.allocate.2 }⟩
      have hstep : E.Steps s next := by
        rw [Context.Steps, Context.step?_cons (r := slots ++ rest) hcode, hop]
        rfl
      obtain ⟨results, memory, hreaches, hgrows, hslot, hothers, hsize⟩ :=
        ih hslots.2 hids.2 (s := next) rfl
      have hallocate : next.world.memory.objects.size = s.world.memory.objects.size + 1 := by
        simp [next, Execution.Memory.allocate]
      refine ⟨results, memory, (Context.Reaches.single hstep).trans hreaches,
        ((Execution.Memory.Grows.refl _).allocate).trans hgrows, ?_, fun id hid => ?_, ?_⟩
      · rintro j (_ | ⟨_, hj⟩)
        · rw [hothers _ hids.1, List.map_cons, List.idxOf_cons_self]
          exact Activation.setResult_self _ _ _
        · have hne : i.id ≠ j.id := fun heq => hids.1 (heq ▸ List.mem_map_of_mem hj)
          rw [hslot j hj, hallocate, List.map_cons, List.idxOf_cons_ne _ hne, Nat.add_assoc,
            Nat.add_comm 1]
      · rw [List.map_cons, List.mem_cons, not_or] at hid
        rw [hothers id hid.2]
        simp [next, Execution.Frame.setResult, Std.TreeMap.getElem?_insert, Ne.symm hid.1]
      · rw [hsize, hallocate, List.length_cons]
        omega

/-! ## Functions -/

namespace Lower

variable [CaseTags] {ctx : LoweringContext} {callees : String → Prop} {fn : ScalarFunction}
  {sig : Signature} {kind : Kind} {bound : Nat}

/-- A function was opened for a body of plain code. -/
structure OpenedPlain (K : ScalarTypes) (g : FunctionId) (o : Output) (b : Body) (o' : Output) : Prop
    extends Opened g o b o' where
  walk : b.walk = 0
  result : b.result = K.result.id
  shaped : o'.Shaped

theorem start_plain (hpool : ctx.pool.HasScalars) {g : FunctionId} {name : String}
    (hg : g < o.builder.module.functions.size) (ho : o.Shaped)
    (h : start ctx g 0 none name K.result.id o = .ok b o') : OpenedPlain K g o b o' := by
  have hopened := start_opened ctx hg ho h
  refine ⟨hopened, ?_, ?_, hopened.continues.shaped ho⟩ <;>
    obtain ⟨_, o₁, hget, hrest⟩ := bind_eq_ok.mp h <;> cases hget <;> dsimp only at hrest <;>
    split at hrest
  · cases hrest
  · obtain ⟨t, o₁, -, hrest⟩ := bind_eq_ok.mp hrest
    cases hrest
    rfl
  · cases hrest
  · obtain ⟨t, o₁, hresolve, hrest⟩ := bind_eq_ok.mp hrest
    rw [Emit.resolve, hpool.resolveStrict_id] at hresolve
    cases hresolve
    cases hrest
    rfl

namespace OpenedPlain

variable {g : FunctionId}

theorem ready (h : OpenedPlain K g o b o') : Ready K g 0 b o' where
  function := h.function
  at_ := h.at_
  shaped := h.shaped
  below := h.below _
  walk := h.walk
  result := h.result
  regular := ⟨by simp [h.scope], by simp [h.scope], by simp [h.returnSites]⟩
  locals := by simp [Body.HasSlot, h.scope]

theorem code_eq_nil (h : OpenedPlain K g o b o') (k : Nat) :
    ((o'.builder.module.function g).block k).code = [] := by
  rw [IR.Block.code, h.empty]
  rfl

theorem spare (h : OpenedPlain K g o b o') : Spare g 0 1 o' :=
  ⟨Nat.one_ne_zero, by rw [h.size]; exact Nat.one_lt_two, Nat.one_ne_zero, h.code_eq_nil 1⟩

end OpenedPlain

end Lower

namespace Activation

open Lower

/-- A call that begins: each slot of the function gets an object that is not there yet. -/
def begin (E : Context η) (K : ScalarTypes) (b : Body) (args : List Datum) (waiting : Nat)
    (callers : List Execution.Frame) (world : World η) : Activation η where
  body := b
  types := K
  args
  waiting
  callers
  host := world.host
  before := world.memory
  place id := world.memory.objects.size +
    (((E.module.function b.function).block 0).slots.map (·.id)).idxOf id

section Entering

variable {g : FunctionId} {o₀ : Output} {b₀ : Body} {args : List Datum} {waiting : Nat}
  {callers : List Execution.Frame} {world : World η}

/-- What is fixed while the call is in progress. -/
theorem begin_sound [CaseTags] (hmodule : E.module = F.builder.module) (hready : Ready K g c b o)
    (hshaped : (E.module.function g).Shaped)
    (hgrows : (o.builder.module.function g).Grows (E.module.function g))
    (hnames : (b.scope.map (·.1)).Nodup) (hexit : b.exit = ⟨g, 1⟩) :
    (begin E K b args waiting callers world).Sound E F := by
  obtain rfl := hready.function
  refine ⟨hmodule, hshaped, hready.regular.mono hgrows, hnames, hexit,
    fun _ _ => Nat.le_add_right _ _, fun i hi j hj heq => ?_⟩
  exact (List.idxOf_inj (List.mem_map_of_mem hi)).mp (Nat.add_left_cancel heq)

variable (args waiting callers world) in
/-- A call comes to the beginning of the code, with no values of the locals yet. -/
theorem begin_reaches [CaseTags] (hopened : OpenedPlain K g o₀ b₀ o) (hb : b.function = g)
    (hshaped : (E.module.function g).Shaped) (hbody : (E.module.function g).hasBody = true) :
    ∃ start t, E.enter? g args waiting = some start ∧ E.Reaches ⟨start, callers, world⟩ t ∧
      (begin E K b args waiting callers world).Here E o (fun _ => none) t ∧ t.frame.args = args := by
  subst hb
  have hsize : 0 < (E.module.function b.function).blocks.size := by
    simpa [IR.Function.hasBody, Array.isEmpty, Nat.pos_iff_ne_zero] using hbody
  let start : Execution.Frame :=
    { function := b.function, args, waiting, block := 0, code := E.code b.function 0 }
  have henter : E.enter? b.function args waiting = some start := by
    rw [Context.enter?, hshaped.entryBlock?_eq hsize]
    rfl
  have hslots : ∀ i ∈ ((E.module.function b.function).block 0).slots, i.op.isAlloca = true :=
    fun i hi => (List.mem_filter.mp hi).2
  obtain ⟨results, memory, hreaches, hgrows, hplaces, -, hmemory⟩ := reaches_slots (E := E)
    hslots hshaped.nodup (s := ⟨start, callers, world⟩) hshaped.front
  have hcode := hopened.code_eq_nil 0
  refine ⟨start, _, henter, hreaches, ⟨hopened.at_, ?_, ⟨⟨rfl, rfl, rfl, rfl, rfl, hgrows, ?_,
    by rintro _ _ ⟨⟩, by rintro _ _ ⟨⟩⟩, rfl, ?_⟩⟩, rfl⟩
  · exact .of_nil (hopened.empty 0)
  · intro i hi
    refine ⟨hplaces i hi, ?_⟩
    have hlt := List.idxOf_lt_length_of_mem (List.mem_map_of_mem (f := (·.id)) hi)
    rw [List.length_map] at hlt
    show _ + _ < memory.objects.size
    rw [hmemory]
    exact Nat.add_lt_add_left hlt _
  · show _ = List.drop (((o.builder.module.function b.function).block 0).code).length _
    rw [hcode]
    rfl

end Entering

end Activation

/-! ## Calls of functions -/

namespace Lower

variable [CaseTags] {ctx : LoweringContext} {callees : String → Prop} {fn : ScalarFunction}
  {sig : Signature} {kind : Kind} {bound : Nat} {g : FunctionId}

/-- The code of a function: the parameters become locals, then comes the body. -/
def functionCode (ctx : LoweringContext) (sig : Signature) (body : NodeId) : Lower Unit := do
  (sig.params.zipIdx 0).forM fun (param, index) => do
    match param.name with
    | some name => Lower.bindParam ctx index name param.type
    | none => pure ()
  runBody ctx (Lower.lower ctx) body

omit [CaseTags] in
theorem methodCode_eq (body : NodeId) :
    Emit.methodCode ctx g none sig body = functionCode ctx sig body >>= fun _ => exitBlock ctx := by
  rw [Emit.methodCode, pure_bind, functionCode, bind_assoc]
  exact bind_congr fun _ => finish_eq _ body

/-- The code of a function runs as its body is evaluated. -/
theorem Simulates.functionCode (hpool : ctx.pool.HasScalars) (htags : ctx.Tags)
    (hfn : ScalarMethod ctx.tree ctx.typed.table callees fn sig K kind names)
    (htype : (F.builder.module.function g).type.params = fn.params.map (·.2.ty))
    (hcalls : CallsWithin E F ctx callees bound) {values : List Scalar} (hfits : fn.Fits values) :
    Simulates E F K g (fn.params.map (·.1) ++ names) 0 (fun fr => fr.args = values.map Scalar.datum)
      (Eval.body fn (Eval.evalWithin ctx.tree bound) values) (Lower.functionCode ctx sig fn.body)
      fun _ _ _ => True := by
  have hargs : Stable 0 fun fr : Execution.Frame => fr.args = values.map Scalar.datum :=
    fun fr fr' hkeeps hfr => hkeeps.args.trans hfr
  refine (Simulates.bindParams hpool 0 hfn.takes.params hfits hfn.params
    (fun i p hp => ?_) hargs fun fr hfr i v hv => ?_).bind hargs fun _ _ n' _ _ => ?_
  · rw [htype, Nat.zero_add, List.getD_eq_getElem?_getD, List.getElem?_map, hp]
    rfl
  · rw [hfr, Nat.zero_add, List.getElem?_map, hv]
    rfl
  · have hbody := simulates_code (E := E) (F := F) (f := g) hpool htags hfn.body (ctx.tree.size + 1)
      bound hcalls
    refine ((Simulates.runBody hpool hbody (fun σ hσ => ⟨?_, ?_⟩) hfn.last.1).mono
      (Nat.zero_le n')).weaken (fun _ _ => trivial) fun _ _ _ => id
    · subst hσ
      exact hfn.body.hasType
    · rw [hfn.result]
      exact hfn.last.2 σ hσ

/-- A function whose body was generated answers every call as it is evaluated. -/
theorem answers_of_body (hpool : ctx.pool.HasScalars) (htags : ctx.Tags)
    (hfn : ScalarMethod ctx.tree ctx.typed.table callees fn sig K kind names)
    (hmodule : E.module = F.builder.module) {b₀ : Body} {o₀ o₁ : Output} {r : Unit}
    (hopened : OpenedPlain K g o₀ b₀ o₁)
    (hrun : (Emit.methodCode ctx g none sig fn.body).run b₀ o₁ = .ok (r, b') o') (hF : o'.Grows F)
    (hsame : F.builder.module.function g = o'.builder.module.function g)
    (htype : (F.builder.module.function g).type.params = fn.params.map (·.2.ty))
    (hcalls : CallsWithin E F ctx callees bound) {values : List Scalar} {v : Scalar}
    (hfits : fn.Fits values) (hv : fn.result? (Eval.evalWithin ctx.tree bound) values = some v) :
    E.Answers g values v := by
  rw [methodCode_eq] at hrun
  obtain ⟨⟨⟩, b, o, hcode, hexit⟩ := bind_ok hrun
  have hsim := Simulates.functionCode (E := E) hpool htags hfn htype hcalls hfits
  obtain ⟨⟨c, hgoes⟩, -⟩ := hsim.advances b₀ 0 o₁ hopened.ready (Nat.zero_le _) _ b o hcode
  have hexits : b.exit = ⟨g, 1⟩ := hgoes.leads.exit.trans hopened.exit
  obtain ⟨rfl, hsites⟩ := exitBlock_ok hpool hgoes.ready hexits (hopened.spare.goes hgoes) hexit
  have hready := hgoes.ready
  -- the exit block adds to what runs
  have hcloses := exitBlock_closes (F := o') (n := 0) (g := g) ctx b' c o hready.function hexits
    hready.at_ hready.shaped (hopened.spare.goes hgoes).lt (Nat.zero_le _) hready.below _ b' o' hexit
  have hcontinues := hcloses.1
  have hcodeE : E.module.function g = o'.builder.module.function g := by rw [hmodule, hsame]
  have hshaped : (E.module.function g).Shaped :=
    hcodeE ▸ (hcontinues.shaped hready.shaped).builder.functions g
  have hgrows : (o.builder.module.function g).Grows (E.module.function g) :=
    hcodeE ▸ hcontinues.grows.builder.functions g
  have hbody : (E.module.function g).hasBody = true := by
    have hblocks := Nat.lt_of_lt_of_le hready.at_.block_lt hgrows.blocks
    simp only [IR.Function.hasBody, Array.isEmpty, Bool.not_eq_true', decide_eq_false_iff_not]
    omega
  have hnames : (b'.scope.map (·.1)).Nodup := by
    obtain ⟨new, hnew, hsub⟩ := hgoes.leads.scope
    rw [hnew, hopened.scope, List.append_nil]
    exact hsub.nodup (List.nodup_reverse.mpr hfn.names)
  refine ⟨hbody, fun waiting callers world => ?_⟩
  have hsound : (Activation.begin E K b' (values.map Scalar.datum) waiting callers world).Sound E F :=
    Activation.begin_sound hmodule hready hshaped hgrows hnames hexits
  obtain ⟨start, s, henter, hreaches, hhere, hargs⟩ := Activation.begin_reaches
    (values.map Scalar.datum) waiting callers world hopened hready.function hshaped hbody
  have hincl : (Activation.begin E K b' (values.map Scalar.datum) waiting callers world).Includes F
      b' o := ⟨rfl, rfl, List.suffix_refl _, List.prefix_refl _, hcontinues.grows.trans hF⟩
  -- the body leaves with the value, which the exit block returns
  obtain ⟨u, l, heval, hpass⟩ := Eval.body_of_result? hfn.takes.names hfits hv
  obtain ⟨t, hreaches', hleaving⟩ := (hsim.runs b₀ 0 o₁ hopened.ready (Nat.zero_le _) _ b' o hcode _
    hsound rfl hincl _ s hhere hargs).2 u l heval
  obtain ⟨v', t', last, world', hpass', hreaches'', hstep, hrest⟩ := hleaving.returns (by
    show IR.ReturnsSites b'.function b'.returnSites
      ((E.module.function b'.function).block 1).instructions
    rw [hready.function, hcodeE]
    exact hsites)
  obtain rfl : v' = v := by
    rw [show (Activation.begin E K b' (values.map Scalar.datum) waiting callers world).types.result =
      fn.result from hfn.result, hpass] at hpass'
    exact (Option.some.inj hpass').symm
  exact ⟨start, t', last, world', henter, (hreaches.trans hreaches').trans hreaches'', hstep, hrest⟩

end Lower

end ClassLang
