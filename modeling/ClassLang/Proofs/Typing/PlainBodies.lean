import ClassLang.Proofs.Pool.Representation
import ClassLang.Proofs.Semantics.Arguments
import ClassLang.Proofs.Semantics.Code
import ClassLang.Proofs.Typing.AccountedModules

/-!
# Typing code on Integers and Booleans

What typing finds out about plain code that it accepts: each node gives an Integer, a Boolean, a
case without fields or nothing, and the types, meanings and conversions are those of `ScalarCode`.
Plain code leaves the pool alone, and in a tree-shaped unit the records of one node are not touched
by what is typed after it, so the facts are stated about the final table.
-/

namespace ClassLang

open SyntaxTree (TreeShaped)

/-- Nothing stands below two children of a node. -/
theorem SyntaxTree.TreeShaped.disjoint_children {tree : SyntaxTree} (h : tree.TreeShaped)
    {a b node parent : NodeId} (ha : a ∈ (tree.node parent).children)
    (hb : b ∈ (tree.node parent).children) (hne : a ≠ b) (hbelow : tree.Below a node) :
    ¬ tree.Below b node := by
  intro hbelow'
  rcases h.below_total hbelow hbelow' with hab | hba
  · exact h.not_below_of_siblings ha hb hne hab
  · exact h.not_below_of_siblings hb ha (Ne.symm hne) hba

/-! ## Kinds in the pool -/

/-- Words and truth values keep their types. -/
theorem Pool.HasScalars.evolves {p q : Pool} (h : p.HasScalars) (he : p.Evolves q) :
    q.HasScalars := by
  have hdata (τ : ScalarType) : q.data τ.id = τ.data := by
    rw [← h.data_id]
    refine he.data_eq_of_fixed (lt_size_of_data_ne ?_) ?_ ?_ <;> rw [h.data_id] <;> cases τ <;>
      first | rfl | (rintro ⟨⟩)
  exact ⟨hdata .integer, hdata .boolean⟩

/-- What a pool has to say about the values of plain code. -/
structure Pool.HasBasics (p : Pool) : Prop extends p.HasScalars where
  void : p.data .void = .void
  linked : p.Linked

/-- The type of a node that gives this much. -/
def Kind.TypedAs (p : Pool) : Kind → TypeId → Prop
  | .scalar τ, r => r = τ.id
  | .constant, r => ∃ name cases methods, p.data r = .data name cases methods
  | .nothing, r => r = .void

namespace Kind.TypedAs

variable {p : Pool} {kind kind' : Kind} {r r' t : TypeId} {τ : ScalarType} {op : BinaryOp}

theorem resolve_eq (h : kind.TypedAs p r) (hp : p.HasBasics) : p.resolve r = r := by
  cases kind with
  | scalar σ => exact h ▸ hp.resolve_id σ
  | constant =>
      obtain ⟨name, cases, methods, hdata⟩ := h
      exact Pool.resolve_of_not_var (by rw [hdata]; rfl)
  | nothing => exact Pool.resolve_of_not_var (by rw [h, hp.void]; rfl)

theorem isUnresolved_eq (h : kind.TypedAs p r) (hp : p.HasBasics) : p.isUnresolved r = false := by
  rw [Pool.isUnresolved, Pool.view, h.resolve_eq hp]
  cases kind with
  | scalar σ =>
      rw [h, hp.data_id]
      cases σ <;> rfl
  | constant =>
      obtain ⟨name, cases, methods, hdata⟩ := h
      rw [hdata]
      rfl
  | nothing =>
      rw [h, hp.void]
      rfl

/-- Only values have the types of values. -/
theorem eq_scalar (h : kind.TypedAs p τ.id) (hp : p.HasBasics) : kind = .scalar τ := by
  cases kind with
  | scalar σ => rw [ScalarType.id_inj h]
  | constant =>
      obtain ⟨name, cases, methods, hdata⟩ := h
      rw [hp.data_id] at hdata
      cases τ <;> cases hdata
  | nothing => cases τ <;> cases h

/-- Only values become values. -/
theorem of_canConvert (h : kind.TypedAs p r) (hp : p.HasBasics)
    (hconvert : p.canConvert r τ.id = true) : ∃ σ, kind = .scalar σ ∧ τ.accepts σ = true := by
  have hsame (hne : ∀ σ, kind ≠ .scalar σ) : ¬ p.sameType r τ.id = true := fun hsame => by
    rw [hp.sameType_id_iff, h.resolve_eq hp] at hsame
    exact hne τ ((hsame ▸ h).eq_scalar hp)
  cases kind with
  | scalar σ =>
      refine ⟨σ, rfl, ?_⟩
      rw [Pool.canConvert, show r = σ.id from h, hp.conversion?_id] at hconvert
      cases σ <;> cases τ <;> first | rfl | cases hconvert
  | constant =>
      rw [Pool.canConvert, Pool.conversion?, if_neg (hsame (by rintro _ ⟨⟩)), hp.view_id, Pool.view,
        h.resolve_eq hp] at hconvert
      obtain ⟨name, cases, methods, hdata⟩ := h
      rw [hdata] at hconvert
      cases τ <;> cases hconvert
  | nothing =>
      rw [Pool.canConvert, Pool.conversion?, if_neg (hsame (by rintro _ ⟨⟩)), hp.view_id, Pool.view,
        h.resolve_eq hp, show r = .void from h, hp.void] at hconvert
      cases τ <;> cases hconvert

/-- A body that may end like this with its last node gives a value that is accepted, or nothing. -/
theorem of_ends (h : kind.TypedAs p r) (hp : p.HasBasics) (hends : τ.id = .void ∨ r = .void ∨
    p.isUnresolved r = true ∨ p.canConvert r τ.id = true) :
    kind ≠ .constant ∧ ∀ σ, kind = .scalar σ → τ.accepts σ = true := by
  rcases hends with hvoid | rfl | hopen | hconvert
  · cases τ <;> cases hvoid
  · cases kind with
    | scalar σ => cases σ <;> cases h
    | constant =>
        obtain ⟨name, cases, methods, hdata⟩ := h
        rw [hp.void] at hdata
        cases hdata
    | nothing => exact ⟨by rintro ⟨⟩, by rintro _ ⟨⟩⟩
  · rw [h.isUnresolved_eq hp] at hopen
    cases hopen
  · obtain ⟨σ, rfl, haccepts⟩ := h.of_canConvert hp hconvert
    exact ⟨by rintro ⟨⟩, fun ρ heq => Kind.scalar.inj heq ▸ haccepts⟩

/-- Operators are those of values. -/
theorem of_operatorResult (h : kind.TypedAs p r) (h' : kind'.TypedAs p r') (hp : p.HasBasics)
    (hop : p.operatorResult r op r' = .ok t) : ∃ σ ρ τ, kind = .scalar σ ∧ kind' = .scalar ρ ∧
      op.scalarResult? σ = some τ ∧ t = τ.id := by
  have hview := h.resolve_eq hp
  cases kind with
  | scalar σ =>
      rw [show r = σ.id from h, Pool.operatorResult, hp.operator?_id, hp.resolve_id] at hop
      cases hresult : op.scalarResult? σ with
      | none =>
          rw [hresult] at hop
          cases hop
      | some τ =>
          rw [hresult] at hop
          simp only [Option.map_some] at hop
          split at hop
          · next hconvert =>
              obtain ⟨ρ, hρ, -⟩ := h'.of_canConvert hp hconvert
              refine ⟨σ, ρ, τ, rfl, hρ, hresult, ?_⟩
              cases hop
              cases op <;> cases σ <;> cases hresult <;> rfl
          · cases hop
  | constant =>
      obtain ⟨name, cases, methods, hdata⟩ := h
      rw [Pool.operatorResult, Pool.operator?, Pool.view, hview, hdata] at hop
      cases hop
  | nothing =>
      rw [Pool.operatorResult, Pool.operator?, Pool.view, hview, show r = .void from h,
        hp.void] at hop
      cases hop

end Kind.TypedAs

theorem ScalarFunction.Takes.scalar_params {fn : ScalarFunction} {sig : Signature}
    (h : fn.Takes sig) : ∀ param ∈ sig.params, ∃ τ : ScalarType, param.type = τ.id := by
  intro param hparam
  obtain ⟨i, hi, rfl⟩ := List.mem_iff_getElem.mp hparam
  exact ⟨_, (h.params.get (h.params.length_eq ▸ hi) hi).2⟩

/-! ## Records of one part of a tree -/

/-- The records of the first walk are the same, but for those of the nodes in `B`. -/
def TypeTable.SameOff (B : NodeId → Prop) (table after : TypeTable) : Prop :=
  ∀ node, ¬ B node → after.get? { walk := 0, node } = table.get? { walk := 0, node } ∧
    after.targets[({ walk := 0, node } : Visit)]? = table.targets[({ walk := 0, node } : Visit)]?

namespace TypeTable.SameOff

variable {B C : NodeId → Prop} {t u v : TypeTable} {node : NodeId}

theorem refl (B : NodeId → Prop) (t : TypeTable) : t.SameOff B t :=
  fun _ _ => ⟨rfl, rfl⟩

theorem trans (h : t.SameOff B u) (h' : u.SameOff B v) : t.SameOff B v :=
  fun node hnode =>
    ⟨(h' node hnode).1.trans (h node hnode).1, (h' node hnode).2.trans (h node hnode).2⟩

theorem mono (h : t.SameOff B u) (hBC : ∀ node, B node → C node) : t.SameOff C u :=
  fun node hnode => h node fun hB => hnode (hBC node hB)

theorem record (hnode : B node) (r : TypeId) : t.SameOff B (t.record { walk := 0, node } r) := by
  refine fun other hother => ⟨(t.get?_record _ _ r).trans (if_neg fun heq => ?_), rfl⟩
  cases heq
  exact hother hnode

theorem setTarget (hnode : B node) (target : Target) :
    t.SameOff B (t.setTarget { walk := 0, node } target) := by
  refine fun other hother => ⟨rfl, (getElem?_insert_visit t.targets _ _ target).trans
    (if_neg fun heq => ?_)⟩
  cases heq
  exact hother hnode

end TypeTable.SameOff

namespace Typing

variable {σ : Type} {ctx : TypingContext σ} {final : TypeTable} {callees : String → Prop}
  {K : ScalarTypes} {p : Pool} {s t u : TypingState σ} {node : NodeId} {names : List String}

/-! ## Where plain code stands -/

/-- The state in the body of a function on Integers and Booleans: the frame of the body is the only
one above that of the module, it binds variables of these types, and the functions that may be
called are offered with the signatures of the final table. -/
structure PlainSite (tree : SyntaxTree) (final : TypeTable) (callees : String → Prop)
    (K : ScalarTypes) (p : Pool) (s : TypingState σ) : Prop where
  pool : s.pool = p
  walk : s.walk = 0
  result : s.returnType = some K.result.id
  locals : ∃ frame, s.scopes.inner = [frame] ∧ frame.currentType = none ∧
    ∀ entry ∈ frame.names, ∃ τ : ScalarType, entry.2 = .value τ.id ∧ K.local? entry.1 = some τ
  base : s.scopes.base.DeclaresOnly
  callees : ∀ name, callees name → ∃ decl fn sig, tree.function? name = some decl ∧
    tree.scalarFunction? decl = some fn ∧ final.signature { walk := 0, node := decl } = .ok sig ∧
      fn.Takes sig ∧ s.exports.function? name = some sig

namespace PlainSite

variable {name : String} {r : TypeId} {τ : ScalarType} {tree : SyntaxTree}

theorem setTable (h : PlainSite tree final callees K p s) (table : TypeTable) :
    PlainSite tree final callees K p { s with table } :=
  { h with }

/-- One more local. -/
theorem bind (h : PlainSite tree final callees K p s) (hlocal : K.local? name = some τ) :
    PlainSite tree final callees K p { s with scopes := s.scopes.bind name (.value τ.id) } := by
  obtain ⟨frame, hinner, hcurrent, hnames⟩ := h.locals
  have hscopes : s.scopes.bind name (.value τ.id) =
      { s.scopes with inner := [frame.bind name (.value τ.id)] } := by
    rw [ScopeChain.bind, ScopeChain.modifyInnermost, hinner]
  rw [hscopes]
  exact { h with locals := ⟨_, rfl, hcurrent, List.forall_mem_cons.mpr ⟨⟨τ, rfl, hlocal⟩, hnames⟩⟩ }

/-- A variable in sight is a local. -/
theorem lookup_value (h : PlainSite tree final callees K p s)
    (hlookup : s.scopes.lookup name = some (.value r)) : ∃ τ : ScalarType, r = τ.id ∧
      K.local? name = some τ := by
  obtain ⟨frame, hinner, -, hnames⟩ := h.locals
  rw [ScopeChain.lookup, Option.or_eq_some_iff] at hlookup
  rcases hlookup with hfound | ⟨-, hbuiltin⟩
  · obtain ⟨f, hf, hentry⟩ := List.exists_of_findSome?_eq_some hfound
    have hmem := mem_of_lookup_eq_some hentry
    rw [ScopeChain.frames, hinner, List.mem_append, List.mem_singleton, List.mem_singleton] at hf
    rcases hf with rfl | rfl
    · obtain ⟨τ, hτ, hlocal⟩ := hnames _ hmem
      cases hτ
      exact ⟨τ, rfl, hlocal⟩
    · exact absurd rfl (h.base.names _ hmem r)
  · obtain ⟨t, -, heq⟩ := Option.map_eq_some_iff.1 hbuiltin
    cases heq

/-- Plain code is in the body of no type. -/
theorem currentType_eq (h : PlainSite tree final callees K p s) : s.scopes.currentType = none := by
  obtain ⟨frame, hinner, hcurrent, -⟩ := h.locals
  rw [ScopeChain.currentType, ScopeChain.frames, hinner]
  simp [hcurrent, h.base.currentType]

end PlainSite

/-- What is found out about a node of plain code that was typed with this result. -/
def PlainFound (tree : SyntaxTree) (final : TypeTable) (callees : String → Prop) (K : ScalarTypes)
    (p : Pool) (node : NodeId) (names : List String) (r : TypeId) : Prop :=
  final.get? { walk := 0, node } = some r ∧
    ∃ kind : Kind, kind.TypedAs p r ∧ ScalarCode tree final callees K node kind names

/-- Wherever plain code may stand, typing the node finds this out, if the final table agrees with
what was recorded below it. -/
def Reads (ctx : TypingContext σ) (final : TypeTable) (callees : String → Prop) (K : ScalarTypes)
    (p : Pool) (node : NodeId) (names : List String) : Prop :=
  ∀ fuel s r t, Accounted ctx (fun _ _ => True) s → PlainSite ctx.tree final callees K p s →
    inferWithin ctx fuel node s = .ok r t →
      t.table.SameOff (fun n => ¬ ctx.tree.Below node n) final →
        PlainSite ctx.tree final callees K p t ∧ PlainFound ctx.tree final callees K p node names r

/-- Typing a node records types and meanings below it only. -/
theorem inferWithin_writes (hshape : ctx.tree.TreeShaped) {known : σ → String → Prop} {fuel : Nat}
    {r : TypeId} (hs : Accounted ctx known s) (hrun : inferWithin ctx fuel node s = .ok r t) :
    Accounted ctx known t ∧ t.walk = s.walk ∧ s.table.SameOff (ctx.tree.Below node) t.table := by
  obtain ⟨ht, hle, -⟩ := (inferWithin_accounted (G := ctx.tree.Below node) hshape.nodup_statements
    fuel node s hs fun _ _ hn => hn).ok hrun
  exact ⟨ht, hle.walk, hle.elsewhere⟩

/-- Typing parts of a node records types and meanings below them only. -/
theorem mapM_writes (hshape : ctx.tree.TreeShaped) {known : σ → String → Prop} {fuel : Nat}
    {parts : List NodeId} {rs : List TypeId} (hs : Accounted ctx known s)
    (hrun : parts.mapM (inferWithin ctx fuel) s = .ok rs t) :
    Accounted ctx known t ∧ t.walk = s.walk ∧
      s.table.SameOff (fun n => ∃ part ∈ parts, ctx.tree.Below part n) t.table ∧
        s.pool.Evolves t.pool ∧ ∀ (v : Visit) sig, s.table.signatures[v]? = some sig →
          t.table.signatures[v]? = some sig := by
  have hkeeps := Discipline.mapM_keeps (P := fun _ _ _ => True)
    (D := accounting ctx known (fun n => ∃ part ∈ parts, ctx.tree.Below part n) fun _ => False)
    parts hs (fun _ _ _ _ _ _ _ _ _ => trivial)
    fun part hpart t ht _ => (inferWithin_accounted hshape.nodup_statements fuel part t ht
      fun _ _ hn => ⟨part, hpart, hn⟩).trivial
  obtain ⟨ht, hle, -⟩ := hkeeps.ok hrun
  exact ⟨ht, hle.walk, hle.elsewhere, hle.pool, hle.signatures⟩

/-- Parts of a node are typed one after the other. -/
theorem mapM_reads (hshape : ctx.tree.TreeShaped) {parts : List NodeId}
    {names : NodeId → List String} (hsub : parts ⊆ (ctx.tree.node node).children)
    (hnodup : parts.Nodup) (hparts : ∀ part ∈ parts, Reads ctx final callees K p part (names part))
    {fuel : Nat} {rs : List TypeId} (ha : Accounted ctx (fun _ _ => True) s)
    (hs : PlainSite ctx.tree final callees K p s)
    (hrun : parts.mapM (inferWithin ctx fuel) s = .ok rs t)
    (hfinal : ∀ part ∈ parts, t.table.SameOff (fun n => ¬ ctx.tree.Below part n) final) :
    PlainSite ctx.tree final callees K p t ∧
      (∀ part ∈ parts, ∃ r ∈ rs, PlainFound ctx.tree final callees K p part (names part) r) ∧
        parts.map (fun part => final.get? { walk := 0, node := part }) = rs.map some := by
  induction parts generalizing s rs with
  | nil =>
      cases hrun
      exact ⟨hs, List.forall_mem_nil _, rfl⟩
  | cons part parts ih =>
      rw [List.mapM_cons] at hrun
      obtain ⟨r, u, hpart, hrun⟩ := bind_eq_ok.mp hrun
      obtain ⟨rest, v, hrest, hpure⟩ := bind_eq_ok.mp hrun
      cases hpure
      rw [List.nodup_cons] at hnodup
      obtain ⟨hau, -, -⟩ := inferWithin_writes hshape ha hpart
      obtain ⟨-, -, hwrites, -⟩ := mapM_writes hshape hau hrest
      have hmem : part ∈ part :: parts := List.mem_cons_self
      -- what is typed later stands below other parts
      have hagrees : u.table.SameOff (fun n => ¬ ctx.tree.Below part n) final := by
        refine (hwrites.mono ?_).trans (hfinal part hmem)
        rintro n ⟨other, hother, hbelow⟩
        exact hshape.disjoint_children (hsub (List.mem_cons_of_mem part hother)) (hsub hmem)
          (fun heq => hnodup.1 (heq ▸ hother)) hbelow
      obtain ⟨hu, hfound⟩ := hparts part hmem fuel s r u ha hs hpart hagrees
      obtain ⟨ht, hfounds, hmap⟩ := ih (List.subset_of_cons_subset hsub) hnodup.2
        (fun other hother => hparts other (List.mem_cons_of_mem part hother)) hau hu hrest
        fun other hother => hfinal other (List.mem_cons_of_mem part hother)
      refine ⟨ht, List.forall_mem_cons.mpr
        ⟨⟨r, List.mem_cons_self, hfound⟩, fun other hother => ?_⟩, ?_⟩
      · obtain ⟨r', hr', hfound'⟩ := hfounds other hother
        exact ⟨r', List.mem_cons_of_mem r hr', hfound'⟩
      · rw [List.map_cons, List.map_cons, hfound.1, hmap]

/-! ## Steps of plain code -/

/-- Typing a node ends with recording its type. -/
theorem inferWithin_ok {fuel : Nat} {r : TypeId} (hrun : inferWithin ctx fuel node s = .ok r t) :
    ∃ fuel' u, inferNode ctx (inferWithin ctx fuel') node s = .ok r u ∧
      t = { u with table := u.table.record { walk := u.walk, node } r } := by
  cases fuel with
  | zero => cases hrun
  | succ fuel =>
      obtain ⟨r', u, hnode, hrun⟩ := bind_eq_ok.mp hrun
      obtain ⟨⟨⟩, v, hrecord, hpure⟩ := bind_eq_ok.mp hrun
      cases hrecord
      cases hpure
      exact ⟨fuel, u, hnode, rfl⟩

/-- What was recorded by the time that a node is left is what the final table has. -/
structure Stays (tree : SyntaxTree) (final : TypeTable) (node : NodeId) (r : TypeId)
    (u : TypingState σ) : Prop where
  walk : u.walk = 0
  type : final.get? { walk := 0, node } = some r
  target : final.targets[({ walk := 0, node } : Visit)]? =
    u.table.targets[({ walk := 0, node } : Visit)]?
  parts : ∀ part ∈ (tree.node node).children,
    u.table.SameOff (fun n => ¬ tree.Below part n) final

/-- It is enough to look at the step for the kind of the node. -/
theorem Reads.of_node (hshape : ctx.tree.TreeShaped)
    (h : ∀ fuel s r u, Accounted ctx (fun _ _ => True) s →
      PlainSite ctx.tree final callees K p s →
        inferNode ctx (inferWithin ctx fuel) node s = .ok r u → Stays ctx.tree final node r u →
          PlainSite ctx.tree final callees K p u ∧
            ∃ kind : Kind, kind.TypedAs p r ∧ ScalarCode ctx.tree final callees K node kind names) :
    Reads ctx final callees K p node names := by
  intro fuel s r t ha hs hrun hfinal
  have hwalk := (inferWithin_writes hshape ha hrun).2.1
  obtain ⟨fuel', u, hnode, rfl⟩ := inferWithin_ok hrun
  have hzero : u.walk = 0 := hwalk.trans hs.walk
  rw [hzero] at hfinal
  have hself := hfinal node (not_not.mpr .refl)
  have hstays : Stays ctx.tree final node r u := by
    refine ⟨hzero, hself.1.trans (TypeTable.get?_record_self _ _ _), hself.2, fun part hpart => ?_⟩
    -- the node itself stands above its parts
    refine (TypeTable.SameOff.record (fun hbelow => ?_) r).trans
      (hfinal.mono fun n hn hbelow => hn (.head hpart hbelow))
    exact absurd (hshape.le_of_below hbelow) (Nat.not_le_of_lt (hshape.child_lt hpart))
  obtain ⟨hu, hfound⟩ := h fuel' s r u ha hs hnode hstays
  exact ⟨hu.setTable _, hstays.type, hfound⟩

theorem hasScalar_of_get? {τ : ScalarType} (h : final.get? { walk := 0, node } = some τ.id) :
    final.HasScalar node τ := by
  rw [TypeTable.HasScalar, TypeTable.typeOf, h]

theorem get?_of_hasScalar {τ : ScalarType} (h : final.HasScalar node τ) :
    final.get? { walk := 0, node } = some τ.id := by
  unfold TypeTable.HasScalar TypeTable.typeOf at h
  split at h
  · next r hr => rw [hr, Except.ok.inj h]
  · cases h

theorem mapM_cons_ok {fuel : Nat} {part : NodeId} {parts : List NodeId} {r : TypeId}
    {rs : List TypeId} (hpart : inferWithin ctx fuel part s = .ok r u)
    (hparts : parts.mapM (inferWithin ctx fuel) u = .ok rs t) :
    (part :: parts).mapM (inferWithin ctx fuel) s = .ok (r :: rs) t := by
  rw [List.mapM_cons, bind_of_ok hpart, bind_of_ok hparts]
  rfl

/-- The type of an Integer or Boolean is read without looking at more than its name. -/
theorem typeExpr_scalar {type : NodeId} {r : TypeId} {τ : ScalarType}
    (htype : ctx.tree.scalarType? type = some τ) (hrun : typeExpr ctx type s = .ok r t) :
    t = { s with table := s.table.record { walk := s.walk, node := type } r } := by
  obtain ⟨name, hnode⟩ : ∃ name, ctx.tree.node type = .namedType name := by
    unfold SyntaxTree.scalarType? at htype
    split at htype
    · next name hnode => exact ⟨name, hnode⟩
    · cases htype
  unfold typeExpr at hrun
  cases hfuel : ctx.tree.walkBudget with
  | zero =>
      rw [hfuel] at hrun
      cases hrun
  | succ fuel =>
      rw [hfuel] at hrun
      simp only [typeExprWithin, hnode] at hrun
      obtain ⟨r', u, hname, hrun⟩ := bind_eq_ok.mp hrun
      obtain ⟨⟨⟩, v, hrecord, hpure⟩ := bind_eq_ok.mp hrun
      have hsame : u = s := by
        unfold namedType at hname
        rw [get_bind_apply] at hname
        cases hlookup : s.scopes.lookup name with
        | none =>
            simp only [hlookup] at hname
            split at hname <;> cases hname
        | some b =>
            simp only [hlookup] at hname
            cases b <;> cases hname
            rfl
      cases hrecord
      cases hpure
      rw [hsame]

/-! ## What ran -/

section Ran

variable {infer : NodeId → Typing σ TypeId} {r : TypeId}

theorem inferVar_ok {name : String} {declared : Option NodeId} {initial : NodeId}
    (hrun : inferVar ctx infer name declared initial s = .ok r u) :
    ∃ given v w, infer initial s = .ok given v ∧
      (declared = none ∧ r = given ∧ w = v ∨ ∃ type, declared = some type ∧
        typeExpr ctx type v = .ok r w ∧ w.pool.canConvert given r = true) ∧
      u = { w with scopes := w.scopes.bind name (.value r) } := by
  unfold inferVar at hrun
  obtain ⟨given, v, hgiven, hrun⟩ := bind_eq_ok.mp hrun
  rw [get_bind_apply] at hrun
  split at hrun
  · obtain ⟨_, _, hfail, -⟩ := bind_eq_ok.mp hrun
    cases hfail
  cases declared with
  | none =>
      cases hrun
      exact ⟨r, v, v, hgiven, .inl ⟨rfl, rfl, rfl⟩, rfl⟩
  | some type =>
      obtain ⟨wanted, w, hwanted, hrun⟩ := bind_eq_ok.mp hrun
      rw [get_bind_apply] at hrun
      dsimp only at hrun
      split at hrun
      · obtain ⟨_, _, hfail, -⟩ := bind_eq_ok.mp hrun
        cases hfail
      · next hconvert =>
          cases hrun
          exact ⟨given, v, w, hgiven, .inr ⟨type, rfl, hwanted, by simpa using hconvert⟩, rfl⟩

theorem inferAssign_ok {target value : NodeId} {name : String}
    (htarget : ctx.tree.node target = .ident name)
    (hrun : inferAssign ctx infer target value s = .ok r u) :
    ∃ v t, infer value s = .ok r v ∧ v.scopes.lookup name = some (.value t) ∧
      v.pool.sameType r t = true ∧ u = { v with
        table := (v.table.setTarget ⟨v.walk, target⟩ .localVar).record ⟨v.walk, target⟩ t } := by
  unfold inferAssign at hrun
  obtain ⟨given, v, hgiven, hrun⟩ := bind_eq_ok.mp hrun
  simp only [htarget] at hrun
  rw [get_bind_apply] at hrun
  cases hlookup : v.scopes.lookupValue name with
  | none =>
      simp only [hlookup] at hrun
      cases hrun
  | some t =>
      simp only [hlookup] at hrun
      rw [get_bind_apply] at hrun
      split at hrun
      · obtain ⟨_, _, hfail, -⟩ := bind_eq_ok.mp hrun
        cases hfail
      · next hsame =>
          cases hrun
          refine ⟨v, t, hgiven, ?_, by simpa using hsame, rfl⟩
          unfold ScopeChain.lookupValue at hlookup
          split at hlookup
          · next heq => rw [heq, Option.some.inj hlookup]
          · cases hlookup

theorem inferBinary_ok {op : BinaryOp} {lhs rhs : NodeId}
    (hrun : inferBinary infer op lhs rhs s = .ok r u) :
    ∃ l v r' w, infer lhs s = .ok l v ∧ infer rhs v = .ok r' w ∧ u.table = w.table ∧
      (w.pool.isUnresolved l = false → w.pool.isUnresolved r' = false →
        w.pool.operatorResult l op r' = .ok r ∧ u = w) := by
  unfold inferBinary at hrun
  obtain ⟨l, v, hl, hrun⟩ := bind_eq_ok.mp hrun
  obtain ⟨r', w, hr, hrun⟩ := bind_eq_ok.mp hrun
  rw [get_bind_apply] at hrun
  refine ⟨l, v, r', w, hl, hr, ?_⟩
  split at hrun
  · next hopen =>
      cases hrun
      exact ⟨rfl, fun hclosed => by simp [hclosed] at hopen⟩
  split at hrun
  · next hopen =>
      cases hrun
      exact ⟨rfl, fun _ hclosed => by simp [hclosed] at hopen⟩
  cases hresult : w.pool.operatorResult l op r' with
  | error e =>
      rw [hresult] at hrun
      cases hrun
  | ok t =>
      rw [hresult] at hrun
      cases hrun
      exact ⟨rfl, fun _ _ => ⟨rfl, rfl⟩⟩

theorem inferNot_ok {operand : NodeId} (hrun : inferUnary infer .not operand s = .ok r u) :
    ∃ t, infer operand s = .ok t u ∧ u.pool.resolve t = .boolean ∧ r = .boolean := by
  unfold inferUnary at hrun
  obtain ⟨t, v, ht, hrun⟩ := bind_eq_ok.mp hrun
  rw [get_bind_apply] at hrun
  dsimp only at hrun
  split at hrun
  · next hboolean =>
      cases hrun
      exact ⟨t, ht, hboolean, rfl⟩
  · cases hrun

theorem inferCondition_ok {cond : NodeId} (hrun : inferCondition infer cond s = .ok ⟨⟩ u) :
    ∃ t, infer cond s = .ok t u ∧ ∃ τ : ScalarType, u.pool.resolve t = τ.id := by
  unfold inferCondition at hrun
  obtain ⟨t, v, ht, hrun⟩ := bind_eq_ok.mp hrun
  rw [get_bind_apply] at hrun
  split at hrun
  · cases hrun
  · next hresolved =>
      cases hrun
      by_cases hboolean : u.pool.resolve t = .boolean
      · exact ⟨t, ht, .boolean, hboolean⟩
      · exact ⟨t, ht, .integer, not_not.mp fun hinteger => hresolved ⟨hboolean, hinteger⟩⟩

theorem inferReturn_ok {value : NodeId} {expected : TypeId}
    (hexpected : s.returnType = some expected)
    (hrun : inferReturn infer (some value) s = .ok r u) :
    ∃ t, infer value s = .ok t u ∧ u.pool.canConvert t expected = true ∧ r = .void := by
  unfold inferReturn at hrun
  rw [get_bind_apply] at hrun
  simp only [hexpected] at hrun
  obtain ⟨t, v, ht, hrun⟩ := bind_eq_ok.mp hrun
  split at hrun
  · obtain ⟨_, _, hfail, -⟩ := bind_eq_ok.mp hrun
    cases hfail
  rw [get_bind_apply] at hrun
  split at hrun
  · obtain ⟨_, _, hfail, -⟩ := bind_eq_ok.mp hrun
    cases hfail
  · next hconvert =>
      cases hrun
      exact ⟨t, ht, by simpa using hconvert, rfl⟩

/-- The type of a sequence is that of its last statement. -/
theorem foldlM_ok {step : NodeId → Typing σ TypeId} {statements : List NodeId} {first : TypeId}
    (hrun : statements.foldlM (fun _ statement => step statement) first s = .ok r u) :
    ∃ rs, statements.mapM step s = .ok rs u ∧ r = rs.getLast?.getD first := by
  induction statements generalizing s first with
  | nil =>
      cases hrun
      exact ⟨[], rfl, rfl⟩
  | cons statement statements ih =>
      rw [List.foldlM_cons] at hrun
      obtain ⟨r', v, hstatement, hrun⟩ := bind_eq_ok.mp hrun
      obtain ⟨rs, hrs, rfl⟩ := ih hrun
      refine ⟨r' :: rs, ?_, by rw [List.getLast?_cons]; rfl⟩
      rw [List.mapM_cons, bind_of_ok hstatement, bind_of_ok hrs]
      rfl

theorem mapM_labelled_ok {step : NodeId → Typing σ TypeId} {label : NodeId → Option String}
    {args : List NodeId} {typed : List (Option String × TypeId)}
    (hrun : (args.mapM fun arg => do return (label arg, ← step arg)) s = .ok typed u) :
    args.mapM step s = .ok (typed.map (·.2)) u := by
  induction args generalizing s typed with
  | nil =>
      cases hrun
      rfl
  | cons arg args ih =>
      rw [List.mapM_cons] at hrun
      obtain ⟨entry, v, harg, hrun⟩ := bind_eq_ok.mp hrun
      obtain ⟨r', w, hstep, hpure⟩ := bind_eq_ok.mp harg
      cases hpure
      obtain ⟨rest, x, hrest, hpure⟩ := bind_eq_ok.mp hrun
      cases hpure
      rw [List.mapM_cons, bind_of_ok hstep, bind_of_ok (ih hrest)]
      rfl

theorem forM_check_ok {α : Type} {xs : List α} {check : α → Typing σ Unit} {P : α → Prop}
    (hcheck : ∀ x ∈ xs, ∀ u, check x s = .ok ⟨⟩ u → u = s ∧ P x)
    (hrun : xs.forM check s = .ok ⟨⟩ u) : u = s ∧ ∀ x ∈ xs, P x := by
  induction xs with
  | nil =>
      cases hrun
      exact ⟨rfl, List.forall_mem_nil _⟩
  | cons x xs ih =>
      obtain ⟨⟨⟩, v, hx, hrest⟩ := bind_eq_ok.mp
        (show (check x >>= fun _ => xs.forM check) s = .ok ⟨⟩ u from hrun)
      obtain ⟨rfl, hhere⟩ := hcheck x List.mem_cons_self v hx
      obtain ⟨rfl, hothers⟩ := ih (fun y hy => hcheck y (List.mem_cons_of_mem x hy)) hrest
      exact ⟨rfl, List.forall_mem_cons.mpr ⟨hhere, hothers⟩⟩

theorem closureParams?_id {p : Pool} (hp : p.HasScalars) (τ : ScalarType) :
    closureParams? p τ.id = none := by
  unfold closureParams?
  rw [hp.view_id]
  cases τ <;> rfl

/-- Where no lambda is expected, nothing is unified. -/
theorem unifyClosureParams_eq {given wanted : TypeId} (h : closureParams? s.pool wanted = none) :
    unifyClosureParams given wanted s = .ok ⟨⟩ s := by
  unfold unifyClosureParams
  rw [get_bind_apply]
  dsimp only
  rw [h]
  cases closureParams? s.pool given <;> rfl

/-- Arguments of functions on Integers and Booleans are values that become these. -/
theorem checkArguments_ok {sig : Signature} {args : List NodeId} (hvarargs : sig.varargs = false)
    (hparams : ∀ param ∈ sig.params, ∃ τ : ScalarType, param.type = τ.id)
    (hscalars : ∀ rs v, args.mapM infer s = .ok rs v → v.pool.HasScalars)
    (hrun : checkArguments ctx infer sig args s = .ok ⟨⟩ u) :
    ∃ rs, args.mapM infer s = .ok rs u ∧
      ∀ r ∈ rs, ∃ τ : ScalarType, u.pool.canConvert r τ.id = true := by
  unfold checkArguments at hrun
  obtain ⟨typed, v, htyped, hrun⟩ := bind_eq_ok.mp hrun
  have hrs := mapM_labelled_ok htyped
  obtain ⟨ordered, w, hordered, hrun⟩ := bind_eq_ok.mp hrun
  cases horder : orderArguments sig typed with
  | error e =>
      rw [horder] at hordered
      cases hordered
  | ok _ =>
      rw [horder] at hordered
      cases hordered
      obtain ⟨⟨⟩, x, hfixed, hextra⟩ := bind_eq_ok.mp hrun
      have hnone := ScalarFunction.extra_eq_nil horder hvarargs
      rw [hnone] at hextra
      cases hextra
      obtain ⟨hlength, hperm⟩ := orderArguments_places horder
      rw [hnone, List.append_nil] at hperm
      have hp := hscalars _ v hrs
      obtain ⟨rfl, hconverts⟩ := forM_check_ok
        (P := fun entry => v.pool.canConvert entry.1.1 entry.1.2.type = true)
        (fun entry hentry u hu => by
          obtain ⟨⟨given, param⟩, i⟩ := entry
          obtain ⟨τ, hτ⟩ := hparams param (List.of_mem_zip (List.fst_mem_of_mem_zipIdx hentry)).2
          have hopen : closureParams? v.pool param.type = none := by rw [hτ, closureParams?_id hp]
          simp only [bind_of_ok (unifyClosureParams_eq hopen)] at hu
          rw [get_bind_apply] at hu
          split at hu
          · cases hu
          · next hconvert =>
              cases hu
              exact ⟨rfl, by simpa using hconvert⟩) hfixed
      refine ⟨_, hrs, fun r hr => ?_⟩
      obtain ⟨i, hi, rfl⟩ := List.mem_iff_getElem.mp (hperm.mem_iff.mpr hr)
      have hparam : i < sig.params.length := hlength ▸ hi
      obtain ⟨τ, hτ⟩ := hparams _ (List.getElem_mem hparam)
      exact ⟨τ, hτ ▸ hconverts ((_, _), i) (List.mem_zipIdx_iff_getElem?.mpr
        (List.getElem?_zip_eq_some.mpr
          ⟨List.getElem?_eq_getElem hi, List.getElem?_eq_getElem hparam⟩))⟩

/-- A bare call of a function that is offered, where its name is that of no variable. -/
theorem inferBareCall_ok {name : String} {args : List NodeId} {sig : Signature}
    (hp : s.pool.HasScalars)
    (hvalue : ∀ t, s.scopes.lookup name = some (.value t) → ∃ τ : ScalarType, t = τ.id)
    (hcurrent : s.scopes.currentType = none) (hexports : s.exports.function? name = some sig)
    (hrun : inferBareCall ctx infer node name args s = .ok r u) :
    ∃ v, checkArguments ctx infer sig args s = .ok ⟨⟩ v ∧ r = sig.result ∧
      u = { v with table := v.table.setTarget { walk := v.walk, node } (.function sig) } := by
  unfold inferBareCall at hrun
  rw [get_bind_apply] at hrun
  have hoffered (hrun : (checkArguments ctx infer sig args >>= fun _ =>
      setTarget node (.function sig) >>= fun _ => pure sig.result) s = .ok r u) :
      ∃ v, checkArguments ctx infer sig args s = .ok ⟨⟩ v ∧ r = sig.result ∧
        u = { v with table := v.table.setTarget { walk := v.walk, node } (.function sig) } := by
    obtain ⟨⟨⟩, v, hcheck, hrun⟩ := bind_eq_ok.mp hrun
    obtain ⟨⟨⟩, w, htarget, hpure⟩ := bind_eq_ok.mp hrun
    cases htarget
    cases hpure
    exact ⟨v, hcheck, rfl, rfl⟩
  cases hlookup : s.scopes.lookup name with
  | none => exact hoffered (by simpa only [hlookup, hcurrent, Option.bind_none, hexports] using hrun)
  | some b =>
      cases b with
      | value t =>
          obtain ⟨τ, rfl⟩ := hvalue t hlookup
          simp only [hlookup, hp.view_id] at hrun
          cases τ <;> cases hrun
      | _ => exact hoffered (by simpa only [hlookup, hcurrent, Option.bind_none, hexports] using hrun)

end Ran

section Steps

variable (hshape : ctx.tree.TreeShaped) (hp : p.HasBasics)

include hshape

theorem Reads.number {n : Int} (h : ctx.tree.node node = .number n) :
    Reads ctx final callees K p node [] := by
  refine .of_node hshape fun fuel s r u ha hs hrun hstays => ?_
  simp only [inferNode, h] at hrun
  cases hrun
  exact ⟨hs, .scalar .integer, rfl, .number h (hasScalar_of_get? hstays.type)⟩

theorem Reads.bool {b : Bool} (h : ctx.tree.node node = .bool b) :
    Reads ctx final callees K p node [] := by
  refine .of_node hshape fun fuel s r u ha hs hrun hstays => ?_
  simp only [inferNode, h] at hrun
  cases hrun
  exact ⟨hs, .scalar .boolean, rfl, .bool h (hasScalar_of_get? hstays.type)⟩

omit hshape in
theorem target_of_setTarget {table : TypeTable} {walk : InstanceId} {target : Target}
    (hwalk : walk = 0) (h : final.targets[({ walk := 0, node } : Visit)]? =
      (table.setTarget { walk, node } target).targets[({ walk := 0, node } : Visit)]?) :
    final.target { walk := 0, node } = .ok target := by
  subst hwalk
  rw [TypeTable.setTarget, getElem?_insert_visit, if_pos rfl] at h
  rw [TypeTable.target, h]

include hp

/-- A name is that of a local or of a case without fields. -/
theorem Reads.ident {name : String} (h : ctx.tree.node node = .ident name) :
    Reads ctx final callees K p node [] := by
  refine .of_node hshape fun fuel s r u ha hs hrun hstays => ?_
  simp only [inferNode, h] at hrun
  unfold inferIdent at hrun
  rw [get_bind_apply] at hrun
  cases hlookup : s.scopes.lookup name with
  | none =>
      simp only [hlookup] at hrun
      cases hrun
  | some b =>
      simp only [hlookup] at hrun
      cases b with
      | value t =>
          obtain ⟨τ, rfl, hlocal⟩ := hs.lookup_value hlookup
          cases hrun
          exact ⟨hs.setTable _, .scalar τ, rfl, .readLocal h
            (target_of_setTarget hs.walk hstays.target) hlocal (hasScalar_of_get? hstays.type)⟩
      | type t =>
          cases hview : s.pool.view t with
          | variant link short tag owner fields =>
              simp only [hview] at hrun
              cases fields with
              | nil =>
                  cases hrun
                  refine ⟨hs.setTable _, .constant, ?_,
                    .constant h (target_of_setTarget hs.walk hstays.target)⟩
                  rw [hs.pool] at hview
                  have hplace : (p.data (p.resolve t)).place? = some (tag, r) := by
                    rw [← Pool.view, hview]
                    rfl
                  obtain ⟨cases, howner, -⟩ := hp.linked.owned hplace
                  unfold TypeData.cases? at howner
                  split at howner
                  · next hdata => exact ⟨_, _, _, hdata⟩
                  · cases howner
              | cons => cases hrun
          | _ =>
              simp only [hview] at hrun
              cases hrun
      | genericCase => cases hrun
      | module => cases hrun

/-- A local of the type that was recorded. -/
theorem Reads.var {initial : NodeId} {name : String} {declared : Option NodeId} {τ : ScalarType}
    (h : ctx.tree.node node = .var name declared initial) (htype : final.HasScalar node τ)
    (hdeclared : ∀ type ∈ declared, ctx.tree.scalarType? type = some τ)
    (hlocal : K.local? name = some τ) (hinitial : Reads ctx final callees K p initial names) :
    Reads ctx final callees K p node (names ++ [name]) := by
  refine .of_node hshape fun fuel s r u ha hs hrun hstays => ?_
  simp only [inferNode, h] at hrun
  obtain ⟨given, v, w, hgiven, hwanted, rfl⟩ := inferVar_ok hrun
  obtain rfl : r = τ.id := Option.some.inj (hstays.type.symm.trans (get?_of_hasScalar htype))
  have hmem : initial ∈ (ctx.tree.node node).children := by simp [h, Node.children]
  have hwalk := (inferWithin_writes hshape ha hgiven).2.1.trans hs.walk
  rcases hwanted with ⟨rfl, rfl, rfl⟩ | ⟨type, rfl, hexpr, hconvert⟩
  · obtain ⟨hw, -, kind, hkind, hcode⟩ := hinitial fuel s _ w ha hs hgiven (hstays.parts _ hmem)
    obtain rfl := hkind.eq_scalar hp
    exact ⟨hw.bind hlocal, .scalar τ, rfl, .var h hcode hdeclared (fun _ => rfl) hlocal htype⟩
  · -- only the type expression is written after the initial value
    obtain rfl := typeExpr_scalar (hdeclared type rfl) hexpr
    have hchild : type ∈ (ctx.tree.node node).children := by simp [h, Node.children]
    have hne : initial ≠ type := by
      have hnodup := hshape.nodup node (SyntaxTree.lt_size_of_mem_children hmem)
      simp only [h, Node.children, Option.toList_some, List.singleton_append, List.nodup_cons,
        List.mem_singleton] at hnodup
      exact fun heq => hnodup.1 heq.symm
    have hagrees : v.table.SameOff (fun n => ¬ ctx.tree.Below initial n) final := by
      refine .trans ?_ (hstays.parts initial hmem)
      rw [hwalk]
      exact .record (fun hbelow => hshape.disjoint_children hmem hchild hne hbelow .refl) _
    obtain ⟨hv, -, kind, hkind, hcode⟩ := hinitial fuel s _ v ha hs hgiven hagrees
    obtain ⟨σ, rfl, -⟩ := hkind.of_canConvert hp (hv.pool ▸ hconvert)
    exact ⟨(hv.setTable _).bind hlocal, .scalar τ, rfl,
      .var h hcode hdeclared (by simp) hlocal htype⟩

/-- A value of the type of a local is assigned to it. -/
theorem Reads.assign {target value : NodeId} {name : String}
    (h : ctx.tree.node node = .assign target value) (htarget : ctx.tree.node target = .ident name)
    (hvalue : Reads ctx final callees K p value names) :
    Reads ctx final callees K p node names := by
  refine .of_node hshape fun fuel s r u ha hs hrun hstays => ?_
  simp only [inferNode, h] at hrun
  obtain ⟨v, t, hgiven, hlookup, hsame, rfl⟩ := inferAssign_ok htarget hrun
  have hmem : value ∈ (ctx.tree.node node).children := by simp [h, Node.children]
  have hchild : target ∈ (ctx.tree.node node).children := by simp [h, Node.children]
  have hwalk := (inferWithin_writes hshape ha hgiven).2.1.trans hs.walk
  have hne : value ≠ target := by
    have hnodup := hshape.nodup node (SyntaxTree.lt_size_of_mem_children hmem)
    simp only [h, Node.children, List.nodup_cons, List.mem_singleton] at hnodup
    exact fun heq => hnodup.1 heq.symm
  have hagrees : v.table.SameOff (fun n => ¬ ctx.tree.Below value n) final := by
    have hnot : ¬ ctx.tree.Below value target := fun hbelow =>
      hshape.disjoint_children hmem hchild hne hbelow .refl
    refine .trans ?_ (hstays.parts value hmem)
    rw [hwalk]
    exact (TypeTable.SameOff.setTarget hnot _).trans (.record hnot _)
  obtain ⟨hv, -, kind, hkind, hcode⟩ := hvalue fuel s r v ha hs hgiven hagrees
  obtain ⟨τ, rfl, hlocal⟩ := hv.lookup_value hlookup
  obtain rfl : r = τ.id := by
    rw [hv.pool, hp.sameType_id_iff, hkind.resolve_eq hp] at hsame
    exact hsame
  obtain rfl := hkind.eq_scalar hp
  have hwanted := (hstays.parts target hchild target (not_not.mpr .refl)).1
  rw [hwalk, TypeTable.get?_record_self] at hwanted
  exact ⟨hv.setTable _, .scalar τ, rfl, .assign h htarget hcode hlocal
    (hasScalar_of_get? hwanted) (hasScalar_of_get? hstays.type)⟩

omit hp in
/-- A part of a node that is typed before other parts. -/
theorem reads_before {a : NodeId} {parts : List NodeId} {fuel : Nat} {r : TypeId}
    (hchildren : (ctx.tree.node node).children = a :: parts)
    (hreads : Reads ctx final callees K p a names) (ha : Accounted ctx (fun _ _ => True) s)
    (hs : PlainSite ctx.tree final callees K p s) (hrun : inferWithin ctx fuel a s = .ok r t)
    (hwrites : t.table.SameOff (fun n => ∃ part ∈ parts, ctx.tree.Below part n) u.table)
    (hfinal : ∀ part ∈ (ctx.tree.node node).children,
      u.table.SameOff (fun n => ¬ ctx.tree.Below part n) final) :
    PlainSite ctx.tree final callees K p t ∧ PlainFound ctx.tree final callees K p a names r := by
  have hmem : a ∈ (ctx.tree.node node).children := by simp [hchildren]
  have hnodup := hshape.nodup node (SyntaxTree.lt_size_of_mem_children hmem)
  rw [hchildren, List.nodup_cons] at hnodup
  refine hreads fuel s r t ha hs hrun ((hwrites.mono ?_).trans (hfinal a hmem))
  rintro n ⟨part, hpart, hbelow⟩
  exact hshape.disjoint_children (by simp [hchildren, hpart]) hmem
    (fun heq => hnodup.1 (heq ▸ hpart)) hbelow

theorem Reads.binary {op : BinaryOp} {lhs rhs : NodeId} {names' : List String}
    (h : ctx.tree.node node = .binary op lhs rhs) (hlhs : Reads ctx final callees K p lhs names)
    (hrhs : Reads ctx final callees K p rhs names') :
    Reads ctx final callees K p node (names ++ names') := by
  have hchildren : (ctx.tree.node node).children = [lhs, rhs] := by rw [h, Node.children]
  refine .of_node hshape fun fuel s r u ha hs hrun hstays => ?_
  simp only [inferNode, h] at hrun
  obtain ⟨l, v, r', w, hl, hr, htable, hresult⟩ := inferBinary_ok hrun
  have hparts := hstays.parts
  rw [htable] at hparts
  obtain ⟨hav, -, -⟩ := inferWithin_writes hshape ha hl
  obtain ⟨-, -, hwrites⟩ := inferWithin_writes hshape hav hr
  obtain ⟨hv, -, kind, hkind, hcode⟩ := reads_before hshape hchildren hlhs ha hs hl
    (hwrites.mono fun n hn => ⟨rhs, by simp, hn⟩) hparts
  obtain ⟨hw, -, kind', hkind', hcode'⟩ := hrhs fuel v r' w hav hv hr
    (hparts rhs (by simp [hchildren]))
  rw [hw.pool] at hresult
  obtain ⟨hop, rfl⟩ := hresult (hkind.isUnresolved_eq hp) (hkind'.isUnresolved_eq hp)
  obtain ⟨σ, ρ, τ, rfl, rfl, hτ, rfl⟩ := hkind.of_operatorResult hkind' hp hop
  exact ⟨hw, .scalar τ, rfl, .binary h hcode hcode' hτ (hasScalar_of_get? hstays.type)⟩

theorem Reads.not {operand : NodeId} (h : ctx.tree.node node = .unary .not operand)
    (hoperand : Reads ctx final callees K p operand names) :
    Reads ctx final callees K p node names := by
  refine .of_node hshape fun fuel s r u ha hs hrun hstays => ?_
  simp only [inferNode, h] at hrun
  obtain ⟨t, ht, hboolean, rfl⟩ := inferNot_ok hrun
  obtain ⟨hu, -, kind, hkind, hcode⟩ := hoperand fuel s t u ha hs ht
    (hstays.parts operand (by simp [h, Node.children]))
  obtain rfl : t = ScalarType.boolean.id := by
    rw [hu.pool, hkind.resolve_eq hp] at hboolean
    exact hboolean
  obtain rfl := hkind.eq_scalar hp
  exact ⟨hu, .scalar .boolean, rfl, .not h hcode (hasScalar_of_get? hstays.type)⟩

omit hp in
theorem Reads.namedArg {value : NodeId} {name : String}
    (h : ctx.tree.node node = .namedArg name value)
    (hvalue : Reads ctx final callees K p value names) :
    Reads ctx final callees K p node names := by
  refine .of_node hshape fun fuel s r u ha hs hrun hstays => ?_
  simp only [inferNode, h] at hrun
  obtain ⟨hu, -, kind, hkind, hcode⟩ := hvalue fuel s r u ha hs hrun
    (hstays.parts value (by simp [h, Node.children]))
  refine ⟨hu, kind, hkind, .namedArg h hcode ?_⟩
  rintro τ rfl
  exact hasScalar_of_get? ((show r = τ.id from hkind) ▸ hstays.type)

theorem Reads.ret {value : NodeId} (h : ctx.tree.node node = .ret (some value))
    (hvalue : Reads ctx final callees K p value names) :
    Reads ctx final callees K p node names := by
  refine .of_node hshape fun fuel s r u ha hs hrun hstays => ?_
  simp only [inferNode, h] at hrun
  obtain ⟨t, ht, hconvert, rfl⟩ := inferReturn_ok hs.result hrun
  obtain ⟨hu, -, kind, hkind, hcode⟩ := hvalue fuel s t u ha hs ht
    (hstays.parts value (by simp [h, Node.children]))
  obtain ⟨σ, rfl, haccepts⟩ := hkind.of_canConvert hp (hu.pool ▸ hconvert)
  exact ⟨hu, .nothing, rfl, .ret h hcode haccepts⟩

omit hp in
/-- The statements of a sequence; its value is that of the last one. -/
theorem Reads.seq {statements : List NodeId} {names : NodeId → List String}
    (h : ctx.tree.node node = .seq statements)
    (hstatements : ∀ s ∈ statements, Reads ctx final callees K p s (names s)) :
    Reads ctx final callees K p node (statements.flatMap names) := by
  have hchildren : (ctx.tree.node node).children = statements := by rw [h, Node.children]
  refine .of_node hshape fun fuel s r u ha hs hrun hstays => ?_
  simp only [inferNode, h] at hrun
  obtain ⟨rs, hrs, rfl⟩ := foldlM_ok hrun
  have hnodup : statements.Nodup := by
    simpa [SyntaxTree.statements, h] using hshape.nodup_statements node
  obtain ⟨hu, hfound, hmap⟩ := mapM_reads hshape (fun part hpart => hchildren ▸ hpart) hnodup
    hstatements ha hs hrs fun part hpart => hstays.parts part (hchildren ▸ hpart)
  have : Nonempty Kind := ⟨.nothing⟩
  choose! types _ hget kinds hkinds hcode using hfound
  -- the value of the sequence is that of the last statement
  have hlast : (statements.getLast?.elim .nothing kinds).TypedAs p (rs.getLast?.getD .void) := by
    have hlasts := congrArg List.getLast? hmap
    rw [List.getLast?_map, List.getLast?_map] at hlasts
    cases hlast : statements.getLast? with
    | none =>
        rw [hlast] at hlasts
        rw [Option.map_eq_none_iff.mp hlasts.symm]
        rfl
    | some last =>
        have hmem : last ∈ statements := List.mem_of_getLast? hlast
        rw [hlast, Option.map_some, hget last hmem] at hlasts
        obtain ⟨r, hr, heq⟩ := Option.map_eq_some_iff.mp hlasts.symm
        rw [hr, Option.getD_some, Option.some.inj heq]
        exact hkinds last hmem
  refine ⟨hu, _, hlast, .seq h hcode fun last τ heq hkind => hasScalar_of_get? ?_⟩
  rw [heq, Option.elim_some, hkind] at hlast
  rw [hstays.type, show rs.getLast?.getD .void = τ.id from hlast]

/-- The condition of a branch or loop. -/
theorem reads_condition {cond : NodeId} {parts : List NodeId} {fuel : Nat}
    (hchildren : (ctx.tree.node node).children = cond :: parts)
    (hreads : Reads ctx final callees K p cond names) (ha : Accounted ctx (fun _ _ => True) s)
    (hs : PlainSite ctx.tree final callees K p s)
    (hrun : inferCondition (inferWithin ctx fuel) cond s = .ok ⟨⟩ t)
    (hwrites : t.table.SameOff (fun n => ∃ part ∈ parts, ctx.tree.Below part n) u.table)
    (hfinal : ∀ part ∈ (ctx.tree.node node).children,
      u.table.SameOff (fun n => ¬ ctx.tree.Below part n) final) :
    PlainSite ctx.tree final callees K p t ∧
      ∃ τ, ScalarCode ctx.tree final callees K cond (.scalar τ) names := by
  obtain ⟨r, hr, τ, hτ⟩ := inferCondition_ok hrun
  obtain ⟨ht, -, kind, hkind, hcode⟩ := reads_before hshape hchildren hreads ha hs hr hwrites hfinal
  rw [ht.pool, hkind.resolve_eq hp] at hτ
  subst hτ
  obtain rfl := hkind.eq_scalar hp
  exact ⟨ht, τ, hcode⟩

theorem Reads.branchOnly {cond yes : NodeId} {names₁ : List String}
    (h : ctx.tree.node node = .branch cond yes none)
    (hcond : Reads ctx final callees K p cond names)
    (hyes : Reads ctx final callees K p yes names₁) :
    Reads ctx final callees K p node (names ++ names₁) := by
  have hchildren : (ctx.tree.node node).children = [cond, yes] := by
    rw [h, Node.children, Option.toList_none]
  refine .of_node hshape fun fuel s r u ha hs hrun hstays => ?_
  simp only [inferNode, h] at hrun
  obtain ⟨⟨⟩, v, hc, hrun⟩ := bind_eq_ok.mp hrun
  obtain ⟨r', w, hy, hrun⟩ := bind_eq_ok.mp hrun
  cases hrun
  obtain ⟨t, ht, -⟩ := inferCondition_ok hc
  obtain ⟨hav, -, -⟩ := inferWithin_writes hshape ha ht
  obtain ⟨-, -, hwrites⟩ := inferWithin_writes hshape hav hy
  obtain ⟨hv, τ, hcode⟩ := reads_condition hshape hp hchildren hcond ha hs hc
    (hwrites.mono fun n hn => ⟨yes, by simp, hn⟩) hstays.parts
  obtain ⟨hu, -, kind, -, hcode'⟩ := hyes fuel v r' u hav hv hy
    (hstays.parts yes (by simp [hchildren]))
  exact ⟨hu, .nothing, rfl, .branchOnly h hcode hcode'⟩

theorem Reads.branchElse {cond yes no : NodeId} {names₁ names₂ : List String}
    (h : ctx.tree.node node = .branch cond yes (some no))
    (hcond : Reads ctx final callees K p cond names)
    (hyes : Reads ctx final callees K p yes names₁)
    (hno : Reads ctx final callees K p no names₂) :
    Reads ctx final callees K p node (names ++ names₁ ++ names₂) := by
  have hchildren : (ctx.tree.node node).children = [cond, yes, no] := by
    rw [h, Node.children, Option.toList_some]
  refine .of_node hshape fun fuel s r u ha hs hrun hstays => ?_
  simp only [inferNode, h] at hrun
  obtain ⟨⟨⟩, v, hc, hrun⟩ := bind_eq_ok.mp hrun
  obtain ⟨r', w, hy, hrun⟩ := bind_eq_ok.mp hrun
  obtain ⟨⟨⟩, x, hrest, hpure⟩ := bind_eq_ok.mp hrun
  cases hpure
  obtain ⟨r'', x, hn, hpure⟩ := bind_eq_ok.mp hrest
  cases hpure
  obtain ⟨t, ht, -⟩ := inferCondition_ok hc
  obtain ⟨hav, -, -⟩ := inferWithin_writes hshape ha ht
  obtain ⟨haw, -, hwrites⟩ := inferWithin_writes hshape hav hy
  obtain ⟨-, -, hwrites'⟩ := inferWithin_writes hshape haw hn
  obtain ⟨hv, τ, hcode⟩ := reads_condition hshape hp hchildren hcond ha hs hc
    ((hwrites.mono fun n hn => ⟨yes, by simp, hn⟩).trans
      (hwrites'.mono fun n hn => ⟨no, by simp, hn⟩)) hstays.parts
  have hnodup := hshape.nodup node (SyntaxTree.lt_size_of_mem_children
    (show cond ∈ (ctx.tree.node node).children by simp [hchildren]))
  rw [hchildren] at hnodup
  obtain ⟨hw, -, kind, -, hcode₁⟩ := hyes fuel v r' w hav hv hy
    ((hwrites'.mono fun n hn => hshape.disjoint_children
      (show no ∈ (ctx.tree.node node).children by simp [hchildren])
      (show yes ∈ (ctx.tree.node node).children by simp [hchildren])
      (fun heq => by simp [heq] at hnodup) hn).trans (hstays.parts yes (by simp [hchildren])))
  obtain ⟨hx, -, kind', -, hcode₂⟩ := hno fuel w r'' u haw hw hn
    (hstays.parts no (by simp [hchildren]))
  exact ⟨hx, .nothing, rfl, .branchElse h hcode hcode₁ hcode₂⟩

theorem Reads.loop {cond body : NodeId} {names₁ : List String}
    (h : ctx.tree.node node = .loop cond body) (hcond : Reads ctx final callees K p cond names)
    (hbody : Reads ctx final callees K p body names₁) :
    Reads ctx final callees K p node (names ++ names₁) := by
  have hchildren : (ctx.tree.node node).children = [cond, body] := by rw [h, Node.children]
  refine .of_node hshape fun fuel s r u ha hs hrun hstays => ?_
  simp only [inferNode, h] at hrun
  obtain ⟨⟨⟩, v, hc, hrun⟩ := bind_eq_ok.mp hrun
  obtain ⟨r', w, hb, hrun⟩ := bind_eq_ok.mp hrun
  cases hrun
  obtain ⟨t, ht, -⟩ := inferCondition_ok hc
  obtain ⟨hav, -, -⟩ := inferWithin_writes hshape ha ht
  obtain ⟨-, -, hwrites⟩ := inferWithin_writes hshape hav hb
  obtain ⟨hv, τ, hcode⟩ := reads_condition hshape hp hchildren hcond ha hs hc
    (hwrites.mono fun n hn => ⟨body, by simp, hn⟩) hstays.parts
  obtain ⟨hu, -, kind, -, hcode'⟩ := hbody fuel v r' u hav hv hb
    (hstays.parts body (by simp [hchildren]))
  exact ⟨hu, .nothing, rfl, .loop h hcode hcode'⟩

/-- A call of one of the functions, with values for arguments. -/
theorem Reads.call {name : String} {args : List NodeId} {names : NodeId → List String}
    (h : ctx.tree.node node = .call none name args) (hcallee : callees name)
    (hargs : ∀ arg ∈ args, Reads ctx final callees K p arg (names arg)) :
    Reads ctx final callees K p node (args.flatMap names) := by
  have hchildren : (ctx.tree.node node).children = args := by
    rw [h, Node.children, Option.toList_none, List.nil_append]
  have hnodup : args.Nodup := by
    cases args with
    | nil => exact .nil
    | cons arg rest =>
        have hmem : arg ∈ (ctx.tree.node node).children := by simp [hchildren]
        exact hchildren ▸ hshape.nodup node (SyntaxTree.lt_size_of_mem_children hmem)
  refine .of_node hshape fun fuel s r u ha hs hrun hstays => ?_
  simp only [inferNode, h] at hrun
  have hscalars : s.pool.HasScalars := hs.pool ▸ hp.toHasScalars
  obtain ⟨decl, fn, sig, hdecl, hfn, hsig, htakes, hexports⟩ := hs.callees name hcallee
  obtain ⟨v, hcheck, rfl, rfl⟩ := inferBareCall_ok hscalars
    (fun t hlookup => (hs.lookup_value hlookup).imp fun _ h => h.1) hs.currentType_eq hexports hrun
  obtain ⟨rs, hrs, hconverts⟩ := checkArguments_ok htakes.varargs htakes.scalar_params
    (fun _ _ hrs => hscalars.evolves (mapM_writes hshape ha hrs).2.2.2.1) hcheck
  obtain ⟨-, hwalk, -, -⟩ := mapM_writes hshape ha hrs
  have hzero : v.walk = 0 := hwalk.trans hs.walk
  -- the meaning of the call is recorded above its arguments
  obtain ⟨hv, hfound, -⟩ := mapM_reads hshape (fun part hpart => hchildren ▸ hpart) hnodup hargs ha
    hs hrs fun part hpart => by
      have hmem : part ∈ (ctx.tree.node node).children := hchildren ▸ hpart
      refine (TypeTable.SameOff.setTarget (fun hbelow => ?_) (.function sig)).trans
        (hzero ▸ hstays.parts part hmem)
      exact absurd (hshape.le_of_below hbelow) (Nat.not_le_of_lt (hshape.child_lt hmem))
  have htypes : ∀ arg ∈ args, ∃ τ : ScalarType,
      ScalarCode ctx.tree final callees K arg (.scalar τ) (names arg) := fun arg harg => by
    obtain ⟨r, hr, -, kind, hkind, hcode⟩ := hfound arg harg
    obtain ⟨τ, hconvert⟩ := hconverts r hr
    obtain ⟨σ, rfl, -⟩ := hkind.of_canConvert hp (hv.pool ▸ hconvert)
    exact ⟨σ, hcode⟩
  have : Nonempty ScalarType := ⟨.integer⟩
  choose! types hcode using htypes
  exact ⟨hv.setTable _, .scalar fn.result, htakes.result, .call h hcallee hdecl hfn hsig
    (target_of_setTarget hzero hstays.target) hcode
    (hasScalar_of_get? (htakes.result ▸ hstays.type))⟩

/-- **Typing reads plain code**: wherever the body of a function on Integers and Booleans may stand,
a node that is typed gives what its kind says, and the records of the final table are those that its
lowering relies on. -/
theorem reads_of_plain {locals : List (String × ScalarType)}
    (h : PlainCode ctx.tree final callees node locals)
    (hlocals : ∀ l ∈ locals, K.local? l.1 = some l.2) :
    Reads ctx final callees K p node (locals.map (·.1)) := by
  induction h with
  | number h => exact .number hshape h
  | bool h => exact .bool hshape h
  | ident h => exact .ident hshape hp h
  | var h htype hdeclared _ ih =>
      rw [List.forall_mem_append, List.forall_mem_singleton] at hlocals
      rw [List.map_append]
      exact .var hshape hp h htype hdeclared hlocals.2 (ih hlocals.1)
  | assign h htarget _ ih => exact .assign hshape hp h htarget (ih hlocals)
  | binary h _ _ ihl ihr =>
      rw [List.forall_mem_append] at hlocals
      rw [List.map_append]
      exact .binary hshape hp h (ihl hlocals.1) (ihr hlocals.2)
  | not h _ ih => exact .not hshape hp h (ih hlocals)
  | seq h _ ih =>
      rw [List.map_flatMap]
      exact .seq hshape h fun s hs => ih s hs fun l hl => hlocals l (List.mem_flatMap_of_mem hs hl)
  | branchOnly h _ _ ihc ihy =>
      rw [List.forall_mem_append] at hlocals
      rw [List.map_append]
      exact .branchOnly hshape hp h (ihc hlocals.1) (ihy hlocals.2)
  | branchElse h _ _ _ ihc ihy ihn =>
      rw [List.forall_mem_append, List.forall_mem_append] at hlocals
      rw [List.map_append, List.map_append]
      exact .branchElse hshape hp h (ihc hlocals.1.1) (ihy hlocals.1.2) (ihn hlocals.2)
  | loop h _ _ ihc ihb =>
      rw [List.forall_mem_append] at hlocals
      rw [List.map_append]
      exact .loop hshape hp h (ihc hlocals.1) (ihb hlocals.2)
  | ret h _ ih => exact .ret hshape hp h (ih hlocals)
  | namedArg h _ ih => exact .namedArg hshape h (ih hlocals)
  | call h hcallee _ ih =>
      rw [List.map_flatMap]
      exact .call hshape hp h hcallee fun arg harg =>
        ih arg harg fun l hl => hlocals l (List.mem_flatMap_of_mem harg hl)

end Steps

end Typing

end ClassLang
