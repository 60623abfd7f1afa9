import ClassLang.Proofs.Lowering.BodyRuns
import ClassLang.Proofs.Lowering.GeneratedParts
import ClassLang.Proofs.Lowering.LinkNames
import ClassLang.Proofs.Typing.LaidModules
import ClassLang.Proofs.Typing.WalkNumbers

/-!
# The slots of instance variables

Typing takes the type of an instance variable from the frame of the class whose body it walks, and
generating looks the name up in the layout of the type whose method it generates. In a module whose
walks have numbers of their own the code of a method belongs to one type only. So the type that was
recorded is the one that the layout has at the index of the name, and generating takes the address of
this field.
-/

namespace ClassLang

open Relation (ReflTransGen)
open IR (Build Value)

/-! ## What generating comes to -/

namespace LoweringContext

variable (ctx : LoweringContext) (walk : InstanceId)

/-- Generating this code comes to an instance variable, which is read or assigned. Generating begins
with the code and goes on with what it asks for. A run comes to nothing else (`Visits.generates`). -/
inductive LowersIvar (code node : NodeId) (name : String) : Prop
  | read (hcode : ReflTransGen (ctx.Generates walk) code node)
      (hnode : ctx.tree.node node = .ivar name)
  | written {statement value : NodeId} (hcode : ReflTransGen (ctx.Generates walk) code statement)
      (hstatement : ctx.tree.node statement = .assign node value)
      (hnode : ctx.tree.node node = .ivar name)

variable {ctx walk} {code node part : NodeId} {name : String}

/-- What generating typed code comes to is typed. -/
theorem Generates.covers (h : ctx.Generates walk node part)
    (hcomplete : ctx.typed.table.Complete ctx.tree)
    (hnode : ctx.typed.table.Covers ctx.tree ⟨walk, node⟩) :
    ctx.typed.table.Covers ctx.tree ⟨walk, part⟩ :=
  h (fun node => ctx.typed.table.Covers ctx.tree ⟨walk, node⟩)
    (prepared_of_complete hcomplete (fun _ _ _ _ _ => trivial) node hnode)

namespace LowersIvar

theorem node_eq (h : ctx.LowersIvar walk code node name) : ctx.tree.node node = .ivar name := by
  cases h <;> assumption

theorem below (h : ctx.LowersIvar walk code node name) : ctx.tree.Below code node := by
  have hcode {node : NodeId} (h : ReflTransGen (ctx.Generates walk) code node) :
      ctx.tree.Below code node := by
    induction h with
    | refl => exact .refl
    | tail _ hpart ih => exact ih.trans hpart.below
  cases h with
  | read h _ => exact hcode h
  | written h hstatement _ => exact (hcode h).tail (by simp [hstatement, Node.children])

/-- In typed code each instance variable that generating comes to has a recorded type. -/
theorem hasType (h : ctx.LowersIvar walk code node name)
    (hcomplete : ctx.typed.table.Complete ctx.tree)
    (hcode : ctx.typed.table.Covers ctx.tree ⟨walk, code⟩) :
    ctx.typed.table.HasType ⟨walk, node⟩ := by
  have hcovers {node : NodeId} (h : ReflTransGen (ctx.Generates walk) code node) :
      ctx.typed.table.Covers ctx.tree ⟨walk, node⟩ := by
    induction h with
    | refl => exact hcode
    | tail _ hpart ih => exact hpart.covers hcomplete ih
  cases h with
  | read h _ => exact (hcovers h).1
  | written h hstatement _ =>
      have hparts := hcomplete.parts _ (hcovers h).1
      simp only [TypeTable.PartsCovered, hstatement] at hparts
      exact hparts.1

end LowersIvar

end LoweringContext

/-! ## The type that has the code -/

namespace Typing

variable {σ : Type} {s : TypingState σ} {tree : SyntaxTree} {decl : NodeId} {walk : InstanceId}
  {r r' : TypeId}

/-- The occasion of a walk under which a declaration makes a type. -/
theorem Makes.occasion (h : Makes tree s.table s.templates decl walk r) :
    ∃ o, walkOf? s.table s.templates o = some walk ∧ ∀ v, o ≠ .inclusion v := by
  cases h with
  | plain => exact ⟨.plain, rfl, by simp⟩
  | @expansion id index e he => exact ⟨.expansion id index, by simp [walkOf?, he], by simp⟩

/-- A declaration makes one type under a walk. -/
theorem Makes.type_eq (hapart : WalksApart s.typed)
    (h : Makes tree s.table s.templates decl walk r)
    (h' : Makes tree s.table s.templates decl walk r') : r = r' := by
  have hexpansion {id index : Nat} {decl : NodeId} {e : Expansion}
      (he : expansionAt? s.templates id index = some (decl, e)) :
      walkOf? s.table s.templates (.expansion id index) = some e.walk := by
    simp [walkOf?, he]
  generalize hw : walk = walk' at h'
  cases h with
  | plain _ hr =>
      cases h' with
      | plain _ hr' => exact Option.some.inj (hr.symm.trans hr')
      | expansion he => cases hapart.apart (o := .plain) (hw ▸ rfl) (hexpansion he)
  | expansion he =>
      cases h' with
      | plain => cases hapart.apart (o := .plain) (hw ▸ rfl) (hexpansion he)
      | expansion he' =>
          cases hapart.apart (hexpansion he) (hw ▸ hexpansion he')
          cases he.symm.trans he'
          rfl

/-- What is reached from two statements under walks that include nothing is reached in one walk,
and from one statement, unless nothing was included. -/
theorem origin_eq (hapart : WalksApart s.typed) {walk' : InstanceId} {member member' : NodeId}
    {v v' : Visit} (hwalk : ∀ v, s.table.inclusion? v ≠ some walk)
    (hwalk' : ∀ v, s.table.inclusion? v ≠ some walk')
    (h : ReflTransGen (s.table.Includes tree) ⟨walk, member⟩ v)
    (h' : ReflTransGen (s.table.Includes tree) ⟨walk', member'⟩ v') (hv : v.walk = v'.walk) :
    walk = walk' ∧ (v = ⟨walk, member⟩ ∧ v' = ⟨walk', member'⟩ ∨ member = member') := by
  have hinclusion {u u' : Visit} {included : InstanceId}
      (hu : s.table.inclusion? u = some included) (hu' : s.table.inclusion? u' = some included) :
      u = u' := by
    have hsame : Occasion.inclusion u = .inclusion u' := hapart.apart hu hu'
    exact Occasion.inclusion.inj hsame
  induction h generalizing v' with
  | refl =>
      rcases h'.cases_tail with rfl | ⟨u, -, _, _, _, hinto, _⟩
      · exact ⟨hv, .inl ⟨rfl, rfl⟩⟩
      · exact absurd (hinto.trans (congrArg some hv.symm)) (hwalk u)
  | tail hreach hstep ih =>
      obtain ⟨_, _, _, hinto, _⟩ := hstep
      rcases h'.cases_tail with rfl | ⟨u, hu, _, _, _, hinto', _⟩
      · exact absurd (hinto.trans (congrArg some hv)) (hwalk' _)
      · obtain rfl := hinclusion hinto (hinto'.trans (congrArg some hv.symm))
        obtain ⟨hwalks, ⟨rfl, hmember⟩ | hmember⟩ := ih hu rfl
        · cases hmember
          exact ⟨hwalks, .inr rfl⟩
        · exact ⟨hwalks, .inr hmember⟩

variable {ctx : TypingContext σ} {start : TypingState σ} {opened : Environs}

/-- Types are declared at top level. -/
theorem Owned.decl_mem (h : Owned ctx start opened s)
    (hmakes : Makes ctx.tree s.table s.templates decl walk r) :
    decl ∈ ctx.tree.statements ctx.tree.root := by
  cases hmakes with
  | plain hdecl hr => exact (h.plain ⟨0, decl⟩ r hdecl hr).2
  | expansion he => exact h.decls _ (decl_mem_of_expansionAt? he)

/-- Code under a walk belongs to one type only. -/
theorem CodeOf.owner_eq (hs : Owned ctx start opened s) (hshape : ctx.tree.TreeShaped)
    (hapart : WalksApart s.typed) {owner owner' : TypeId} {v : Visit}
    (h : CodeOf ctx.tree s owner v) (h' : CodeOf ctx.tree s owner' v) : owner = owner' := by
  have hnot {decl : NodeId} {walk : InstanceId} {r : TypeId}
      (hmakes : Makes ctx.tree s.table s.templates decl walk r) (v : Visit) :
      s.table.inclusion? v ≠ some walk := by
    obtain ⟨o, ho, hne⟩ := hmakes.occasion
    intro hv
    have hsame : o = .inclusion v := hapart.apart ho hv
    exact hne v hsame
  have hbelow {decl member node : NodeId} (hbody : InBody ctx.tree decl member)
      (h : ctx.tree.Below member node) : ctx.tree.Below decl node := by
    obtain ⟨body, hbody, hmember⟩ := hbody
    exact .head (SyntaxTree.mem_children_of_bodyOf? hbody)
      ((SyntaxTree.below_of_mem_statements hmember).trans h)
  obtain ⟨top, ⟨decl, walk, member, hmakes, hbody, hreach⟩, htop⟩ := h
  obtain ⟨top', ⟨decl', walk', member', hmakes', hbody', hreach'⟩, htop'⟩ := h'
  -- the declarations are the same, as a node stands below both of them
  have hdecl {node : NodeId} (h : ctx.tree.Below member node) (h' : ctx.tree.Below member' node) :
      decl = decl' := by
    by_contra hne
    exact hshape.disjoint_statements (hs.decl_mem hmakes) (hs.decl_mem hmakes') hne
      (hbelow hbody h) (hbelow hbody' h')
  obtain ⟨rfl, ⟨hfirst, hfirst'⟩ | rfl⟩ :=
    origin_eq hapart (hnot hmakes) (hnot hmakes') hreach hreach' rfl
  · cases hfirst
    cases hfirst'
    obtain rfl := hdecl htop htop'
    exact hmakes.type_eq hapart hmakes'
  · obtain rfl := hdecl .refl .refl
    exact hmakes.type_eq hapart hmakes'

/-- What a declaration makes in one of its walks. -/
theorem Delivered.makes {known : σ → String → Prop} (h : Delivered ctx known s)
    (htop : decl ∈ ctx.tree.statements ctx.tree.root) (hdecl : ctx.tree.IsTypeDecl decl)
    (hinstance : s.typed.HasInstance decl walk r) :
    Makes ctx.tree s.table s.templates decl walk r := by
  unfold TypedModule.HasInstance at hinstance
  split at hinstance
  · next template htemplate =>
      obtain ⟨e, he, rfl, rfl⟩ := hinstance
      obtain ⟨id, index, hat⟩ :=
        (TypedModule.mem_expansions_iff h.accounted.distinct htemplate).mp he
      exact .expansion hat
  · next hnone =>
      obtain ⟨rfl, hr⟩ := hinstance
      exact .plain (h.declaresType_of_not_template htop hdecl
        (TypedModule.templateFor?_eq_none_iff.mp hnone)) hr

end Typing

/-! ## Slots -/

/-- The address of an instance variable that the layout of the type has at an index. -/
theorem Lower.ivarSlot_run (ctx : LoweringContext) {owner r : TypeId} {name : String} {index : Nat}
    (hindex : ivarIndex? (ctx.pool.ivars owner) name = some index)
    (htype : ivarType? (ctx.pool.ivars owner) name = some r) {b : Body} {receiver : Value}
    (howner : b.owner = some owner) (hreceiver : b.receiver = some receiver) :
    (ivarSlot ctx name).run b = (do
      let struct ← Emit.layout ctx owner
      let type ← Emit.valueType ctx r
      let slot ← Emit.build (Build.structField struct receiver index (name ++ ".ptr"))
      pure ((slot, type), b)) := by
  cases hview : ctx.pool.view owner with
  | reference typeName ivars methods =>
      simp only [Pool.ivars, hview] at hindex htype
      simp [ivarSlot, howner, hreceiver, hview, hindex, htype, build]
  | _ => simp [Pool.ivars, hview, ivarIndex?] at hindex

/-- Typing and generating agree on an instance variable: the type that was recorded for it is the one
at the index of its name in the layout of the type, and this is the field whose address is taken in
the methods of the type. -/
structure SlotAgrees (ctx : LoweringContext) (owner : TypeId) (v : Visit) (name : String)
    (r : TypeId) (index : Nat) : Prop where
  recorded : ctx.typed.table.get? v = some r
  found : ivarIndex? (ctx.pool.ivars owner) name = some index
  lt_length : index < (ctx.pool.ivars owner).length
  entry : (ctx.pool.ivars owner)[index]? = some (name, r)
  slot : ∀ (b : Body) (receiver : Value), b.owner = some owner → b.receiver = some receiver →
    (Lower.ivarSlot ctx name).run b = (do
      let struct ← Emit.layout ctx owner
      let type ← Emit.valueType ctx r
      let slot ← Emit.build (Build.structField struct receiver index (name ++ ".ptr"))
      pure ((slot, type), b))

/-- An instance variable has one slot: the one at the index of its name. -/
theorem SlotAgrees.eq_of_entry {ctx : LoweringContext} {owner r r' : TypeId} {v : Visit}
    {name : String} {index : Nat} (h : SlotAgrees ctx owner v name r index) (index' : Nat)
    (hindex : ivarIndex? (ctx.pool.ivars owner) name = some index')
    (hentry : (ctx.pool.ivars owner)[index']? = some (name, r')) : r = r' ∧ index = index' := by
  obtain rfl : index = index' := Option.some.inj (h.found.symm.trans hindex)
  cases h.entry.symm.trans hentry
  exact ⟨rfl, rfl⟩

namespace Typing

variable {σ : Type} {ctx : TypingContext σ} {named s : TypingState σ} {decl body : NodeId}
  {walk : InstanceId} {owner : TypeId} {ivars : List (String × TypeId)}

/-- A stretch of typing in which expansions are laid out, from the names that are declared in `named`
to the end in `s`: the turn of a statement, or all that comes after the last of these turns. -/
def LayoutStretch (ctx : TypingContext σ) (named s : TypingState σ) (first last : Environs) : Prop :=
  LayoutTurn ctx named first last ∨
    ∃ laid, (ctx.tree.statements ctx.tree.root).forM (layOutType ctx) named = .ok ⟨⟩ laid ∧
      first = laid.environs ∧ last = s.environs

/-- The instance variables of a type that a class declares. Those of a plain class were collected in
the turn of its declaration, outside of all frames. Those of an expansion were collected under its
walk, in the frame in which the type argument is bound to the type parameter. -/
def InstanceLaidOut (ctx : TypingContext σ) (named s : TypingState σ) (decl body : NodeId)
    (walk : InstanceId) (owner : TypeId) (ivars : List (String × TypeId)) : Prop :=
  match s.typed.templateFor? decl with
  | none => walk = 0 ∧ ClassLaidOut ctx named decl body ivars
  | some template => ∃ e ∈ template.expansions, e.walk = walk ∧ e.type = owner ∧
      ∃ arg, e.args = [arg] ∧ ∃ first last, LayoutStretch ctx named s first last ∧
        IvarsLaidOut ctx first last (fun name => ctx.tree.traits.lookup name) walk
          [(Scope.forType owner []).bind template.param (.type arg)] body ivars

theorem InstanceLaidOut.distinct (h : InstanceLaidOut ctx named s decl body walk owner ivars) :
    (ivars.map (·.1)).Nodup := by
  unfold InstanceLaidOut at h
  split at h
  · obtain ⟨-, _, _, -, -, hlaid⟩ := h
    exact hlaid.distinct
  · obtain ⟨_, -, -, -, _, -, _, _, -, hlaid⟩ := h
    exact hlaid.distinct

namespace Delivered

variable {known : σ → String → Prop}

/-- Classes are laid out, in all walks of their declarations. -/
theorem class_laidOut (h : Delivered ctx known s) (hs : OwnedSince ctx named s)
    (htop : decl ∈ ctx.tree.statements ctx.tree.root) {name : String} {param : Option String}
    (hnode : ctx.tree.node decl = .classDef name param body)
    (hinstance : s.typed.HasInstance decl walk owner) :
    InstanceLaidOut ctx named s decl body walk owner (s.pool.ivars owner) := by
  obtain ⟨laid, hlaid, hs⟩ := hs
  have hdecl : ctx.tree.IsTypeDecl decl := by simp [SyntaxTree.IsTypeDecl, hnode]
  rw [hs.ivars_eq (h.makes htop hdecl hinstance)]
  unfold TypedModule.HasInstance at hinstance
  split at hinstance <;> rename_i htemplate <;> simp only [InstanceLaidOut, htemplate]
  · next template =>
      obtain ⟨e, he, rfl, rfl⟩ := hinstance
      obtain ⟨id, index, hat⟩ :=
        (TypedModule.mem_expansions_iff h.accounted.distinct htemplate).mp he
      have hdecl : template.decl = decl := by simpa using List.find?_some htemplate
      have hparam := hs.params template (List.mem_of_find?_eq_some htemplate)
      rw [hdecl, hnode] at hparam
      obtain rfl : param = some template.param := hparam
      obtain ⟨first, last, hstretch, hexpansion⟩ := hs.expansions id index decl e hat
      obtain ⟨arg, hargs, hivars⟩ := hexpansion _ _ _ hnode
      have hstretch' : LayoutStretch ctx named s first last :=
        hstretch.imp_right fun hsince => ⟨laid, hlaid, hsince⟩
      exact ⟨e, he, rfl, rfl, arg, hargs, first, last, hstretch', hivars⟩
  · obtain ⟨rfl, hr⟩ := hinstance
    have hplain := h.declaresType_of_not_template htop hdecl
      (TypedModule.templateFor?_eq_none_iff.mp htemplate)
    obtain rfl : param = none := by
      cases param with
      | none => rfl
      | some param => simp [hnode, Node.declaresType] at hplain
    exact ⟨rfl, hs.classes decl htop name body owner hnode hr⟩

/-- Typing and generating agree on the instance variables in a method. -/
theorem slot_agrees (h : Delivered ctx known s) (hs : OwnedSince ctx named s)
    (hshape : ctx.tree.TreeShaped) (hapart : WalksApart s.typed)
    (hdistinct : ((s.pool.ivars owner).map (·.1)).Nodup)
    {visit : Visit} (hd : s.typed.Has ctx.tree (.method decl walk owner visit)) {name ivar : String}
    {params : List NodeId} {result : Option NodeId} {code node : NodeId}
    (hnode : ctx.tree.node visit.node = .methodDef name params result code)
    (hlowers : LoweringContext.LowersIvar { tree := ctx.tree, pool := s.pool, typed := s.typed }
      visit.walk code node ivar) :
    ∃ r index, SlotAgrees { tree := ctx.tree, pool := s.pool, typed := s.typed } owner
      ⟨visit.walk, node⟩ ivar r index := by
  obtain ⟨_, -, hs⟩ := hs
  obtain ⟨htop, hinstance, ⟨body, member, hbody, hmember, hreach⟩, hmethod⟩ := hd
  have hcovered := h.body_covered htop
    ⟨hmethod, .inr ⟨body, walk, member, hbody, hinstance.isInstance, hmember, hreach⟩⟩ _ _ _ _ hnode
  obtain ⟨r, hr⟩ := Option.isSome_iff_exists.mp (hlowers.hasType h.accounted.complete hcovered)
  obtain ⟨owner', hcode, hmem⟩ := hs.owned ⟨visit.walk, node⟩ ivar r hlowers.node_eq hr
  -- the type with this code is the one whose method is generated
  have hmakes := h.makes htop (SyntaxTree.isTypeDecl_of_bodyOf? hbody) hinstance
  have hcode' : CodeOf ctx.tree s owner ⟨visit.walk, node⟩ :=
    ⟨visit.node, ⟨decl, walk, member, hmakes, ⟨body, hbody, hmember⟩, hreach⟩,
      .head (by simp [hnode, Node.children]) hlowers.below⟩
  obtain rfl := hcode.owner_eq hs hshape hapart hcode'
  rw [← hs.ivars_eq hmakes] at hmem
  obtain ⟨index, hindex, hentry, htype⟩ := ivarIndex?_of_mem hdistinct hmem
  exact ⟨r, index, hr, hindex, (List.getElem?_eq_some_iff.mp hentry).1, hentry,
    fun _ _ => Lower.ivarSlot_run _ hindex htype⟩

end Delivered

end Typing

end ClassLang
