import MiniJ.Proofs.Arena.Coverage
import MiniJ.Proofs.Arena.Replace
import Mathlib.Data.List.Perm.Basic

/-!
# Functions in another order

The root of a program lists its functions. A program whose root lists them in another order has the
same nodes everywhere else, so its members are the same trees.

## Main definitions

* `Arena.reorder` — the program with another list of functions.
* `Arena.Reorders` — two programs that differ in the order of their functions.

## Main statements

* `Arena.Reorders.tree`, `Arena.Reorders.below_iff`, `Arena.Reorders.preorder` — members are the
  same.
* `Arena.Reorders.spread` — and they stay apart.
-/
namespace MiniJ

namespace Arena

/-- The program with another list of functions. -/
def reorder (a : Arena) (u : UnitNode) (functions : List NodeId) : Arena :=
  a.replace NodeId.root (.unit { u with functions := functions })

/-- Two programs with the same nodes, whose roots list the same functions. -/
structure Reorders (a a' : Arena) (u u' : UnitNode) : Prop where
  size : a'.size = a.size
  root : ∃ span, a.node NodeId.root = .ok ⟨.unit u, span⟩ ∧ a'.node NodeId.root =
    .ok ⟨.unit u', span⟩
  node : ∀ x, x ≠ NodeId.root → a'.node x = a.node x
  globals : u'.globals = u.globals
  records : u'.records = u.records
  functions : u'.functions.Perm u.functions

variable {a a' : Arena} {u u' : UnitNode} {id x lo : NodeId} {k : NodeKind}

theorem reorders_reorder {functions : List NodeId} (hu : a.unit? = some u)
    (h : functions.Perm u.functions) :
    a.Reorders (a.reorder u functions) u { u with functions := functions } := by
  obtain ⟨span, hroot⟩ := node_root_of_unit? hu
  exact ⟨size_replace, ⟨span, hroot, node_replace_self hroot⟩, fun x hx => node_replace_of_ne hx,
    rfl, rfl, h⟩

theorem unit?_of_node_root {span : Span} (h : a.node NodeId.root = .ok ⟨.unit u, span⟩) :
    a.unit? = some u := by
  rw [unit?, node_eq_ok_iff.1 h]

namespace Reorders

theorem symm (h : a.Reorders a' u u') : a'.Reorders a u' u := by
  obtain ⟨span, hroot, hroot'⟩ := h.root
  exact ⟨h.size.symm, ⟨span, hroot', hroot⟩, fun x hx => (h.node x hx).symm, h.globals.symm,
    h.records.symm, h.functions.symm⟩

theorem unit? (h : a.Reorders a' u u') : a.unit? = some u := by
  obtain ⟨span, hroot, -⟩ := h.root
  exact unit?_of_node_root hroot

theorem alike (h : a.Reorders a' u u') : a.Alike a' where
  size := h.size.symm
  node x := by
    by_cases hx : x = NodeId.root
    · subst hx
      obtain ⟨span, hroot, hroot'⟩ := h.root
      exact .inr ⟨_, _, hroot, hroot', .inr ⟨rfl, rfl, rfl⟩⟩
    · rw [h.node x hx]
      cases hnode : a.node x with
      | error e => exact .inl ⟨e, rfl, rfl⟩
      | ok n => exact .inr ⟨n, n, rfl, rfl, .inl rfl⟩

/-- Only the unit differs. -/
theorem kind_iff (h : a.Reorders a' u u') (hk : ∀ v, k ≠ .unit v) :
    a'.kind x = .ok k ↔ a.kind x = .ok k := by
  by_cases hx : x = NodeId.root
  · subst hx
    obtain ⟨span, hroot, hroot'⟩ := h.root
    rw [Arena.kind, hroot', Arena.kind, hroot]
    exact ⟨fun heq => absurd (Except.ok.inj heq).symm (hk u'),
      fun heq => absurd (Except.ok.inj heq).symm (hk u)⟩
  · rw [Arena.kind, h.node x hx, Arena.kind]

theorem node? (h : a.Reorders a' u u') (hx : x ≠ NodeId.root) : a'.node? x = a.node? x := by
  have hnode := h.node x hx
  unfold Arena.node at hnode
  cases hn : a.node? x <;> cases hn' : a'.node? x <;> simp_all

/-- What does not look at units reads both programs alike. -/
theorem node?_bind {β : Type} (h : a.Reorders a' u u') (g : Node → Option β)
    (hg : ∀ v span, g ⟨.unit v, span⟩ = none) (x : NodeId) :
    (a'.node? x).bind g = (a.node? x).bind g := by
  by_cases hx : x = NodeId.root
  · subst hx
    obtain ⟨span, hroot, hroot'⟩ := h.root
    rw [node_eq_ok_iff.1 hroot, node_eq_ok_iff.1 hroot']
    exact (hg u' span).trans (hg u span).symm
  · rw [h.node? hx]

/-! ### Members -/

theorem hasRole (h : a.Reorders a' u u') {role : Role} (hrole : a.HasRole role x) :
    a'.HasRole role x := by
  obtain ⟨k, hk, rfl⟩ := hrole
  by_cases hx : x = NodeId.root
  · subst hx
    obtain ⟨span, hroot, hroot'⟩ := h.root
    cases hk.symm.trans (kind_eq_ok_iff.2 ⟨span, hroot⟩)
    exact ⟨_, kind_eq_ok_iff.2 ⟨span, hroot'⟩, rfl⟩
  · exact ⟨k, by rw [Arena.kind, h.node x hx]; exact hk, rfl⟩

theorem isPlace (h : a.Reorders a' u u') (hplace : a.IsPlace x) : a'.IsPlace x := by
  obtain ⟨k, hk, hplace⟩ := hplace
  refine ⟨k, (h.kind_iff ?_).2 hk, hplace⟩
  rintro v rfl
  cases hplace

theorem wellShaped (h : a.Reorders a' u u') (hk : a.WellShaped k) : a'.WellShaped k := by
  cases k with
  | field | element | assign => exact h.isPlace hk
  | declare d => exact fun b hb => hk b ((h.kind_iff (by simp)).1 hb)
  | callStatement c =>
    obtain ⟨name, args, hc⟩ := hk
    exact ⟨name, args, (h.kind_iff (by simp)).2 hc⟩
  | _ => exact hk

/-- The root is no part of a member. -/
theorem ne_root (h : a.Reorders a' u u') (hk : a.kind x = .ok k) (hunit : ∀ v, k ≠ .unit v) :
    x ≠ NodeId.root := by
  rintro rfl
  obtain ⟨span, hroot, -⟩ := h.root
  exact hunit u (Except.ok.inj (hk.symm.trans (kind_eq_ok_iff.2 ⟨span, hroot⟩)))

theorem child_ne_root (h : a.Reorders a' u u') {c : NodeId} (htree : a.Tree lo id)
    (hk : a.kind id = .ok k) (hc : c ∈ k.children) : c ≠ NodeId.root := by
  obtain ⟨k', hk', hrole⟩ := htree.isPart_child hk hc
  refine h.ne_root hk' ?_
  rintro v rfl
  exact hrole rfl

theorem kind (h : a.Reorders a' u u') (hx : x ≠ NodeId.root) : a'.kind x = a.kind x := by
  rw [Arena.kind, h.node x hx, Arena.kind]

theorem tree (h : a.Reorders a' u u') (htree : a.Tree lo id) (hid : id ≠ NodeId.root) :
    a'.Tree lo id := by
  induction htree with
  | @node lo id k parts kind shaped children tiles roles below ih =>
    have htree : a.Tree lo id := .node parts kind shaped children tiles roles below
    exact .node parts ((h.kind hid).trans kind) (h.wellShaped shaped) children tiles
      (roles.imp fun _ _ => h.hasRole) fun p hp =>
        ih p hp (h.child_ne_root htree kind (children ▸ List.mem_map_of_mem hp))

/-- The nodes below a member are no roots. -/
theorem below_ne_root (h : a.Reorders a' u u') (htree : a.Tree lo id) (hid : id ≠ NodeId.root)
    (hx : a.Below id x) : x ≠ NodeId.root := by
  induction hx generalizing lo with
  | self => exact hid
  | child kind mem _ ih =>
    obtain ⟨start, hstart, -⟩ := htree.child kind mem
    exact ih hstart (h.child_ne_root htree kind mem)

theorem below (h : a.Reorders a' u u') (htree : a.Tree lo id) (hid : id ≠ NodeId.root)
    (hx : a.Below id x) : a'.Below id x := by
  induction hx generalizing lo with
  | self => exact .self _
  | child kind mem _ ih =>
    obtain ⟨start, hstart, -⟩ := htree.child kind mem
    exact .child ((h.kind hid).trans kind) mem (ih hstart (h.child_ne_root htree kind mem))

theorem below_iff (h : a.Reorders a' u u') (htree : a.Tree lo id) (hid : id ≠ NodeId.root) :
    a'.Below id x ↔ a.Below id x :=
  ⟨h.symm.below (h.tree htree hid) hid, h.below htree hid⟩

/-- A walk over a member visits the same nodes. -/
theorem preorder (h : a.Reorders a' u u') (htree : a.Tree lo id) (hid : id ≠ NodeId.root)
    (depth : Nat) : a'.preorder depth id = a.preorder depth id := by
  induction depth generalizing lo id with
  | zero => rfl
  | succ depth ih =>
    rw [Arena.preorder, Arena.preorder, h.kind hid]
    cases hk : a.kind id with
    | error e => rfl
    | ok k =>
      have hchildren : k.children.mapM (a'.preorder depth) =
          k.children.mapM (a.preorder depth) := by
        refine Outcome.mapM_congr fun c hc => ?_
        obtain ⟨start, hstart, -⟩ := htree.child hk hc
        exact ih hstart (h.child_ne_root htree hk hc)
      simp only [Outcome.ok_bind, hchildren]

theorem walk (h : a.Reorders a' u u') (htree : a.Tree lo id) (hid : id ≠ NodeId.root) :
    a'.walk id = a.walk id := by
  rw [Arena.walk, ← h.alike.depthLimit, Arena.walk]
  exact h.preorder htree hid _

/-! ### The whole program -/

theorem localsFirst (h : a.Reorders a' u u') {f : FunctionNode} (htree : a.Tree lo id)
    (hf : a.kind id = .ok (.function f)) (hfirst : a.LocalsFirst f.body) :
    a'.LocalsFirst f.body := by
  obtain ⟨locals, rest, hbody, hdeclare, hrest⟩ := hfirst
  refine ⟨locals, rest, hbody, fun l hl => ?_, fun r hr x d hx => ?_⟩
  · obtain ⟨d, hd⟩ := hdeclare l hl
    exact ⟨d, (h.kind_iff (by simp)).2 hd⟩
  · have hmem : r ∈ (NodeKind.function f).children := by
      exact List.mem_append_right _ (hbody ▸ List.mem_append_right _ hr)
    obtain ⟨start, hstart, -⟩ := htree.child hf hmem
    rw [h.below_iff hstart (h.child_ne_root htree hf hmem)] at hx
    exact fun hd => hrest r hr x d hx ((h.kind_iff (by simp)).1 hd)

/-- What belongs to the functions, in the other order. -/
theorem exists_parts {β : Type} (h : a.Reorders a' u u') {parts : List (NodeId × β)}
    (hparts : parts.map Prod.fst = u.functions) :
    ∃ parts' : List (NodeId × β), parts'.map Prod.fst = u'.functions ∧ parts'.Perm parts := by
  have hkeys : List.Forall₂ (fun id p => id = p.1) u.functions parts := by
    rw [← hparts, List.forall₂_map_left_iff]
    exact List.forall₂_same.2 fun _ _ => rfl
  obtain ⟨parts', hkeys', hperm⟩ := List.perm_comp_forall₂ h.functions hkeys
  refine ⟨parts', ?_, hperm⟩
  rw [← List.forall₂_eq_eq_eq, List.forall₂_map_left_iff]
  exact hkeys'.flip.imp fun _ _ heq => heq.symm

theorem spread (h : a.Reorders a' u u') (hspread : a.Spread u) : a'.Spread u' := by
  obtain ⟨hglobals, hrecords, ⟨parts, hparts, hapart, htrees⟩, hfirst⟩ := hspread
  refine ⟨fun g hg => ?_, fun r hr => ?_, ?_, fun id hid f hf => ?_⟩
  · obtain ⟨⟨b, hb⟩, start, htree⟩ := hglobals g (h.globals ▸ hg)
    exact ⟨⟨b, (h.kind_iff (by simp)).2 hb⟩, start, h.tree htree (h.ne_root hb (by simp))⟩
  · obtain ⟨⟨d, hd⟩, start, htree⟩ := hrecords r (h.records ▸ hr)
    exact ⟨⟨d, (h.kind_iff (by simp)).2 hd⟩, start, h.tree htree (h.ne_root hd (by simp))⟩
  · obtain ⟨parts', hparts', hperm⟩ := h.exists_parts hparts
    refine ⟨parts', hparts', hperm.symm.pairwise hapart Apart.symm, fun p hp => ?_⟩
    obtain ⟨⟨f, hf⟩, htree⟩ := htrees p (hperm.mem_iff.1 hp)
    exact ⟨⟨f, (h.kind_iff (by simp)).2 hf⟩, h.tree htree (h.ne_root hf (by simp))⟩
  · have hmem := h.functions.mem_iff.1 hid
    obtain ⟨p, hp, rfl⟩ := List.mem_map.1 (hparts ▸ hmem)
    have hf' := (h.kind_iff (by simp)).1 hf
    exact h.localsFirst (htrees p hp).2 hf' (hfirst p.1 hmem f hf')

/-- The root of a function, and the nodes of its body. -/
theorem function_tree (h : a.Reorders a' u u') (hspread : a.Spread u) {d : NodeId}
    (hd : d ∈ u.functions) :
    (∃ f, a.kind d = .ok (.function f)) ∧ d ≠ NodeId.root ∧ ∃ start, a.Tree start d := by
  obtain ⟨⟨f, hf⟩, htree⟩ := hspread.function_tree hd
  exact ⟨⟨f, hf⟩, h.ne_root hf (by simp), htree⟩

theorem below_body (h : a.Reorders a' u u') (hspread : a.Spread u) {d r : NodeId} {f : FunctionNode}
    (hd : d ∈ u.functions) (hf : a.kind d = .ok (.function f)) (hr : r ∈ f.body)
    (hx : a.Below r x) :
    a'.Below r x := by
  obtain ⟨-, -, lo, htree⟩ := h.function_tree hspread hd
  have hmem : r ∈ (NodeKind.function f).children := List.mem_append_right _ hr
  obtain ⟨start, hstart, -⟩ := htree.child hf hmem
  exact h.below hstart (h.child_ne_root htree hf hmem) hx

end Reorders

end Arena

end MiniJ
