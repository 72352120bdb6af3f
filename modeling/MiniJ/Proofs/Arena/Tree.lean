import MiniJ.Arena
import MiniJ.Proofs.Outcome

/-!
# Trees in an arena

A subtree of a parsed program fills an interval of node numbers: it ends at its root, and the
subtrees of the children of the root lie behind each other below it. Distinct children therefore
have disjoint intervals, and every chain of children goes down.

## Main definitions

* `Arena.Tree` — the subtree at a node fills the numbers above `lo`.
* `Arena.Below` — a node lies in the subtree of another.
* `Arena.WellShaped` — what the parser guarantees about the children of one node.
-/
namespace MiniJ

/-- Types a variable can have: no `void`, and no array of it. -/
def Ty.Declarable (ty : Ty) : Prop := ty.base ≠ .void

namespace Arena

variable {a : Arena}

/-! ### Nodes -/

theorem kind_eq_ok_iff {id : NodeId} {k : NodeKind} :
    a.kind id = .ok k ↔ ∃ s, a.node id = .ok ⟨k, s⟩ := by
  unfold kind
  cases h : a.node id with
  | error e => simp [bind, Except.bind]
  | ok n => cases n; simp [bind, Except.bind, pure, Except.pure]

theorem node_eq_ok_iff {id : NodeId} {n : Node} : a.node id = .ok n ↔ a.node? id = some n := by
  unfold node
  cases a.node? id <;> simp

theorem node_root_of_unit? {u : UnitNode} (h : a.unit? = some u) :
    ∃ span, a.node NodeId.root = .ok ⟨.unit u, span⟩ := by
  unfold unit? at h
  split at h
  · next v span hv =>
    cases h
    exact ⟨span, node_eq_ok_iff.2 hv⟩
  · cases h

end Arena

/-- What a node can be a part of. -/
inductive Role where
  | expression | statement | declaration | member
  deriving DecidableEq

namespace NodeKind

def role : NodeKind → Role
  | int _ | text _ | bool _ | var _ | field .. | element .. | unary .. | binary .. | call .. =>
    .expression
  | block _ | declare _ | assign .. | callStatement _ | branch .. | loop .. | ret _ | empty =>
    .statement
  | declaration _ => .declaration
  | function _ | record _ | unit _ | dummy => .member

/-- The roles of the children. -/
def partRoles : NodeKind → List Role
  | field .. | unary .. | callStatement _ => [.expression]
  | element .. | binary .. | assign .. => [.expression, .expression]
  | call _ args => args.map fun _ => .expression
  | block body => body.map fun _ => .statement
  | declare _ => [.declaration]
  | branch _ _ onFalse => .expression :: .statement :: onFalse.toList.map fun _ => .statement
  | loop .. => [.expression, .statement]
  | ret value => value.toList.map fun _ => .expression
  | function f => f.params.map (fun _ => .declaration) ++ f.body.map fun _ => .statement
  | record r => r.fields.map fun _ => .declaration
  | _ => []

theorem exists_of_isCall {k : NodeKind} (h : k.isCall = true) :
    ∃ name args, k = call name args := by
  cases k <;> simp_all [isCall]

end NodeKind

namespace Arena

variable {a : Arena}

/-- The node can be written to. -/
def IsPlace (a : Arena) (id : NodeId) : Prop := ∃ k, a.kind id = .ok k ∧ k.isPlace = true

/-- The node declares a variable. -/
def IsDeclaration (a : Arena) (id : NodeId) : Prop := ∃ b, a.kind id = .ok (.declaration b)

def HasRole (a : Arena) (role : Role) (id : NodeId) : Prop := ∃ k, a.kind id = .ok k ∧ k.role = role

/-- What the parser guarantees about a node apart from the roles of its parts: bases and targets
are places, types are no voids, and locals are no references. -/
def WellShaped (a : Arena) : NodeKind → Prop
  | .field base _ => a.IsPlace base
  | .element base _ => a.IsPlace base
  | .assign target _ => a.IsPlace target
  | .declaration b => b.ty.Declarable
  | .declare d => ∀ b, a.kind d = .ok (.declaration b) → b.isReference = false
  | .callStatement c => ∃ name args, a.kind c = .ok (.call name args)
  | .function f => f.returnType = .void ∨ f.returnType.Declarable
  | _ => True

theorem HasRole.isDeclaration {id : NodeId} (h : a.HasRole .declaration id) :
    a.IsDeclaration id := by
  obtain ⟨k, hk, hrole⟩ := h
  cases k <;> simp_all [NodeKind.role, IsDeclaration]

/-! ### Intervals -/

/-- Subtrees, each given by its root and the number before its first node, fill the numbers above
`lo` and below `id`. -/
def Tiles : Nat → List (Nat × Nat) → Nat → Prop
  | lo, [], id => id = lo + 1
  | lo, (c, start) :: rest, id => start = lo ∧ Tiles c rest id

/-- The subtree at `id` is finite, well shaped and fills the numbers above `lo` up to `id`. -/
inductive Tree (a : Arena) : Nat → Nat → Prop
  | node {lo id : Nat} {k : NodeKind} (parts : List (Nat × Nat))
      (kind : a.kind id = .ok k) (shaped : a.WellShaped k)
      (children : parts.map Prod.fst = k.children) (tiles : Tiles lo parts id)
      (roles : List.Forall₂ a.HasRole k.partRoles k.children)
      (below : ∀ p ∈ parts, Tree a p.2 p.1) : Tree a lo id

/-- A part of a tiling lies between its ends. -/
theorem Tiles.bounds {lo id : Nat} {parts : List (Nat × Nat)} (hp : ∀ p ∈ parts, p.2 < p.1)
    (h : Tiles lo parts id) : lo < id ∧ ∀ p ∈ parts, lo ≤ p.2 ∧ p.1 < id := by
  induction parts generalizing lo with
  | nil =>
    simp only [Tiles] at h
    exact ⟨by omega, by simp⟩
  | cons q rest ih =>
    obtain ⟨c, start⟩ := q
    obtain ⟨rfl, h⟩ := h
    have hc : start < c := hp (c, start) (by simp)
    obtain ⟨hlt, hrest⟩ := ih (fun p hmem => hp p (by simp [hmem])) h
    refine ⟨by omega, fun p hmem => ?_⟩
    rcases List.mem_cons.1 hmem with rfl | hmem
    · exact ⟨Nat.le_refl _, hlt⟩
    · have := hrest p hmem
      omega

/-- Parts of a tiling do not overlap. -/
theorem Tiles.eq_of_overlap {lo id i : Nat} {parts : List (Nat × Nat)}
    (hparts : ∀ p ∈ parts, p.2 < p.1) (h : Tiles lo parts id) {p q : Nat × Nat} (hp : p ∈ parts)
    (hq : q ∈ parts) (hip : p.2 < i ∧ i ≤ p.1) (hiq : q.2 < i ∧ i ≤ q.1) : p = q := by
  induction parts generalizing lo with
  | nil => simp at hp
  | cons r rest ih =>
    have hrest := (h.2.bounds fun s hs => hparts s (by simp [hs])).2
    rcases List.mem_cons.1 hp with rfl | hp' <;> rcases List.mem_cons.1 hq with rfl | hq'
    · rfl
    · have := hrest q hq'
      omega
    · have := hrest p hp'
      omega
    · exact ih (fun s hs => hparts s (by simp [hs])) h.2 hp' hq'

theorem Tree.lt {lo id : Nat} (h : a.Tree lo id) : lo < id := by
  induction h with
  | node parts _ _ _ tiles _ _ ih => exact (tiles.bounds ih).1

theorem Tiles.append {lo id : Nat} {front back : List (Nat × Nat)}
    (h : Tiles lo (front ++ back) id) : ∃ mid, Tiles lo front (mid + 1) ∧ Tiles mid back id := by
  induction front generalizing lo with
  | nil => exact ⟨lo, rfl, h⟩
  | cons q rest ih =>
    obtain ⟨rfl, h⟩ := h
    obtain ⟨mid, hfront, hback⟩ := ih h
    exact ⟨mid, ⟨rfl, hfront⟩, hback⟩

theorem Tiles.appended {lo mid id : Nat} {front back : List (Nat × Nat)}
    (hfront : Tiles lo front (mid + 1)) (hback : Tiles mid back id) :
    Tiles lo (front ++ back) id := by
  induction front generalizing lo with
  | nil =>
    obtain rfl : lo = mid := by simp only [Tiles] at hfront; omega
    exact hback
  | cons q rest ih => exact ⟨hfront.1, ih hfront.2⟩

/-- Subtrees behind each other, all above `lo`. -/
def Ascends : Nat → List (Nat × Nat) → Prop
  | _, [] => True
  | lo, (c, start) :: rest => lo ≤ start ∧ Ascends c rest

/-! ### Subtrees -/

/-- The node `x` lies in the subtree of `id`. -/
inductive Below (a : Arena) : Nat → Nat → Prop
  | self (id : Nat) : Below a id id
  | child {id c x : Nat} {k : NodeKind} (kind : a.kind id = .ok k) (mem : c ∈ k.children)
      (below : Below a c x) : Below a id x

theorem Below.trans {x y z : Nat} (h : a.Below x y) (h' : a.Below y z) : a.Below x z := by
  induction h with
  | self => exact h'
  | child kind mem _ ih => exact .child kind mem (ih h')

/-- The children of the root of a tree are roots of trees inside of it. -/
theorem Tree.child {lo id c : Nat} {k : NodeKind} (h : a.Tree lo id) (kind : a.kind id = .ok k)
    (mem : c ∈ k.children) : ∃ start, a.Tree start c ∧ lo ≤ start ∧ c < id := by
  obtain ⟨parts, kind', _, children, tiles, _, below⟩ := h
  obtain rfl := Except.ok.inj (kind'.symm.trans kind)
  rw [← children, List.mem_map] at mem
  obtain ⟨p, hp, rfl⟩ := mem
  obtain ⟨hlo, hid⟩ := (tiles.bounds fun p hp => (below p hp).lt).2 p hp
  exact ⟨p.2, below p hp, hlo, hid⟩

theorem Tree.only_child {lo id c : Nat} {k : NodeKind} (h : a.Tree lo id)
    (kind : a.kind id = .ok k) (children : k.children = [c]) : a.Tree lo c ∧ c < id := by
  obtain ⟨parts, kind', _, children', tiles, _, below⟩ := h
  obtain rfl := Except.ok.inj (kind'.symm.trans kind)
  obtain ⟨p, rfl, rfl⟩ := List.map_eq_singleton_iff.1 (children'.trans children)
  obtain ⟨rfl, rfl⟩ : p.2 = lo ∧ id = p.1 + 1 := tiles
  exact ⟨below p (by simp), Nat.lt_succ_self _⟩

theorem Tree.two_children {lo id c d : Nat} {k : NodeKind} (h : a.Tree lo id)
    (kind : a.kind id = .ok k) (children : k.children = [c, d]) :
    a.Tree lo c ∧ a.Tree c d ∧ d < id := by
  obtain ⟨parts, kind', _, children', tiles, _, below⟩ := h
  obtain rfl := Except.ok.inj (kind'.symm.trans kind)
  obtain ⟨p, rest, rfl, rfl, hrest⟩ := List.map_eq_cons_iff.1 (children'.trans children)
  obtain ⟨q, rfl, rfl⟩ := List.map_eq_singleton_iff.1 hrest
  obtain ⟨rfl, hq, rfl⟩ : p.2 = lo ∧ q.2 = p.1 ∧ id = q.1 + 1 := tiles
  exact ⟨below p (by simp), hq ▸ below q (by simp), Nat.lt_succ_self _⟩

theorem Tree.three_children {lo id c d e : Nat} {k : NodeKind} (h : a.Tree lo id)
    (kind : a.kind id = .ok k) (children : k.children = [c, d, e]) :
    a.Tree lo c ∧ a.Tree c d ∧ a.Tree d e ∧ e < id := by
  obtain ⟨parts, kind', _, children', tiles, _, below⟩ := h
  obtain rfl := Except.ok.inj (kind'.symm.trans kind)
  obtain ⟨p, rest, rfl, rfl, hrest⟩ := List.map_eq_cons_iff.1 (children'.trans children)
  obtain ⟨q, rest, rfl, rfl, hlast⟩ := List.map_eq_cons_iff.1 hrest
  obtain ⟨r, rfl, rfl⟩ := List.map_eq_singleton_iff.1 hlast
  obtain ⟨rfl, hq, hr, rfl⟩ : p.2 = lo ∧ q.2 = p.1 ∧ r.2 = q.1 ∧ id = r.1 + 1 := tiles
  exact ⟨below p (by simp), hq ▸ below q (by simp), hr ▸ below r (by simp), Nat.lt_succ_self _⟩

theorem Tree.roles {lo id : Nat} {k : NodeKind} (h : a.Tree lo id) (kind : a.kind id = .ok k) :
    List.Forall₂ a.HasRole k.partRoles k.children := by
  obtain ⟨_, kind', _, _, _, roles, _⟩ := h
  exact Except.ok.inj (kind'.symm.trans kind) ▸ roles

/-- The statements of a function as subtrees behind each other. -/
theorem Tree.exists_body {lo id : Nat} {f : FunctionNode} (h : a.Tree lo id)
    (hf : a.kind id = .ok (.function f)) : ∃ start parts, lo ≤ start ∧
      parts.map Prod.fst = f.body ∧ Tiles start parts id ∧ (∀ p ∈ parts, a.Tree p.2 p.1) ∧
      ∀ p ∈ parts, a.HasRole .statement p.1 := by
  have hroles := h.roles hf
  obtain ⟨parts, hf', -, hchildren, htiles, -, htrees⟩ := h
  obtain rfl := Except.ok.inj (hf.symm.trans hf')
  obtain ⟨front, back, rfl, -, hback⟩ := List.map_eq_append_iff.1 hchildren
  obtain ⟨mid, htfront, htback⟩ := htiles.append
  have hmid : lo < mid + 1 := (htfront.bounds fun p hp => (htrees p (by simp [hp])).lt).1
  have hstatement : ∀ r ∈ f.body, a.HasRole .statement r := by
    simp only [NodeKind.partRoles, NodeKind.children] at hroles
    have hdrop := List.forall₂_drop f.params.length hroles
    rw [List.drop_left' (by simp), List.drop_left' rfl] at hdrop
    simpa only [List.forall₂_map_left_iff, List.forall₂_same] using hdrop
  exact ⟨mid, back, by omega, hback, htback, fun p hp => htrees p (List.mem_append_right _ hp),
    fun p hp => hstatement p.1 (hback ▸ List.mem_map_of_mem hp)⟩

/-- The node is a part of a member. -/
def IsPart (a : Arena) (id : NodeId) : Prop := ∃ k, a.kind id = .ok k ∧ k.role ≠ .member

theorem NodeKind.ne_member_of_mem_partRoles {k : NodeKind} {r : Role} (h : r ∈ k.partRoles) :
    r ≠ .member := by
  rintro rfl
  cases k <;> simp [NodeKind.partRoles] at h

theorem Tiles.length_lt {lo id : Nat} {parts : List (Nat × Nat)} (hp : ∀ p ∈ parts, p.2 < p.1)
    (h : Tiles lo parts id) : lo + parts.length < id := by
  induction parts generalizing lo with
  | nil =>
    simp only [Tiles] at h
    simp [h]
  | cons q rest ih =>
    obtain ⟨c, start⟩ := q
    obtain ⟨rfl, h⟩ := h
    have hc : start < c := hp (c, start) (by simp)
    have hrest := ih (fun p hmem => hp p (by simp [hmem])) h
    rw [List.length_cons]
    omega

/-- A node has fewer children than its number says. -/
theorem Tree.length_children_lt {lo id : Nat} {k : NodeKind} (h : a.Tree lo id)
    (kind : a.kind id = .ok k) : k.children.length < id := by
  obtain @⟨_, _, _, parts, kind', _, children, tiles, _, below⟩ := h
  cases kind'.symm.trans kind
  have hlength := tiles.length_lt fun p hp => (below p hp).lt
  rw [← children, List.length_map]
  omega

/-- The children of a node are no members. -/
theorem Tree.isPart_child {lo id c : Nat} {k : NodeKind} (h : a.Tree lo id)
    (kind : a.kind id = .ok k) (mem : c ∈ k.children) : a.IsPart c := by
  obtain ⟨r, hr, k', hk', rfl⟩ := Outcome.exists_of_forall₂_right (h.roles kind) mem
  exact ⟨k', hk', NodeKind.ne_member_of_mem_partRoles hr⟩

/-- The parameters of a function are declarations. -/
theorem Tree.isDeclaration_param {lo id p : Nat} {f : FunctionNode} (h : a.Tree lo id)
    (hf : a.kind id = .ok (.function f)) (hp : p ∈ f.params) : a.IsDeclaration p := by
  have hroles := List.forall₂_take_append _ _ _ (h.roles hf)
  rw [NodeKind.partRoles, ← List.length_map (fun _ => Role.declaration), List.take_left,
    List.forall₂_map_left_iff] at hroles
  obtain ⟨_, _, hrole⟩ := Outcome.exists_of_forall₂_right hroles hp
  exact hrole.isDeclaration

/-- The fields of a record are declarations. -/
theorem Tree.isDeclaration_field {lo id p : Nat} {r : RecordNode} (h : a.Tree lo id)
    (hr : a.kind id = .ok (.record r)) (hp : p ∈ r.fields) : a.IsDeclaration p := by
  have hroles := h.roles hr
  rw [NodeKind.partRoles, NodeKind.children, List.forall₂_map_left_iff] at hroles
  obtain ⟨_, _, hrole⟩ := Outcome.exists_of_forall₂_right hroles hp
  exact hrole.isDeclaration

/-- A tree contains the trees of its nodes. -/
theorem Tree.sub {lo id x : Nat} (h : a.Tree lo id) (hx : a.Below id x) :
    ∃ start, a.Tree start x ∧ lo ≤ start ∧ x ≤ id := by
  induction hx generalizing lo with
  | self => exact ⟨lo, h, Nat.le_refl _, Nat.le_refl _⟩
  | child kind mem _ ih =>
    obtain ⟨start, hc, hlo, hid⟩ := h.child kind mem
    obtain ⟨start', hx, hstart, hle⟩ := ih hc
    exact ⟨start', hx, by omega, by omega⟩

theorem Tree.shaped {lo id : Nat} {k : NodeKind} (h : a.Tree lo id) (kind : a.kind id = .ok k) :
    a.WellShaped k := by
  obtain ⟨_, kind', shaped, _⟩ := h
  exact Except.ok.inj (kind'.symm.trans kind) ▸ shaped

/-- How the members of a parsed program lie in its arena above `lo`: each one is a tree, and
functions come in the order of their numbers. -/
structure Layout (a : Arena) (lo : Nat) (u : UnitNode) : Prop where
  globals : ∀ g ∈ u.globals, a.IsDeclaration g ∧ ∃ start, a.Tree start g
  records : ∀ r ∈ u.records, (∃ d, a.kind r = .ok (.record d)) ∧ ∃ start, a.Tree start r
  functions : ∃ parts : List (Nat × Nat), parts.map Prod.fst = u.functions ∧ Ascends lo parts ∧
    ∀ p ∈ parts, (∃ f, a.kind p.1 = .ok (.function f)) ∧ a.Tree p.2 p.1

/-- The root of a function, and its tree. -/
theorem Layout.function_tree {lo d : Nat} {u : UnitNode} (h : a.Layout lo u)
    (hd : d ∈ u.functions) :
    (∃ f, a.kind d = .ok (.function f)) ∧ ∃ start, a.Tree start d := by
  obtain ⟨parts, hparts, -, htrees⟩ := h.functions
  obtain ⟨p, hp, rfl⟩ := List.mem_map.1 (hparts ▸ hd)
  exact ⟨(htrees p hp).1, p.2, (htrees p hp).2⟩

/-! ### Walks -/

/-- A walk visits exactly the nodes of a subtree. -/
theorem mem_preorder {depth id : Nat} {ids : List NodeId} (h : a.preorder depth id = .ok ids)
    (x : Nat) : x ∈ ids ↔ a.Below id x := by
  induction depth generalizing id ids with
  | zero => simp [preorder] at h
  | succ depth ih =>
    simp only [preorder, Outcome.bind_eq_ok, Outcome.mapM_eq_ok, Outcome.pure_eq_ok] at h
    obtain ⟨k, hk, lists, hlists, rfl⟩ := h
    simp only [List.mem_cons, List.mem_flatten]
    constructor
    · rintro (rfl | ⟨l, hl, hx⟩)
      · exact .self x
      · obtain ⟨c, hc, hcl⟩ := Outcome.exists_of_forall₂_right hlists hl
        exact .child hk hc ((ih hcl).1 hx)
    · rintro (_ | ⟨hk', hc, hx⟩)
      · exact .inl rfl
      · obtain rfl := Except.ok.inj (hk.symm.trans hk')
        obtain ⟨l, hl, hcl⟩ := Outcome.exists_of_forall₂_left hlists hc
        exact .inr ⟨l, hl, (ih hcl).2 hx⟩

theorem mem_walk {id : Nat} {ids : List NodeId} (h : a.walk id = .ok ids) (x : Nat) :
    x ∈ ids ↔ a.Below id x := mem_preorder h x

end Arena

end MiniJ
