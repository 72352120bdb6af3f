import MiniJ.Proofs.Arena.Coverage
import MiniJ.Proofs.Arena.Depth
import Mathlib.Data.List.Nodup

/-!
# Parents

In the arena of a parsed program every node but the root is a child of one node only, and once. A
walk from the root comes to every node, and to none of them twice.

## Main statements

* `Arena.Complete.exists_parent`, `Arena.Complete.parent_unique` — the parent of a node.
* `Arena.Complete.exists_walk` — the walk from the root.
-/
namespace MiniJ

/-- The members of a program are numbered one behind the other. -/
theorem Flatten.nodup_members {ms : List Member} (h : ∀ m ∈ ms, m.Shaped) (nodes : Array Node) :
    (members ms nodes).1.members.Nodup ∧ ∀ m ∈ (members ms nodes).1.members, nodes.size < m := by
  induction ms generalizing nodes with
  | nil =>
    have hempty : (members [] nodes).1 = ⟨[], [], []⟩ := rfl
    simp [hempty, UnitNode.members]
  | cons m ms ih =>
    -- the number of the first member is below those of the others
    have hfront : ∀ {id new}, Numbered nodes id new →
        (members (m :: ms) nodes).1.members.Perm (id :: (members ms new).1.members) →
        (members (m :: ms) nodes).1.members.Nodup ∧
          ∀ m' ∈ (members (m :: ms) nodes).1.members, nodes.size < m' := by
      intro id new hnum hperm
      obtain ⟨hnodup, hbehind⟩ := ih (fun m' hm => h m' (by simp [hm])) new
      have hid : nodes.size < id := (hnum.tree ⟨new⟩ fun _ _ _ => rfl).lt
      refine ⟨hperm.nodup_iff.2 (List.nodup_cons.2 ⟨fun hmem => ?_, hnodup⟩), fun m' hm' => ?_⟩
      · have hlt := hbehind id hmem
        have hlast := hnum.last
        omega
      · rcases List.mem_cons.1 (hperm.mem_iff.1 hm') with rfl | hm'
        · exact hid
        · exact Nat.lt_of_le_of_lt hnum.grows.1 (hbehind m' hm')
    have hm := h m (by simp)
    cases m with
    | global d => exact hfront (numbered_declaration hm nodes).toNumbered (.refl _)
    | record r =>
      refine hfront (numbered_record hm nodes) ?_
      simp only [UnitNode.members, List.append_assoc]
      exact List.perm_middle
    | function f =>
      refine hfront (numbered_function hm nodes) ?_
      exact List.perm_middle

namespace Arena

variable {a : Arena} {u : UnitNode}

/-! ### Children -/

theorem Tiles.pairwise_lt {lo id : Nat} {parts : List (Nat × Nat)} (hp : ∀ p ∈ parts, p.2 < p.1)
    (h : Tiles lo parts id) : (parts.map Prod.fst).Pairwise (· < ·) := by
  induction parts generalizing lo with
  | nil => exact .nil
  | cons q rest ih =>
    obtain ⟨c, start⟩ := q
    obtain ⟨rfl, h⟩ := h
    have hrest : ∀ p ∈ rest, p.2 < p.1 := fun p hmem => hp p (by simp [hmem])
    refine List.pairwise_cons.2 ⟨fun c' hc' => ?_, ih hrest h⟩
    obtain ⟨p, hmem, rfl⟩ := List.mem_map.1 hc'
    have hbounds := (h.bounds hrest).2 p hmem
    have hlt := hrest p hmem
    dsimp only
    omega

theorem Tree.nodup_children {lo id : Nat} {k : NodeKind} (h : a.Tree lo id)
    (kind : a.kind id = .ok k) : k.children.Nodup := by
  obtain @⟨_, _, _, parts, kind', _, children, tiles, _, below⟩ := h
  cases kind'.symm.trans kind
  rw [← children]
  exact (tiles.pairwise_lt fun p hp => (below p hp).lt).imp Nat.ne_of_lt

/-- The trees of two children of a node share no node. -/
theorem Tree.children_apart {lo id c c' x : Nat} {k : NodeKind} (h : a.Tree lo id)
    (kind : a.kind id = .ok k) (hc : c ∈ k.children) (hc' : c' ∈ k.children) (hx : a.Below c x)
    (hx' : a.Below c' x) : c = c' := by
  obtain @⟨_, _, _, parts, kind', _, children, tiles, _, below⟩ := h
  cases kind'.symm.trans kind
  rw [← children, List.mem_map] at hc hc'
  obtain ⟨p, hp, rfl⟩ := hc
  obtain ⟨q, hq, rfl⟩ := hc'
  obtain ⟨start, hsub, hlo, hle⟩ := (below p hp).sub hx
  obtain ⟨start', hsub', hlo', hle'⟩ := (below q hq).sub hx'
  have hlt := hsub.lt
  have hlt' := hsub'.lt
  exact congrArg _ (tiles.eq_of_overlap (fun p hp => (below p hp).lt) hp hq (i := x)
    ⟨by omega, hle⟩ ⟨by omega, hle'⟩)

/-- Two nodes in trees with a child in common are the same. -/
theorem Tree.parent_unique {lo lo' p p' c : Nat} {k k' : NodeKind} (h : a.Tree lo p)
    (h' : a.Tree lo' p') (kind : a.kind p = .ok k) (kind' : a.kind p' = .ok k')
    (hc : c ∈ k.children) (hc' : c ∈ k'.children) : p = p' := by
  -- the smaller one would lie below a child of the other one that can only be `c` itself
  have hsmaller : ∀ {lo lo' p p' k k'}, a.Tree lo p → a.Tree lo' p' → a.kind p = .ok k →
      a.kind p' = .ok k' → c ∈ k.children → c ∈ k'.children → ¬p < p' := by
    intro lo lo' p p' k k' h h' kind kind' hc hc' hlt
    obtain ⟨start, hstart, hlo, hcp⟩ := h.child kind hc
    obtain ⟨start', hstart', hlo', hcp'⟩ := h'.child kind' hc'
    have hfirst := hstart'.lt
    have hp : a.Below p' p := h'.below_of_le (by omega) (by omega)
    cases hp with
    | self => omega
    | @child _ d _ _ kind'' hd hbelow =>
      cases kind''.symm.trans kind'
      have hcbelow : a.Below d c := hbelow.trans (.child kind hc (.self c))
      obtain rfl := h'.children_apart kind' hd hc' hcbelow (.self c)
      obtain ⟨_, -, -, hle⟩ := hstart'.sub hbelow
      omega
  exact Nat.le_antisymm (Nat.le_of_not_lt (hsmaller h' h kind' kind hc' hc))
    (Nat.le_of_not_lt (hsmaller h h' kind kind' hc hc'))

/-- A node below another one is that one or a child of a node below it. -/
theorem Below.exists_parent {id x : Nat} (h : a.Below id x) :
    x = id ∨ ∃ p k, a.Below id p ∧ a.kind p = .ok k ∧ x ∈ k.children := by
  induction h with
  | self id => exact .inl rfl
  | @child id c x k kind mem _ ih =>
    rcases ih with rfl | ⟨p, k', hbelow, hk', hx⟩
    · exact .inr ⟨id, k, .self id, kind, mem⟩
    · exact .inr ⟨p, k', .child kind mem hbelow, hk', hx⟩

/-! ### Programs -/

theorem Complete.exists_tree_of_member (h : a.Complete u) {m : NodeId} (hm : m ∈ u.members) :
    ∃ start, 1 ≤ start ∧ a.Tree start m := by
  obtain ⟨parts, hmem, htiles, htrees⟩ := h.tiled
  obtain ⟨p, hp, rfl⟩ := List.mem_map.1 ((hmem m).2 hm)
  exact ⟨p.2, ((htiles.bounds fun q hq => (htrees q hq).lt).2 p hp).1, htrees p hp⟩

/-- A node of a program is the root or lies in a tree of its own. -/
theorem Complete.exists_tree_of_kind (h : a.Complete u) {p : NodeId} {k : NodeKind}
    (kind : a.kind p = .ok k) :
    p = NodeId.root ∨ ∃ m ∈ u.members, a.Below m p ∧ ∃ start, 1 ≤ start ∧ a.Tree start p := by
  rcases h.covered kind with hroot | ⟨m, hm, hbelow⟩
  · exact .inl hroot
  · obtain ⟨start, hstart, htree⟩ := h.exists_tree_of_member hm
    obtain ⟨start', htree', hle, -⟩ := htree.sub hbelow
    exact .inr ⟨m, hm, hbelow, start', by omega, htree'⟩

/-- The members of a program have no parent but the root. -/
theorem Complete.not_mem_children (h : a.Complete u) {m p : NodeId} {k : NodeKind}
    (hm : m ∈ u.members) (kind : a.kind p = .ok k) (hp : p ≠ NodeId.root) : m ∉ k.children := by
  intro hmem
  obtain hroot | ⟨m', hm', hbelow, start, -, htree⟩ := h.exists_tree_of_kind kind
  · exact hp hroot
  · obtain rfl := h.apart hm hm' (.self m) (hbelow.trans (.child kind hmem (.self m)))
    obtain ⟨_, -, -, hlt⟩ := htree.child kind hmem
    obtain ⟨start', -, htree'⟩ := h.exists_tree_of_member hm
    obtain ⟨_, -, -, hle⟩ := htree'.sub hbelow
    omega

/-- The parent of a node: the node is one of its children, once, and has a smaller number unless the
parent is the root. -/
theorem Complete.exists_parent (h : a.Complete u) (hu : a.unit? = some u) (hnodup : u.members.Nodup)
    {x : NodeId} {k : NodeKind} (kind : a.kind x = .ok k) (hx : x ≠ NodeId.root) :
    ∃ p k, a.kind p = .ok k ∧ k.children.count x = 1 ∧ (x < p ∨ p = NodeId.root) := by
  obtain ⟨span, hroot⟩ := node_root_of_unit? hu
  obtain hroot' | ⟨m, hm, hbelow, -⟩ := h.exists_tree_of_kind kind
  · exact absurd hroot' hx
  · rcases hbelow.exists_parent with rfl | ⟨p, k', hp, hk', hmem⟩
    · exact ⟨NodeId.root, .unit u, kind_eq_ok_iff.2 ⟨span, hroot⟩,
        List.count_eq_one_of_mem hnodup hm, .inr rfl⟩
    · obtain ⟨start, -, htree⟩ := h.exists_tree_of_member hm
      obtain ⟨start', htree', -⟩ := htree.sub hp
      obtain ⟨_, -, -, hlt⟩ := htree'.child hk' hmem
      exact ⟨p, k', hk', List.count_eq_one_of_mem (htree'.nodup_children hk') hmem, .inl hlt⟩

theorem Complete.parent_unique (h : a.Complete u) (hu : a.unit? = some u) {x p p' : NodeId}
    {k k' : NodeKind} (kind : a.kind p = .ok k) (kind' : a.kind p' = .ok k')
    (hx : x ∈ k.children) (hx' : x ∈ k'.children) : p = p' := by
  obtain ⟨span, hroot⟩ := node_root_of_unit? hu
  have hmembers : ∀ {k}, a.kind NodeId.root = .ok k → k.children = u.members := by
    intro k hk
    cases (kind_eq_ok_iff.2 ⟨span, hroot⟩).symm.trans hk
    rfl
  by_cases hp : p = NodeId.root <;> by_cases hp' : p' = NodeId.root
  · rw [hp, hp']
  · subst hp
    exact absurd hx' (h.not_mem_children (hmembers kind ▸ hx) kind' hp')
  · subst hp'
    exact absurd hx (h.not_mem_children (hmembers kind' ▸ hx') kind hp)
  · obtain ⟨_, -, -, _, -, htree⟩ := (h.exists_tree_of_kind kind).resolve_left hp
    obtain ⟨_, -, -, _, -, htree'⟩ := (h.exists_tree_of_kind kind').resolve_left hp'
    exact htree.parent_unique htree' kind kind' hx hx'

/-! ### Walks -/

/-- A walk comes to no node twice if the walks from the children do not and have no node in
common. -/
theorem nodup_preorder_of_children {depth id : Nat} {k : NodeKind} {ids : List NodeId}
    (kind : a.kind id = .ok k) (hnodup : k.children.Nodup)
    (hapart : ∀ c ∈ k.children, ∀ c' ∈ k.children, ∀ x, a.Below c x → a.Below c' x → c = c')
    (hself : ∀ c ∈ k.children, ¬a.Below c id)
    (hwalk : ∀ c ∈ k.children, ∀ ids, a.preorder depth c = .ok ids → ids.Nodup)
    (h : a.preorder (depth + 1) id = .ok ids) : ids.Nodup := by
  simp only [preorder, Outcome.bind_eq_ok, Outcome.mapM_eq_ok, Outcome.pure_eq_ok] at h
  obtain ⟨k', hk', lists, hlists, rfl⟩ := h
  cases kind.symm.trans hk'
  refine List.nodup_cons.2 ⟨fun hmem => ?_, List.nodup_flatten.2 ⟨fun l hl => ?_, ?_⟩⟩
  · obtain ⟨l, hl, hid⟩ := List.mem_flatten.1 hmem
    obtain ⟨c, hc, hcl⟩ := Outcome.exists_of_forall₂_right hlists hl
    exact hself c hc ((mem_preorder hcl id).1 hid)
  · obtain ⟨c, hc, hcl⟩ := Outcome.exists_of_forall₂_right hlists hl
    exact hwalk c hc l hcl
  · generalize k.children = cs at hlists hnodup hapart
    induction hlists with
    | nil => exact .nil
    | @cons c l cs lists hcl hlists ih =>
      rw [List.nodup_cons] at hnodup
      refine List.pairwise_cons.2 ⟨fun l' hl' => List.disjoint_left.2 fun x hx hx' => ?_,
        ih hnodup.2 fun c hc c' hc' => hapart c (by simp [hc]) c' (by simp [hc'])⟩
      obtain ⟨c', hc', hcl'⟩ := Outcome.exists_of_forall₂_right hlists hl'
      obtain rfl := hapart c (by simp) c' (by simp [hc']) x ((mem_preorder hcl x).1 hx)
        ((mem_preorder hcl' x).1 hx')
      exact hnodup.1 hc'

theorem Tree.not_below {lo id c : Nat} (h : a.Tree lo c) (hlt : c < id) : ¬a.Below c id := by
  intro hbelow
  obtain ⟨_, -, -, hle⟩ := h.sub hbelow
  omega

theorem Tree.nodup_preorder {lo id depth : Nat} {ids : List NodeId} (h : a.Tree lo id)
    (hwalk : a.preorder depth id = .ok ids) : ids.Nodup := by
  induction depth generalizing lo id ids with
  | zero => cases hwalk
  | succ depth ih =>
    obtain ⟨k, hk⟩ := h.within.kind
    refine nodup_preorder_of_children hk (h.nodup_children hk)
      (fun c hc c' hc' _ => h.children_apart hk hc hc') (fun c hc => ?_) (fun c hc ids hids => ?_)
      hwalk
    · obtain ⟨_, htree, -, hlt⟩ := h.child hk hc
      exact htree.not_below hlt
    · obtain ⟨_, htree, -⟩ := h.child hk hc
      exact ih htree hids

theorem exists_kind_of_le {x : NodeId} (hpos : 1 ≤ x) (hle : x ≤ a.size) :
    ∃ k, a.kind x = .ok k := by
  obtain ⟨i, rfl⟩ := Nat.exists_eq_succ_of_ne_zero (Nat.ne_of_gt hpos)
  have hi : i < a.nodes.size := hle
  exact ⟨_, kind_eq_ok_iff.2 ⟨_, node_eq_ok_iff.2 (Array.getElem?_eq_getElem hi)⟩⟩

/-- A walk from the root succeeds and comes to every node once. -/
theorem Complete.exists_walk (h : a.Complete u) (hu : a.unit? = some u) (hnodup : u.members.Nodup) :
    ∃ ids, a.walk NodeId.root = .ok ids ∧ ids.Nodup ∧ ∀ x, x ∈ ids ↔ 1 ≤ x ∧ x ≤ a.size := by
  obtain ⟨span, hroot⟩ := node_root_of_unit? hu
  have kind : a.kind NodeId.root = .ok (.unit u) := kind_eq_ok_iff.2 ⟨span, hroot⟩
  have hparts : ∃ lists, u.members.mapM (a.preorder (2 * a.size + 1)) = .ok lists := by
    refine Outcome.exists_mapM fun m hm => ?_
    obtain ⟨start, -, htree⟩ := h.exists_tree_of_member hm
    obtain ⟨k, hk⟩ := htree.within.kind
    have hsize := le_size_of_kind hk
    exact Within.preorder ⟨start, htree, by omega⟩
  obtain ⟨lists, hlists⟩ := hparts
  have hwalk : a.walk NodeId.root = .ok (NodeId.root :: lists.flatten) := by
    simp only [walk, depthLimit, preorder, Outcome.bind_eq_ok, Outcome.pure_eq_ok]
    exact ⟨_, kind, lists, hlists, rfl⟩
  refine ⟨_, hwalk, ?_, fun x => ?_⟩
  · refine nodup_preorder_of_children kind hnodup
      (fun c hc c' hc' x hx hx' => h.apart hc hc' hx hx') (fun m hm hbelow => ?_)
      (fun m hm ids hids => ?_) hwalk
    · obtain ⟨start, hstart, htree⟩ := h.exists_tree_of_member hm
      obtain ⟨start', htree', hle, -⟩ := htree.sub hbelow
      have hlt : start' < 1 := htree'.lt
      omega
    · obtain ⟨start, -, htree⟩ := h.exists_tree_of_member hm
      exact htree.nodup_preorder hids
  · rw [mem_walk hwalk]
    constructor
    · rintro (_ | ⟨kind', hm, hbelow⟩)
      · exact bounds_of_kind kind
      · cases kind'.symm.trans kind
        obtain ⟨start, -, htree⟩ := h.exists_tree_of_member hm
        obtain ⟨_, htree', -⟩ := htree.sub hbelow
        obtain ⟨k, hk⟩ := htree'.within.kind
        exact bounds_of_kind hk
    · rintro hx
      obtain ⟨k, hk⟩ := exists_kind_of_le hx.1 hx.2
      rcases h.covered hk with rfl | ⟨m, hm, hbelow⟩
      · exact .self _
      · exact .child kind hm hbelow

end Arena

end MiniJ
