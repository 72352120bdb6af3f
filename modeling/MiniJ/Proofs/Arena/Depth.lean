import MiniJ.Proofs.Arena.Tree

/-!
# Depth of trees

A tree is no deeper than the numbers it fills, so passes that descend at most `Arena.depthLimit`
levels reach all of its nodes.
-/
namespace MiniJ

namespace Arena

variable {a : Arena} {id c : Nat} {depth : Nat}

/-- The subtree at a node has at most `depth` levels. -/
def Within (a : Arena) (depth id : Nat) : Prop := ∃ lo, a.Tree lo id ∧ id - lo ≤ depth

theorem not_within_zero : ¬a.Within 0 id := by
  rintro ⟨lo, htree, hle⟩
  have := htree.lt
  omega

theorem Within.mono {depth' : Nat} (h : a.Within depth id) (hle : depth ≤ depth') :
    a.Within depth' id := by
  obtain ⟨lo, htree, hdepth⟩ := h
  exact ⟨lo, htree, by omega⟩

theorem Within.child {k : NodeKind} (h : a.Within (depth + 1) id) (hk : a.kind id = .ok k)
    (hc : c ∈ k.children) : a.Within depth c := by
  obtain ⟨lo, htree, hle⟩ := h
  obtain ⟨start, hstart, hlo, hlt⟩ := htree.child hk hc
  have := hstart.lt
  exact ⟨start, hstart, by omega⟩

theorem Within.below {x : Nat} (h : a.Within depth id) (hx : a.Below id x) : a.Within depth x := by
  obtain ⟨lo, htree, hle⟩ := h
  obtain ⟨start, hstart, hlo, hid⟩ := htree.sub hx
  exact ⟨start, hstart, by omega⟩

theorem Within.kind (h : a.Within depth id) : ∃ k, a.kind id = .ok k := by
  obtain ⟨lo, htree, -⟩ := h
  cases htree with
  | node parts kind => exact ⟨_, kind⟩

theorem Within.shaped {k : NodeKind} (h : a.Within depth id) (hk : a.kind id = .ok k) :
    a.WellShaped k := by
  obtain ⟨lo, htree, -⟩ := h
  exact htree.shaped hk

theorem le_size_of_kind {k : NodeKind} (h : a.kind id = .ok k) : id ≤ a.size := by
  obtain ⟨span, hnode⟩ := kind_eq_ok_iff.1 h
  have hsome := node_eq_ok_iff.1 hnode
  cases id with
  | zero => exact Nat.zero_le _
  | succ i => exact (Array.getElem?_eq_some_iff.1 hsome).1

theorem Tree.within {lo : Nat} (h : a.Tree lo id) : a.Within a.depthLimit id := by
  obtain ⟨k, hk⟩ : ∃ k, a.kind id = .ok k := by
    cases h with
    | node parts kind => exact ⟨_, kind⟩
  have hsize := le_size_of_kind hk
  exact ⟨lo, h, by unfold depthLimit; omega⟩

/-- A walk over a tree succeeds. -/
theorem Within.preorder (h : a.Within depth id) : ∃ ids, a.preorder depth id = .ok ids := by
  induction depth generalizing id with
  | zero => exact absurd h not_within_zero
  | succ depth ih =>
    obtain ⟨k, hk⟩ := h.kind
    have hparts : ∃ lists, k.children.mapM (a.preorder depth) = .ok lists :=
      Outcome.exists_mapM fun c hc => ih (h.child hk hc)
    obtain ⟨lists, hlists⟩ := hparts
    refine ⟨id :: lists.flatten, ?_⟩
    simp only [Arena.preorder, Outcome.bind_eq_ok, Outcome.pure_eq_ok]
    exact ⟨k, hk, lists, hlists, rfl⟩

theorem Tree.walk {lo : Nat} (h : a.Tree lo id) : ∃ ids, a.walk id = .ok ids := h.within.preorder

end Arena

end MiniJ
