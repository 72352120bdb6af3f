import MiniJ.Proofs.Arena.Alike
import MiniJ.Proofs.Arena.Tree

/-!
# Replacing a node

An arena with another kind of node at one number. All other nodes stay as they are.

## Main definitions

* `Arena.replace` — another kind of node at a number.

## Main statements

* `Arena.alike_replace` — a container may be replaced by another one.
-/
namespace MiniJ

namespace Arena

variable {a : Arena} {id x : NodeId} {k k' : NodeKind}

/-- The arena with another kind of node at a number, read from the same text. -/
def replace (a : Arena) : NodeId → NodeKind → Arena
  | 0, _ => a
  | i + 1, k => ⟨a.nodes.modify i fun n => { n with kind := k }⟩

@[simp] theorem size_replace : (a.replace id k).size = a.size := by
  cases id with
  | zero => rfl
  | succ i => exact Array.size_modify

theorem node?_replace_of_ne (h : x ≠ id) : (a.replace id k).node? x = a.node? x := by
  cases id with
  | zero => rfl
  | succ i =>
    cases x with
    | zero => rfl
    | succ j =>
      have hne : i ≠ j := fun heq => h (by rw [heq])
      exact (Array.getElem?_modify ..).trans (if_neg hne)

theorem node_replace_of_ne (h : x ≠ id) : (a.replace id k).node x = a.node x := by
  rw [node, node?_replace_of_ne h, node]

theorem kind_replace_of_ne (h : x ≠ id) : (a.replace id k).kind x = a.kind x := by
  rw [kind, node_replace_of_ne h, kind]

theorem node_replace_self {n : Node} (h : a.node id = .ok n) :
    (a.replace id k).node id = .ok { n with kind := k } := by
  rw [node_eq_ok_iff] at h ⊢
  cases id with
  | zero => cases h
  | succ i =>
    have hsome : a.nodes[i]? = some n := h
    refine (Array.getElem?_modify ..).trans ?_
    rw [if_pos rfl, hsome]
    rfl

theorem alike_replace (hk : a.kind id = .ok k) (hcontainer : k.isContainer = true)
    (hcontainer' : k'.isContainer = true) : a.Alike (a.replace id k') where
  size := size_replace.symm
  node x := by
    by_cases hx : x = id
    · subst hx
      obtain ⟨span, hnode⟩ := kind_eq_ok_iff.1 hk
      exact .inr ⟨_, _, hnode, node_replace_self hnode, .inr ⟨rfl, hcontainer, hcontainer'⟩⟩
    · rw [node_replace_of_ne hx]
      cases hnode : a.node x with
      | error e => exact .inl ⟨e, rfl, rfl⟩
      | ok n => exact .inr ⟨n, n, rfl, rfl, .inl rfl⟩

end Arena

end MiniJ
