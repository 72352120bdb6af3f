import MiniJ.Proofs.Arena.Tree
import MiniJ.Semantic.Info

/-!
# Laws of annotation tables

Filling the row of a node changes no other row.
-/
namespace MiniJ

/-- A node with a kind lies in the arena. -/
theorem Arena.bounds_of_kind {a : Arena} {id : Nat} {k : NodeKind} (h : a.kind id = .ok k) :
    0 < id ∧ id ≤ a.size := by
  obtain ⟨s, hs⟩ := Arena.kind_eq_ok_iff.1 h
  rw [Arena.node_eq_ok_iff] at hs
  cases id with
  | zero => simp [Arena.node?] at hs
  | succ i =>
    obtain ⟨hi, -⟩ := Array.getElem?_eq_some_iff.1 hs
    exact ⟨by omega, hi⟩

namespace SemanticInfo

variable {α : Type} {table : Array (Option α)}

@[simp] theorem size_setRow (id : Nat) (v : α) : (setRow table id v).size = table.size := by
  simp [setRow]

theorem row_setRow_self {id : Nat} (hpos : 0 < id) (hle : id ≤ table.size) (v : α) :
    row (setRow table id v) id = some v := by
  have h : id - 1 < table.size := by omega
  simp [row, setRow, h]

theorem row_setRow_of_ne {id i : Nat} (hpos : 0 < id) (hi : 0 < i) (hne : i ≠ id) (v : α) :
    row (setRow table id v) i = row table i := by
  have h : id - 1 ≠ i - 1 := by omega
  simp [row, setRow, h]

end SemanticInfo

end MiniJ
