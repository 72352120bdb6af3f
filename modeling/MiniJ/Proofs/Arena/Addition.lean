import MiniJ.Proofs.Arena.Coverage

/-!
# What numbering adds

Numbering a part of a program adds nodes behind the others. What is said about an added node may
look at the parts of the node, so it is said about an arena that has all of the nodes.

## Main definitions

* `Flatten.Provides` — all nodes that a step adds have a property.

## Main statements

* `Flatten.provides_expr`, `Flatten.provides_exprs` — nodes of expressions.
-/
namespace MiniJ

namespace Flatten

variable {a : Arena} {P : Node → Prop} {x y z : Array Node} {k : NodeKind} {s : Span}

/-- In an arena with the nodes of a step, all nodes that the step adds have a property. -/
structure Provides (a : Arena) (P : Node → Prop) (old new : Array Node) : Prop where
  grows : Extends old new
  added : Holds a old.size new → ∀ i, old.size ≤ i → ∀ n, new[i]? = some n → P n

theorem Provides.refl (x : Array Node) : Provides a P x x := by
  refine ⟨.refl x, fun _ i hi n hn => ?_⟩
  obtain ⟨hlt, -⟩ := Array.getElem?_eq_some_iff.1 hn
  omega

theorem Provides.trans (h : Provides a P x y) (h' : Provides a P y z) : Provides a P x z := by
  refine ⟨h.grows.trans h'.grows, fun ha i hi n hn => ?_⟩
  by_cases hlt : i < y.size
  · exact h.added (ha.of_extends h'.grows) i hi n ((h'.grows.2 i hlt).symm.trans hn)
  · exact h'.added (ha.mono h.grows.1) i (by omega) n hn

theorem Provides.push (h : Provides a P x y) (hP : Holds a x.size y → P ⟨k, s⟩) :
    Provides a P x (Flatten.push k s y).2 := by
  refine ⟨h.grows.trans (extends_push y ⟨k, s⟩), fun ha i hi n hn => ?_⟩
  have hy := ha.of_extends (extends_push y ⟨k, s⟩)
  simp only [Flatten.push, Array.getElem?_push] at hn
  split at hn
  · cases hn
    exact hP hy
  · exact h.added hy i hi n hn

theorem Provides.mapM {α : Type} {f : α → FlattenM NodeId} {ds : List α}
    (h : ∀ d ∈ ds, ∀ nodes, Provides a P nodes (f d nodes).2) (nodes : Array Node) :
    Provides a P nodes (ds.mapM f nodes).2 := by
  induction ds generalizing nodes with
  | nil => exact .refl nodes
  | cons d ds ih =>
    rw [List.mapM_cons]
    exact (h d (by simp) nodes).trans (ih (fun d' hd => h d' (by simp [hd])) _)

/-- A node of an arena that a step has added. -/
theorem Provides.node (h : Provides a P x y) (ha : Holds a x.size y) {i : Nat} {n : Node}
    (hlo : x.size < i) (hi : i ≤ y.size) (hn : a.node i = .ok n) : P n := by
  obtain ⟨i, rfl⟩ := Nat.exists_eq_succ_of_ne_zero (Nat.ne_zero_of_lt hlo)
  have hsome : a.nodes[i]? = some n := Arena.node_eq_ok_iff.1 hn
  exact h.added ha i (by omega) n ((ha i (by omega) hi).symm.trans hsome)

/-- The node that was added last. -/
theorem Holds.node_last {lo : Nat} (h : Holds a lo (x.push ⟨k, s⟩)) (hlo : lo ≤ x.size) :
    a.node (x.size + 1) = .ok ⟨k, s⟩ :=
  Arena.node_eq_ok_iff.2 (by simpa [Arena.node?] using h x.size hlo (by simp))

/-! ### Expressions -/

mutual

/-- All nodes of expressions have a property that all expressions have. -/
theorem provides_expr (hP : ∀ n : Node, n.kind.role = .expression → P n) (e : Expr)
    (nodes : Array Node) : Provides a P nodes (expr e nodes).2 := by
  match e with
  | .int .. | .text .. | .bool .. | .var .. => exact (Provides.refl nodes).push fun _ => hP _ rfl
  | .field _ base _ => exact (provides_expr hP base nodes).push fun _ => hP _ rfl
  | .unary _ _ operand => exact (provides_expr hP operand nodes).push fun _ => hP _ rfl
  | .element _ base index =>
    exact ((provides_expr hP base nodes).trans (provides_expr hP index _)).push fun _ => hP _ rfl
  | .binary _ _ left right =>
    exact ((provides_expr hP left nodes).trans (provides_expr hP right _)).push fun _ => hP _ rfl
  | .call _ _ args => exact (provides_exprs hP args nodes).push fun _ => hP _ rfl

theorem provides_exprs (hP : ∀ n : Node, n.kind.role = .expression → P n) (args : List Expr)
    (nodes : Array Node) : Provides a P nodes (exprs args nodes).2 := by
  match args with
  | [] => exact .refl nodes
  | e :: rest => exact (provides_expr hP e nodes).trans (provides_exprs hP rest _)

end

end Flatten

end MiniJ
