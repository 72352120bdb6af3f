import MiniJ.Proofs.Arena.Tree
import MiniJ.Semantic.Binding

/-!
# Successful runs of binding

How a part of the binding pass that succeeds came about, step by step.
-/
namespace MiniJ

namespace Binding

variable {α β : Type} {s s' : State}

/-- What a part of the pass makes of the tables. -/
def outcome (x : BindM α) (s : State) : Except (Failure SemanticError) α × State := x.run s

/-- The pass takes the tables from `s` to `s'` and gives `v`. -/
def Succeeds (x : BindM α) (s : State) (v : α) (s' : State) : Prop := outcome x s = (.ok v, s')

theorem outcome_bind {x : BindM α} {f : α → BindM β} : outcome (x >>= f) s =
    match outcome x s with
    | (.ok v, t) => outcome (f v) t
    | (.error e, t) => (.error e, t) := by
  have h : outcome (x >>= f) s = outcome (ExceptT.mk (ExceptT.bindCont f (outcome x s).1))
      (outcome x s).2 :=
    rfl
  rw [h]
  rcases outcome x s with ⟨_ | _, t⟩ <;> rfl

theorem succeeds_pure {v w : α} : Succeeds (pure v) s w s' ↔ w = v ∧ s' = s := by
  have h : outcome (pure v) s = (.ok v, s) := rfl
  simp [Succeeds, h, eq_comm]

theorem succeeds_bind {x : BindM α} {f : α → BindM β} {w : β} :
    Succeeds (x >>= f) s w s' ↔ ∃ v t, Succeeds x s v t ∧ Succeeds (f v) t w s' := by
  unfold Succeeds
  rw [outcome_bind]
  rcases outcome x s with ⟨_ | v, t⟩ <;> simp

theorem succeeds_get {v : State} : Succeeds get s v s' ↔ v = s ∧ s' = s := succeeds_pure

theorem succeeds_modify {f : State → State} {v : PUnit} :
    Succeeds (modify f) s v s' ↔ s' = f s := by
  constructor
  · intro h
    cases h
    rfl
  · rintro rfl
    rfl

theorem succeeds_throw {e : Failure SemanticError} {v : α} :
    Succeeds (throw e) s v s' ↔ False := by
  constructor
  · intro h
    cases h
  · exact False.elim

theorem succeeds_fail {cause : SemanticError.Cause} {span : Span} {v : α} :
    Succeeds (fail cause span) s v s' ↔ False := succeeds_throw

/-- A check that reports an error when it fails. -/
theorem succeeds_guard {c : Prop} [Decidable c] {cause : SemanticError.Cause} {span : Span}
    {k : β → BindM α} {x : BindM α} {v : α} :
    Succeeds (if c then fail cause span >>= k else x) s v s' ↔ ¬c ∧ Succeeds x s v s' := by
  by_cases h : c <;> simp [h, succeeds_bind, succeeds_fail]

/-- Two checks that are made only under a condition. -/
theorem succeeds_guard_guard {c p q : Prop} [Decidable c] [Decidable p] [Decidable q]
    {cause cause' : SemanticError.Cause} {span span' : Span} {k k' : β → BindM α} {x : BindM α}
    {v : α} :
    Succeeds (if c then if p then fail cause span >>= k
        else if q then fail cause' span' >>= k' else x else x) s v s' ↔
      (c → ¬p ∧ ¬q) ∧ Succeeds x s v s' := by
  by_cases h : c <;> simp [h, succeeds_guard, and_assoc]

theorem succeeds_lift {x : Except Fault α} {v : α} :
    Succeeds (liftM x) s v s' ↔ x = .ok v ∧ s' = s := by
  cases x with
  | error e =>
    constructor
    · intro h
      cases h
    · rintro ⟨h, -⟩
      cases h
  | ok w =>
    constructor
    · intro h
      cases h
      exact ⟨rfl, rfl⟩
    · rintro ⟨h, rfl⟩
      cases h
      rfl

theorem succeeds_inScope {name : String} {entry : EntryId} {body : BindM Unit} {v : Unit} :
    Succeeds (inScope name entry body) s v s' ↔
      ∃ t, Succeeds body { s with table := s.table.pushScope.bind name entry } v t ∧
        s' = { t with table := t.table.popScope } := by
  have h : outcome (inScope name entry body) s =
      let r := outcome body { s with table := s.table.pushScope.bind name entry }
      (r.1, { r.2 with table := r.2.table.popScope }) := rfl
  unfold Succeeds
  rw [h]
  rcases outcome body { s with table := s.table.pushScope.bind name entry } with ⟨_ | v, t⟩ <;>
    simp [eq_comm]

end Binding

end MiniJ
