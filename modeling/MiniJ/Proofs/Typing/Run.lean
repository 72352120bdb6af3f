import MiniJ.Proofs.Semantic.Info
import MiniJ.Semantic.Typing

/-!
# Runs of type checking

How a part of the type checker that succeeds came about, and which rows of its tables a part can
change. A part that reports an error keeps what it noted, so the second question is asked of every
run.

## Main definitions

* `Typing.Succeeds` — a run without an error.
* `Typing.Within` — every run changes only the rows of some nodes.
-/
namespace MiniJ

namespace Typing

variable {α β : Type} {cx : Context} {s s' s'' : State}

/-- What a part of the pass makes of the tables. -/
def outcome (x : CheckM α) (cx : Context) (s : State) : Except (Failure SemanticError) α × State :=
  (x.run cx).run s

/-- The pass takes the tables from `s` to `s'` and gives `v`. -/
def Succeeds (x : CheckM α) (cx : Context) (s : State) (v : α) (s' : State) : Prop :=
  outcome x cx s = (.ok v, s')

theorem outcome_bind {x : CheckM α} {f : α → CheckM β} : outcome (x >>= f) cx s =
    match outcome x cx s with
    | (.ok v, t) => outcome (f v) cx t
    | (.error e, t) => (.error e, t) := by
  have h : outcome (x >>= f) cx s =
      (ExceptT.bindCont (fun v => f v cx) (outcome x cx s).1 : StateM State _) (outcome x cx s).2 :=
    rfl
  rw [h]
  rcases outcome x cx s with ⟨_ | _, t⟩ <;> rfl

theorem outcome_attempt {x : CheckM α} : outcome (attempt x) cx s =
    match outcome x cx s with
    | (.ok v, t) => (.ok (some v), t)
    | (.error (.reported _), t) => (.ok none, t)
    | (.error (.fault f), t) => (.error (.fault f), t) := by
  unfold outcome attempt
  simp only [tryCatch, tryCatchThe, MonadExceptOf.tryCatch, ReaderT.run, ReaderT.bind, bind,
    ExceptT.tryCatch, ExceptT.bind, ExceptT.run, ExceptT.mk, StateT.bind]
  rcases x cx s with ⟨(_ | _) | _, t⟩ <;> rfl

/-! ### Success -/

theorem succeeds_pure {v w : α} : Succeeds (pure v) cx s w s' ↔ w = v ∧ s' = s := by
  have h : outcome (pure v) cx s = (.ok v, s) := rfl
  simp [Succeeds, h, eq_comm]

theorem succeeds_bind {x : CheckM α} {f : α → CheckM β} {w : β} :
    Succeeds (x >>= f) cx s w s' ↔ ∃ v t, Succeeds x cx s v t ∧ Succeeds (f v) cx t w s' := by
  unfold Succeeds
  rw [outcome_bind]
  rcases outcome x cx s with ⟨_ | v, t⟩ <;> simp

theorem succeeds_read {v : Context} : Succeeds read cx s v s' ↔ v = cx ∧ s' = s := by
  have h : outcome read cx s = (.ok cx, s) := rfl
  simp [Succeeds, h, eq_comm]

theorem succeeds_modify {f : State → State} {v : PUnit} :
    Succeeds (modify f) cx s v s' ↔ s' = f s := by
  have h : outcome (modify f) cx s = (.ok ⟨⟩, f s) := rfl
  simp [Succeeds, h, eq_comm]

theorem succeeds_throw {e : Failure SemanticError} {v : α} :
    Succeeds (throw e) cx s v s' ↔ False := by
  have h : outcome (throw e : CheckM α) cx s = (.error e, s) := rfl
  simp [Succeeds, h]

theorem succeeds_fail {cause : SemanticError.Cause} {span : Span} {v : α} :
    Succeeds (fail cause span) cx s v s' ↔ False := succeeds_throw

theorem succeeds_lift {x : Except Fault α} {v : α} :
    Succeeds (liftM x) cx s v s' ↔ x = .ok v ∧ s' = s := by
  have h : outcome (liftM x) cx s = (x.mapError Failure.fault, s) := rfl
  cases x <;> simp [Succeeds, h, Except.mapError, eq_comm]

/-- A check that reports an error when it fails. -/
theorem succeeds_guard {c : Prop} [Decidable c] {y : CheckM β} {k : β → CheckM α} {x : CheckM α}
    {v : α} (hy : ∀ s w s', ¬Succeeds y cx s w s') :
    Succeeds (if c then y >>= k else x) cx s v s' ↔ ¬c ∧ Succeeds x cx s v s' := by
  by_cases h : c <;> simp [h, succeeds_bind, hy]

theorem succeeds_node {id : NodeId} {n : Node} :
    Succeeds (node id) cx s n s' ↔ cx.arena.node id = .ok n ∧ s' = s := by
  simp only [node, succeeds_bind, succeeds_read, succeeds_lift]
  constructor
  · rintro ⟨_, _, ⟨rfl, rfl⟩, h⟩
    exact h
  · intro h
    exact ⟨cx, s, ⟨rfl, rfl⟩, h⟩

theorem succeeds_mapM {f : α → CheckM β} {xs : List α} {ys : List β}
    (h : Succeeds (xs.mapM f) cx s ys s') :
    List.Forall₂ (fun x y => ∃ t t', Succeeds (f x) cx t y t') xs ys := by
  induction xs generalizing ys s s' with
  | nil =>
    obtain ⟨rfl, -⟩ := succeeds_pure.1 h
    exact .nil
  | cons x xs ih =>
    rw [List.mapM_cons] at h
    simp only [succeeds_bind, succeeds_pure] at h
    obtain ⟨y, t, hy, rest, t', hrest, rfl, -⟩ := h
    exact .cons ⟨s, t, hy⟩ (ih hrest)

/-! ### Footprints -/

/-- The tables differ only in rows of nodes with property `S`. -/
structure Keeps (S : Nat → Prop) (s s' : State) : Prop where
  size : s'.types.size = s.types.size ∧ s'.targets.size = s.targets.size
  types : ∀ i, 0 < i → ¬S i → SemanticInfo.row s'.types i = SemanticInfo.row s.types i
  targets : ∀ i, 0 < i → ¬S i → SemanticInfo.row s'.targets i = SemanticInfo.row s.targets i

theorem Keeps.refl (S : Nat → Prop) (s : State) : Keeps S s s :=
  ⟨⟨rfl, rfl⟩, fun _ _ _ => rfl, fun _ _ _ => rfl⟩

theorem Keeps.trans {S : Nat → Prop} (h : Keeps S s s') (h' : Keeps S s' s'') : Keeps S s s'' :=
  ⟨⟨h'.size.1.trans h.size.1, h'.size.2.trans h.size.2⟩,
    fun i hi hS => (h'.types i hi hS).trans (h.types i hi hS),
    fun i hi hS => (h'.targets i hi hS).trans (h.targets i hi hS)⟩

theorem Keeps.mono {S T : Nat → Prop} (h : Keeps S s s') (hST : ∀ i, S i → T i) :
    Keeps T s s' :=
  ⟨h.size, fun i hi hT => h.types i hi fun hS => hT (hST i hS),
    fun i hi hT => h.targets i hi fun hS => hT (hST i hS)⟩

/-- Every run, with or without an error, changes only rows of nodes with property `S`. -/
def Within (S : Nat → Prop) (x : CheckM α) (cx : Context) : Prop :=
  ∀ s, Keeps S s (outcome x cx s).2

variable {S T : Nat → Prop}

theorem Within.keeps {x : CheckM α} {v : α} (h : Within S x cx) (hx : Succeeds x cx s v s') :
    Keeps S s s' := by
  have hs := h s
  rw [hx] at hs
  exact hs

theorem Within.mono {x : CheckM α} (h : Within S x cx) (hST : ∀ i, S i → T i) : Within T x cx :=
  fun s => (h s).mono hST

theorem within_pure (v : α) : Within S (pure v) cx := fun s => .refl S s

theorem within_read : Within S read cx := fun s => .refl S s

theorem within_throw (e : Failure SemanticError) : Within S (throw e : CheckM α) cx :=
  fun s => .refl S s

theorem within_fail (cause : SemanticError.Cause) (span : Span) :
    Within S (fail cause span : CheckM α) cx := within_throw _

theorem within_lift (x : Except Fault α) : Within S (liftM x) cx := fun s => .refl S s

/-- The second step may depend on how the first one succeeds. -/
theorem within_bind_of {x : CheckM α} {f : α → CheckM β} (hx : Within S x cx)
    (hf : ∀ s v s', Succeeds x cx s v s' → Within S (f v) cx) : Within S (x >>= f) cx := by
  intro s
  have h := hx s
  rw [outcome_bind]
  rcases hr : outcome x cx s with ⟨_ | v, t⟩ <;> rw [hr] at h
  · exact h
  · exact h.trans (hf s v t hr t)

theorem within_bind {x : CheckM α} {f : α → CheckM β} (hx : Within S x cx)
    (hf : ∀ v, Within S (f v) cx) : Within S (x >>= f) cx :=
  within_bind_of hx fun _ v _ _ => hf v

theorem within_attempt {x : CheckM α} (hx : Within S x cx) : Within S (attempt x) cx := by
  intro s
  have h := hx s
  rw [outcome_attempt]
  generalize outcome x cx s = r at h ⊢
  rcases r with ⟨(_ | _) | _, t⟩ <;> exact h

theorem within_ite {c : Prop} [Decidable c] {x y : CheckM α} (hx : Within S x cx)
    (hy : Within S y cx) : Within S (if c then x else y) cx := by
  split
  · exact hx
  · exact hy

theorem within_node (id : NodeId) : Within S (node id) cx :=
  within_bind within_read fun _ => within_lift _

theorem within_setType {id : Nat} (hid : S id) (hpos : 0 < id) (ty : Ty) :
    Within S (setType id ty) cx := by
  intro s
  refine ⟨⟨SemanticInfo.size_setRow id ty, rfl⟩, fun i hi hS => ?_, fun _ _ _ => rfl⟩
  exact SemanticInfo.row_setRow_of_ne hpos hi (fun h => hS (h ▸ hid)) ty

theorem within_setTarget {id : Nat} (hid : S id) (hpos : 0 < id) (target : CallTarget) :
    Within S (setTarget id target) cx := by
  intro s
  refine ⟨⟨rfl, SemanticInfo.size_setRow id target⟩, fun _ _ _ => rfl, fun i hi hS => ?_⟩
  exact SemanticInfo.row_setRow_of_ne hpos hi (fun h => hS (h ▸ hid)) target

theorem within_mapM {f : α → CheckM β} {xs : List α} (h : ∀ x ∈ xs, Within S (f x) cx) :
    Within S (xs.mapM f) cx := by
  induction xs with
  | nil => exact within_pure []
  | cons x xs ih =>
    rw [List.mapM_cons]
    exact within_bind (h x (by simp)) fun y =>
      within_bind (ih fun z hz => h z (by simp [hz])) fun ys => within_pure _

end Typing

end MiniJ
