import MiniJ.Fault
import Mathlib.Data.List.Forall2

/-!
# Successful outcomes

How a computation in `Except` that succeeds came about: every step of it succeeded. These are the
inversion laws that all passes share.
-/
namespace MiniJ

namespace Outcome

variable {ε α β γ : Type}

theorem bind_eq_ok {x : Except ε α} {f : α → Except ε β} {b : β} :
    (x >>= f) = .ok b ↔ ∃ a, x = .ok a ∧ f a = .ok b := by
  cases x <;> simp [bind, Except.bind]

theorem ok_bind {a : α} {f : α → Except ε β} : (Except.ok a >>= f) = f a := rfl

theorem pure_eq_ok {a b : α} : (pure a : Except ε α) = .ok b ↔ a = b := by
  simp [pure, Except.pure]

/-- The value of an outcome that is known to be a success. -/
theorem eq_ok_of_toOption {x : Except ε α} {v : α} (h : x.toOption = some v) : x = .ok v := by
  cases x with
  | error e => cases h
  | ok w => exact congrArg _ (Option.some.inj h)

theorem ok_get_toOption {x : Except ε α} (h : x.toOption.isSome) : x = .ok (x.toOption.get h) := by
  cases x with
  | error e => cases h
  | ok a => rfl

theorem throw_ne_ok {e : ε} {a : α} : (throw e : Except ε α) ≠ .ok a := by
  simp [throw, throwThe, MonadExceptOf.throw]

/-- A fault inside of a pass. -/
theorem lift_eq_ok {x : Except Fault α} {a : α} :
    (liftM x : Except (Failure ε) α) = .ok a ↔ x = .ok a := by
  cases x <;> simp [liftM, monadLift, MonadLift.monadLift, Except.mapError]

theorem lift_ok {a : α} : (liftM (Except.ok a : Except Fault α) : Except (Failure ε) α) = .ok a :=
  rfl

theorem mapM_eq_ok {f : α → Except ε β} {xs : List α} {ys : List β} :
    xs.mapM f = .ok ys ↔ List.Forall₂ (fun x y => f x = .ok y) xs ys := by
  induction xs generalizing ys with
  | nil =>
    simp only [List.mapM_nil, pure_eq_ok]
    constructor
    · rintro rfl
      exact .nil
    · rintro ⟨⟩
      rfl
  | cons x xs ih =>
    simp only [List.mapM_cons, bind_eq_ok, pure_eq_ok]
    constructor
    · rintro ⟨y, hy, ys, hys, rfl⟩
      exact .cons hy (ih.1 hys)
    · rintro (_ | ⟨hy, hys⟩)
      exact ⟨_, hy, _, ih.2 hys, rfl⟩

/-- Passes that agree on every element. -/
theorem mapM_congr {f g : α → Except ε β} {xs : List α} (h : ∀ x ∈ xs, f x = g x) :
    xs.mapM f = xs.mapM g := by
  induction xs with
  | nil => rfl
  | cons x xs ih =>
    rw [List.mapM_cons, List.mapM_cons, h x (by simp), ih fun y hy => h y (by simp [hy])]

/-- A pass over a list succeeds if it does so on every element. -/
theorem exists_mapM {f : α → Except ε β} {xs : List α} (h : ∀ x ∈ xs, ∃ y, f x = .ok y) :
    ∃ ys, xs.mapM f = .ok ys := by
  induction xs with
  | nil => exact ⟨[], rfl⟩
  | cons x xs ih =>
    obtain ⟨y, hy⟩ := h x (by simp)
    obtain ⟨ys, hys⟩ := ih fun x' hx => h x' (by simp [hx])
    exact ⟨y :: ys, mapM_eq_ok.2 (.cons hy (mapM_eq_ok.1 hys))⟩

/-- A search for an element with `P` that cannot fail. -/
theorem exists_anyM {g : α → Except ε Bool} {P : α → Prop} {xs : List α}
    (h : ∀ x ∈ xs, ∃ v, g x = .ok v ∧ (v = true ↔ P x)) :
    ∃ v, xs.anyM g = .ok v ∧ (v = true ↔ ∃ x ∈ xs, P x) := by
  induction xs with
  | nil => exact ⟨false, rfl, by simp⟩
  | cons x xs ih =>
    obtain ⟨v, hv, hP⟩ := h x (by simp)
    obtain ⟨w, hw, hQ⟩ := ih fun y hy => h y (by simp [hy])
    cases v with
    | true => exact ⟨true, by simp [List.anyM, hv, ok_bind, pure, Except.pure], by simp [hP.1 rfl]⟩
    | false => exact ⟨w, by simp [List.anyM, hv, ok_bind, hw], by rw [hQ]; simp [← hP]⟩

theorem exists_of_forall₂_left {R : α → β → Prop} {xs : List α} {ys : List β}
    (h : List.Forall₂ R xs ys) {x : α} (hx : x ∈ xs) : ∃ y ∈ ys, R x y := by
  induction h with
  | nil => simp at hx
  | cons hxy _ ih =>
    rcases List.mem_cons.1 hx with rfl | hx
    · exact ⟨_, by simp, hxy⟩
    · obtain ⟨y, hy, hR⟩ := ih hx
      exact ⟨y, by simp [hy], hR⟩

theorem exists_of_forall₂_right {R : α → β → Prop} {xs : List α} {ys : List β}
    (h : List.Forall₂ R xs ys) {y : β} (hy : y ∈ ys) : ∃ x ∈ xs, R x y := by
  obtain ⟨x, hx, hR⟩ := exists_of_forall₂_left h.flip hy
  exact ⟨x, hx, hR⟩

theorem forall₂_congr_left {R S : α → β → Prop} {xs : List α} {ys : List β}
    (h : ∀ x ∈ xs, ∀ y, R x y ↔ S x y) : List.Forall₂ R xs ys ↔ List.Forall₂ S xs ys := by
  induction xs generalizing ys with
  | nil => rw [List.forall₂_nil_left_iff, List.forall₂_nil_left_iff]
  | cons x xs ih =>
    cases ys with
    | nil => exact ⟨nofun, nofun⟩
    | cons y ys =>
      rw [List.forall₂_cons, List.forall₂_cons, h x (by simp), ih fun z hz => h z (by simp [hz])]

/-- Lists that are related through a third one. -/
theorem forall₂_exists_iff {R : α → β → Prop} {S : β → γ → Prop} {xs : List α} {zs : List γ} :
    (∃ ys, List.Forall₂ R xs ys ∧ List.Forall₂ S ys zs) ↔
      List.Forall₂ (fun x z => ∃ y, R x y ∧ S y z) xs zs := by
  constructor
  · rintro ⟨ys, hR, hS⟩
    induction hR generalizing zs with
    | nil =>
      cases hS
      exact .nil
    | cons hxy _ ih =>
      cases hS with
      | cons hyz hS => exact .cons ⟨_, hxy, hyz⟩ (ih hS)
  · intro h
    induction h with
    | nil => exact ⟨[], .nil, .nil⟩
    | cons hxz _ ih =>
      obtain ⟨y, hxy, hyz⟩ := hxz
      obtain ⟨ys, hR, hS⟩ := ih
      exact ⟨y :: ys, .cons hxy hR, .cons hyz hS⟩

/-- A pass over a list succeeds exactly if it does so on every element, and gives the values. -/
theorem mapM_eq_ok_iff_map {f : α → Except ε β} {xs : List α} {ys : List β} (default : β) :
    xs.mapM f = .ok ys ↔
      (∀ x ∈ xs, ∃ y, f x = .ok y) ∧ ys = xs.map fun x => (f x).toOption.getD default := by
  rw [mapM_eq_ok]
  constructor
  · intro h
    induction h with
    | nil => exact ⟨by simp, rfl⟩
    | cons hxy _ ih =>
      obtain ⟨hall, rfl⟩ := ih
      exact ⟨List.forall_mem_cons.2 ⟨⟨_, hxy⟩, hall⟩, by rw [List.map_cons, hxy]; rfl⟩
  · rintro ⟨hall, rfl⟩
    rw [List.forall₂_map_right_iff, List.forall₂_same]
    intro x hx
    obtain ⟨y, hy⟩ := hall x hx
    rw [hy]
    rfl

/-- A fold succeeds when it does so element by element. -/
theorem foldlM_cons_eq_ok {f : β → α → Except ε β} {x : α} {xs : List α} {b c : β} :
    (x :: xs).foldlM f b = .ok c ↔ ∃ b', f b x = .ok b' ∧ xs.foldlM f b' = .ok c := by
  simp [bind_eq_ok]

/-- A computation gives a value with `P` or fails with `E`. -/
def Settles (x : Except ε α) (P : α → Prop) (E : ε → Prop) : Prop :=
  match x with
  | .ok v => P v
  | .error e => E e

/-- A fold whose steps settle settles. -/
theorem settles_foldlM {f : β → α → Except ε β} {P : β → Prop} {E : ε → Prop} {xs : List α} {b : β}
    (h : ∀ b, ∀ x ∈ xs, P b → Settles (f b x) P E) (hb : P b) : Settles (xs.foldlM f b) P E := by
  induction xs generalizing b with
  | nil => exact hb
  | cons x xs ih =>
    have hfirst := h b x (by simp) hb
    rw [List.foldlM_cons]
    cases hx : f b x with
    | error e => rwa [hx] at hfirst
    | ok b' =>
      rw [hx] at hfirst
      exact ih (fun c y hy => h c y (by simp [hy])) hfirst

/-- A fold whose steps succeed succeeds. -/
theorem exists_foldlM {f : β → α → Except ε β} {P : β → Prop} {xs : List α} {b : β}
    (h : ∀ b, ∀ x ∈ xs, P b → ∃ c, f b x = .ok c ∧ P c) (hb : P b) :
    ∃ c, xs.foldlM f b = .ok c ∧ P c := by
  have hsettles : Settles (xs.foldlM f b) P fun _ => False := settles_foldlM (fun b x hx hb => by
    obtain ⟨c, hc, hP⟩ := h b x hx hb
    rw [hc]
    exact hP) hb
  cases hfold : xs.foldlM f b with
  | error e => rw [hfold] at hsettles; cases hsettles
  | ok c => rw [hfold] at hsettles; exact ⟨c, rfl, hsettles⟩

/-- A computation does not fail with one of the `bad` errors. -/
def Avoids (bad : ε → Prop) (x : Except ε α) : Prop := ∀ e, x = .error e → ¬bad e

namespace Avoids

variable {bad : ε → Prop}

theorem ok (v : α) : Avoids bad (.ok v) := fun _ h => nomatch h

theorem pure (v : α) : Avoids bad (Pure.pure v : Except ε α) := ok v

theorem error {e : ε} (h : ¬bad e) : Avoids bad (.error e : Except ε α) := by
  intro e' he
  cases he
  exact h

theorem bind {x : Except ε α} {g : α → Except ε β} (hx : Avoids bad x)
    (hg : ∀ v, Avoids bad (g v)) : Avoids bad (x >>= g) := by
  cases x with
  | error e =>
    intro e' he
    cases he
    exact hx e rfl
  | ok v => exact hg v

theorem mapM {g : α → Except ε β} {xs : List α} (h : ∀ x, Avoids bad (g x)) :
    Avoids bad (xs.mapM g) := by
  induction xs with
  | nil => exact pure []
  | cons x xs ih =>
    rw [List.mapM_cons]
    exact (h x).bind fun y => ih.bind fun ys => pure _

theorem foldlM {g : β → α → Except ε β} {xs : List α} {b : β}
    (h : ∀ b, ∀ x ∈ xs, Avoids bad (g b x)) : Avoids bad (xs.foldlM g b) := by
  induction xs generalizing b with
  | nil => exact pure b
  | cons x xs ih =>
    rw [List.foldlM_cons]
    exact (h b x (by simp)).bind fun _ => ih fun b y hy => h b y (by simp [hy])

end Avoids

end Outcome

end MiniJ
