import MiniJ.Proofs.Layout.Founded
import MiniJ.Proofs.Layout.Storage
import Mathlib.Algebra.Order.Ring.Nat

/-!
# The limits of sizes and offsets

Sizes and offsets are computed in words. As long as no record contains itself and every record is
small, none of these computations meets its limit: sizes, sums of sizes and the displacements of
fields are the ones of unbounded arithmetic. Records reach the limit quickly, though: a record with
two fields of the previous record is twice as large, so that thirty declarations suffice.

## Main definitions

* `SymbolTable.offsets` — the displacements of fields, without a limit.
* `SymbolTable.ExactLayout` — all sizes and displacements are the ones without a limit.
* `SymbolTable.Doubles` — a tower of records, each with two fields of the previous one.

## Main statements

* `SymbolTable.Compact.exactLayout` — small records are laid out exactly.
* `SymbolTable.Doubles.bytes_eq` — a tower grows exponentially.
-/
namespace MiniJ

open Outcome

namespace SymbolTable

variable {t : SymbolTable} {name : String} {ty : Ty}

/-! ### Displacements -/

/-- Displacements and types of fields that `offset` bytes precede, without a limit. -/
def offsets (t : SymbolTable) : Nat → List Field → List (Int × Ty)
  | _, [] => []
  | offset, f :: rest => ((offset : Int), f.ty) :: t.offsets (offset + t.bytes f.ty) rest

/-- Sizes and displacements are the ones of unbounded arithmetic. -/
structure ExactLayout (t : SymbolTable) : Prop where
  size : ∀ ty, t.Storable ty → t.sizeOf ty = .ok (some (t.bytes ty))
  sum : ∀ name fields, t.lookupRecord name = .ok (some fields) →
    t.bytes (.record name) = (fields.map fun f => t.bytes f.ty).sum
  fields : ∀ name fields, t.lookupRecord name = .ok (some fields) →
    t.fields name = .ok (some (t.offsets 0 fields))
  /-- A field lies right behind the fields before it. -/
  field : ∀ name before f after, t.lookupRecord name = .ok (some (before ++ f :: after)) →
    (∀ g ∈ before, g.name ≠ f.name) →
    t.field name f.name = .ok (some (((before.map fun g => t.bytes g.ty).sum : Nat), f.ty))

/-- Fields that together fit are placed without wrapping. -/
theorem placed_eq_offsets {fields : List Field} {offset : Nat}
    (h : offset + (fields.map fun f => t.bytes f.ty).sum < 2147483648) :
    placed offset fields (fields.map fun f => t.bytes f.ty) = t.offsets offset fields := by
  induction fields generalizing offset with
  | nil => rfl
  | cons f rest ih =>
    rw [List.map_cons, List.sum_cons] at h
    rw [List.map_cons, placed, offsets, displacement_of_lt (by omega), ih (by omega)]

theorem fieldIn_eq {before after : List Field} {f : Field} {offset : Nat}
    (hsizes : ∀ g ∈ before, t.sizeOf g.ty = .ok (some (t.bytes g.ty)))
    (hother : ∀ g ∈ before, g.name ≠ f.name)
    (h : offset + (before.map fun g => t.bytes g.ty).sum < 2147483648) :
    t.fieldIn f.name offset (before ++ f :: after) =
      .ok (some ((offset + (before.map fun g => t.bytes g.ty).sum : Nat), f.ty)) := by
  induction before generalizing offset with
  | nil =>
    rw [List.nil_append, fieldIn, if_pos rfl, List.map_nil, List.sum_nil, Nat.add_zero,
      displacement_of_lt (by simpa using h)]
    rfl
  | cons g before ih =>
    rw [List.map_cons, List.sum_cons] at h
    rw [List.cons_append, fieldIn, if_neg (hother g (by simp)), hsizes g (by simp), ok_bind,
      List.map_cons, List.sum_cons, ← Nat.add_assoc]
    dsimp only
    rw [addSize, if_pos (by unfold sizeLimit; omega), ok_bind]
    exact ih (fun k hk => hsizes k (by simp [hk])) (fun k hk => hother k (by simp [hk])) (by omega)

/-- Small records are laid out exactly. -/
theorem Compact.exactLayout (h : t.Compact) : t.ExactLayout := by
  have hsizeOf : ∀ {name fields}, t.lookupRecord name = .ok (some fields) → ∀ f ∈ fields,
      t.sizeOf f.ty = .ok (some (t.bytes f.ty)) :=
    fun hfields f hf => h.sizeOf_eq (h.storable _ _ hfields f hf)
  have hsum : ∀ name fields, t.lookupRecord name = .ok (some fields) →
      t.bytes (.record name) = (fields.map fun f => t.bytes f.ty).sum :=
    fun name fields hfields => t.bytes_record h.storable h.acyclic hfields
  have hsmall : ∀ {name fields}, t.lookupRecord name = .ok (some fields) →
      (fields.map fun f => t.bytes f.ty).sum < 2147483648 :=
    fun hfields => hsum _ _ hfields ▸ h.small _ _ hfields
  refine ⟨fun ty hty => h.sizeOf_eq hty, hsum, fun name fields hfields => ?_,
    fun name before f after hfields hother => ?_⟩
  · have htotal := hsmall hfields
    have hsizes : Sizes t.sizeOf fields (fields.map fun f => t.bytes f.ty) := by
      rw [Sizes, List.forall₂_map_right_iff]
      exact List.forall₂_same.2 fun f hf => hsizeOf hfields f hf
    rw [SymbolTable.fields, hfields, ok_bind]
    dsimp only
    rw [fieldsFrom_of_sizes hsizes (by unfold sizeLimit; omega), placed_eq_offsets (by omega)]
  · have htotal := hsmall hfields
    rw [List.map_append, List.sum_append] at htotal
    rw [SymbolTable.field, hfields, ok_bind]
    dsimp only
    rw [fieldIn_eq (fun g hg => hsizeOf hfields g (by simp [hg])) hother (by omega), Nat.zero_add]

/-- No record contains itself if records only contain records of a lower rank. -/
theorem acyclic_of_rank (rank : String → Nat)
    (h : ∀ outer inner, t.Contains outer inner → rank inner < rank outer) :
    ∀ name, ¬Relation.TransGen t.Contains name name := by
  have hlt : ∀ {outer inner}, Relation.TransGen t.Contains outer inner →
      rank inner < rank outer := by
    intro outer inner hchain
    induction hchain with
    | single hstep => exact h _ _ hstep
    | tail _ hstep ih => exact (h _ _ hstep).trans ih
  exact fun name hchain => Nat.lt_irrefl _ (hlt hchain)

/-! ### Overflow -/

/-- A sum overflows as soon as its first fields do, also when others have no size. -/
theorem sumSizes_overflows {size : Ty → Except Fault (Option Nat)} (bytes : Ty → Nat)
    {before after : List Field} {total : Nat}
    (hsize : ∀ f ∈ before, size f.ty = bounded (bytes f.ty)) (htotal : total < sizeLimit)
    (h : sizeLimit ≤ total + (before.map fun f => bytes f.ty).sum) :
    sumSizes size total (before ++ after) = .error .sizeOverflow := by
  induction before generalizing total with
  | nil => exact absurd h (Nat.not_le.2 htotal)
  | cons f rest ih =>
    rw [List.map_cons, List.sum_cons, ← Nat.add_assoc] at h
    rw [List.cons_append, sumSizes, hsize f (by simp)]
    by_cases hsum : total + bytes f.ty < sizeLimit
    · rw [bounded_eq_ok (by omega), ok_bind]
      dsimp only
      rw [addSize, if_pos hsum, ok_bind]
      exact ih (fun g hg => hsize g (by simp [hg])) hsum h
    · by_cases hf : bytes f.ty < sizeLimit
      · rw [bounded_eq_ok hf, ok_bind]
        dsimp only
        rw [addSize, if_neg hsum]
        rfl
      · rw [bounded_eq_error (by omega)]
        rfl

/-- A record overflows as soon as its first fields do, also when it contains itself. -/
theorem sizeOf_overflows (bytes : Ty → Nat) {before after : List Field}
    (hfields : t.lookupRecord name = .ok (some (before ++ after)))
    (hsize : ∀ f ∈ before,
      t.sizeWithin (some handleSize) t.recordDepth [name] f.ty = bounded (bytes f.ty))
    (h : sizeLimit ≤ (before.map fun f => bytes f.ty).sum) :
    t.sizeOf (.record name) = .error .sizeOverflow := by
  rw [sizeOf, storageSize, sizeWithin_recordDepth, if_neg (by simp), hfields]
  exact sumSizes_overflows bytes hsize (by decide) (by omega)

/-! ### Records that double -/

/-- Records with these names, each of which has two fields of the previous one. -/
structure Doubles (t : SymbolTable) (name : Nat → String) (top : Nat) : Prop where
  base : t.lookupRecord (name 0) = .ok (some [⟨"a", .int⟩, ⟨"b", .int⟩])
  step : ∀ k < top, t.lookupRecord (name (k + 1)) =
    .ok (some [⟨"a", .record (name k)⟩, ⟨"b", .record (name k)⟩])
  distinct : ∀ j ≤ top, ∀ k ≤ top, name j = name k → j = k

/-- A tower of records grows exponentially, also inside of other records. -/
theorem Doubles.sizeWithin_eq {names : Nat → String} {top n depth : Nat} {within : List String}
    (h : t.Doubles names top) (hn : n ≤ top) (hdepth : n < depth)
    (hwithin : ∀ k ≤ n, names k ∉ within) :
    t.sizeWithin (some handleSize) depth within (.record (names n)) = bounded (16 * 2 ^ n) := by
  induction n generalizing depth within with
  | zero =>
    obtain ⟨depth, rfl⟩ : ∃ k, depth = k + 1 := ⟨depth - 1, by omega⟩
    simp [sizeWithin, hwithin 0 (by simp), h.base, sumSizes, ok_bind, addSize, sizeLimit, bounded]
  | succ n ih =>
    obtain ⟨depth, rfl⟩ : ∃ k, depth = k + 1 := ⟨depth - 1, by omega⟩
    have hinner : ∀ f ∈ [Field.mk "a" (.record (names n)), ⟨"b", .record (names n)⟩],
        t.sizeWithin (some handleSize) depth (names (n + 1) :: within) f.ty =
          bounded (16 * 2 ^ n) := by
      have hfresh : ∀ k ≤ n, names k ∉ names (n + 1) :: within := by
        intro k hk hmem
        rcases List.mem_cons.1 hmem with heq | hmem
        · have := h.distinct k (by omega) (n + 1) (by omega) heq
          omega
        · exact hwithin k (by omega) hmem
      simpa using ih (by omega) (by omega) hfresh
    have hsum := sumSizes_eq_bounded (fun _ => 16 * 2 ^ n) hinner (show 0 < sizeLimit by decide)
    simp only [sizeWithin, List.contains_eq_mem, hwithin (n + 1) (by simp), decide_false,
      Bool.false_eq_true, if_false, h.step n (by omega), ok_bind]
    rw [hsum]
    congr 1
    simp only [List.map_cons, List.map_nil, List.sum_cons, List.sum_nil]
    rw [Nat.pow_succ]
    omega

end SymbolTable

end MiniJ
