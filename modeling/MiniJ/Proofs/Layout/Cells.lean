import MiniJ.Proofs.Layout.Founded
import MiniJ.Proofs.Layout.Path

/-!
# Cells of a record

The leaves of a record lie behind each other without gaps, so they hold every byte of the record
exactly once. A chain of field names leads to bytes inside of the record, and chains that part lead
to different ones.

## Main definitions

* `SymbolTable.cells` — leaves with their offsets.
* `SymbolTable.Tile` — ranges that hold every byte exactly once.
* `SymbolTable.Chain` — chains of field names.

## Main statements

* `SymbolTable.tile_cells` — the cells of a record tile it.
* `SymbolTable.exists_fields_named` — fields found by name are the fields in order.
* `SymbolTable.Chain.exists_leads` — every chain leads somewhere.
-/
namespace MiniJ

open Outcome

/-- Bytes of a scalar in memory; nothing for other types. -/
def Ty.cellBytes (ty : Ty) : Nat := (ty.leafSize (some handleSize)).getD 0

namespace SymbolTable

variable {t : SymbolTable} {name : String} {ty ty' : Ty} {n o k b : Nat} {δ δ' : Int}
  {fields : List Field} {tys tys' leaves : List Ty} {p q : List String}

/-! ### Cells -/

/-- Leaves with their offsets, where `o` bytes precede them. -/
def cells : Nat → List Ty → List (Nat × Ty)
  | _, [] => []
  | o, ty :: tys => (o, ty) :: cells (o + ty.cellBytes) tys

/-- Bytes of some leaves. -/
abbrev cellsBytes (tys : List Ty) : Nat := Ty.leafBytes (some handleSize) tys

theorem cellsBytes_cons : cellsBytes (ty :: tys) = ty.cellBytes + cellsBytes tys := rfl

theorem cells_append : cells o (tys ++ tys') = cells o tys ++ cells (o + cellsBytes tys) tys' := by
  induction tys generalizing o with
  | nil => rfl
  | cons ty tys ih => simp [cells, ih, cellsBytes_cons, Nat.add_assoc]

theorem cells_add : cells (o + k) tys = (cells k tys).map fun c => (o + c.1, c.2) := by
  induction tys generalizing k with
  | nil => rfl
  | cons ty tys ih => simp [cells, ← ih, Nat.add_assoc]

theorem mem_of_mem_cells {c : Nat × Ty} (h : c ∈ cells o tys) : c.2 ∈ tys := by
  induction tys generalizing o with
  | nil => cases h
  | cons ty tys ih =>
    rcases List.mem_cons.1 h with rfl | h
    · exact .head _
    · exact .tail _ (ih h)

/-- Ranges of bytes, each with its first byte and its length, hold every byte below `n` exactly once
and no other byte. -/
def Tile (ranges : List (Nat × Nat)) (n : Nat) : Prop :=
  ∀ b, ranges.countP (fun r => r.1 ≤ b ∧ b < r.1 + r.2) = if b < n then 1 else 0

/-- How often a byte is held by cells that lie behind each other. -/
theorem countP_cells : ((cells o tys).map fun c => (c.1, c.2.cellBytes)).countP
      (fun r => r.1 ≤ b ∧ b < r.1 + r.2) =
    if o ≤ b ∧ b < o + cellsBytes tys then 1 else 0 := by
  induction tys generalizing o with
  | nil =>
    rw [if_neg (by simp)]
    rfl
  | cons ty tys ih =>
    rw [cells, List.map_cons, List.countP_cons, ih, cellsBytes_cons]
    simp only [decide_eq_true_eq]
    split_ifs <;> omega

theorem tile_cells (tys : List Ty) :
    Tile ((cells 0 tys).map fun c => (c.1, c.2.cellBytes)) (cellsBytes tys) := by
  intro b
  rw [countP_cells]
  simp

/-- The size of a type is the one of its leaves. -/
theorem exists_leaves {depth : Nat} {within : List String}
    (h : t.sizeWithin (some handleSize) depth within ty = .ok (some n)) :
    ∃ leaves, t.Expands [ty] leaves ∧ n = cellsBytes leaves := by
  obtain ⟨leaves, hleaves, hsum, -⟩ := expands_of_sizeWithin h
  exact ⟨leaves, hleaves, hsum⟩

/-! ### Fields -/

theorem forall₂_placed {sizes : List Nat} (hsizes : Sizes t.sizeOf fields sizes) :
    List.Forall₂ (fun f e => e.2 = f.ty) fields (placed o fields sizes) := by
  induction hsizes generalizing o with
  | nil => exact .nil
  | cons _ _ ih => exact .cons rfl ih

/-- The fields of a record can be laid out, and they are what is found under their names. -/
theorem exists_fields_named (hn : t.sizeOf (.record name) = .ok (some n))
    (hdistinct : ∀ fields, t.lookupRecord name = .ok (some fields) →
      (fields.map Field.name).Nodup) :
    ∃ fields found, t.lookupRecord name = .ok (some fields) ∧ t.fields name = .ok (some found) ∧
      List.Forall₂ (fun f e => t.field name f.name = .ok (some e) ∧ e.2 = f.ty) fields found := by
  obtain ⟨fields, sizes, hfields, hsizes, rfl, hlimit⟩ := sizeOf_record hn
  have hfound : t.fields name = .ok (some (placed 0 fields sizes)) := by
    rw [SymbolTable.fields, hfields]
    refine fieldsFrom_of_sizes hsizes ?_
    rcases hlimit with rfl | hlimit
    · cases hsizes
      decide
    · omega
  refine ⟨fields, _, hfields, hfound, ?_⟩
  obtain ⟨hlength, hnamed⟩ :=
    List.forall₂_iff_zip.1 (fields_named hfields (hdistinct fields hfields) hfound)
  obtain ⟨-, htypes⟩ := List.forall₂_iff_zip.1 (forall₂_placed hsizes)
  exact List.forall₂_iff_zip.2 ⟨hlength, fun hmem => ⟨hnamed hmem, htypes hmem⟩⟩

/-! ### Chains -/

/-- A chain of field names leads from a type to the type of its last field. -/
inductive Chain (t : SymbolTable) : Ty → List String → Ty → Prop
  | here (ty : Ty) : Chain t ty [] ty
  | field {record : String} {fields : List Field} {f : Field} {path : List String} {ty : Ty}
      (found : t.lookupRecord record = .ok (some fields)) (mem : f ∈ fields)
      (rest : Chain t f.ty path ty) : Chain t (.record record) (f.name :: path) ty

/-- Every chain leads to a value. -/
theorem Chain.exists_leads (hdistinct : ∀ record fields, t.lookupRecord record = .ok (some fields) →
      (fields.map Field.name).Nodup) (h : t.Chain ty p ty') (hn : t.sizeOf ty = .ok (some n)) :
    ∃ δ, t.Leads ty p δ ty' := by
  induction h generalizing n with
  | here ty => exact ⟨0, .here ty⟩
  | @field record fields f path ty found mem _ ih =>
    obtain ⟨fields', found', hfields, -, hnamed⟩ := exists_fields_named hn (hdistinct record)
    cases found.symm.trans hfields
    obtain ⟨⟨δ, inner⟩, -, hfield, rfl⟩ := exists_of_forall₂_left hnamed mem
    obtain ⟨before, k, -, hk, -⟩ := field_inside hn hfield
    obtain ⟨δ', hrest⟩ := ih hk
    exact ⟨δ + δ', .field hfield hrest⟩

/-- In a small record, what a chain leads to lies inside of the record. -/
theorem Leads.within (h : t.Leads ty p δ ty') (hn : t.sizeOf ty = .ok (some n))
    (hsmall : n < 2147483648) :
    ∃ before k : Nat, δ = before ∧ t.sizeOf ty' = .ok (some k) ∧ before + k ≤ n := by
  obtain ⟨before, k, hdisplaced, hk, hle⟩ := h.inside hn
  refine ⟨before, k, ?_, hk, hle⟩
  unfold Displaced at hdisplaced
  omega

/-- In a small record, chains that part lead to different bytes. -/
theorem Leads.disjoint {a b : Ty} {k k' : Nat} (h : t.Leads ty p δ a) (h' : t.Leads ty q δ' b)
    (hn : t.sizeOf ty = .ok (some n)) (hsmall : n < 2147483648) (hp : ¬p <+: q) (hq : ¬q <+: p)
    (hk : t.sizeOf a = .ok (some k)) (hk' : t.sizeOf b = .ok (some k')) :
    δ + k ≤ δ' ∨ δ' + k' ≤ δ := by
  obtain ⟨before, m, before', m', hd, hm, hd', hm', hle, hle', hapart⟩ := h.behind h' hn hp hq
  cases hk.symm.trans hm
  cases hk'.symm.trans hm'
  unfold Displaced at hd hd'
  omega

end SymbolTable

end MiniJ
