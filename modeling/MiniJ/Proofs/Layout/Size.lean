import MiniJ.Layout
import MiniJ.Proofs.Outcome
import Mathlib.Algebra.Order.Ring.Int

/-!
# Sizes and fields

A record is as large as its fields together, and each field lies inside of the record, behind the
fields before it.

## Main definitions

* `SymbolTable.SameRecords` — two tables that know the same records.

## Main statements

* `SymbolTable.sizeOf_record` — the size of a record is the sum of the sizes of its fields.
* `SymbolTable.field_inside`, `SymbolTable.fields_inside` — fields lie inside of their record.
* `SymbolTable.SameRecords.sizeOf` — the layout depends on nothing but the records.
-/
namespace MiniJ

open Outcome

theorem addSize_eq_ok {a b n : Nat} : addSize a b = .ok n ↔ a + b < sizeLimit ∧ n = a + b := by
  unfold addSize
  split
  · next h => simp [h, eq_comm]
  · next h => simp [h]

theorem Ty.exists_of_isRecord {ty : Ty} (h : ty.isRecord = true) : ∃ name, ty = .record name := by
  cases ty with
  | record name => exact ⟨name, rfl⟩
  | _ => cases h

namespace SymbolTable

variable {t : SymbolTable} {handle : Option Nat} {name : String} {ty : Ty} {n N : Nat}

/-! ### Sums -/

/-- The sizes of some fields. -/
def Sizes (size : Ty → Except Fault (Option Nat)) (fields : List Field) (sizes : List Nat) : Prop :=
  List.Forall₂ (fun f n => size f.ty = .ok (some n)) fields sizes

theorem sumSizes_eq_ok {size : Ty → Except Fault (Option Nat)} {fields : List Field} {total : Nat} :
    sumSizes size total fields = .ok (some n) ↔
      ∃ sizes, Sizes size fields sizes ∧ n = total + sizes.sum ∧ (fields = [] ∨ n < sizeLimit) := by
  induction fields generalizing total with
  | nil =>
    simp only [sumSizes, pure_eq_ok, Option.some.injEq, Sizes]
    constructor
    · rintro rfl
      exact ⟨[], .nil, rfl, .inl trivial⟩
    · rintro ⟨sizes, hsizes, rfl, -⟩
      cases hsizes
      rfl
  | cons f rest ih =>
    simp only [sumSizes, bind_eq_ok]
    constructor
    · rintro ⟨_ | k, hk, h⟩
      · cases h
      · obtain ⟨sum, hsum, hrest⟩ := bind_eq_ok.1 h
        obtain ⟨hlt, rfl⟩ := addSize_eq_ok.1 hsum
        obtain ⟨sizes, hsizes, rfl, hbound⟩ := ih.1 hrest
        refine ⟨k :: sizes, .cons hk hsizes, by simp [Nat.add_assoc], .inr ?_⟩
        rcases hbound with rfl | hbound
        · cases hsizes
          simpa using hlt
        · exact hbound
    · rintro ⟨sizes, hsizes, rfl, hbound⟩
      cases hsizes with
      | @cons _ k _ sizes hk hsizes =>
        have hlt : total + (k :: sizes).sum < sizeLimit := by simpa using hbound
        rw [List.sum_cons] at hlt
        refine ⟨some k, hk, bind_eq_ok.2 ⟨total + k, addSize_eq_ok.2 ⟨by omega, rfl⟩, ?_⟩⟩
        refine ih.2 ⟨sizes, hsizes, by simp [Nat.add_assoc], .inr ?_⟩
        rw [List.sum_cons]
        omega

/-! ### Types -/

variable {depth : Nat} {within : List String}

@[simp] theorem sizeWithin_bool : t.sizeWithin handle depth within .bool = .ok (some 4) := by
  cases depth <;> rfl

@[simp] theorem sizeWithin_int : t.sizeWithin handle depth within .int = .ok (some 8) := by
  cases depth <;> rfl

@[simp] theorem sizeWithin_void : t.sizeWithin handle depth within .void = .ok none := by
  cases depth <;> rfl

@[simp] theorem sizeWithin_text : t.sizeWithin handle depth within .text = .ok handle := by
  cases depth <;> rfl

@[simp] theorem sizeWithin_array {element : Ty} :
    t.sizeWithin handle depth within (.array element) = .ok handle := by
  cases depth <;> rfl

theorem sizeWithin_record :
    t.sizeWithin handle (depth + 1) within (.record name) = .ok (some n) ↔
      name ∉ within ∧ ∃ fields, t.lookupRecord name = .ok (some fields) ∧
        sumSizes (t.sizeWithin handle depth (name :: within)) 0 fields = .ok (some n) := by
  simp only [sizeWithin]
  by_cases hmem : name ∈ within
  · simp [hmem, pure_eq_ok]
  · simp only [List.contains_eq_mem, hmem, decide_false, Bool.false_eq_true, if_false, bind_eq_ok,
      not_false_eq_true, true_and]
    constructor
    · rintro ⟨_ | fields, hfields, h⟩
      · cases h
      · exact ⟨fields, hfields, h⟩
    · rintro ⟨fields, hfields, h⟩
      exact ⟨some fields, hfields, h⟩

/-- More depth and fewer records around it do not change the size of a type. -/
theorem sizeWithin_mono {depth' : Nat} {within' : List String}
    (h : t.sizeWithin handle depth within ty = .ok (some n)) (hdepth : depth ≤ depth')
    (hwithin : within' ⊆ within) : t.sizeWithin handle depth' within' ty = .ok (some n) := by
  induction depth generalizing depth' within within' ty n with
  | zero =>
    cases ty with
    | record name => cases h
    | void => simp at h
    | _ => simpa using h
  | succ depth ih =>
    cases ty with
    | record name =>
      obtain ⟨k, rfl⟩ : ∃ k, depth' = k + 1 := ⟨depth' - 1, by omega⟩
      obtain ⟨hmem, fields, hfields, hsum⟩ := sizeWithin_record.1 h
      obtain ⟨sizes, hsizes, hn, hbound⟩ := sumSizes_eq_ok.1 hsum
      refine sizeWithin_record.2 ⟨fun hin => hmem (hwithin hin), fields, hfields, ?_⟩
      refine sumSizes_eq_ok.2 ⟨sizes, hsizes.imp fun f m hm => ?_, hn, hbound⟩
      exact ih hm (by omega) (List.cons_subset_cons _ hwithin)
    | void => simp at h
    | _ => simpa using h

/-- The size of a record is the sum of the sizes of its fields. -/
theorem sizeOf_record (h : t.sizeOf (.record name) = .ok (some n)) :
    ∃ fields sizes, t.lookupRecord name = .ok (some fields) ∧ Sizes t.sizeOf fields sizes ∧
      n = sizes.sum ∧ (fields = [] ∨ n < sizeLimit) := by
  unfold sizeOf storageSize at h
  cases hdepth : t.recordDepth with
  | zero => simp [hdepth, sizeWithin, pure_eq_ok] at h
  | succ depth =>
    rw [hdepth] at h
    obtain ⟨-, fields, hfields, hsum⟩ := sizeWithin_record.1 h
    obtain ⟨sizes, hsizes, hn, hbound⟩ := sumSizes_eq_ok.1 hsum
    refine ⟨fields, sizes, hfields, hsizes.imp fun f m hm => ?_, by simpa using hn, hbound⟩
    exact sizeWithin_mono hm (by omega) (List.nil_subset _)

@[simp] theorem sizeOf_bool : t.sizeOf .bool = .ok (some 4) := sizeWithin_bool

@[simp] theorem sizeOf_int : t.sizeOf .int = .ok (some 8) := sizeWithin_int

@[simp] theorem sizeOf_text : t.sizeOf .text = .ok (some 8) := sizeWithin_text

@[simp] theorem sizeOf_array {element : Ty} : t.sizeOf (.array element) = .ok (some 8) :=
  sizeWithin_array

theorem sizeOf_void : t.sizeOf .void = .ok none := sizeWithin_void

theorem sizeOf_lt (h : t.sizeOf ty = .ok (some n)) : n < sizeLimit := by
  cases ty with
  | record name =>
    obtain ⟨fields, sizes, -, hsizes, rfl, rfl | hlt⟩ := sizeOf_record h
    · cases hsizes
      decide
    · exact hlt
  | void => simp [sizeOf_void] at h
  | _ =>
    simp only [sizeOf_bool, sizeOf_int, sizeOf_text, sizeOf_array, Except.ok.injEq,
      Option.some.injEq] at h
    subst h
    decide

/-- A value that is no record takes 4 or 8 bytes. -/
theorem sizeOf_scalar (h : t.sizeOf ty = .ok (some n)) (hscalar : ty.isRecord = false) :
    n = 4 ∧ ty = .bool ∨ n = 8 ∧ ty ≠ .bool := by
  cases ty with
  | record name => cases hscalar
  | void => simp [sizeOf_void] at h
  | _ => simp_all

/-! ### Fields -/

theorem displacement_of_lt {offset : Nat} (h : offset < 2147483648) :
    displacement offset = offset := if_pos h

/-- A field that is found lies behind the fields before it. -/
theorem fieldIn_inside {fields : List Field} {sizes : List Nat} {offset : Nat} {δ : Int}
    (hsizes : Sizes t.sizeOf fields sizes)
    (h : t.fieldIn name offset fields = .ok (some (δ, ty))) :
    ∃ before k, δ = displacement (offset + before) ∧ t.sizeOf ty = .ok (some k) ∧
      before + k ≤ sizes.sum := by
  induction hsizes generalizing offset with
  | nil => simp [fieldIn, pure_eq_ok] at h
  | @cons f k fields sizes hk hsizes ih =>
    simp only [fieldIn] at h
    split at h
    · simp only [pure_eq_ok, Option.some.injEq, Prod.mk.injEq] at h
      obtain ⟨rfl, rfl⟩ := h
      exact ⟨0, k, rfl, hk, by simp⟩
    · obtain ⟨_, hsome, hadd⟩ := bind_eq_ok.1 h
      cases hk.symm.trans hsome
      obtain ⟨sum, hsum, hrest⟩ := bind_eq_ok.1 hadd
      obtain ⟨-, rfl⟩ := addSize_eq_ok.1 hsum
      obtain ⟨before, k', rfl, hk', hle⟩ := ih hrest
      exact ⟨k + before, k', by rw [Nat.add_assoc], hk', by rw [List.sum_cons]; omega⟩

/-- A field lies inside of its record. -/
theorem field_inside {record : String} {δ : Int} (hN : t.sizeOf (.record record) = .ok (some N))
    (h : t.field record name = .ok (some (δ, ty))) :
    ∃ before k, δ = displacement before ∧ t.sizeOf ty = .ok (some k) ∧ before + k ≤ N := by
  obtain ⟨fields, sizes, hfields, hsizes, rfl, -⟩ := sizeOf_record hN
  rw [field, hfields] at h
  obtain ⟨before, k, rfl, hk, hle⟩ := fieldIn_inside hsizes h
  exact ⟨before, k, by rw [Nat.zero_add], hk, hle⟩

/-- The field that is found is the first one with its name. -/
theorem fieldIn_find {fields : List Field} {offset : Nat} {δ : Int}
    (h : t.fieldIn name offset fields = .ok (some (δ, ty))) :
    ∃ f, fields.find? (·.name == name) = some f ∧ f.ty = ty := by
  induction fields generalizing offset with
  | nil => simp [fieldIn, pure_eq_ok] at h
  | cons f fields ih =>
    simp only [fieldIn] at h
    split at h
    · next hname =>
      simp only [pure_eq_ok, Option.some.injEq, Prod.mk.injEq] at h
      exact ⟨f, by simp [hname], h.2⟩
    · next hname =>
      obtain ⟨size, hsize, hrest⟩ := bind_eq_ok.1 h
      cases size with
      | none => cases hrest
      | some n =>
        obtain ⟨sum, -, hfield⟩ := bind_eq_ok.1 hrest
        obtain ⟨g, hg, hty⟩ := ih hfield
        exact ⟨g, by simpa [hname] using hg, hty⟩

theorem field_find {record : String} {δ : Int} {fields : List Field}
    (hfields : t.lookupRecord record = .ok (some fields))
    (h : t.field record name = .ok (some (δ, ty))) :
    ∃ f, fields.find? (·.name == name) = some f ∧ f.ty = ty := by
  rw [field, hfields] at h
  exact fieldIn_find h

/-- Fields with their displacements, where `offset` bytes precede them. -/
def placed (offset : Nat) : List Field → List Nat → List (Int × Ty)
  | f :: fields, n :: sizes => (displacement offset, f.ty) :: placed (offset + n) fields sizes
  | _, _ => []

theorem fieldsFrom_eq_ok {fields : List Field} {sizes : List Nat} {offset : Nat}
    {found : List (Int × Ty)} (hsizes : Sizes t.sizeOf fields sizes)
    (h : t.fieldsFrom offset fields = .ok (some found)) : found = placed offset fields sizes := by
  induction hsizes generalizing offset found with
  | nil =>
    simp only [fieldsFrom, pure_eq_ok, Option.some.injEq] at h
    exact h.symm
  | @cons f k fields sizes hk hsizes ih =>
    obtain ⟨_, hsome, hadd⟩ := bind_eq_ok.1 h
    cases hk.symm.trans hsome
    obtain ⟨sum, hsum, hrest⟩ := bind_eq_ok.1 hadd
    obtain ⟨-, rfl⟩ := addSize_eq_ok.1 hsum
    obtain ⟨others, hothers, hmap⟩ := bind_eq_ok.1 hrest
    simp only [pure_eq_ok, Option.map_eq_some_iff] at hmap
    obtain ⟨others, rfl, rfl⟩ := hmap
    rw [placed, ih hothers]

theorem mem_placed {fields : List Field} {sizes : List Nat} {offset : Nat} {δ : Int}
    {P : Ty → Nat → Prop} (hsizes : List.Forall₂ (fun f n => P f.ty n) fields sizes)
    (h : (δ, ty) ∈ placed offset fields sizes) :
    ∃ before k, δ = displacement (offset + before) ∧ P ty k ∧ before + k ≤ sizes.sum := by
  induction hsizes generalizing offset with
  | nil => cases h
  | @cons f k fields sizes hk hsizes ih =>
    rcases List.mem_cons.1 h with heq | hmem
    · cases heq
      exact ⟨0, k, rfl, hk, by simp⟩
    · obtain ⟨before, k', rfl, hk', hle⟩ := ih hmem
      exact ⟨k + before, k', by rw [Nat.add_assoc], hk', by rw [List.sum_cons]; omega⟩

/-- A field lies inside of its record, and the records inside of it are nested one level less. -/
theorem mem_fields {record : String} {found : List (Int × Ty)} {δ : Int}
    (hdepth : depth < t.recordDepth)
    (hN : t.sizeWithin (some handleSize) (depth + 1) within (.record record) = .ok (some N))
    (h : t.fields record = .ok (some found)) (hmem : (δ, ty) ∈ found) :
    ∃ before k, δ = displacement before ∧
      t.sizeWithin (some handleSize) depth (record :: within) ty = .ok (some k) ∧
      before + k ≤ N := by
  obtain ⟨-, fields, hfields, hsum⟩ := sizeWithin_record.1 hN
  obtain ⟨sizes, hsizes, rfl, -⟩ := sumSizes_eq_ok.1 hsum
  have hsizes' : Sizes t.sizeOf fields sizes := hsizes.imp fun f n hn =>
    sizeWithin_mono hn (by omega) (List.nil_subset _)
  rw [SymbolTable.fields, hfields] at h
  rw [fieldsFrom_eq_ok hsizes' h] at hmem
  obtain ⟨before, k, rfl, hk, hle⟩ :=
    mem_placed (P := fun ty n => t.sizeWithin (some handleSize) depth (record :: within) ty =
      .ok (some n)) hsizes hmem
  exact ⟨before, k, by rw [Nat.zero_add], hk, by omega⟩

/-! ### Tables with the same records -/

/-- Two tables that know the same records lay them out alike. -/
structure SameRecords (t t' : SymbolTable) : Prop where
  lookupRecord : t'.lookupRecord = t.lookupRecord
  recordDepth : t'.recordDepth = t.recordDepth

namespace SameRecords

variable {t' : SymbolTable}

theorem sizeWithin (h : t.SameRecords t') (depth : Nat) (within : List String) :
    t'.sizeWithin handle depth within = t.sizeWithin handle depth within := by
  induction depth generalizing within with
  | zero =>
    funext ty
    cases ty <;> simp [SymbolTable.sizeWithin]
  | succ depth ih =>
    funext ty
    cases ty with
    | record name => simp only [SymbolTable.sizeWithin, h.lookupRecord, ih]
    | _ => simp [SymbolTable.sizeWithin]

theorem sizeOf (h : t.SameRecords t') : t'.sizeOf = t.sizeOf := by
  funext ty
  rw [SymbolTable.sizeOf, storageSize, h.recordDepth, h.sizeWithin, SymbolTable.sizeOf, storageSize]

theorem field (h : t.SameRecords t') : t'.field = t.field := by
  have hfield : ∀ name fields offset, t'.fieldIn name offset fields =
      t.fieldIn name offset fields := by
    intro name fields
    induction fields with
    | nil => exact fun _ => rfl
    | cons f rest ih => exact fun offset => by simp only [fieldIn, h.sizeOf, ih]
  funext record name
  simp only [SymbolTable.field, h.lookupRecord, hfield]

theorem fields (h : t.SameRecords t') : t'.fields = t.fields := by
  have hfields : ∀ fields offset, t'.fieldsFrom offset fields = t.fieldsFrom offset fields := by
    intro fields
    induction fields with
    | nil => exact fun _ => rfl
    | cons f rest ih => exact fun offset => by simp only [fieldsFrom, h.sizeOf, ih]
  funext record
  simp only [SymbolTable.fields, h.lookupRecord, hfields]

end SameRecords

end SymbolTable

end MiniJ
