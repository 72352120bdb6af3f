import MiniJ.Proofs.Layout.Size
import MiniJ.Proofs.Typing.Judgement
import Mathlib.Algebra.Order.BigOperators.Group.List
import Mathlib.Algebra.Order.Group.Nat
import Mathlib.Data.List.Perm.Subperm
import Mathlib.Logic.Relation

/-!
# Storage of known types

A type that names no unknown record has a size as soon as no record contains itself and no size
reaches the limit of a signed displacement. The bound on the depth of records is never met: a chain
of records that contain each other has no repetition, so it is no longer than the global scope.

## Main definitions

* `SymbolTable.bytes` — the bytes of a type, without a limit.
* `SymbolTable.Compact` — no record contains itself, and all of them are small.

## Main statements

* `SymbolTable.Compact.sizeOf_eq` — the size of a storable type.
* `SymbolTable.Compact.exists_fields`, `SymbolTable.Compact.exists_field` — fields can be found.
-/
namespace MiniJ

open Outcome

namespace SymbolTable

variable {t : SymbolTable} {name : String} {ty : Ty} {depth : Nat}

/-- Bytes of a value, records nested at most `depth` deep. -/
def bytesWithin (t : SymbolTable) : Nat → Ty → Nat
  | _, .void => 0
  | _, .bool => 4
  | 0, .record _ => 0
  | depth + 1, .record name =>
    match t.lookupRecord name with
    | .ok (some fields) => (fields.map fun f => t.bytesWithin depth f.ty).sum
    | _ => 0
  | _, _ => 8

/-- Bytes of a value. -/
def bytes (t : SymbolTable) (ty : Ty) : Nat := t.bytesWithin t.recordDepth ty

/-- A record has a field whose type is the other record. -/
def Contains (t : SymbolTable) (outer inner : String) : Prop :=
  ∃ fields, t.lookupRecord outer = .ok (some fields) ∧ ∃ f ∈ fields, f.ty = .record inner

/-- A type of which values can be stored. -/
structure Storable (t : SymbolTable) (ty : Ty) : Prop where
  declarable : ty.Declarable
  known : t.Knows ty

/-- No record contains itself, and all of them are small enough for signed displacements. -/
structure Compact (t : SymbolTable) : Prop where
  storable : ∀ name fields, t.lookupRecord name = .ok (some fields) → ∀ f ∈ fields, t.Storable f.ty
  acyclic : ∀ name, ¬Relation.TransGen t.Contains name name
  small : ∀ name fields, t.lookupRecord name = .ok (some fields) →
    t.bytes (.record name) < 2147483648

theorem bytesWithin_record {fields : List Field} (h : t.lookupRecord name = .ok (some fields)) :
    t.bytesWithin (depth + 1) (.record name) =
      (fields.map fun f => t.bytesWithin depth f.ty).sum := by
  simp [bytesWithin, h]

/-- Names that the global scope binds. -/
def globalNames (t : SymbolTable) : List String :=
  match t.scope? ScopeId.global with
  | some s => s.symbols.map Prod.fst
  | none => []

theorem recordDepth_eq : t.recordDepth = t.globalNames.length + 1 := by
  unfold recordDepth globalNames
  cases t.scope? ScopeId.global <;> simp

theorem mem_globalNames {fields : List Field} (h : t.lookupRecord name = .ok (some fields)) :
    name ∈ t.globalNames := by
  obtain ⟨s, e, x, d, hs, he, -, -⟩ := lookupRecord_eq_some_iff.1 h
  rw [globalNames, hs]
  exact List.mem_map.2 ⟨(name, e), Scope.mem_of_find? he, rfl⟩

theorem Storable.lookup (h : t.Storable (.record name)) :
    ∃ fields, t.lookupRecord name = .ok (some fields) := h.known name rfl

theorem Storable.element {element : Ty} (h : t.Storable (.array element)) : t.Storable element :=
  ⟨h.declarable, h.known⟩

theorem Storable.ne_void (h : t.Storable ty) : ty ≠ .void := by
  rintro rfl
  exact h.declarable rfl

/-! ### Sums -/

/-- A size without a limit, or the fault that it does not fit. -/
def bounded (n : Nat) : Except Fault (Option Nat) :=
  if n < sizeLimit then .ok (some n) else .error .sizeOverflow

theorem bounded_eq_ok {n : Nat} (h : n < sizeLimit) : bounded n = .ok (some n) := if_pos h

theorem bounded_eq_error {n : Nat} (h : sizeLimit ≤ n) : bounded n = .error .sizeOverflow :=
  if_neg (Nat.not_lt.2 h)

/-- A sum fits if and only if all of its steps do. -/
theorem sumSizes_eq_bounded {size : Ty → Except Fault (Option Nat)} (bytes : Ty → Nat)
    {fields : List Field} {total : Nat} (hsize : ∀ f ∈ fields, size f.ty = bounded (bytes f.ty))
    (htotal : total < sizeLimit) :
    sumSizes size total fields = bounded (total + (fields.map fun f => bytes f.ty).sum) := by
  induction fields generalizing total with
  | nil => exact (bounded_eq_ok htotal).symm
  | cons f rest ih =>
    rw [sumSizes, hsize f (by simp), List.map_cons, List.sum_cons, ← Nat.add_assoc]
    by_cases hf : bytes f.ty < sizeLimit
    · rw [bounded_eq_ok hf, ok_bind]
      dsimp only
      by_cases hsum : total + bytes f.ty < sizeLimit
      · rw [addSize, if_pos hsum, ok_bind, ih (fun g hg => hsize g (by simp [hg])) hsum]
      · rw [addSize, if_neg hsum, bounded_eq_error (by omega)]
        rfl
    · rw [bounded_eq_error (by omega), bounded_eq_error (by omega)]
      rfl

theorem fieldsFrom_of_sizes {fields : List Field} {sizes : List Nat} {offset : Nat}
    (hsizes : Sizes t.sizeOf fields sizes) (hlimit : offset + sizes.sum < sizeLimit) :
    t.fieldsFrom offset fields = .ok (some (placed offset fields sizes)) := by
  induction hsizes generalizing offset with
  | nil => rfl
  | @cons f k fields sizes hk hsizes ih =>
    rw [List.sum_cons] at hlimit
    have hrest : t.fieldsFrom (offset + k) fields = _ := ih (by omega)
    refine bind_eq_ok.2 ⟨some k, hk, bind_eq_ok.2 ⟨offset + k, ?_, ?_⟩⟩
    · exact addSize_eq_ok.2 ⟨by omega, rfl⟩
    · exact bind_eq_ok.2 ⟨_, hrest, rfl⟩

theorem fieldIn_of_sizes {fields : List Field} {sizes : List Nat} {offset : Nat} {f : Field}
    (hsizes : Sizes t.sizeOf fields sizes) (hlimit : offset + sizes.sum < sizeLimit)
    (hf : fields.find? (·.name == name) = some f) :
    ∃ δ, t.fieldIn name offset fields = .ok (some (δ, f.ty)) := by
  induction hsizes generalizing offset with
  | nil => cases hf
  | @cons g k fields sizes hk hsizes ih =>
    rw [List.sum_cons] at hlimit
    rw [fieldIn]
    by_cases hname : g.name = name
    · rw [List.find?_cons_of_pos (by simpa using hname)] at hf
      cases hf
      exact ⟨_, by rw [if_pos hname]; rfl⟩
    · rw [List.find?_cons_of_neg (by simpa using hname)] at hf
      obtain ⟨δ, hδ⟩ : ∃ δ, t.fieldIn name (offset + k) fields = .ok (some (δ, f.ty)) :=
        ih (by omega) hf
      refine ⟨δ, ?_⟩
      rw [if_neg hname]
      refine bind_eq_ok.2 ⟨some k, hk, bind_eq_ok.2 ⟨offset + k, ?_, hδ⟩⟩
      exact addSize_eq_ok.2 ⟨by omega, rfl⟩

/-! ### Records without cycles -/

section Acyclic

variable (hstorable : ∀ name fields, t.lookupRecord name = .ok (some fields) →
    ∀ f ∈ fields, t.Storable f.ty)
  (hacyclic : ∀ name, ¬Relation.TransGen t.Contains name name)
include hstorable hacyclic

/-- Descending into a type, inside of the records `within`, each of which contains the next, ends
before the depth does. -/
theorem nesting_induction (P : Nat → List String → Ty → Prop)
    (leaf : ∀ depth within ty, ty.isRecord = false → t.Storable ty → P (depth + 1) within ty)
    (record : ∀ depth within name fields, name ∉ within → t.lookupRecord name = .ok (some fields) →
      (∀ f ∈ fields, P depth (name :: within) f.ty) → P (depth + 1) within (.record name))
    (depth : Nat) (within : List String) (ty : Ty) (hnodup : within.Nodup)
    (hwithin : ∀ w ∈ within, w ∈ t.globalNames)
    (hchain : ∀ w ∈ within, ∀ r, ty = .record r → Relation.TransGen t.Contains w r)
    (hdepth : t.recordDepth ≤ depth + within.length) (hty : t.Storable ty) : P depth within ty := by
  induction depth generalizing within ty with
  | zero =>
    -- a chain without repetitions is shorter than the global scope
    have hle := (List.subperm_of_subset hnodup hwithin).length_le
    rw [recordDepth_eq] at hdepth
    omega
  | succ depth ih =>
    cases ty with
    | void | bool | int | text | array => exact leaf depth within _ rfl hty
    | record name =>
      obtain ⟨fields, hfields⟩ := hty.lookup
      have hfresh : name ∉ within := fun hmem => hacyclic name (hchain name hmem name rfl)
      refine record depth within name fields hfresh hfields fun f hf => ih _ _ ?_ ?_ ?_ ?_ ?_
      · exact List.nodup_cons.2 ⟨hfresh, hnodup⟩
      · intro w hw
        rcases List.mem_cons.1 hw with rfl | hw
        · exact mem_globalNames hfields
        · exact hwithin w hw
      · intro w hw r hr
        have hstep : t.Contains name r := ⟨fields, hfields, f, hf, hr⟩
        rcases List.mem_cons.1 hw with rfl | hw
        · exact .single hstep
        · exact (hchain w hw name rfl).tail hstep
      · rw [List.length_cons]
        omega
      · exact hstorable name fields hfields f hf

/-- Sizes are exact, as far as they fit their word. -/
theorem sizeOf_eq_bounded (hty : t.Storable ty) : t.sizeOf ty = bounded (t.bytes ty) := by
  refine t.nesting_induction hstorable hacyclic (fun depth within ty =>
      t.sizeWithin (some handleSize) depth within ty = bounded (t.bytesWithin depth ty))
    ?_ ?_ t.recordDepth [] ty .nil (by simp) (by simp) (by simp) hty
  · intro depth within ty hscalar hty
    cases ty with
    | void => exact absurd rfl hty.ne_void
    | record => cases hscalar
    | bool | int | text | array => rfl
  · intro depth within name fields hfresh hfields hparts
    rw [bytesWithin_record hfields, ← Nat.zero_add (List.sum _),
      ← sumSizes_eq_bounded _ hparts (by decide)]
    simp [sizeWithin, hfresh, hfields, ok_bind]

/-- A record has the bytes of its fields. -/
theorem bytes_record {fields : List Field} (hfields : t.lookupRecord name = .ok (some fields)) :
    t.bytes (.record name) = (fields.map fun f => t.bytes f.ty).sum := by
  obtain ⟨depth, hdepth⟩ : ∃ depth, t.recordDepth = depth + 1 := ⟨_, t.recordDepth_eq⟩
  rw [bytes, hdepth, bytesWithin_record hfields]
  congr 1
  refine List.map_congr_left fun f hf => ?_
  rw [bytes, hdepth]
  refine (t.nesting_induction hstorable hacyclic
    (fun depth _ ty => t.bytesWithin (depth + 1) ty = t.bytesWithin depth ty)
    ?_ ?_ depth [name] f.ty (by simp) ?_ ?_ ?_ (hstorable name fields hfields f hf)).symm
  · intro depth within ty hscalar _
    cases ty with
    | record => cases hscalar
    | void | bool | int | text | array => rfl
  · intro depth within name fields _ hfields hparts
    rw [bytesWithin_record hfields, bytesWithin_record hfields]
    exact congrArg List.sum (List.map_congr_left hparts)
  · simpa using mem_globalNames hfields
  · intro w hw r hr
    obtain rfl := List.mem_singleton.1 hw
    exact .single ⟨fields, hfields, f, hf, hr⟩
  · simp [hdepth]

end Acyclic

namespace Compact

variable (h : t.Compact)
include h

theorem bytes_lt (hty : t.Storable ty) : t.bytes ty < 2147483648 := by
  cases hr : ty with
  | record name =>
    obtain ⟨fields, hfields⟩ := (hr ▸ hty).lookup
    exact h.small name fields hfields
  | _ => rw [bytes, recordDepth_eq]; simp [bytesWithin]

/-- Storable types have a size. -/
theorem sizeOf_eq (hty : t.Storable ty) : t.sizeOf ty = .ok (some (t.bytes ty)) := by
  have hlt := h.bytes_lt hty
  rw [t.sizeOf_eq_bounded h.storable h.acyclic hty, bounded_eq_ok (by unfold sizeLimit; omega)]

/-! ### Fields -/

/-- The fields of a record with their sizes, which add up to the size of the record. -/
theorem exists_sizes {fields : List Field} (hfields : t.lookupRecord name = .ok (some fields)) :
    ∃ sizes, Sizes t.sizeOf fields sizes ∧ sizes.sum < 2147483648 := by
  have hrecord : t.Storable (.record name) :=
    ⟨by simp [Ty.Declarable, Ty.base], fun r hr => by cases hr; exact ⟨fields, hfields⟩⟩
  obtain ⟨fields', sizes, hfields', hsizes, hsum, -⟩ := sizeOf_record (h.sizeOf_eq hrecord)
  cases hfields.symm.trans hfields'
  exact ⟨sizes, hsizes, hsum ▸ h.small name fields hfields⟩

/-- The fields of a record can be laid out. -/
theorem exists_fields {fields : List Field} (hfields : t.lookupRecord name = .ok (some fields)) :
    ∃ found, t.fields name = .ok (some found) := by
  obtain ⟨sizes, hsizes, hsum⟩ := h.exists_sizes hfields
  refine ⟨placed 0 fields sizes, ?_⟩
  rw [SymbolTable.fields, hfields]
  exact fieldsFrom_of_sizes hsizes (by unfold sizeLimit; omega)

/-- A field of a record can be found. -/
theorem exists_field {fields : List Field} {field : String} {f : Field}
    (hfields : t.lookupRecord name = .ok (some fields))
    (hf : fields.find? (·.name == field) = some f) :
    ∃ δ, t.field name field = .ok (some (δ, f.ty)) := by
  obtain ⟨sizes, hsizes, hsum⟩ := h.exists_sizes hfields
  rw [SymbolTable.field, hfields]
  exact fieldIn_of_sizes hsizes (by unfold sizeLimit; omega) hf

end Compact

end SymbolTable

end MiniJ
