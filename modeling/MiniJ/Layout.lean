import MiniJ.Symbol.Table

/-!
# Storage layout

Sizes of values in memory and offsets of record fields. A `bool` takes 4 bytes and an `int` 8;
texts and arrays are handles to storage elsewhere; a record is the sequence of its fields without
gaps. Sizes are unsigned 32-bit words: a sum that does not fit is a fault.

## Main definitions

* `SymbolTable.storageSize` — the size of a type.
* `SymbolTable.field`, `SymbolTable.fields` — where the fields of a record lie.
-/
namespace MiniJ

/-- One more than the largest size: the number of 32-bit words. -/
def sizeLimit : Nat := 4294967296

/-- Sum of two sizes. -/
def addSize (a b : Nat) : Except Fault Nat :=
  if a + b < sizeLimit then .ok (a + b) else .error .sizeOverflow

/-- Size of a handle. -/
def handleSize : Nat := 8

namespace SymbolTable

/-- Adds the sizes of some fields to `total`; there is no sum when a field has no size. -/
def sumSizes (size : Ty → Except Fault (Option Nat)) : Nat → List Field →
    Except Fault (Option Nat)
  | total, [] => return some total
  | total, f :: rest => do
    match ← size f.ty with
    | none => return none
    | some n => sumSizes size (← addSize total n) rest

/-- Size of a type, where the records in `within` contain it. Records nest at most `depth` deep. -/
def sizeWithin (t : SymbolTable) (handle : Option Nat) :
    Nat → List String → Ty → Except Fault (Option Nat)
  | _, _, .bool => return some 4
  | _, _, .int => return some 8
  | _, _, .void => return none
  | _, _, .text | _, _, .array _ => return handle
  | 0, _, .record _ => return none
  | depth + 1, within, .record name => do
    if within.contains name then
      return none
    match ← t.lookupRecord name with
    | none => return none
    | some fields => sumSizes (t.sizeWithin handle depth (name :: within)) 0 fields

/-- How deep records can nest: a chain of different records is no longer than the number of names
in the global scope. -/
def recordDepth (t : SymbolTable) : Nat :=
  match t.scope? ScopeId.global with
  | some s => s.symbols.length + 1
  | none => 1

/-- Size of a type, with texts and arrays taking `handle` bytes. There is none for `void`, for
texts and arrays without a handle size, and for records that are unknown or contain themselves. -/
def storageSize (t : SymbolTable) (handle : Option Nat) (ty : Ty) : Except Fault (Option Nat) :=
  t.sizeWithin handle t.recordDepth [] ty

/-- Size of a type as it is laid out in memory. -/
def sizeOf (t : SymbolTable) (ty : Ty) : Except Fault (Option Nat) :=
  t.storageSize (some handleSize) ty

/-- Reads an offset as a signed 32-bit displacement. -/
def displacement (offset : Nat) : Int :=
  if offset < 2147483648 then offset else (offset : Int) - sizeLimit

/-- Displacement and type of the first field with this name, where `offset` bytes precede `fields`.
Only the fields before it need a size. -/
def fieldIn (t : SymbolTable) (name : String) : Nat → List Field →
    Except Fault (Option (Int × Ty))
  | _, [] => return none
  | offset, f :: rest => do
    if f.name = name then
      return some (displacement offset, f.ty)
    match ← t.sizeOf f.ty with
    | none => return none
    | some n => t.fieldIn name (← addSize offset n) rest

/-- Displacement and type of a field inside a record. -/
def field (t : SymbolTable) (record name : String) : Except Fault (Option (Int × Ty)) := do
  match ← t.lookupRecord record with
  | none => return none
  | some fields => t.fieldIn name 0 fields

/-- Displacements and types of some fields that `offset` bytes precede. -/
def fieldsFrom (t : SymbolTable) : Nat → List Field → Except Fault (Option (List (Int × Ty)))
  | _, [] => return some []
  | offset, f :: rest => do
    match ← t.sizeOf f.ty with
    | none => return none
    | some n =>
      let others ← t.fieldsFrom (← addSize offset n) rest
      return others.map ((displacement offset, f.ty) :: ·)

/-- Displacements and types of the fields of a record. -/
def fields (t : SymbolTable) (record : String) : Except Fault (Option (List (Int × Ty))) := do
  match ← t.lookupRecord record with
  | none => return none
  | some fields => t.fieldsFrom 0 fields

end SymbolTable

end MiniJ
