import MiniJ.Proofs.Arena.Origin
import MiniJ.Semantic.Error

/-!
# Messages on one line

Messages about a program quote its names and spell its types. Names are words, so such a message
takes one line.

## Main definitions

* `SemanticError.Cause.OneLine` — an error that names nothing with a newline.

## Main statements

* `SemanticError.Cause.OneLine.isLine` — its message takes one line.
-/
namespace MiniJ

open Text

variable {source : SourceId} {size : Nat}

theorem IsName.isLine {name : String} (h : IsName name) : IsLine name := by
  intro hmem
  unfold IsName at h
  generalize name.toList = cs at h hmem
  cases cs with
  | nil => cases hmem
  | cons c rest =>
    simp only [Written.isWord, Bool.and_eq_true, List.all_eq_true] at h
    rcases List.mem_cons.1 hmem with rfl | hmem
    · exact absurd h.1 (by decide)
    · exact absurd (h.2 _ hmem) (by decide)

/-- A type whose spelling takes one line. -/
def Ty.OneLine (ty : Ty) : Prop := IsLine ty.spelling

theorem Ty.From.oneLine {ty : Ty} (h : ty.From (.program source size)) : ty.OneLine := by
  induction ty with
  | record name => exact (h name rfl).isLine
  | array element ih =>
    unfold OneLine
    simp only [spelling, isLine_append]
    exact ⟨ih h, by decide⟩
  | void | bool | int | text =>
    unfold OneLine
    decide

/-- A variable whose declaration takes one line. -/
structure Binder.OneLine (b : Binder) : Prop where
  name : IsLine b.name
  ty : b.ty.OneLine

theorem Binder.OneLine.of_kind {b : Binder} {k : NodeKind} (hk : k.From (.program source size))
    (hb : k.binder? = some b) : b.OneLine := by
  cases k <;> cases hb
  exact ⟨hk.1.isLine, hk.2.oneLine⟩

theorem Signature.isLine_parameterList {sig : Signature} (h : ∀ b ∈ sig.params, b.OneLine) :
    IsLine sig.parameterList := by
  refine isLine_intercalate (by decide) fun s hs => ?_
  obtain ⟨b, hb, rfl⟩ := List.mem_map.1 hs
  rw [isLine_append]
  refine ⟨(h b hb).ty, ?_⟩
  split <;> decide

theorem UnaryOp.isLine_symbol (op : UnaryOp) : IsLine op.symbol := by cases op <;> decide

theorem BinaryOp.isLine_symbol (op : BinaryOp) : IsLine op.symbol := by cases op <;> decide

namespace SemanticError

/-- An error that names nothing with a newline. -/
def Cause.OneLine : Cause → Prop
  | undeclared name | notAVariable name | redefinition name _ | missingReturn name
  | undefinedRecord name | referenceToNonPlace name => IsLine name
  | duplicateFunction name signature => IsLine name ∧ ∀ b ∈ signature.params, b.OneLine
  | mainReturnType found | conditionNotBool _ found | notARecord found | notAnArray found
  | invalidIndex found | invalidUnary _ found => found.OneLine
  | returnMismatch expected found | assignmentMismatch expected found
  | invalidBinary _ expected found => expected.OneLine ∧ found.OneLine
  | noMatchingFunction name arguments => IsLine name ∧ ∀ ty, some ty ∈ arguments → ty.OneLine
  | unknownField record field => IsLine record ∧ IsLine field
  | mainHasParameters | stepOfNonPlace _ => True

theorem isLine_argumentList {arguments : List (Option Ty)}
    (h : ∀ ty, some ty ∈ arguments → ty.OneLine) : IsLine (argumentList arguments) := by
  refine isLine_intercalate (by decide) fun s hs => ?_
  obtain ⟨ty, hty, rfl⟩ := List.mem_map.1 hs
  cases ty with
  | none => decide
  | some ty => exact h ty hty

@[simp] theorem isLine_quoted {s : String} : IsLine (quoted s) ↔ IsLine s := by
  have hquote : IsLine "'" := by decide
  simp [quoted, hquote]

theorem Cause.OneLine.isLine {cause : Cause} (h : cause.OneLine) : IsLine cause.message := by
  unfold Cause.message
  cases cause with
  | undeclared name | redefinition name | missingReturn name | undefinedRecord name
  | referenceToNonPlace name =>
    simp only [isLine_append, isLine_quoted]
    exact ⟨isLine_ofList (by decide), h⟩
  | notAVariable name =>
    simp only [isLine_append, isLine_quoted]
    exact ⟨h, isLine_ofList (by decide)⟩
  | duplicateFunction name signature =>
    simp only [isLine_append, isLine_quoted]
    refine ⟨?_, ⟨⟨h.1, ?_⟩, Signature.isLine_parameterList h.2⟩, ?_⟩ <;>
      exact isLine_ofList (by decide)
  | mainReturnType found | notARecord found | notAnArray found | invalidIndex found =>
    simp only [isLine_append]
    exact ⟨isLine_ofList (by decide), h⟩
  | conditionNotBool construct found =>
    simp only [isLine_append, isLine_quoted]
    refine ⟨⟨⟨?_, ?_⟩, ?_⟩, h⟩
    · exact isLine_ofList (by decide)
    · cases construct <;> exact isLine_ofList (by decide)
    · exact isLine_ofList (by decide)
  | returnMismatch expected found =>
    simp only [isLine_append]
    refine ⟨⟨⟨?_, h.1⟩, ?_⟩, h.2⟩ <;> exact isLine_ofList (by decide)
  | assignmentMismatch expected found =>
    simp only [isLine_append]
    refine ⟨⟨⟨?_, h.2⟩, ?_⟩, h.1⟩ <;> exact isLine_ofList (by decide)
  | invalidBinary op left right =>
    simp only [isLine_append, isLine_quoted]
    refine ⟨⟨⟨⟨⟨?_, op.isLine_symbol⟩, ?_⟩, h.1⟩, ?_⟩, h.2⟩ <;> exact isLine_ofList (by decide)
  | invalidUnary op operand =>
    simp only [isLine_append, isLine_quoted]
    refine ⟨⟨⟨?_, op.isLine_symbol⟩, ?_⟩, h⟩ <;> exact isLine_ofList (by decide)
  | noMatchingFunction name arguments =>
    simp only [isLine_append, isLine_quoted]
    refine ⟨?_, ⟨⟨h.1, ?_⟩, isLine_argumentList h.2⟩, ?_⟩ <;> exact isLine_ofList (by decide)
  | unknownField record field =>
    simp only [isLine_append, isLine_quoted]
    refine ⟨⟨⟨?_, h.1⟩, ?_⟩, h.2⟩ <;> exact isLine_ofList (by decide)
  | stepOfNonPlace op =>
    simp only [isLine_append, isLine_quoted]
    exact ⟨isLine_ofList (by decide), op.isLine_symbol⟩
  | mainHasParameters => exact isLine_ofList (by decide)

end SemanticError

abbrev SemanticError.Located (source : SourceId) (size : Nat) (e : SemanticError) : Prop :=
  MiniJ.Located source size e.span e.message

end MiniJ
