import MiniJ.Proofs.Machine.Arithmetic
import MiniJ.Proofs.Machine.Path

/-!
# Code at a position

The code of a statement stands somewhere inside the block of its function. Code without jumps that
stands at a position is run through from there, and where every label of a block stands once, the
block runs in one way only, as long as it calls nothing.

## Main definitions

* `Machine.CodeAt` — where some lines of a block stand.
* `Machine.DistinctLabels` — blocks in which every label stands once.

## Main statements

* `Machine.Reaches.of_runs` — running through code at a position.
* `Machine.Reaches.comparable` — paths through a block that calls nothing do not part.
-/
namespace MiniJ

namespace Machine

variable {env : Environment} {block code code' : List Line} {line : Line} {i j : Nat}
  {m m' : Machine} {x y y' z : Nat × Machine} {name : String}

/-- The lines stand in the block from this position on. -/
def CodeAt (block : List Line) (i : Nat) (code : List Line) : Prop := code <+: block.drop i

namespace CodeAt

theorem of_append (front code back : List Line) :
    CodeAt (front ++ (code ++ back)) front.length code := by
  rw [CodeAt, List.drop_left]
  exact List.prefix_append _ _

theorem left (h : CodeAt block i (code ++ code')) : CodeAt block i code :=
  (List.prefix_append _ _).trans h

theorem right (h : CodeAt block i (code ++ code')) : CodeAt block (i + code.length) code' := by
  obtain ⟨rest, hrest⟩ := h
  refine ⟨rest, ?_⟩
  rw [← List.drop_drop, ← hrest, List.append_assoc, List.drop_left]

theorem head (h : CodeAt block i (line :: code)) : block[i]? = some line := by
  obtain ⟨rest, hrest⟩ := h
  rw [← List.head?_drop, ← hrest]
  rfl

theorem tail (h : CodeAt block i (line :: code)) : CodeAt block (i + 1) code :=
  (show CodeAt block i ([line] ++ code) from h).right

/-- The line behind some code. -/
theorem behind (h : CodeAt block i (code ++ line :: code')) :
    block[i + code.length]? = some line := h.right.head

end CodeAt

/-! ### Paths -/

/-- Every label stands once. -/
def DistinctLabels (block : List Line) : Prop :=
  ∀ (i j : Nat) (name : String), block[i]? = some (Line.label name) →
    block[j]? = some (Line.label name) → i = j

namespace Reaches

theorem label (hline : block[i]? = some (.label name)) : Reaches env block (i, m) (i + 1, m) :=
  .single (.label hline)

theorem jmp (hline : block[i]? = some (.instruction .jmp [.label name]))
    (htarget : block[j]? = some (.label name)) : Reaches env block (i, m) (j, m) :=
  .single (.jmp hline htarget)

/-- Code that stands at a position is run through. -/
theorem of_runs (h : RunsTo env code m m') (hcode : CodeAt block i code) :
    Reaches env block (i, m) (i + code.length, m') := by
  induction h generalizing i with
  | nil => exact .refl
  | step _ hexec _ ih =>
    have hnext := ih hcode.tail
    rw [Nat.add_assoc, Nat.add_comm 1] at hnext
    exact .head (.exec hcode.head hexec) hnext
  | call pushed callee _ ih =>
    have hnext := ih hcode.tail
    rw [Nat.add_assoc, Nat.add_comm 1] at hnext
    exact .head (.call hcode.head pushed callee) hnext

/-- A path that begins with a jump goes on from the label. -/
theorem of_jmp (hdistinct : DistinctLabels block) (h : Reaches env block (i, m) y)
    (hline : block[i]? = some (.instruction .jmp [.label name]))
    (htarget : block[j]? = some (.label name)) (hne : y.1 ≠ i) : Reaches env block (j, m) y := by
  rcases Relation.ReflTransGen.cases_head h with rfl | ⟨z, hstep, hrest⟩
  · exact absurd rfl hne
  · obtain ⟨j', hj', rfl⟩ := hstep.of_jmp hline
    rwa [hdistinct j' j name hj' htarget] at hrest

end Reaches

/-! ### One way to run -/

/-- A line that calls nothing is run in one way. -/
theorem Step.unique (hdistinct : DistinctLabels block)
    (hcallees : ∀ name m m', ¬env.callee name m m') (h : Step env block x y)
    (h' : Step env block x y') : y = y' := by
  have hleaves : ∀ {mnemonic operands} {m m' : Machine}, m.exec env mnemonic operands = some m' →
      Step.leavesLine mnemonic = false := by
    intro mnemonic operands m m' hexec
    cases mnemonic <;> first | rfl | cases hexec
  cases h with
  | label line => exact (h'.of_label line).symm
  | exec line exec =>
    obtain ⟨m₁, hexec, rfl⟩ := h'.of_instruction line (hleaves exec)
    cases exec.symm.trans hexec
    rfl
  | call line pushed callee => exact absurd callee (hcallees _ _ _)
  | jmp line target =>
    obtain ⟨j, hj, rfl⟩ := h'.of_jmp line
    rw [hdistinct _ _ _ target hj]
  | taken line flags holds target =>
    obtain ⟨a, b, hflags, ⟨-, j, hj, rfl⟩ | ⟨hfails, -⟩⟩ := h'.of_jump line
    · rw [hdistinct _ _ _ target hj]
    · cases flags.symm.trans hflags
      cases holds.symm.trans hfails
  | passed line flags fails =>
    obtain ⟨a, b, hflags, ⟨hholds, -⟩ | ⟨-, rfl⟩⟩ := h'.of_jump line
    · cases flags.symm.trans hflags
      cases fails.symm.trans hholds
    · rfl

/-- Of two paths from one place, one is the beginning of the other. -/
theorem Reaches.comparable (hdistinct : DistinctLabels block)
    (hcallees : ∀ name m m', ¬env.callee name m m') (h : Reaches env block x y)
    (h' : Reaches env block x z) : Reaches env block z y ∨ Reaches env block y z := by
  have hunique : Relator.RightUnique (Step env block) :=
    fun _ _ _ hy hz => Step.unique hdistinct hcallees hy hz
  exact (Relation.ReflTransGen.total_of_right_unique hunique h h').symm

end Machine

end MiniJ
