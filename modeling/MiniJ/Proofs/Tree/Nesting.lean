import MiniJ.Proofs.Source.Span
import MiniJ.Token
import MiniJ.Tree

/-!
# Nested spans

The span of a part of a program reaches from the start of a token to the end of a token, and it
holds the spans of the parts of that part, one behind the other. Parentheses around an expression
belong to no span.

## Main definitions

* `Span.Arranged` — spans behind each other, between two offsets.
* `Span.Frames` — a span that holds the spans of some parts.
* `Program.Nested` — every span of a program holds those of the parts.

## Main statements

* `Span.Cut.merge`, `Span.Frames.merge` — merged spans.
-/
namespace MiniJ

variable {source : SourceId} {tokens : List Token}

/-! ### Spans -/

namespace Span

variable {lo mid hi lo' hi' : Nat} {s a b : Span} {l l' parts : List Span}

theorem offset_le_stop (s : Span) : s.offset ≤ s.stop := Nat.le_add_right ..

/-- Spans behind each other, all of them between two offsets. -/
def Arranged : Nat → Nat → List Span → Prop
  | lo, hi, [] => lo ≤ hi
  | lo, hi, s :: rest => lo ≤ s.offset ∧ Arranged s.stop hi rest

theorem arranged_singleton : Arranged lo hi [s] ↔ lo ≤ s.offset ∧ s.stop ≤ hi := Iff.rfl

theorem arranged_pair : Arranged lo hi [a, b] ↔ lo ≤ a.offset ∧ a.stop ≤ b.offset ∧ b.stop ≤ hi :=
  Iff.rfl

theorem Arranged.le (h : Arranged lo hi l) : lo ≤ hi := by
  induction l generalizing lo with
  | nil => exact h
  | cons s rest ih => exact Nat.le_trans h.1 (Nat.le_trans s.offset_le_stop (ih h.2))

theorem Arranged.mono (h : Arranged lo hi l) (hlo : lo' ≤ lo) (hhi : hi ≤ hi') :
    Arranged lo' hi' l := by
  induction l generalizing lo lo' with
  | nil => exact Nat.le_trans hlo (Nat.le_trans h hhi)
  | cons s rest ih => exact ⟨Nat.le_trans hlo h.1, ih h.2 (Nat.le_refl _)⟩

theorem Arranged.append (h : Arranged lo mid l) (h' : Arranged mid hi l') :
    Arranged lo hi (l ++ l') := by
  induction l generalizing lo with
  | nil => exact h'.mono h (Nat.le_refl _)
  | cons s rest ih => exact ⟨h.1, ih h.2⟩

theorem Arranged.inside (h : Arranged lo hi l) : ∀ s ∈ l, lo ≤ s.offset ∧ s.stop ≤ hi := by
  induction l generalizing lo with
  | nil => simp
  | cons s rest ih =>
    refine List.forall_mem_cons.2 ⟨⟨h.1, h.2.le⟩, fun t ht => ?_⟩
    obtain ⟨hoffset, hstop⟩ := ih h.2 t ht
    exact ⟨Nat.le_trans h.1 (Nat.le_trans s.offset_le_stop hoffset), hstop⟩

/-- The end may be anywhere behind the last span. -/
theorem Arranged.until (h : Arranged lo hi l) (hlo : lo ≤ hi') (hl : ∀ s ∈ l, s.stop ≤ hi') :
    Arranged lo hi' l := by
  induction l generalizing lo with
  | nil => exact hlo
  | cons s rest ih =>
    exact ⟨h.1, ih h.2 (hl s (by simp)) fun t ht => hl t (by simp [ht])⟩

/-- Lists of single spans. -/
theorem Arranged.of_flatMap {α : Type} {f : α → Span} {vs : List α}
    (h : Arranged lo hi (vs.flatMap fun v => [f v])) : Arranged lo hi (vs.map f) := by
  rwa [List.map_eq_flatMap]

theorem Arranged.pairwise (h : Arranged lo hi l) : l.Pairwise fun s t => s.stop ≤ t.offset := by
  induction l generalizing lo with
  | nil => exact .nil
  | cons s rest ih => exact .cons (fun t ht => (h.2.inside t ht).1) (ih h.2)

/-- The last span need not stop in front of the end. -/
theorem Arranged.last (h : Arranged lo hi (l ++ [s])) :
    Arranged lo s.stop (l ++ [s]) ∧ lo ≤ s.offset ∧ s.stop ≤ hi := by
  refine ⟨?_, h.inside s (by simp)⟩
  induction l generalizing lo with
  | nil => exact ⟨h.1, Nat.le_refl _⟩
  | cons t rest ih => exact ⟨h.1, ih h.2⟩

/-- A span of a program that starts where a token starts and stops where a token stops. -/
structure Cut (source : SourceId) (tokens : List Token) (s : Span) : Prop where
  source : s.source = (ofRange source 0 0).source
  starts : ∃ t ∈ tokens, s.offset = t.span.offset
  stops : ∃ t ∈ tokens, s.stop = t.span.stop
  filled : s.offset < s.stop
  fits : s.stop < fieldLimit

/-- Spans of a program are merged from the start of the first one to the end of the last one. -/
theorem Cut.merge (ha : Cut source tokens a) (hb : Cut source tokens b)
    (hoffset : a.offset ≤ b.offset) (hstop : a.stop ≤ b.stop) :
    Cut source tokens (a.merge b) ∧ (a.merge b).offset = a.offset ∧ (a.merge b).stop = b.stop := by
  have hfilled := hb.filled
  have hfits := hb.fits
  have hmerge : a.merge b = ofRange a.source a.offset (b.stop - a.offset) := by
    rw [Span.merge, if_pos (by rw [ha.source, hb.source, beq_self_eq_true]),
      Nat.min_eq_left hoffset, Nat.max_eq_right hstop]
  have hend : (a.merge b).stop = b.stop := by
    rw [hmerge, stop_ofRange (by omega)]
    omega
  have hstart : (a.merge b).offset = a.offset := by
    rw [hmerge, offset_ofRange, clamp_of_lt (by omega)]
  refine ⟨⟨?_, hstart ▸ ha.starts, hend ▸ hb.stops, by omega, by omega⟩, hstart, hend⟩
  rw [hmerge, source_ofRange a.source_pos a.source_lt, ha.source]

/-- A span that holds the spans of some parts, one behind the other. -/
structure Frames (source : SourceId) (tokens : List Token) (s : Span) (parts : List Span) :
    Prop where
  cut : s.Cut source tokens
  parts : Arranged s.offset s.stop parts

theorem Cut.frames (h : Cut source tokens s) : s.Frames source tokens [] := ⟨h, s.offset_le_stop⟩

/-- A span from the start of one token to the end of a later one. -/
theorem Frames.merge (parts : List Span) (ha : Cut source tokens a) (hb : Cut source tokens b)
    (hlo : lo ≤ a.offset) (hmid : a.stop ≤ b.offset) (hhi : b.stop ≤ hi)
    (hparts : Arranged a.offset b.stop parts) :
    (a.merge b).Frames source tokens parts ∧ Arranged lo hi [a.merge b] := by
  have hoffset := a.offset_le_stop
  have hstop := b.offset_le_stop
  obtain ⟨hcut, hstart, hend⟩ := ha.merge hb (by omega) (by omega)
  refine ⟨⟨hcut, by rwa [hstart, hend]⟩, ?_, ?_⟩
  · rwa [hstart]
  · rwa [hend]

/-- A span from the start of a token to the end of the last part behind it. -/
theorem Frames.merge_last (ha : Cut source tokens a) (hs : Cut source tokens s)
    (hlo : lo ≤ a.offset) (h : Arranged a.stop hi (l ++ [s])) :
    (a.merge s).Frames source tokens (l ++ [s]) ∧ Arranged lo hi [a.merge s] :=
  Frames.merge _ ha hs hlo h.last.2.1 h.last.2.2 (h.last.1.mono a.offset_le_stop (Nat.le_refl _))

end Span

open MiniJ.Span

/-! ### Trees -/

def Expr.parts : Expr → List Expr
  | .int .. | .text .. | .bool .. | .var .. => []
  | .field _ base _ => [base]
  | .element _ base index => [base, index]
  | .unary _ _ operand => [operand]
  | .binary _ _ left right => [left, right]
  | .call _ _ args => args

/-- The span of an expression holds those of its parts, and so on. -/
inductive Expr.Nested (source : SourceId) (tokens : List Token) : Expr → Prop
  | intro {e : Expr} (frames : e.span.Frames source tokens (e.parts.map (·.span)))
      (parts : ∀ part ∈ e.parts, Nested source tokens part) : Nested source tokens e

theorem Expr.Nested.frames {e : Expr} (h : e.Nested source tokens) :
    e.span.Frames source tokens (e.parts.map (·.span)) := by
  cases h
  assumption

theorem Expr.Nested.parts {e : Expr} (h : e.Nested source tokens) :
    ∀ part ∈ e.parts, part.Nested source tokens := by
  cases h
  assumption

/-- An expression without parts. -/
theorem Expr.Nested.leaf {e : Expr} (h : e.span.Cut source tokens) (hparts : e.parts = []) :
    e.Nested source tokens :=
  .intro (by rw [hparts]; exact h.frames) (by simp [hparts])

namespace Statement

/-- The expressions of a statement. They stand in front of its statements. -/
def exprs : Statement → List Expr
  | .block .. | .empty _ => []
  | .assign _ target value => [target, value]
  | .call _ callee => [callee]
  | .branch _ condition _ _ | .loop _ condition _ => [condition]
  | .ret _ value => value.toList

def statements : Statement → List Statement
  | .block _ body => body
  | .branch _ _ onTrue onFalse => onTrue :: onFalse.toList
  | .loop _ _ body => [body]
  | .assign .. | .call .. | .ret .. | .empty _ => []

/-- The span of a statement holds those of its parts, and so on. -/
inductive Nested (source : SourceId) (tokens : List Token) : Statement → Prop
  | intro {s : Statement}
      (frames : s.span.Frames source tokens (s.exprs.map (·.span) ++ s.statements.map (·.span)))
      (exprs : ∀ e ∈ s.exprs, e.Nested source tokens)
      (statements : ∀ t ∈ s.statements, Nested source tokens t) : Nested source tokens s

variable {s : Statement}

theorem Nested.frames (h : s.Nested source tokens) :
    s.span.Frames source tokens (s.exprs.map (·.span) ++ s.statements.map (·.span)) := by
  cases h
  assumption

theorem Nested.exprs (h : s.Nested source tokens) : ∀ e ∈ s.exprs, e.Nested source tokens := by
  cases h
  assumption

theorem Nested.statements (h : s.Nested source tokens) :
    ∀ t ∈ s.statements, t.Nested source tokens := by
  cases h
  assumption

end Statement

def Declaration.Nested (source : SourceId) (tokens : List Token) (d : Declaration) : Prop :=
  d.span.Cut source tokens

structure RecordDef.Nested (source : SourceId) (tokens : List Token) (r : RecordDef) : Prop where
  frames : r.span.Frames source tokens (r.fields.map (·.span))
  fields : ∀ d ∈ r.fields, d.Nested source tokens

structure FunctionDef.Nested (source : SourceId) (tokens : List Token) (f : FunctionDef) :
    Prop where
  frames : f.span.Frames source tokens
    (f.params.map (·.span) ++ f.locals.map (·.span) ++ f.body.map (·.span))
  params : ∀ d ∈ f.params, d.Nested source tokens
  locals : ∀ d ∈ f.locals, d.Nested source tokens
  body : ∀ s ∈ f.body, s.Nested source tokens

def Member.span : Member → Span
  | .global d => d.span
  | .record r => r.span
  | .function f => f.span

def Member.Nested (source : SourceId) (tokens : List Token) : Member → Prop
  | .global d => d.Nested source tokens
  | .record r => r.Nested source tokens
  | .function f => f.Nested source tokens

theorem Member.Nested.cut {m : Member} (h : m.Nested source tokens) : m.span.Cut source tokens := by
  cases m with
  | global d => exact h
  | record r => exact h.frames.cut
  | function f => exact h.frames.cut

structure Program.Nested (source : SourceId) (tokens : List Token) (p : Program) : Prop where
  frames : p.span.Frames source tokens (p.members.map (·.span))
  members : ∀ m ∈ p.members, m.Nested source tokens

end MiniJ
