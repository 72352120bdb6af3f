/-!
# Spans

A span is a byte range in one program, packed into a machine word: the number of the program in the
top 20 bits, then a 22-bit length and a 22-bit offset. Longer offsets and lengths are clamped to
the largest representable one, so positions are exact for programs of up to 4 MiB.
-/
namespace MiniJ

/-- Number of a loaded program. Number 1 is reserved for what no program text declares. -/
abbrev SourceId := Nat

/-- The number of what comes with the language itself. -/
def SourceId.builtin : SourceId := 1

/-- A byte range in one program. -/
structure Span where
  word : UInt64
  deriving DecidableEq, Repr

namespace Span

/-- One more than the largest offset or length a span holds: the number of 22-bit words. -/
def fieldLimit : Nat := 4194304

/-- Clamps an offset or a length to its field. -/
def clamp (n : Nat) : Nat := min n (fieldLimit - 1)

/-- The span of `length` bytes that starts at `offset`. -/
def ofRange (source : SourceId) (offset length : Nat) : Span :=
  ⟨UInt64.ofNat ((source * fieldLimit + clamp length) * fieldLimit + clamp offset)⟩

/-- The span of builtins and of nodes without source text. -/
def empty : Span := ofRange SourceId.builtin 0 0

def offset (s : Span) : Nat := s.word.toNat % fieldLimit

def length (s : Span) : Nat := s.word.toNat / fieldLimit % fieldLimit

/-- The program the span lies in; the number 0 is read as the reserved one. -/
def source (s : Span) : SourceId :=
  match s.word.toNat / fieldLimit / fieldLimit with
  | 0 => SourceId.builtin
  | id => id

/-- The offset after the last byte. -/
def stop (s : Span) : Nat := s.offset + s.length

def isBuiltin (s : Span) : Bool := s.source == SourceId.builtin

/-- Smallest span covering both; the first one when they lie in different programs. -/
def merge (a b : Span) : Span :=
  if a.source == b.source then
    let start := min a.offset b.offset
    ofRange a.source start (max a.stop b.stop - start)
  else a

/-- Written form `#ID[START..STOP]`. -/
def render (s : Span) : String := s!"#{s.source}[{s.offset}..{s.stop}]"

end Span

end MiniJ
