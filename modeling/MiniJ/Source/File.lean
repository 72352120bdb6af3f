import MiniJ.Fault
import MiniJ.Source.Span
import MiniJ.Text.Decode

/-!
# Loaded programs

The bytes of a program under the path it was loaded from, and the way back from an offset to a line
and a column. Lines and columns count from 1; columns count bytes. Offsets, lines and columns are
unsigned words of 32 bits, so programs and offsets at the far end of that range have no position.
-/
namespace MiniJ

/-- A loaded program. -/
structure SourceFile where
  path : String
  bytes : List UInt8

namespace SourceFile

/-- Offsets of the newlines in `bytes`, which start at offset `pos`. -/
def newlines (pos : Nat) (bytes : List UInt8) : List Nat :=
  bytes.zipIdx pos |>.filterMap fun (b, i) => if b == 10 then some i else none

/-- The word behind a word. There is none behind the last one. -/
def next (n : UInt32) : Except Fault UInt32 :=
  if n = 4294967295 then .error .positionOverflow else .ok (n + 1)

/-- Offsets at which a line starts. The offset of a newline is cut to a word first. -/
def lineStarts (f : SourceFile) : Except Fault (List UInt32) :=
  return 0 :: (← (newlines 0 f.bytes).mapM fun i => next i.toUInt32)

/-- Line and column of an offset: the line is the last one that starts at or before it. -/
def position (f : SourceFile) (offset : UInt32) : Except Fault (UInt32 × UInt32) := do
  let starts := (← f.lineStarts).takeWhile (· ≤ offset)
  let column ← next (offset - starts.getLast?.getD 0)
  return (starts.length.toUInt32, column)

/-- The text a range of bytes holds; bytes outside of the program are left out. -/
def excerpt (f : SourceFile) (start stop : Nat) : String :=
  let bytes := (f.bytes.take stop).drop start
  (Text.decode? bytes).getD "<invalid-utf8>"

end SourceFile

/-- Loaded programs. The first one has number 2. -/
structure Sources where
  files : Array SourceFile := #[]

namespace Sources

/-- The program with this number. -/
def file? (s : Sources) : SourceId → Option SourceFile
  | i + 2 => s.files[i]?
  | _ => none

/-- Adds a program behind the others, whose lines must have starts; gives its number. -/
def add (s : Sources) (file : SourceFile) : Except Fault (SourceId × Sources) := do
  let _ ← file.lineStarts
  return (s.files.size + 2, ⟨s.files.push file⟩)

end Sources

end MiniJ
