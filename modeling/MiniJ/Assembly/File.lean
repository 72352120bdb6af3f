import MiniJ.Assembly.Instruction
import MiniJ.Text.Decode

/-!
# Assembly files

The sections of an assembly file: symbols from elsewhere, exported symbols, text constants,
zeroed storage and code. Equal text constants share one label.

## Main definitions

* `Assembly.intern` — the label of a text constant.
* `Assembly.render` — the file as text.
-/
namespace MiniJ

/-- Label of the text constant with this position. -/
def textLabel (index : Nat) : String := s!"str{index}"

/-- Adds a text constant unless it is there; gives its position. -/
def internText (texts : List String) (value : String) : Nat × List String :=
  if texts.contains value then (texts.idxOf value, texts) else (texts.length, texts ++ [value])

/-- An assembly file under construction. -/
structure Assembly where
  externals : List String := []
  globals : List String := []
  /-- Text constants in the order of their first use. -/
  texts : List String := []
  /-- Symbols with the number of zeroed bytes behind them. -/
  reserved : List (String × Nat) := []
  code : List Line := []
  deriving DecidableEq, Repr

namespace Assembly

def declareExternal (a : Assembly) (name : String) : Assembly :=
  { a with externals := a.externals ++ [name] }

def declareGlobal (a : Assembly) (name : String) : Assembly :=
  { a with globals := a.globals ++ [name] }

def reserve (a : Assembly) (name : String) (size : Nat) : Assembly :=
  { a with reserved := a.reserved ++ [(name, size)] }

/-- Adds a text constant unless it is there; gives its label. -/
def intern (a : Assembly) (value : String) : String × Assembly :=
  let (index, texts) := internText a.texts value
  (textLabel index, { a with texts := texts })

/-- Adds a line behind the others. -/
def emit (a : Assembly) (line : Line) : Assembly := { a with code := a.code ++ [line] }

/-! ### Data section -/

/-- Bytes that can stand between quotes. -/
def isPlain (b : UInt8) : Bool := 0x20 ≤ b && b < 0x7F && b != 34

/-- A run of plain characters, last one first, as an item of a byte list. -/
def quotedRun (run : List Char) : List String :=
  if run.isEmpty then [] else ["\"" ++ String.ofList run.reverse ++ "\""]

/-- Items of a byte list: runs of plain bytes are quoted, other bytes are numbers, and a zero byte
ends the list. `run` holds the plain bytes before `bytes`, last one first. -/
def dataItems (run : List Char) : List UInt8 → List String
  | [] => quotedRun run ++ ["0"]
  | b :: rest =>
    if isPlain b then dataItems (Char.ofNat b.toNat :: run) rest
    else quotedRun run ++ toString b.toNat :: dataItems [] rest

/-- Byte list of a zero-terminated text. -/
def dataBytes (value : String) : String := ", ".intercalate (dataItems [] (Text.encode value))

/-- Definitions of text constants, the first of which has position `index`. -/
def textLines : Nat → List String → List String
  | _, [] => []
  | index, value :: rest =>
    (textLabel index ++ ": db " ++ dataBytes value) :: textLines (index + 1) rest

/-- All lines of the file. -/
def lines (a : Assembly) : Except Fault (List String) := do
  let code ← a.code.mapM (·.render)
  return ["DEFAULT REL", "bits 64"] ++ a.externals.map ("extern " ++ ·) ++
    a.globals.map ("global " ++ ·) ++
    ["", "section .data"] ++ textLines 0 a.texts ++
    ["", "section .bss", "alignb 8"] ++
    a.reserved.map (fun (name, size) => s!"{name}: resb {size}") ++
    ["", "section .text"] ++ code

/-- The file as text, every line ended by a newline. -/
def render (a : Assembly) : Except Fault String :=
  return String.join ((← a.lines).map (· ++ "\n"))

end Assembly

end MiniJ
