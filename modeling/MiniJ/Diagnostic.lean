import MiniJ.ParseError
import MiniJ.Semantic.Error
import MiniJ.Source.File
import MiniJ.Text.Split

/-!
# Diagnostics

Errors and notes as they are shown: a line `error: MESSAGE at PATH:LINE:COLUMN`, and on request the
source text they are about.
-/
namespace MiniJ

inductive Diagnostic.Level where
  | error
  | note
  deriving DecidableEq, Repr

structure Diagnostic where
  level : Diagnostic.Level
  message : String
  span : Span
  deriving DecidableEq, Repr

namespace Diagnostic

def ofParse (e : ParseError) : List Diagnostic := [⟨.error, e.message, e.span⟩]

/-- A redefinition comes with a note on the first definition, unless that is builtin. -/
def ofSemantic (e : SemanticError) : List Diagnostic :=
  ⟨.error, e.message, e.span⟩ ::
    match e.cause with
    | .redefinition _ first =>
      if first.isBuiltin then [] else [⟨.note, "previous definition is here", first⟩]
    | _ => []

def Level.label : Level → String
  | error => "error"
  | note => "note"

/-- A line without the carriage return at its end. -/
def chomp (line : List Char) : List Char :=
  if line.getLast? = some '\r' then line.dropLast else line

/-- Lines of a text: a newline ends a line and takes a carriage return before it along. -/
def lines (s : String) : List String :=
  let pieces := Text.pieces '\n' s.toList
  let rest := pieces.getLast?.getD []
  let complete := pieces.dropLast.map chomp
  (if rest.isEmpty then complete else complete ++ [rest]).map String.ofList

/-- Where a diagnostic is about, if that is in a loaded program. The offset of a span is a number of
22 bits, and has a position in every program that is loaded. -/
def place (sources : Sources) (span : Span) : String :=
  match sources.file? span.source with
  | some file =>
    match file.position span.offset.toUInt32 with
    | .ok (line, column) => s!" at {file.path}:{line}:{column}"
    | .error _ => ""
  | none => ""

/-- The source text of a span, each line behind a bar. -/
def quotation (sources : Sources) (span : Span) : String :=
  match sources.file? span.source with
  | some file =>
    String.join ((lines (file.excerpt span.offset span.stop)).map ("\n  | " ++ ·))
  | none => ""

/-- A diagnostic as it is shown; `verbose` adds the source text. -/
def render (sources : Sources) (verbose : Bool) (d : Diagnostic) : String :=
  d.level.label ++ ": " ++ d.message ++ place sources d.span ++
    if verbose then quotation sources d.span else ""

/-- Notes are shown on request only. -/
def isVisible (verbose : Bool) (d : Diagnostic) : Bool := d.level == .error || verbose

/-- The diagnostics that are shown, in order. -/
def renderAll (sources : Sources) (verbose : Bool) (ds : List Diagnostic) : List String :=
  (ds.filter (isVisible verbose)).map (render sources verbose)

end Diagnostic

end MiniJ
