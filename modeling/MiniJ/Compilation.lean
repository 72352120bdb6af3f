import MiniJ.Arena.Flatten
import MiniJ.Arena.Outline
import MiniJ.Diagnostic
import MiniJ.Host.FileTree
import MiniJ.Lowering.Program
import MiniJ.Semantic.Binding
import MiniJ.Semantic.Typing
import MiniJ.Token.Lexer
import MiniJ.Tree.Parser

/-!
# Compilation

Programs go through the phases one after the other and stop at the first one that reports an error.
Several inputs are compiled in order; the first failure ends the run. An input that was loaded
before is compiled again under its number.

## Main definitions

* `Arena.ofBytes` — a program as an arena.
* `compileArena` — one program, up to a phase.
* `Pipeline.run` — all inputs, up to a phase.
-/
namespace MiniJ

/-- Phases of a compilation, each of which includes those before it. -/
inductive Phase where
  | parse | bind | check | generate
  deriving DecidableEq, Repr

/-- What a compilation leaves behind. -/
structure Artifact where
  arena : Arena
  info : Option SemanticInfo := none
  table : Option SymbolTable := none
  assembly : Option String := none

/-- Reads a program. -/
def Arena.ofBytes (source : SourceId) (bytes : List UInt8) : Except (Failure ParseError) Arena := do
  let tokens ← (Token.scan source bytes).mapError .reported
  let program ← Program.parse tokens
  return Arena.ofProgram program

/-- Whether the call at node `id`, if it is one, has a target. -/
def isResolved (info : SemanticInfo) (id : NodeId) (node : Node) : Bool :=
  !node.kind.isCall || (info.callTarget id).isSome

/-- A checked program has a target for every call. -/
def requireTargets (a : Arena) (info : SemanticInfo) : Except Fault Unit :=
  if (a.nodes.toList.zipIdx 1).all fun (node, id) => isResolved info id node then .ok ()
  else .error .unresolvedCall

/-- Takes a program that was read through the phases up to `last`. -/
def compileArena (last : Phase) (a : Arena) : Except (Failure (List Diagnostic)) Artifact := do
  if last = .parse then
    return { arena := a }
  let (bound, table, info) := a.bind {}
  bound.mapError (·.map Diagnostic.ofSemantic)
  if last = .bind then
    return { arena := a, info := info, table := table }
  let (checked, table, info) := a.check table info
  checked.mapError (·.map Diagnostic.ofSemantic)
  requireTargets a info
  if last = .check then
    return { arena := a, info := info, table := table }
  let assembly ← (a.generate info table).mapError
    (·.map fun e => [⟨.error, e.message, e.span⟩])
  return { arena := a, info := info, table := table, assembly := assembly }

/-- Why a run stops. -/
inductive Halt where
  | rejected (diagnostics : List Diagnostic)
  | unreadable (error : FileError)
  | fault (fault : Fault)
  deriving DecidableEq, Repr

namespace Pipeline

/-- What a run has done so far. -/
structure State where
  sources : Sources := {}
  /-- Outlines of the programs read, when they are asked for. -/
  outlines : List String := []
  /-- Finished programs in the order they were first loaded. -/
  units : List (SourceId × Artifact) := []

/-- What a run has done stays when it stops. -/
abbrev PipelineM := ExceptT Halt (StateM State)

/-- Stops a run. -/
def stop : Failure (List Diagnostic) → Halt
  | .reported diagnostics => .rejected diagnostics
  | .fault f => .fault f

/-- Adds a finished program; one with the same number is replaced where it stands. -/
def insertUnit (units : List (SourceId × Artifact)) (id : SourceId) (artifact : Artifact) :
    List (SourceId × Artifact) :=
  if units.any (·.1 == id) then
    units.map fun unit => if unit.1 == id then (id, artifact) else unit
  else units ++ [(id, artifact)]

/-- Loads a program under a name. -/
def addSource (path : String) (bytes : List UInt8) : PipelineM SourceId := do
  match (← get).sources.add ⟨path, bytes⟩ with
  | .error f => throw (.fault f)
  | .ok (id, sources) =>
    modify fun s => { s with sources := sources }
    return id

/-- Number of the program that was loaded from a path. -/
def loaded? (sources : Sources) (path : String) : Option SourceId :=
  (sources.files.findIdx? fun file => Path.key file.path == Path.key path).map (· + 2)

/-- Number of the program at a path, which is read unless it was loaded before. -/
def load (read : String → Except FileError (List UInt8)) (path : String) : PipelineM SourceId := do
  match loaded? (← get).sources path with
  | some id => return id
  | none =>
    match read path with
    | .ok bytes => addSource path bytes
    | .error e => throw (.unreadable e)

/-- Compiles a loaded program. -/
def compileSource (last : Phase) (showOutline : Bool) (id : SourceId) : PipelineM Unit := do
  let bytes := (((← get).sources.file? id).map (·.bytes)).getD []
  match Arena.ofBytes id bytes with
  | .error failure => throw (stop (failure.map Diagnostic.ofParse))
  | .ok a =>
    if showOutline then
      modify fun s => { s with outlines := s.outlines ++ [a.outline] }
    match compileArena last a with
    | .error failure => throw (stop failure)
    | .ok artifact => modify fun s => { s with units := insertUnit s.units id artifact }

/-- Name of a program that comes from standard input. -/
def standardInput : String := "<stdin>"

/-- Compiles all inputs, or standard input if there is none. -/
def run (read : String → Except FileError (List UInt8)) (stdin : List UInt8) (last : Phase)
    (showOutline : Bool) (inputs : List String) : PipelineM Unit := do
  if inputs.isEmpty then
    compileSource last showOutline (← addSource standardInput stdin)
  else
    inputs.forM fun path => do compileSource last showOutline (← load read path)

end Pipeline

end MiniJ
