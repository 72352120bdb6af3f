import MiniJ.Host.CommandLine

/-!
# Sessions

What one run of the compiler prints and writes. A run first compiles everything and only then acts;
the actions are data, so they can be carried out on a file tree or on a real file system.

## Main definitions

* `Session.plan` — what a run is going to do.
* `Session.run` — one run on a file tree.
-/
namespace MiniJ

/-- Something a run does with the assembly of a program. -/
inductive Action where
  | print (text : String)
  | write (path text : String)
  deriving DecidableEq, Repr

/-- Why a run fails. -/
inductive RunError where
  | unreadable (error : FileError)
  | unwritable (path : String) (error : FileError)
  /-- Some program was rejected; the diagnostics say why. -/
  | rejected
  | fault (fault : Fault)
  deriving DecidableEq, Repr

def RunError.message : RunError → String
  | unreadable e => "I/O error: " ++ e.message
  | unwritable path e => "I/O error: Failed to write " ++ path ++ ": " ++ e.message
  | rejected => "Compilation failed due to errors"
  | fault _ => "internal fault"

namespace Session

/-- What comes out of compiling the inputs of a run. -/
structure Plan where
  /-- Outlines to print while compiling. -/
  outlines : List String
  /-- Diagnostics to show. -/
  diagnostics : List String
  /-- What to do with the assembly, unless compiling failed. -/
  verdict : Except RunError (List Action)

/-- Where the assembly of the programs goes. The program at position `index` goes to the output of
the input at that position. -/
def actions (config : Config) : Nat → List Artifact → List Action
  | _, [] => []
  | index, artifact :: rest =>
    match artifact.assembly with
    | none => actions config (index + 1) rest
    | some text =>
      let action := match config.outputFor config.inputs[index]? with
        | some path => Action.write path text
        | none => Action.print text
      action :: actions config (index + 1) rest

/-- Compiles the inputs of a run. -/
def plan (config : Config) (read : String → Except FileError (List UInt8)) (stdin : List UInt8) :
    Plan :=
  let (result, s) :=
    (Pipeline.run read stdin config.stopAfter config.showOutline config.inputs).run {}
  let shown := match result with
    | .error (.rejected ds) => Diagnostic.renderAll s.sources config.verbose ds
    | _ => []
  let verdict := match result with
    | .ok _ => .ok (actions config 0 (s.units.map (·.2)))
    | .error (.rejected _) => .error .rejected
    | .error (.unreadable e) => .error (.unreadable e)
    | .error (.fault f) => .error (.fault f)
  ⟨s.outlines, shown, verdict⟩

/-- What a run leaves behind. -/
structure Outcome where
  files : FileTree
  stdout : String
  stderr : String
  result : Except RunError Unit

/-- Carries out actions on a file tree up to the first that fails; `printed` is what was printed
before. -/
def perform (files : FileTree) (printed : String) :
    List Action → FileTree × String × Except RunError Unit
  | [] => (files, printed, .ok ())
  | .print text :: rest => perform files (printed ++ text) rest
  | .write path text :: rest =>
    match files.write path (Text.encode text) with
    | .ok files => perform files printed rest
    | .error e => (files, printed, .error (.unwritable path e))

/-- Each text on a line of its own. -/
def unlines (texts : List String) : String := String.join (texts.map (· ++ "\n"))

/-- One run on a file tree. -/
def run (config : Config) (files : FileTree) (stdin : List UInt8) : Outcome :=
  let plan := plan config files.read stdin
  let printed := String.join plan.outlines
  let shown := unlines plan.diagnostics
  match plan.verdict with
  | .error e => ⟨files, printed, shown, .error e⟩
  | .ok actions =>
    let (files, printed, result) := perform files printed actions
    ⟨files, printed, shown, result⟩

/-- The last words of a run: diagnostics were shown before, other errors are shown now. -/
def complaint : Except RunError Unit → String
  | .ok _ | .error .rejected => ""
  | .error e => e.message ++ "\n"

/-- Exit status of a run. -/
def status : Except RunError Unit → Nat
  | .ok _ => 0
  | .error (.fault _) => 101
  | .error _ => 1

/-- Exit status for arguments that are not understood. -/
def usageStatus : ArgumentError → Nat
  | .help => 0
  | _ => 2

end Session

end MiniJ
