import MiniJ.Compilation

/-!
# Command line

Options and their meaning: an optional input file, `-o`/`--output` with a file, and the flags
`--dump-ast`, `--check`, `-v`/`--verbose` and `-h`/`--help`. Short flags can share a dash, values
can be attached, and `--` ends the options.

## Main definitions

* `Config.ofArguments` — what a list of arguments asks for.
* `Config.outputFor` — where the assembly of an input goes.
-/
namespace MiniJ

/-- What a run is asked to do. -/
structure Config where
  /-- Empty for standard input. -/
  inputs : List String := []
  output : Option String := none
  showOutline : Bool := false
  stopAfter : Phase := .generate
  verbose : Bool := false

/-- Where the assembly of an input goes; nothing stands for standard output. By default it goes
next to its input, and to standard output for a program from standard input. -/
def Config.outputFor (c : Config) (input : Option String) : Option String :=
  match c.output with
  | some "-" => none
  | some path => some path
  | none => input.map (Path.withExtension · "asm")

/-- Why arguments are not understood. -/
inductive ArgumentError where
  | unknownArgument
  | invalidValue
  | conflict
  | tooManyValues
  /-- Help was asked for. -/
  | help
  deriving DecidableEq, Repr

namespace CommandLine

/-- Options without a value. -/
inductive Flag where
  | dumpAst | check | verbose
  deriving DecidableEq, Repr

/-- Options. -/
inductive Switch where
  | output
  | flag (flag : Flag)
  | help
  deriving DecidableEq, Repr

def Switch.ofLong? : String → Option Switch
  | "output" => some .output
  | "dump-ast" => some (.flag .dumpAst)
  | "check" => some (.flag .check)
  | "verbose" => some (.flag .verbose)
  | "help" => some .help
  | _ => none

def Switch.ofShort? : Char → Option Switch
  | 'o' => some .output
  | 'v' => some (.flag .verbose)
  | 'h' => some .help
  | _ => none

/-- An argument that was read but not yet accepted. -/
inductive Pending where
  /-- The output option, with its value once that was read. -/
  | output (value : Option String)
  | input (value : String)
  deriving DecidableEq, Repr

/-- What the arguments read so far say. -/
structure State where
  input : Option String := none
  output : Option String := none
  flags : List Flag := []
  pending : Option Pending := none
  /-- Whether the input file was named. -/
  named : Bool := false
  deriving DecidableEq, Repr

/-- Reading arguments. -/
abbrev ArgumentM := Except ArgumentError

/-- Accepts an output file, which can be named once and not be empty. -/
def acceptOutput (s : State) (value : String) : ArgumentM State :=
  if s.output.isSome then .error .conflict
  else if value = "" then .error .invalidValue
  else .ok { s with output := value }

/-- Accepts the pending argument. -/
def settle (s : State) : ArgumentM State :=
  let rest := { s with pending := none }
  match s.pending with
  | none => .ok s
  | some (.output none) => .error .invalidValue
  | some (.output (some value)) => acceptOutput rest value
  | some (.input value) =>
    if value = "" then .error .invalidValue else .ok { rest with input := value }

/-- Accepts a flag, which can be given once. -/
def acceptFlag (s : State) (flag : Flag) : ArgumentM State := do
  let s ← settle s
  if s.flags.contains flag then
    throw .conflict
  return { s with flags := flag :: s.flags }

/-- The output option, with its value if that is attached. -/
def startOutput (s : State) (attached : Option String) : ArgumentM State := do
  let s ← settle s
  match attached with
  | some value => acceptOutput s value
  | none => return { s with pending := some (.output none) }

/-- Help ends the reading once what came before is accepted. -/
def askHelp (s : State) : ArgumentM State := do
  let _ ← settle s
  throw .help

/-- A value behind an equals sign. -/
def attachedValue : List Char → Option String
  | [] => none
  | _ :: value => some (String.ofList value)

/-- An argument with two dashes. -/
def long (s : State) (body : List Char) : ArgumentM State :=
  let attached := attachedValue (body.dropWhile (· != '='))
  match Switch.ofLong? (String.ofList (body.takeWhile (· != '='))), attached with
  | none, _ => .error .unknownArgument
  | some .output, _ => startOutput s attached
  | some _, some _ => .error .tooManyValues
  | some (.flag flag), none => acceptFlag s flag
  | some .help, none => askHelp s

/-- Letters behind one dash. What follows the output option is its value. -/
def short (s : State) : List Char → ArgumentM State
  | [] => .ok s
  | c :: rest =>
    match Switch.ofShort? c with
    | none => .error .unknownArgument
    | some (.flag flag) => do short (← acceptFlag s flag) rest
    | some .help => askHelp s
    | some .output =>
      match rest with
      | [] => startOutput s none
      | '=' :: value => startOutput s (some (String.ofList value))
      | value => startOutput s (some (String.ofList value))

/-- A file to compile; there is at most one. -/
def positional (s : State) (value : String) : ArgumentM State := do
  if s.named then
    throw .unknownArgument
  return { ← settle s with pending := some (.input value), named := true }

/-- An argument that is no option: the value an option waits for, or a file. -/
def plain (s : State) (value : String) : ArgumentM State :=
  match s.pending with
  | some (.output none) => .ok { s with pending := some (.output (some value)) }
  | _ => positional s value

/-- Reads the arguments in order. -/
def read : State → List String → ArgumentM State
  | s, [] => settle s
  | s, arg :: rest => do
    match arg.toList with
    | ['-', '-'] => settle (← rest.foldlM positional s)
    | '-' :: '-' :: body => read (← long s body) rest
    | '-' :: c :: body => read (← short s (c :: body)) rest
    | _ => read (← plain s arg) rest

end CommandLine

/-- What a list of arguments asks for. -/
def Config.ofArguments (args : List String) : Except ArgumentError Config := do
  let s ← CommandLine.read {} args
  return {
    inputs := s.input.toList
    output := s.output
    showOutline := s.flags.contains .dumpAst
    stopAfter := if s.flags.contains .check then .check else .generate
    verbose := s.flags.contains .verbose }

end MiniJ
