import MiniJ.Host.Session

/-!
# The compiler as a program

Gathers arguments, files and standard input, leaves every decision to `Session.plan`, and carries
out the actions it asks for.
-/
namespace MiniJ

/-- What `--help` prints, and what arguments that are not understood are answered with. -/
def usage : String :=
  "Usage: minij [OPTIONS] [INPUT]\n\n" ++
  "Compiles a MiniJ program to x86-64 assembly. Without an input it reads standard input.\n\n" ++
  "Options:\n" ++
  "  -o, --output <FILE>  file for the assembly, - for standard output\n" ++
  "      --dump-ast       print the tree of the program\n" ++
  "      --check          stop after type checking\n" ++
  "  -v, --verbose        show notes and source text with diagnostics\n" ++
  "  -h, --help           print this text\n"

/-- What is wrong with the arguments. -/
def ArgumentError.describe : ArgumentError → String
  | unknownArgument => "unexpected argument"
  | invalidValue => "missing or empty value"
  | conflict => "argument given twice"
  | tooManyValues => "unexpected value for a flag"
  | help => "help requested"

/-- The cause of a refusal by the system. -/
def FileError.ofSystem : IO.Error → FileError
  | .noFileOrDirectory .. => .notFound
  | .inappropriateType _ 21 _ => .isADirectory
  | .inappropriateType .. => .notADirectory
  | e => .other (toString e)

/-- Everything that is left on a stream. -/
partial def readRest (stream : IO.FS.Stream) (bytes : ByteArray) : IO ByteArray := do
  let chunk ← stream.read 65536
  if chunk.isEmpty then
    return bytes
  readRest stream (bytes ++ chunk)

/-- The bytes of a file, or why there are none. -/
def readInput (path : String) : IO (String × Except FileError (List UInt8)) := do
  try
    return (path, .ok (← IO.FS.readBinFile path).toList)
  catch e =>
    return (path, .error (FileError.ofSystem e))

/-- Carries out actions up to the first that fails. -/
def performAll : List Action → IO (Except RunError Unit)
  | [] => return .ok ()
  | .print text :: rest => do
    IO.print text
    performAll rest
  | .write path text :: rest => do
    try
      IO.FS.writeFile path text
    catch e =>
      return .error (.unwritable path (FileError.ofSystem e))
    performAll rest

/-- Compiles what a configuration names; gives the exit status. -/
def compileWith (config : Config) : IO UInt32 := do
  let inputs ← config.inputs.mapM readInput
  let stdin ← if config.inputs.isEmpty then readRest (← IO.getStdin) .empty else pure .empty
  let plan := Session.plan config (fun path => (inputs.lookup path).getD (.error .notFound))
    stdin.toList
  plan.outlines.forM fun outline => IO.print outline
  IO.eprint (Session.unlines plan.diagnostics)
  let result ← match plan.verdict with
    | .ok actions => performAll actions
    | .error e => pure (.error e)
  IO.eprint (Session.complaint result)
  return UInt32.ofNat (Session.status result)

/-- One run of the compiler on its arguments; gives the exit status. -/
def runProgram (args : List String) : IO UInt32 := do
  match Config.ofArguments args with
  | .ok config => compileWith config
  | .error .help =>
    IO.print usage
    return UInt32.ofNat (Session.usageStatus .help)
  | .error e =>
    IO.eprint ("error: " ++ e.describe ++ "\n\n" ++ usage)
    return UInt32.ofNat (Session.usageStatus e)

end MiniJ

def main (args : List String) : IO UInt32 := MiniJ.runProgram args
