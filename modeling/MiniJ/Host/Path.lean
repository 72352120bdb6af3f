import MiniJ.Text.Split

/-!
# Paths

Slash-separated paths as text. Empty segments and `.` behind the first segment do not matter for
what a path names, but they stay in its spelling.

## Main definitions

* `Path.key` — two paths with equal keys name the same file as far as their spelling shows.
* `Path.withExtension` — the path with the extension of its file name replaced.
-/
namespace MiniJ

namespace Path

def segments (path : String) : List String := Text.split '/' path

/-- Segments that name the directory they stand in. -/
def isVoid (segment : String) : Bool := segment = "" || segment = "."

/-- Segments that matter. The first one always does, be it empty (the root) or `.`. -/
def key (path : String) : List String :=
  match segments path with
  | [] => []
  | first :: rest => first :: rest.filter fun s => !isVoid s

/-- Drops the void segments at the end of a path, given last one first. The first segment stays. -/
def trimEnd : List String → List String
  | s :: t :: rest => if isVoid s then trimEnd (t :: rest) else s :: t :: rest
  | segments => segments

/-- The file name at the end of a path, and the segments before it, last one first. Paths that end
in the root or in `.` or `..` have none. -/
def fileName? (path : String) : Option (String × List String) :=
  match trimEnd (segments path).reverse with
  | [] => none
  | name :: parents => if isVoid name || name = ".." then none else some (name, parents)

/-- Splits a file name at its last dot. A dot at the start does not count. -/
def splitName (name : String) : String × Option String :=
  let reversed := name.toList.reverse
  match reversed.dropWhile (· != '.') with
  | _ :: c :: stem =>
    (String.ofList (c :: stem).reverse,
      some (String.ofList (reversed.takeWhile (· != '.')).reverse))
  | _ => (name, none)

def extension? (path : String) : Option String :=
  (fileName? path).bind fun (name, _) => (splitName name).2

/-- Puts an extension behind the stem of the file name; other paths stay. -/
def setExtension (path extension : String) : String :=
  match fileName? path with
  | none => path
  | some (name, parents) =>
    "/".intercalate ((((splitName name).1 ++ "." ++ extension) :: parents).reverse)

/-- Replaces the extension. The length of the old one is cut off the end first; if what remains has
no file name, it stays as it is. -/
def withExtension (path extension : String) : String :=
  let kept := match extension? path with
    | some old => String.ofList (path.toList.take (path.length - old.length))
    | none => path
  setExtension kept extension

end Path

end MiniJ
