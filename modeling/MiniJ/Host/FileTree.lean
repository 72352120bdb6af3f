import MiniJ.Host.Path

/-!
# File trees

The files below a working directory, and what reading and writing them does. Directories exist
exactly where a file lies below them; outside of the working directory there are only the
directories on the way to it, and no files.

## Main definitions

* `FileTree.target` — what a path leads to.
* `FileTree.read`, `FileTree.write` — the contents of a file, and the tree with a file replaced.
* `FileTree.changesFrom` — the files by which one tree differs from another.
-/
namespace MiniJ

/-- Why a file cannot be read or written. -/
inductive FileError where
  | notFound
  | notADirectory
  | isADirectory
  | nameTooLong
  | invalidName
  /-- A refusal of a real file system that has no counterpart in a file tree. -/
  | other (description : String)
  deriving DecidableEq, Repr

/-- The system's wording. -/
def FileError.message : FileError → String
  | notFound => "No such file or directory (os error 2)"
  | notADirectory => "Not a directory (os error 20)"
  | isADirectory => "Is a directory (os error 21)"
  | nameTooLong => "File name too long (os error 36)"
  | invalidName => "file name contained an unexpected NUL byte"
  | other description => description

/-- Files by their segments below the working directory. -/
structure FileTree where
  files : List (List String × List UInt8) := []

namespace FileTree

/-- What a path leads to. -/
inductive Target where
  | file (segments : List String) (bytes : List UInt8)
  | directory
  /-- Nothing, but the directory around it exists. -/
  | vacant (segments : List String)
  /-- No directory, although the path ends in a slash; reading it fails like this. -/
  | noDirectory (error : FileError)
  deriving Repr

def isDirectory (t : FileTree) (segments : List String) : Bool :=
  segments.isEmpty || t.files.any fun (path, _) =>
    path.length > segments.length && segments.isPrefixOf path

/-- Follows segments from a directory above the working directory. -/
def outside (segments : List String) : Except FileError Target :=
  if segments.all fun s => Path.isVoid s || s = ".." then .ok .directory else .error .notFound

/-- Follows the remaining segments from an existing directory. -/
def follow (t : FileTree) (directory : List String) : List String → Except FileError Target
  | [] => .ok .directory
  | segment :: rest =>
    if Path.isVoid segment then t.follow directory rest
    else if segment = ".." then
      if directory.isEmpty then outside rest else t.follow directory.dropLast rest
    else if segment.utf8ByteSize > 255 then .error .nameTooLong
    else
      let here := directory ++ [segment]
      match t.files.lookup here with
      | some bytes =>
        if rest.isEmpty then .ok (.file here bytes)
        else if rest.all (· = "") then .ok (.noDirectory .notADirectory)
        else .error .notADirectory
      | none =>
        if t.isDirectory here then t.follow here rest
        else if rest.isEmpty then .ok (.vacant here)
        else if rest.all (· = "") then .ok (.noDirectory .notFound)
        else .error .notFound

/-- Follows a path from the working directory. -/
def target (t : FileTree) (path : String) : Except FileError Target :=
  if path = "" then .error .notFound
  else if path.toList.contains (Char.ofNat 0) then .error .invalidName
  else if path.utf8ByteSize > 4095 then .error .nameTooLong
  else if path.toList.head? = some '/' then outside (Path.segments path)
  else t.follow [] (Path.segments path)

def read (t : FileTree) (path : String) : Except FileError (List UInt8) := do
  match ← t.target path with
  | .file _ bytes => return bytes
  | .directory => throw .isADirectory
  | .vacant _ => throw .notFound
  | .noDirectory e => throw e

/-- Replaces or adds a file. -/
def insert (t : FileTree) (segments : List String) (bytes : List UInt8) : FileTree :=
  ⟨(segments, bytes) :: t.files.filter (·.1 != segments)⟩

def write (t : FileTree) (path : String) (bytes : List UInt8) : Except FileError FileTree := do
  match ← t.target path with
  | .file segments _ | .vacant segments => return t.insert segments bytes
  | .directory | .noDirectory _ => throw .isADirectory

/-- The tree with these files, given by path. -/
def ofFiles (files : List (String × List UInt8)) : FileTree :=
  files.foldl (fun t (path, bytes) =>
    t.insert ((Path.segments path).filter fun s => !Path.isVoid s) bytes) {}

/-- Files that another tree does not have, or has with other contents. -/
def changesFrom (t before : FileTree) : List (String × List UInt8) :=
  t.files.filterMap fun (segments, bytes) =>
    if before.files.lookup segments = some bytes then none
    else some ("/".intercalate segments, bytes)

end FileTree

end MiniJ
