/-!
# Types

MiniJ types form a closed set compared structurally: arrays are equal when their elements are,
records when their names are. There are no conversions between types.
-/
namespace MiniJ

/-- A MiniJ type. `void` is the type of calls and statements without a value. -/
inductive Ty where
  | void
  | bool
  | int
  | text
  | array (element : Ty)
  | record (name : String)
  deriving DecidableEq, Repr, Inhabited

namespace Ty

/-- Source spelling. -/
def spelling : Ty → String
  | void => "void"
  | bool => "bool"
  | int => "int"
  | text => "text"
  | array element => element.spelling ++ "[]"
  | record name => name

/-- Innermost type that is not an array. -/
def base : Ty → Ty
  | array element => element.base
  | ty => ty

def isArray : Ty → Bool
  | array _ => true
  | _ => false

def isRecord : Ty → Bool
  | record _ => true
  | _ => false

/-- The type a word without brackets names: a word of no built-in type names a record. -/
def ofWord : String → Ty
  | "void" => void
  | "bool" => bool
  | "int" => int
  | "text" => text
  | name => record name

/-- Reads a spelling from its reversed characters: each `[]` at the end adds an array. -/
def ofReversed : List Char → Ty
  | ']' :: '[' :: rest => array (ofReversed rest)
  | word => ofWord (String.ofList word.reverse)

/-- The type with this spelling. -/
def ofSpelling (s : String) : Ty := ofReversed s.toList.reverse

end Ty

end MiniJ
