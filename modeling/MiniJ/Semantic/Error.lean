import MiniJ.Symbol.Table

/-!
# Semantic errors

What binding and type checking report about a program that parses.
-/
namespace MiniJ

/-- Statements with a condition. -/
inductive Conditional where
  | branch
  | loop
  deriving DecidableEq, Repr

def Conditional.keyword : Conditional → String
  | branch => "if"
  | loop => "while"

/-- Why a program is rejected. -/
inductive SemanticError.Cause where
  | undeclared (name : String)
  | notAVariable (name : String)
  /-- A second declaration of a name; `first` is where it was declared before. -/
  | redefinition (name : String) (first : Span)
  | duplicateFunction (name : String) (signature : Signature)
  | mainReturnType (found : Ty)
  | mainHasParameters
  | missingReturn (function : String)
  | undefinedRecord (name : String)
  | conditionNotBool (construct : Conditional) (found : Ty)
  | returnMismatch (expected found : Ty)
  | assignmentMismatch (expected found : Ty)
  /-- A call no overload fits. An argument that has no type on its own is unknown. -/
  | noMatchingFunction (name : String) (arguments : List (Option Ty))
  | notARecord (found : Ty)
  | unknownField (record field : String)
  | notAnArray (found : Ty)
  | invalidIndex (found : Ty)
  | invalidBinary (op : BinaryOp) (left right : Ty)
  | invalidUnary (op : UnaryOp) (operand : Ty)
  | stepOfNonPlace (op : UnaryOp)
  | referenceToNonPlace (parameter : String)
  deriving DecidableEq, Repr

/-- A cause and the place it concerns. -/
structure SemanticError where
  cause : SemanticError.Cause
  span : Span
  deriving DecidableEq, Repr

namespace SemanticError

/-- A text between single quotes. -/
def quoted (s : String) : String := "'" ++ s ++ "'"

/-- Types of the arguments of a call; an unknown one is a question mark. -/
def argumentList (arguments : List (Option Ty)) : String :=
  ", ".intercalate (arguments.map fun ty => (ty.map (·.spelling)).getD "?")

def Cause.message : Cause → String
  | undeclared name => "Undeclared identifier " ++ quoted name
  | notAVariable name => quoted name ++ " is not a variable"
  | redefinition name _ => "Redefinition of " ++ quoted name
  | duplicateFunction name signature =>
    "Duplicate function " ++ quoted (name ++ "(" ++ signature.parameterList ++ ")")
  | mainReturnType found => "Function 'main' must return int, found " ++ found.spelling
  | mainHasParameters => "Function 'main' must not have parameters"
  | missingReturn function => "Missing return statement in function " ++ quoted function
  | undefinedRecord name => "Undefined record " ++ quoted name
  | conditionNotBool construct found =>
    "Condition of " ++ quoted construct.keyword ++ " must be bool, found " ++ found.spelling
  | returnMismatch expected found =>
    "Return type mismatch: expected " ++ expected.spelling ++ ", found " ++ found.spelling
  | assignmentMismatch expected found =>
    "Type mismatch in assignment: cannot assign " ++ found.spelling ++ " to " ++
      expected.spelling
  | noMatchingFunction name arguments =>
    "No matching function for call to " ++ quoted (name ++ "(" ++ argumentList arguments ++ ")")
  | notARecord found => "Field access on non-record type " ++ found.spelling
  | unknownField record field =>
    "Record " ++ quoted record ++ " has no field " ++ quoted field
  | notAnArray found => "Indexing non-array type " ++ found.spelling
  | invalidIndex found => "Array index must be int, found " ++ found.spelling
  | invalidBinary op left right =>
    "Operator " ++ quoted op.symbol ++ " cannot be applied to " ++ left.spelling ++ " and " ++
      right.spelling
  | invalidUnary op operand =>
    "Operator " ++ quoted op.symbol ++ " cannot be applied to " ++ operand.spelling
  | stepOfNonPlace op => "Not assignable: operand of " ++ quoted op.symbol
  | referenceToNonPlace parameter =>
    "Not assignable: argument for reference parameter " ++ quoted parameter

def message (e : SemanticError) : String := e.cause.message

end SemanticError

end MiniJ
