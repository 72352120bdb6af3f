import MiniJ.Operator
import MiniJ.Source.Span

/-!
# Program trees

What a parser makes of the tokens of a program. Every part keeps the span it was read from.
-/
namespace MiniJ

/-- Expressions. Variables, fields and elements are the places that can be written to. -/
inductive Expr where
  | int (span : Span) (value : Int64)
  | text (span : Span) (value : String)
  | bool (span : Span) (value : Bool)
  | var (span : Span) (name : String)
  | field (span : Span) (base : Expr) (name : String)
  | element (span : Span) (base index : Expr)
  | unary (span : Span) (op : UnaryOp) (operand : Expr)
  | binary (span : Span) (op : BinaryOp) (left right : Expr)
  | call (span : Span) (name : String) (args : List Expr)
  deriving Repr

def Expr.span : Expr → Span
  | int s _ | text s _ | bool s _ | var s _ | field s .. | element s .. | unary s ..
  | binary s .. | call s .. => s

/-- A name with its type. Only parameters can be references. -/
structure Declaration where
  span : Span
  ty : Ty
  name : String
  isReference : Bool
  deriving DecidableEq, Repr

/-- Statements. Branches and loop bodies are blocks. -/
inductive Statement where
  | block (span : Span) (body : List Statement)
  | assign (span : Span) (target value : Expr)
  | call (span : Span) (call : Expr)
  | branch (span : Span) (condition : Expr) (onTrue : Statement) (onFalse : Option Statement)
  | loop (span : Span) (condition : Expr) (body : Statement)
  | ret (span : Span) (value : Option Expr)
  | empty (span : Span)
  deriving Repr

def Statement.span : Statement → Span
  | block s _ | assign s .. | call s _ | branch s .. | loop s .. | ret s _ | empty s => s

structure RecordDef where
  span : Span
  name : String
  fields : List Declaration
  deriving Repr

/-- A function. Its locals are declared before its first statement. -/
structure FunctionDef where
  span : Span
  returnType : Ty
  name : String
  params : List Declaration
  locals : List Declaration
  body : List Statement
  deriving Repr

/-- What a program declares at its top level. -/
inductive Member where
  | global (declaration : Declaration)
  | record (definition : RecordDef)
  | function (definition : FunctionDef)
  deriving Repr

/-- A whole program, with its members in source order. -/
structure Program where
  span : Span
  members : List Member
  deriving Repr

end MiniJ
