import MiniJ.Assembly.Register
import MiniJ.Operator
import MiniJ.Source.Span

/-!
# Errors of code generation

Programs that are well typed but have no code.
-/
namespace MiniJ

/-- Constructs without code. -/
inductive Unsupported where
  | globalStorage (name : String) (ty : Ty)
  | variableStorage (name : String) (ty : Ty)
  | typeStorage (ty : Ty)
  | recordLayout (record : String)
  | untypedExpression
  | unboundVariable
  | recordValue
  | recordResult
  | voidValue
  | statementValue
  | textOperator (op : BinaryOp)
  | place
  | registerAddress
  | unresolvedCall (name : String)
  deriving DecidableEq, Repr

def Unsupported.describe : Unsupported → String
  | globalStorage name ty => "storage for global '" ++ name ++ "' of type " ++ ty.spelling
  | variableStorage name ty => "storage for '" ++ name ++ "' of type " ++ ty.spelling
  | typeStorage ty => "storage for type " ++ ty.spelling
  | recordLayout record => "layout of record '" ++ record ++ "'"
  | untypedExpression => "expression without a type"
  | unboundVariable => "variable without storage"
  | recordValue => "record value outside of assignment"
  | recordResult => "record-typed return value"
  | voidValue => "value of a void call"
  | statementValue => "statement in expression position"
  | textOperator op => "operator '" ++ op.symbol ++ "' on text"
  | place => "this kind of assignable expression"
  | registerAddress => "address of a register value"
  | unresolvedCall name => "unresolved call to '" ++ name ++ "'"

/-- Why no code is generated. -/
inductive CodegenError where
  /-- A register was claimed that holds another value. -/
  | registerInUse (register : Register)
  /-- All scratch registers hold a value. -/
  | outOfRegisters (span : Span)
  | unsupported (what : Unsupported) (span : Span)
  deriving DecidableEq, Repr

namespace CodegenError

def message : CodegenError → String
  | registerInUse r => "internal error: register " ++ r.name ++ " is already in use"
  | outOfRegisters _ => "out of registers while lowering expression"
  | unsupported what _ => what.describe ++ " is not supported by the code generator"

def span : CodegenError → Span
  | registerInUse _ => Span.empty
  | outOfRegisters s | unsupported _ s => s

end CodegenError

end MiniJ
