import MiniJ.Semantic.Error
import MiniJ.Semantic.Info
import MiniJ.Symbol.Builtin

/-!
# Type checking

The second pass gives every expression a type and every call an overload. A call takes the first
overload that fits its arguments and the type its context expects; an argument that is itself a
call is tried against the parameter type of each candidate. The pass stops at the first error.

## Main definitions

* `Typing.checkExpression`, `Typing.checkStatement` — one part of a function.
* `Typing.choose` — the overload a call takes.
* `Arena.check` — the whole pass.
-/
namespace MiniJ

namespace Typing

/-- What the pass reads. -/
structure Context where
  arena : Arena
  table : SymbolTable
  scopes : Array (Option ScopeId)
  resolved : Array (Option EntryId)

/-- The tables the pass fills. -/
structure State where
  types : Array (Option Ty)
  targets : Array (Option CallTarget)
  deriving DecidableEq, Repr

/-- An error leaves the tables as they were when it was found. -/
abbrev CheckM := ReaderT Context (ExceptT (Failure SemanticError) (StateM State))

/-- Reports an error. -/
def fail {α : Type} (cause : SemanticError.Cause) (span : Span) : CheckM α :=
  throw (.reported ⟨cause, span⟩)

/-- The result of a check, or nothing if it reports an error. What it noted stays. -/
def attempt {α : Type} (check : CheckM α) : CheckM (Option α) := do
  try
    return some (← check)
  catch
    | .reported _ => return none
    | .fault f => throw (.fault f)

def node (id : NodeId) : CheckM Node := do (← read).arena.node id

def setType (id : NodeId) (ty : Ty) : CheckM Unit :=
  modify fun s => { s with types := SemanticInfo.setRow s.types id ty }

def setTarget (id : NodeId) (target : CallTarget) : CheckM Unit :=
  modify fun s => { s with targets := SemanticInfo.setRow s.targets id target }

/-- Type of the variable a node was resolved to. -/
def variableType (id : NodeId) (name : String) (span : Span) : CheckM Ty := do
  let cx ← read
  match SemanticInfo.row cx.resolved id with
  | none => fail (.undeclared name) span
  | some entry =>
    match (← cx.table.entry entry).meaning with
    | .var ty .. => return ty
    | _ => fail (.notAVariable name) span

/-- Type of a field of a record. -/
def fieldType (record field : String) (span : Span) : CheckM Ty := do
  match ← (← read).table.lookupRecord record with
  | none => fail (.undefinedRecord record) span
  | some fields =>
    match fields.find? (·.name == field) with
    | some f => return f.ty
    | none => fail (.unknownField record field) span

/-! ### Calls -/

/-- How expressions are checked, given the type their context expects. The expected type only
steers the choice of overloads. -/
abbrev Checker := NodeId → Option Ty → CheckM Ty

/-- Types of the arguments that are no calls; those have one type whatever the overload. -/
def argumentTypes (check : Checker) (args : List NodeId) : CheckM (List (NodeId × Option Ty)) :=
  args.mapM fun arg => do
    if (← node arg).kind.isCall then
      return (arg, none)
    else
      return (arg, some (← check arg none))

/-- Whether an argument fits a parameter of this type. -/
def fits (check : Checker) (expected : Ty) : NodeId × Option Ty → CheckM Bool
  | (_, some ty) => return ty = expected
  | (arg, none) => return (← attempt (check arg (some expected))) = some expected

/-- Whether all arguments fit their parameters; stops at the first that does not. -/
def allFit (check : Checker) : List (NodeId × Option Ty) → List Binder → CheckM Bool
  | arg :: args, param :: params => do
    if ← fits check param.ty arg then allFit check args params else return false
  | _, _ => return true

/-- The first overload with the right arity and return type whose parameters all fit. -/
def choose (check : Checker) (args : List (NodeId × Option Ty)) (expected : Option Ty) :
    List Signature → CheckM (Option Signature)
  | [] => return none
  | candidate :: rest => do
    if candidate.params.length ≠ args.length then
      choose check args expected rest
    else if expected.any (· ≠ candidate.returnType) then
      choose check args expected rest
    else if ← allFit check args candidate.params then
      return some candidate
    else
      choose check args expected rest

/-- Argument types for a message; a call is checked without an expected type. -/
def describe (check : Checker) (args : List (NodeId × Option Ty)) : CheckM (List (Option Ty)) :=
  args.mapM fun
    | (_, some ty) => return some ty
    | (arg, none) => attempt (check arg none)

/-- Settles argument calls on the types of their parameters and requires places for references. -/
def settle (check : Checker) : List (NodeId × Option Ty) → List Binder → CheckM Unit
  | (arg, _) :: args, param :: params => do
    let argument ← node arg
    if argument.kind.isCall then
      let _ ← check arg (some param.ty)
    if param.isReference && !argument.kind.isPlace then
      fail (.referenceToNonPlace param.name) argument.span
    settle check args params
  | _, _ => return ()

/-- What a call of a name through this overload calls. -/
def target (name : String) (signature : Signature) : CallTarget :=
  match signature.definition with
  | some definition => .function definition
  | none => .builtin name

/-- Type of a call; notes the overload it calls. -/
def checkCall (check : Checker) (id : NodeId) (span : Span) (name : String) (args : List NodeId)
    (expected : Option Ty) : CheckM Ty := do
  let cx ← read
  let scope := (SemanticInfo.row cx.scopes id).getD ScopeId.global
  let overloads := (← cx.table.lookupFunction name scope).getD []
  let typed ← argumentTypes check args
  match ← choose check typed expected overloads with
  | none => fail (.noMatchingFunction name (← describe check typed)) span
  | some signature =>
    settle check typed signature.params
    setTarget id (target name signature)
    return signature.returnType

/-! ### Expressions and statements -/

/-- Type of an expression node, where `check` checks its parts. Nodes that are no expressions have
type `void`. -/
def checkKind (check : Checker) (id : NodeId) (expected : Option Ty) (node : Node) :
    CheckM Ty := do
  match node.kind with
  | .int _ => return .int
  | .text _ => return .text
  | .bool _ => return .bool
  | .var name => variableType id name node.span
  | .field base name =>
    match ← check base none with
    | .record record => fieldType record name node.span
    | found => fail (.notARecord found) node.span
  | .element base index =>
    match ← check base none with
    | .array element =>
      let found ← check index (some .int)
      if found ≠ .int then
        fail (.invalidIndex found) (← Typing.node index).span
      return element
    | found => fail (.notAnArray found) node.span
  | .unary op operand =>
    let found ← check operand none
    match op.result? found with
    | none => fail (.invalidUnary op found) node.span
    | some ty =>
      if op.isStep && !(← Typing.node operand).kind.isPlace then
        fail (.stepOfNonPlace op) node.span
      return ty
  | .binary op left right =>
    let leftType ← check left none
    let rightType ← check right none
    match op.result? leftType rightType with
    | none => fail (.invalidBinary op leftType rightType) node.span
    | some ty => return ty
  | .call name args => checkCall check id node.span name args expected
  | _ => return .void

/-- Type of an expression nested at most `depth` deep; notes the type of every part. -/
def checkExpression : Nat → Checker
  | 0, _, _ => throw (.fault .cyclicArena)
  | depth + 1, id, expected => do
    let ty ← checkKind (checkExpression depth) id expected (← node id)
    setType id ty
    return ty

/-- Type of an expression. -/
def checkRoot : Checker := fun id expected => do
  checkExpression (← read).arena.depthLimit id expected

/-- A record a type is built on must be declared. -/
def checkType (ty : Ty) (span : Span) : CheckM Unit := do
  match ty.base with
  | .record name =>
    if (← (← read).table.lookupRecord name).isNone then
      fail (.undefinedRecord name) span
  | _ => return ()

/-- The type of a declaration node must be declared. -/
def checkDeclaration (id : NodeId) : CheckM Unit := do
  let node ← node id
  match node.kind.binder? with
  | some b => checkType b.ty node.span
  | none => return ()

def checkCondition (construct : Conditional) (id : NodeId) : CheckM Unit := do
  let found ← checkRoot id (some .bool)
  if found ≠ .bool then
    fail (.conditionNotBool construct found) (← node id).span

/-- Checks a statement nested at most `depth` deep in a function with this return type. -/
def checkStatement (returnType : Ty) : Nat → NodeId → CheckM Unit
  | 0, _ => throw (.fault .cyclicArena)
  | depth + 1, id => do
    let node ← node id
    match node.kind with
    | .block body => body.forM (checkStatement returnType depth)
    | .declare declaration => checkDeclaration declaration
    | .assign target value =>
      let expected ← checkRoot target none
      let found ← checkRoot value (some expected)
      if found ≠ expected then
        fail (.assignmentMismatch expected found) node.span
    | .callStatement call =>
      let _ ← checkRoot call none
    | .branch condition onTrue onFalse =>
      checkCondition .branch condition
      checkStatement returnType depth onTrue
      match onFalse with
      | some other => checkStatement returnType depth other
      | none => return ()
    | .loop condition body =>
      checkCondition .loop condition
      checkStatement returnType depth body
    | .ret value =>
      let found ← match value with
        | some value => checkRoot value (some returnType)
        | none => pure Ty.void
      if found ≠ returnType then
        fail (.returnMismatch returnType found) node.span
    | .empty => return ()
    | _ =>
      let _ ← checkRoot id none

def checkRecord (id : NodeId) : CheckM Unit := do
  match (← node id).kind.record? with
  | some r => r.fields.forM checkDeclaration
  | none => return ()

def checkFunction (id : NodeId) : CheckM Unit := do
  let node ← node id
  match node.kind.function? with
  | none => return ()
  | some f =>
    checkType f.returnType node.span
    f.params.forM checkDeclaration
    f.body.forM (checkStatement f.returnType (← read).arena.depthLimit)

def checkUnit : CheckM Unit := do
  match (← node NodeId.root).kind with
  | .unit u =>
    u.globals.forM checkDeclaration
    u.records.forM checkRecord
    u.functions.forM checkFunction
  | _ => return ()

end Typing

/-- Checks a bound arena. Gives the verdict, the table without the builtins, and the annotations,
which are the ones found so far when the check fails. -/
def Arena.check (a : Arena) (table : SymbolTable) (info : SemanticInfo) :
    Except (Failure SemanticError) Unit × SymbolTable × SemanticInfo :=
  let (result, s) :=
    (Typing.checkUnit.run ⟨a, table, info.scopes, info.resolved⟩).run ⟨info.types, info.targets⟩
  (result, table.withoutBuiltins, { info with types := s.types, targets := s.targets })

end MiniJ
