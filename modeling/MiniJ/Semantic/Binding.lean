import MiniJ.Semantic.Error
import MiniJ.Semantic.Info
import MiniJ.Symbol.Builtin

/-!
# Binding

The first pass over an arena declares what a program declares and resolves the variables it uses.
Globals, records and functions go to the global scope. Each record and each function opens one
scope below it, which starts with its own name and holds its fields, or its parameters and all
locals of its body. The pass stops at the first error.

## Main definitions

* `Binding.bindRecord`, `Binding.bindFunction` — one member of a program.
* `Arena.bind` — the whole pass.
-/
namespace MiniJ

namespace Binding

/-- The tables the pass fills. -/
structure State where
  table : SymbolTable
  scopes : Array (Option ScopeId)
  resolved : Array (Option EntryId)
  deriving DecidableEq, Repr

/-- An error leaves the tables as they were when it was found. -/
abbrev BindM := ExceptT (Failure SemanticError) (StateM State)

/-- Reports an error. -/
def fail {α : Type} (cause : SemanticError.Cause) (span : Span) : BindM α :=
  throw (.reported ⟨cause, span⟩)

/-- Notes that a node lies in the current scope. -/
def recordScope (id : NodeId) : BindM Unit :=
  modify fun s => { s with scopes := SemanticInfo.setRow s.scopes id s.table.current }

/-- Declares a name in the current scope. -/
def declare (name : String) (meaning : Meaning) (span : Span) : BindM EntryId := do
  let (entry, table) := (← get).table.declare name meaning span
  modify fun s => { s with table := table }
  return entry

/-- Fails when the current scope already binds a name. -/
def ensureFresh (name : String) (span : Span) : BindM Unit := do
  let table := (← get).table
  match ← table.lookupIn name table.current with
  | some entry => fail (.redefinition name (← table.entry entry).span) span
  | none => return ()

/-- Declares the variable of a declaration node; other nodes declare nothing. -/
def declareVariable (a : Arena) (id : NodeId) (kind : VariableClass) : BindM Unit := do
  let node ← a.node id
  match node.kind.binder? with
  | none => return ()
  | some b =>
    ensureFresh b.name node.span
    recordScope id
    let _ ← declare b.name (.var b.ty b.isReference kind id) node.span

/-- Runs `body` in a new scope that binds `name` to `entry`, and leaves the scope afterwards, also
after an error. -/
def inScope (name : String) (entry : EntryId) (body : BindM Unit) : BindM Unit :=
  ExceptT.mk fun s =>
    let (result, s) := body.run { s with table := s.table.pushScope.bind name entry }
    (result, { s with table := s.table.popScope })

/-- What the declarations among some nodes declare. -/
def binders (a : Arena) (ids : List NodeId) : Except Fault (List Binder) :=
  return (← ids.mapM a.binder?).filterMap id

def bindRecord (a : Arena) (id : NodeId) : BindM Unit := do
  let node ← a.node id
  match node.kind.record? with
  | none => return ()
  | some r =>
    ensureFresh r.name node.span
    recordScope id
    let fields := (← binders a r.fields).map fun b => (⟨b.name, b.ty⟩ : Field)
    let entry ← declare r.name (.record fields id) node.span
    inScope r.name entry (r.fields.forM fun field => declareVariable a field .recordField)

/-- Adds an overload to the set of its name in the current scope. -/
def registerOverload (name : String) (signature : Signature) (span : Span) : BindM EntryId := do
  let table := (← get).table
  match ← table.lookupIn name table.current with
  | none => declare name (.function [signature]) span
  | some id =>
    let entry ← table.entry id
    match entry.meaning.overloads? with
    | none => fail (.redefinition name entry.span) span
    | some overloads =>
      if overloads.any fun other =>
          other.returnType = signature.returnType && other.params = signature.params then
        fail (.duplicateFunction name signature) span
      modify fun s =>
        { s with table := s.table.redefine id (.function (overloads ++ [signature])) }
      return id

/-- Resolves the name of a variable node. -/
def resolveVariable (id : NodeId) (name : String) (span : Span) : BindM Unit := do
  let table := (← get).table
  match table.lookup name with
  | none => fail (.undeclared name) span
  | some (entry, _) =>
    match (← table.entry entry).meaning with
    | .var .. =>
      modify fun s => { s with resolved := SemanticInfo.setRow s.resolved id entry }
    | _ => fail (.notAVariable name) span

/-- Binds a statement or expression of a function body, nested at most `depth` deep. -/
def bindNode (a : Arena) : Nat → NodeId → BindM Unit
  | 0, _ => throw (.fault .cyclicArena)
  | depth + 1, id => do
    let node ← a.node id
    recordScope id
    match node.kind with
    | .declare declaration => declareVariable a declaration .localVariable
    | .var name => resolveVariable id name node.span
    -- entities below a statement declare nothing
    | .declaration _ | .function _ | .record _ | .unit _ => return ()
    | kind => kind.children.forM (bindNode a depth)

/-- Whether a node is a block with a `return` directly inside. -/
def blockReturns (a : Arena) (id : NodeId) : Except Fault Bool := do
  match ← a.kind id with
  | .block body => body.anyM fun s => return (← a.kind s).isReturn
  | _ => return false

/-- Whether a statement of a function body returns: a `return`, or an `if` with one directly inside
a branch. Loops and nested blocks are not searched. -/
def returns (a : Arena) (id : NodeId) : Except Fault Bool := do
  match ← a.kind id with
  | .ret _ => return true
  | .branch _ onTrue onFalse => (onTrue :: onFalse.toList).anyM (blockReturns a)
  | _ => return false

/-- Declares parameters, numbered from `index` on. -/
def declareParameters (a : Arena) : Nat → List NodeId → BindM Unit
  | _, [] => return ()
  | index, id :: rest => do
    declareVariable a id (.parameter index)
    declareParameters a (index + 1) rest

def bindFunction (a : Arena) (id : NodeId) : BindM Unit := do
  let node ← a.node id
  match node.kind.function? with
  | none => return ()
  | some f =>
    if f.name = "main" then
      if f.returnType ≠ .int then
        fail (.mainReturnType f.returnType) node.span
      if !f.params.isEmpty then
        fail .mainHasParameters node.span
    let params ← binders a f.params
    recordScope id
    let entry ← registerOverload f.name ⟨f.returnType, params, some id⟩ node.span
    inScope f.name entry do
      declareParameters a 0 f.params
      f.body.forM (bindNode a a.depthLimit)
    if f.returnType ≠ .void && f.name ≠ "main" then
      let returned ← (f.body.anyM (returns a) : Except Fault Bool)
      if !returned then
        fail (.missingReturn f.name) node.span

def bindUnit (a : Arena) : BindM Unit := do
  let node ← a.node NodeId.root
  match node.kind with
  | .unit u =>
    recordScope NodeId.root
    u.globals.forM fun id => declareVariable a id .global
    u.records.forM (bindRecord a)
    u.functions.forM (bindFunction a)
  | _ => return ()

end Binding

/-- Binds an arena on top of a symbol table, to which the builtins are added first. Gives the
verdict, the table and the annotations, which are the ones found so far when binding fails. -/
def Arena.bind (a : Arena) (table : SymbolTable) :
    Except (Failure SemanticError) Unit × SymbolTable × SemanticInfo :=
  let blank := SemanticInfo.blank a.size
  let (result, s) := (Binding.bindUnit a).run ⟨table.withBuiltins, blank.scopes, blank.resolved⟩
  (result, s.table, { blank with scopes := s.scopes, resolved := s.resolved })

end MiniJ
