import MiniJ.Fault
import MiniJ.Operator
import MiniJ.Source.Span

/-!
# Arenas

A program as a numbered list of nodes that refer to each other by number, counting from 1. Node 1
is the root. The passes annotate nodes by number, so they work on arenas; an arena may also be
built by hand and need not have the shape of a parsed program.
-/
namespace MiniJ

/-- Number of a node, counting from 1. -/
abbrev NodeId := Nat

/-- The root of an arena. -/
def NodeId.root : NodeId := 1

/-- A declared name: name, type and whether it is a reference. -/
structure Binder where
  name : String
  ty : Ty
  isReference : Bool
  deriving DecidableEq, Repr

/-- A function as a node. -/
structure FunctionNode where
  name : String
  returnType : Ty
  params : List NodeId
  body : List NodeId
  deriving DecidableEq, Repr

/-- A record as a node. -/
structure RecordNode where
  name : String
  fields : List NodeId
  deriving DecidableEq, Repr

/-- A whole program as a node. -/
structure UnitNode where
  globals : List NodeId
  records : List NodeId
  functions : List NodeId
  deriving DecidableEq, Repr

/-- What a node is. -/
inductive NodeKind where
  | int (value : Int64)
  | text (value : String)
  | bool (value : Bool)
  | var (name : String)
  | field (base : NodeId) (name : String)
  | element (base index : NodeId)
  | unary (op : UnaryOp) (operand : NodeId)
  | binary (op : BinaryOp) (left right : NodeId)
  | call (name : String) (args : List NodeId)
  | block (body : List NodeId)
  | declare (declaration : NodeId)
  | assign (target value : NodeId)
  | callStatement (call : NodeId)
  | branch (condition onTrue : NodeId) (onFalse : Option NodeId)
  | loop (condition body : NodeId)
  | ret (value : Option NodeId)
  | empty
  | declaration (binder : Binder)
  | function (function : FunctionNode)
  | record (record : RecordNode)
  | unit (unit : UnitNode)
  | dummy
  deriving DecidableEq, Repr

namespace NodeKind

/-- Direct children, in source order but for the members of a program: its variables come first,
then its records, then its functions. -/
def children : NodeKind → List NodeId
  | int _ | text _ | bool _ | var _ | empty | declaration _ | dummy => []
  | field base _ => [base]
  | element base index => [base, index]
  | unary _ operand => [operand]
  | binary _ left right => [left, right]
  | call _ args => args
  | block body => body
  | declare d => [d]
  | assign target value => [target, value]
  | callStatement c => [c]
  | branch condition onTrue onFalse => condition :: onTrue :: onFalse.toList
  | loop condition body => [condition, body]
  | ret value => value.toList
  | function f => f.params ++ f.body
  | record r => r.fields
  | unit u => u.globals ++ u.records ++ u.functions

/-- Variables, fields and elements can be written to. -/
def isPlace : NodeKind → Bool
  | var _ | field .. | element .. => true
  | _ => false

def isCall : NodeKind → Bool
  | call .. => true
  | _ => false

def isReturn : NodeKind → Bool
  | ret _ => true
  | _ => false

/-- What a declaration declares. -/
def binder? : NodeKind → Option Binder
  | declaration b => some b
  | _ => none

def function? : NodeKind → Option FunctionNode
  | function f => some f
  | _ => none

def record? : NodeKind → Option RecordNode
  | record r => some r
  | _ => none

end NodeKind

/-- A node with the text it was read from. -/
structure Node where
  kind : NodeKind
  span : Span
  deriving DecidableEq, Repr

/-- Nodes by number. -/
structure Arena where
  nodes : Array Node := #[]
  deriving DecidableEq, Repr

namespace Arena

def size (a : Arena) : Nat := a.nodes.size

/-- The node with this number. -/
def node? (a : Arena) : NodeId → Option Node
  | 0 => none
  | i + 1 => a.nodes[i]?

/-- The node a reference points to; a dangling reference is a fault. -/
def node (a : Arena) (id : NodeId) : Except Fault Node :=
  match a.node? id with
  | some n => .ok n
  | none => .error .danglingNode

def kind (a : Arena) (id : NodeId) : Except Fault NodeKind := return (← a.node id).kind

def span (a : Arena) (id : NodeId) : Except Fault Span := return (← a.node id).span

def binder? (a : Arena) (id : NodeId) : Except Fault (Option Binder) :=
  return (← a.kind id).binder?

def function? (a : Arena) (id : NodeId) : Except Fault (Option FunctionNode) :=
  return (← a.kind id).function?

def record? (a : Arena) (id : NodeId) : Except Fault (Option RecordNode) :=
  return (← a.kind id).record?

/-- The unit at the root, if the root is one. -/
def unit? (a : Arena) : Option UnitNode :=
  match a.node? NodeId.root with
  | some ⟨.unit u, _⟩ => some u
  | _ => none

/-- How deep a pass descends. No chain of distinct nodes is longer than the arena; twice its size
shows a chain that repeats itself. -/
def depthLimit (a : Arena) : Nat := 2 * a.size + 2

/-- Node numbers of a subtree of at most this depth, each before its children. -/
def preorder (a : Arena) : Nat → NodeId → Except Fault (List NodeId)
  | 0, _ => .error .cyclicArena
  | depth + 1, id => do
    let below ← (← a.kind id).children.mapM (a.preorder depth)
    return id :: below.flatten

/-- Node numbers of a subtree, each before its children. -/
def walk (a : Arena) (id : NodeId) : Except Fault (List NodeId) := a.preorder a.depthLimit id

end Arena

end MiniJ
