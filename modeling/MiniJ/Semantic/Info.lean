import MiniJ.Symbol.Table

/-!
# Annotations

What binding and type checking find out about the nodes of an arena, kept in tables with one row
per node.
-/
namespace MiniJ

/-- What a call calls. -/
inductive CallTarget where
  /-- A function node of the program. -/
  | function (definition : NodeId)
  | builtin (name : String)
  deriving DecidableEq, Repr

/-- Annotations by node number. -/
structure SemanticInfo where
  /-- The scope a node was bound in. -/
  scopes : Array (Option ScopeId)
  /-- The entry a variable refers to. -/
  resolved : Array (Option EntryId)
  /-- The type of an expression. -/
  types : Array (Option Ty)
  /-- The overload chosen for a call. -/
  targets : Array (Option CallTarget)
  deriving DecidableEq, Repr

namespace SemanticInfo

/-- No annotations for `count` nodes. -/
def blank (count : Nat) : SemanticInfo where
  scopes := Array.replicate count none
  resolved := Array.replicate count none
  types := Array.replicate count none
  targets := Array.replicate count none

/-- Row of a node in a table. -/
def row {α : Type} (table : Array (Option α)) (id : NodeId) : Option α :=
  (table[id - 1]?).join

/-- Fills the row of a node. -/
def setRow {α : Type} (table : Array (Option α)) (id : NodeId) (value : α) : Array (Option α) :=
  table.setIfInBounds (id - 1) (some value)

def scopeOf (info : SemanticInfo) (id : NodeId) : Option ScopeId := row info.scopes id

def resolvedEntry (info : SemanticInfo) (id : NodeId) : Option EntryId := row info.resolved id

def typeOf (info : SemanticInfo) (id : NodeId) : Option Ty := row info.types id

def callTarget (info : SemanticInfo) (id : NodeId) : Option CallTarget := row info.targets id

end SemanticInfo

end MiniJ
