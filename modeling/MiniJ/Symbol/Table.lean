import MiniJ.Arena

/-!
# Symbol tables

Scopes form a tree under the global scope, which has number 1. Each scope binds names to numbered
entries; an entry may be bound in several scopes. Looking a name up walks from a scope outwards.

## Main definitions

* `SymbolTable.pushScope`, `SymbolTable.popScope` — entering and leaving a scope.
* `SymbolTable.declare`, `SymbolTable.bind` — a new entry, or one more name for an entry.
* `SymbolTable.lookupFrom` — the nearest binding of a name.
* `SymbolTable.withoutBuiltins` — the table once all calls are resolved.
-/
namespace MiniJ

/-- Number of an entry, counting from 1. -/
abbrev EntryId := Nat

/-- Number of a scope, counting from 1. -/
abbrev ScopeId := Nat

/-- The scope all others lie in. -/
def ScopeId.global : ScopeId := 1

/-- How a variable was declared. -/
inductive VariableClass where
  | global
  | parameter (index : Nat)
  | localVariable
  | recordField
  deriving DecidableEq, Repr

/-- One overload of a function. Builtins have no definition. -/
structure Signature where
  returnType : Ty
  params : List Binder
  definition : Option NodeId
  deriving DecidableEq, Repr

namespace Signature

def isBuiltin (s : Signature) : Bool := s.definition.isNone

/-- Parameter types as they are written in source, such as `int, R&`. -/
def parameterList (s : Signature) : String :=
  ", ".intercalate (s.params.map fun p => p.ty.spelling ++ if p.isReference then "&" else "")

end Signature

/-- A field of a record. -/
structure Field where
  name : String
  ty : Ty
  deriving DecidableEq, Repr

/-- What a name stands for. -/
inductive Meaning where
  | var (ty : Ty) (isReference : Bool) (kind : VariableClass) (declaration : NodeId)
  /-- All overloads of one name in one scope. -/
  | function (overloads : List Signature)
  | record (fields : List Field) (declaration : NodeId)
  deriving DecidableEq, Repr

namespace Meaning

def overloads? : Meaning → Option (List Signature)
  | function overloads => some overloads
  | _ => none

def fields? : Meaning → Option (List Field)
  | record fields _ => some fields
  | _ => none

/-- Keeps the overloads that have a definition. -/
def withoutBuiltins : Meaning → Meaning
  | function overloads => function (overloads.filter fun s => !s.isBuiltin)
  | other => other

/-- An overload set without overloads. -/
def isVacant : Meaning → Bool
  | function [] => true
  | _ => false

end Meaning

/-- A name, the scope it was declared in, and what it stands for. -/
structure Entry where
  name : String
  scope : ScopeId
  span : Span
  meaning : Meaning
  deriving DecidableEq, Repr

/-- A scope: its parent and the entries bound in it, one per name. -/
structure Scope where
  parent : Option ScopeId
  symbols : List (String × EntryId)
  deriving DecidableEq, Repr

namespace Scope

/-- Binds a name, replacing an earlier binding. -/
def insert (s : Scope) (name : String) (entry : EntryId) : Scope :=
  { s with symbols := (name, entry) :: s.symbols.filter (·.1 != name) }

def find? (s : Scope) (name : String) : Option EntryId := s.symbols.lookup name

end Scope

/-- Entries, scopes, and the scope that declarations go to. -/
structure SymbolTable where
  entries : Array Entry := #[]
  scopes : Array Scope := #[⟨none, []⟩]
  current : ScopeId := ScopeId.global
  deriving DecidableEq, Repr

namespace SymbolTable

def scope? (t : SymbolTable) : ScopeId → Option Scope
  | 0 => none
  | i + 1 => t.scopes[i]?

/-- The scope with this number; an unknown number is a fault. -/
def scope (t : SymbolTable) (id : ScopeId) : Except Fault Scope :=
  match t.scope? id with
  | some s => .ok s
  | none => .error .unknownScope

/-- The entry with this number; an unknown number is a fault. -/
def entry (t : SymbolTable) : EntryId → Except Fault Entry
  | 0 => .error .unknownEntry
  | i + 1 =>
    match t.entries[i]? with
    | some e => .ok e
    | none => .error .unknownEntry

/-- Opens a scope inside the current one and makes it current. -/
def pushScope (t : SymbolTable) : SymbolTable :=
  { t with scopes := t.scopes.push ⟨some t.current, []⟩, current := t.scopes.size + 1 }

/-- Number of the scope around the current one. -/
def parent? (t : SymbolTable) : Option ScopeId := (t.scope? t.current).bind (·.parent)

/-- Returns to the scope around the current one; the global scope stays. -/
def popScope (t : SymbolTable) : SymbolTable := { t with current := t.parent?.getD t.current }

/-- Binds a name to an entry in the current scope. -/
def bind (t : SymbolTable) (name : String) (entry : EntryId) : SymbolTable :=
  { t with scopes := t.scopes.modify (t.current - 1) (·.insert name entry) }

/-- Declares a name in the current scope; gives the number of its entry. -/
def declare (t : SymbolTable) (name : String) (meaning : Meaning) (span : Span) :
    EntryId × SymbolTable :=
  let id := t.entries.size + 1
  (id, { t with entries := t.entries.push ⟨name, t.current, span, meaning⟩ }.bind name id)

/-- Replaces what an entry stands for. -/
def redefine (t : SymbolTable) (id : EntryId) (meaning : Meaning) : SymbolTable :=
  { t with entries := t.entries.modify (id - 1) fun e => { e with meaning := meaning } }

/-- A scope and the scopes around it, from inside out, at most `limit` of them. -/
def chainUpTo (t : SymbolTable) : Nat → ScopeId → List (ScopeId × Scope)
  | 0, _ => []
  | limit + 1, id =>
    match t.scope? id with
    | none => []
    | some s =>
      (id, s) :: match s.parent with
        | some outer => t.chainUpTo limit outer
        | none => []

/-- A scope and the scopes around it, from inside out. -/
def chain (t : SymbolTable) (id : ScopeId) : List (ScopeId × Scope) := t.chainUpTo t.scopes.size id

/-- Nearest binding of a name, with the scope it was found in. -/
def find? (t : SymbolTable) (name : String) (start : ScopeId) : Option (EntryId × ScopeId) :=
  (t.chain start).findSome? fun (id, s) => (s.find? name).map (·, id)

/-- Nearest binding of a name, seen from a scope that must exist. -/
def lookupFrom (t : SymbolTable) (name : String) (start : ScopeId) :
    Except Fault (Option (EntryId × ScopeId)) := do
  let _ ← t.scope start
  return t.find? name start

/-- Nearest binding of a name, seen from the current scope. -/
def lookup (t : SymbolTable) (name : String) : Option (EntryId × ScopeId) :=
  t.find? name t.current

/-- Binding of a name in one scope, which must exist. -/
def lookupIn (t : SymbolTable) (name : String) (scope : ScopeId) :
    Except Fault (Option EntryId) :=
  return (← t.scope scope).find? name

/-- The first overload set a name is bound to along some scopes; other meanings are skipped. -/
def overloadsAlong (t : SymbolTable) (name : String) :
    List (ScopeId × Scope) → Except Fault (Option (List Signature))
  | [] => return none
  | (_, s) :: outer => do
    match s.find? name with
    | none => t.overloadsAlong name outer
    | some id =>
      match (← t.entry id).meaning.overloads? with
      | some overloads => return some overloads
      | none => t.overloadsAlong name outer

/-- Nearest overload set of a name, seen from a scope that must exist. -/
def lookupFunction (t : SymbolTable) (name : String) (start : ScopeId) :
    Except Fault (Option (List Signature)) := do
  let _ ← t.scope start
  t.overloadsAlong name (t.chain start)

/-- Fields of the record a name is bound to in the global scope. -/
def lookupRecord (t : SymbolTable) (name : String) : Except Fault (Option (List Field)) := do
  match ← t.lookupIn name ScopeId.global with
  | none => return none
  | some id => return (← t.entry id).meaning.fields?

/-- Whether a binding in scope `id` was made by an entry that has no overload left. -/
def isVacant (t : SymbolTable) (id : ScopeId) (binding : String × EntryId) : Bool :=
  match t.entry binding.2 with
  | .ok e => e.meaning.isVacant && e.name == binding.1 && e.scope == id
  | .error _ => false

/-- Drops the bindings that declared an overload set which is now empty. -/
def dropVacant (t : SymbolTable) : SymbolTable :=
  { t with scopes := t.scopes.mapIdx fun i s =>
      { s with symbols := s.symbols.filter fun b => !t.isVacant (i + 1) b } }

/-- Drops the overloads of every entry that are builtin. -/
def dropBuiltins (t : SymbolTable) : SymbolTable :=
  { t with entries := t.entries.map fun e => { e with meaning := e.meaning.withoutBuiltins } }

/-- Drops the builtin overloads; names left without overloads disappear from their scope. -/
def withoutBuiltins (t : SymbolTable) : SymbolTable := t.dropBuiltins.dropVacant

end SymbolTable

end MiniJ
