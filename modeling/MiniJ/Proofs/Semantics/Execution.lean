import MiniJ.Proofs.Semantics.Store
import MiniJ.Semantic.Info

/-!
# Execution

What expressions and statements without calls do to a store. Operands are evaluated from left to
right, and both of them always; the right side of an assignment is evaluated before its target is
found. Array elements, texts and calls have no rules, so code that reaches one has no execution
here.

## Main definitions

* `Scene.Denotes` — the region that a place stands for.
* `Scene.Evaluates` — the value of an expression, with its effect on the store.
* `Scene.Executes` — statements behind each other.
-/
namespace MiniJ

/-- The type of what a path of field names leads to; `void` if it leads nowhere. -/
def SymbolTable.typeAlong (t : SymbolTable) : Ty → List String → Ty
  | ty, [] => ty
  | .record record, name :: path =>
    match t.lookupRecord record with
    | .ok (some fields) =>
      match fields.find? (·.name == name) with
      | some f => t.typeAlong f.ty path
      | none => .void
    | _ => .void
  | _, _ :: _ => .void

/-- The values of a variable of this type when its declaration runs. -/
def SymbolTable.zeros (t : SymbolTable) (ty : Ty) (path : List String) : Value :=
  .zero (t.typeAlong ty path)

/-- How statements end: the next one follows, or the function is left. -/
inductive Completion where
  | normal
  | returned (value : Option Value)
  deriving DecidableEq

/-- A program while one of its functions runs. -/
structure Scene where
  arena : Arena
  info : SemanticInfo
  table : SymbolTable
  /-- What the parameters that are references refer to. -/
  refers : NodeId → Region

namespace Scene

variable (scene : Scene)

/-- The region that a variable or a field stands for. -/
inductive Denotes : NodeId → Region → Prop
  | global {id e d : NodeId} {name : String} {x : Entry} {ty : Ty} {ref : Bool}
      (kind : scene.arena.kind id = .ok (.var name))
      (resolved : scene.info.resolvedEntry id = some e) (entry : scene.table.entry e = .ok x)
      (meaning : x.meaning = .var ty ref .global d) : Denotes id (.whole (.global d))
  | inner {id e d : NodeId} {name : String} {x : Entry} {ty : Ty} {cls : VariableClass}
      (kind : scene.arena.kind id = .ok (.var name))
      (resolved : scene.info.resolvedEntry id = some e) (entry : scene.table.entry e = .ok x)
      (meaning : x.meaning = .var ty false cls d) (own : cls ≠ .global) :
      Denotes id (.whole (.inner d))
  | reference {id e d : NodeId} {name : String} {x : Entry} {ty : Ty} {cls : VariableClass}
      (kind : scene.arena.kind id = .ok (.var name))
      (resolved : scene.info.resolvedEntry id = some e) (entry : scene.table.entry e = .ok x)
      (meaning : x.meaning = .var ty true cls d) (own : cls ≠ .global) :
      Denotes id (scene.refers d)
  | field {id base : NodeId} {name : String} {r : Region}
      (kind : scene.arena.kind id = .ok (.field base name)) (part : Denotes base r) :
      Denotes id (r.field name)

/-- The value of an expression and the store behind it. -/
inductive Evaluates : Store → NodeId → Value → Store → Prop
  | int {σ : Store} {id : NodeId} {n : Int64} (kind : scene.arena.kind id = .ok (.int n)) :
      Evaluates σ id (.int n) σ
  | bool {σ : Store} {id : NodeId} {b : Bool} (kind : scene.arena.kind id = .ok (.bool b)) :
      Evaluates σ id (.bool b) σ
  | read {σ : Store} {id : NodeId} {ty : Ty} {r : Region} (type : scene.info.typeOf id = some ty)
      (scalar : ty.isRecord = false) (place : scene.Denotes id r) : Evaluates σ id (σ r) σ
  | minus {σ σ' : Store} {id operand : NodeId} {n : Int64}
      (kind : scene.arena.kind id = .ok (.unary .minus operand))
      (part : Evaluates σ operand (.int n) σ') : Evaluates σ id (.int (-n)) σ'
  | not {σ σ' : Store} {id operand : NodeId} {b : Bool}
      (kind : scene.arena.kind id = .ok (.unary .not operand))
      (part : Evaluates σ operand (.bool b) σ') : Evaluates σ id (.bool (!b)) σ'
  | step {σ : Store} {id operand : NodeId} {op : UnaryOp} {r : Region} {n : Int64}
      (kind : scene.arena.kind id = .ok (.unary op operand)) (isStep : op.isStep = true)
      (place : scene.Denotes operand r) (value : σ r = .int n) :
      Evaluates σ id (.int (op.yielded n)) (σ.set r (.int (op.stepped n)))
  | binary {σ σ₁ σ' : Store} {id left right : NodeId} {op : BinaryOp} {x y v : Value}
      (kind : scene.arena.kind id = .ok (.binary op left right))
      (first : Evaluates σ left x σ₁) (second : Evaluates σ₁ right y σ')
      (value : op.value? x y = some v) : Evaluates σ id v σ'

/-- What statements do to a store, one behind the other. -/
inductive Executes : Store → List NodeId → Completion → Store → Prop
  | nil {σ : Store} : Executes σ [] .normal σ
  | next {σ σ₁ σ' : Store} {id : NodeId} {rest : List NodeId} {c : Completion}
      (first : Executes σ [id] .normal σ₁) (others : Executes σ₁ rest c σ') :
      Executes σ (id :: rest) c σ'
  | leave {σ σ' : Store} {id : NodeId} {rest : List NodeId} {value : Option Value}
      (first : Executes σ [id] (.returned value) σ') : Executes σ (id :: rest) (.returned value) σ'
  | empty {σ : Store} {id : NodeId} (kind : scene.arena.kind id = .ok .empty) :
      Executes σ [id] .normal σ
  | block {σ σ' : Store} {id : NodeId} {body : List NodeId} {c : Completion}
      (kind : scene.arena.kind id = .ok (.block body)) (parts : Executes σ body c σ') :
      Executes σ [id] c σ'
  | declare {σ : Store} {id d : NodeId} {b : Binder} (kind : scene.arena.kind id = .ok (.declare d))
      (declaration : scene.arena.kind d = .ok (.declaration b)) :
      Executes σ [id] .normal (σ.fill (.inner d) (scene.table.zeros b.ty))
  | assign {σ σ' : Store} {id target value : NodeId} {ty : Ty} {v : Value} {r : Region}
      (kind : scene.arena.kind id = .ok (.assign target value))
      (type : scene.info.typeOf target = some ty) (scalar : ty.isRecord = false)
      (evaluated : scene.Evaluates σ value v σ') (place : scene.Denotes target r) :
      Executes σ [id] .normal (σ'.set r v)
  | assignRecord {σ : Store} {id target value : NodeId} {record : String}
    {source destination : Region} (kind : scene.arena.kind id = .ok (.assign target value))
      (type : scene.info.typeOf target = some (.record record))
      (stored : scene.Denotes value source) (place : scene.Denotes target destination) :
      Executes σ [id] .normal (σ.copy destination source)
  | onTrue {σ σ₁ σ' : Store} {id condition onTrue : NodeId} {onFalse : Option NodeId}
    {c : Completion} (kind : scene.arena.kind id = .ok (.branch condition onTrue onFalse))
      (test : scene.Evaluates σ condition (.bool true) σ₁) (part : Executes σ₁ [onTrue] c σ') :
      Executes σ [id] c σ'
  | onFalse {σ σ₁ σ' : Store} {id condition onTrue : NodeId} {onFalse : Option NodeId}
      {c : Completion} (kind : scene.arena.kind id = .ok (.branch condition onTrue onFalse))
      (test : scene.Evaluates σ condition (.bool false) σ₁)
      (part : Executes σ₁ onFalse.toList c σ') : Executes σ [id] c σ'
  | loopEnd {σ σ' : Store} {id condition body : NodeId}
      (kind : scene.arena.kind id = .ok (.loop condition body))
      (test : scene.Evaluates σ condition (.bool false) σ') : Executes σ [id] .normal σ'
  | loopNext {σ σ₁ σ₂ σ' : Store} {id condition body : NodeId} {c : Completion}
      (kind : scene.arena.kind id = .ok (.loop condition body))
      (test : scene.Evaluates σ condition (.bool true) σ₁)
      (part : Executes σ₁ [body] .normal σ₂) (again : Executes σ₂ [id] c σ') : Executes σ [id] c σ'
  | loopLeave {σ σ₁ σ' : Store} {id condition body : NodeId} {value : Option Value}
      (kind : scene.arena.kind id = .ok (.loop condition body))
      (test : scene.Evaluates σ condition (.bool true) σ₁)
      (part : Executes σ₁ [body] (.returned value) σ') : Executes σ [id] (.returned value) σ'
  | ret {σ : Store} {id : NodeId} (kind : scene.arena.kind id = .ok (.ret none)) :
      Executes σ [id] (.returned none) σ
  | retValue {σ σ' : Store} {id value : NodeId} {v : Value}
      (kind : scene.arena.kind id = .ok (.ret (some value)))
      (evaluated : scene.Evaluates σ value v σ') : Executes σ [id] (.returned (some v)) σ'

end Scene

end MiniJ
