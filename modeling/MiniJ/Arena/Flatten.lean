import MiniJ.Arena
import MiniJ.Tree

/-!
# Numbering a program

`Arena.ofProgram` lays the parts of a program out in an arena. The unit comes first; every other
part gets its number after its own parts, and members are numbered in source order.
-/
namespace MiniJ

namespace Flatten

/-- Adding nodes to an arena. -/
abbrev FlattenM := StateM (Array Node)

/-- Adds a node behind the others and gives its number. -/
def push (kind : NodeKind) (span : Span) : FlattenM NodeId := fun nodes =>
  (nodes.size + 1, nodes.push ⟨kind, span⟩)

mutual

def expr : Expr → FlattenM NodeId
  | .int s value => push (.int value) s
  | .text s value => push (.text value) s
  | .bool s value => push (.bool value) s
  | .var s name => push (.var name) s
  | .field s base name => do
    let base ← expr base
    push (.field base name) s
  | .element s base index => do
    let base ← expr base
    let index ← expr index
    push (.element base index) s
  | .unary s op operand => do
    let operand ← expr operand
    push (.unary op operand) s
  | .binary s op left right => do
    let left ← expr left
    let right ← expr right
    push (.binary op left right) s
  | .call s name args => do
    let args ← exprs args
    push (.call name args) s

def exprs : List Expr → FlattenM (List NodeId)
  | [] => return []
  | e :: rest => do
    let first ← expr e
    let others ← exprs rest
    return first :: others

end

def declaration (d : Declaration) : FlattenM NodeId :=
  push (.declaration ⟨d.name, d.ty, d.isReference⟩) d.span

/-- A local: the declaration and the statement that runs it. -/
def localDeclaration (d : Declaration) : FlattenM NodeId := do
  let id ← declaration d
  push (.declare id) d.span

mutual

def statement : Statement → FlattenM NodeId
  | .block s body => do
    let body ← statements body
    push (.block body) s
  | .assign s target value => do
    let target ← expr target
    let value ← expr value
    push (.assign target value) s
  | .call s call => do
    let call ← expr call
    push (.callStatement call) s
  | .branch s condition onTrue onFalse => do
    let condition ← expr condition
    let onTrue ← statement onTrue
    let onFalse ← statement? onFalse
    push (.branch condition onTrue onFalse) s
  | .loop s condition body => do
    let condition ← expr condition
    let body ← statement body
    push (.loop condition body) s
  | .ret s none => push (.ret none) s
  | .ret s (some value) => do
    let value ← expr value
    push (.ret (some value)) s
  | .empty s => push .empty s

def statement? : Option Statement → FlattenM (Option NodeId)
  | none => return none
  | some s => do
    let id ← statement s
    return some id

def statements : List Statement → FlattenM (List NodeId)
  | [] => return []
  | s :: rest => do
    let first ← statement s
    let others ← statements rest
    return first :: others

end

def record (r : RecordDef) : FlattenM NodeId := do
  let fields ← r.fields.mapM declaration
  push (.record ⟨r.name, fields⟩) r.span

def function (f : FunctionDef) : FlattenM NodeId := do
  let params ← f.params.mapM declaration
  let locals ← f.locals.mapM localDeclaration
  let body ← statements f.body
  push (.function ⟨f.name, f.returnType, params, locals ++ body⟩) f.span

/-- Adds the members behind each other and sorts their numbers by kind. -/
def members : List Member → FlattenM UnitNode
  | [] => return ⟨[], [], []⟩
  | .global d :: rest => do
    let id ← declaration d
    let unit ← members rest
    return { unit with globals := id :: unit.globals }
  | .record r :: rest => do
    let id ← record r
    let unit ← members rest
    return { unit with records := id :: unit.records }
  | .function f :: rest => do
    let id ← function f
    let unit ← members rest
    return { unit with functions := id :: unit.functions }

end Flatten

/-- The arena of a program. -/
def Arena.ofProgram (p : Program) : Arena :=
  let (unit, nodes) := Flatten.members p.members #[⟨.dummy, Span.empty⟩]
  ⟨nodes.setIfInBounds 0 ⟨.unit unit, p.span⟩⟩

end MiniJ
