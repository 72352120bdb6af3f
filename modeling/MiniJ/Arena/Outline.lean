import MiniJ.Arena
import MiniJ.Text.Quoted

/-!
# Outlines

An arena as text: one line per node in the order of their numbers, children printed as numbers.
-/
namespace MiniJ

namespace NodeKind

/-- Node numbers with commas between them. -/
def numbers (ids : List NodeId) : String := ", ".intercalate (ids.map toString)

/-- One node of an outline. -/
def outline : NodeKind → String
  | int value => "LiteralInt(" ++ toString value.toInt ++ ")"
  | text value => "LiteralString(" ++ Text.quote value ++ ")"
  | bool value => s!"LiteralBool({value})"
  | var name => s!"Variable({name})"
  | field base name => s!"FieldAccess({base}, {name})"
  | element base index => s!"ArrayAccess({base}, {index})"
  | unary op operand => "UnaryOp(" ++ op.name ++ s!", {operand})"
  | binary op left right => "BinaryOp(" ++ op.name ++ s!", {left}, {right})"
  | call name args => s!"Call({name}, [" ++ numbers args ++ "])"
  | block body => "Block([" ++ numbers body ++ "])"
  | declare d => s!"DeclarationStatement({d})"
  | assign target value => s!"Assignment({target}, {value})"
  | callStatement c => s!"CallStatement({c})"
  | branch condition onTrue onFalse =>
    let otherwise := (onFalse.map toString).getD "none"
    s!"If(condition={condition}, then={onTrue}, else={otherwise})"
  | loop condition body => s!"While(condition={condition}, body={body})"
  | ret value => "Return(" ++ (value.map toString).getD "void" ++ ")"
  | empty => "EmptyStatement"
  | declaration b =>
    "Declaration(" ++ b.ty.spelling ++ " " ++ (if b.isReference then "&" else "") ++ b.name ++ ")"
  | function f =>
    "Function(" ++ f.returnType.spelling ++ " " ++ f.name ++ ", params=[" ++ numbers f.params ++
      "], body=[" ++ numbers f.body ++ "])"
  | record r => "Record(" ++ r.name ++ ", fields=[" ++ numbers r.fields ++ "])"
  | unit u =>
    "Unit(globals=[" ++ numbers u.globals ++ "], records=[" ++ numbers u.records ++
      "], functions=[" ++ numbers u.functions ++ "])"
  | dummy => "DUMMY"

end NodeKind

namespace Arena

/-- Lines for the nodes that follow the first `count`; placeholders are left out. -/
def outlineLines : Nat → List Node → List String
  | _, [] => []
  | count, ⟨.dummy, _⟩ :: rest => outlineLines (count + 1) rest
  | count, node :: rest =>
    (s!"{count + 1}: " ++ node.kind.outline ++ "\n") :: outlineLines (count + 1) rest

/-- One line per node. -/
def outline (a : Arena) : String := String.join (outlineLines 0 a.nodes.toList)

end Arena

end MiniJ
