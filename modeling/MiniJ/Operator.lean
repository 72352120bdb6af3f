import MiniJ.Ty

/-!
# Operators

Spelling, binding strength and typing of the unary and binary operators. Binary operands always
have equal types, and each operator accepts only a few of those.
-/
namespace MiniJ

inductive UnaryOp where
  | minus | not | preIncrement | preDecrement | postIncrement | postDecrement
  deriving DecidableEq, Repr

inductive BinaryOp where
  | plus | minus | times | div | mod
  | equal | unequal | lesser | lesserEq | greater | greaterEq
  | and | or
  deriving DecidableEq, Repr

namespace UnaryOp

def symbol : UnaryOp → String
  | minus => "-"
  | not => "!"
  | preIncrement | postIncrement => "++"
  | preDecrement | postDecrement => "--"

def name : UnaryOp → String
  | minus => "Minus"
  | not => "Not"
  | preIncrement => "PreIncrement"
  | preDecrement => "PreDecrement"
  | postIncrement => "PostIncrement"
  | postDecrement => "PostDecrement"

/-- The operators that write to their operand. -/
def isStep : UnaryOp → Bool
  | minus | not => false
  | _ => true

/-- Result type on an operand of this type. -/
def result? : UnaryOp → Ty → Option Ty
  | not, .bool => some .bool
  | not, _ => none
  | _, .int => some .int
  | _, _ => none

end UnaryOp

namespace BinaryOp

def symbol : BinaryOp → String
  | plus => "+"
  | minus => "-"
  | times => "*"
  | div => "/"
  | mod => "%"
  | equal => "=="
  | unequal => "!="
  | lesser => "<"
  | lesserEq => "<="
  | greater => ">"
  | greaterEq => ">="
  | and => "&&"
  | or => "||"

def name : BinaryOp → String
  | plus => "Plus"
  | minus => "Minus"
  | times => "Times"
  | div => "Div"
  | mod => "Mod"
  | equal => "Equal"
  | unequal => "Unequal"
  | lesser => "Lesser"
  | lesserEq => "LesserEq"
  | greater => "Greater"
  | greaterEq => "GreaterEq"
  | and => "And"
  | or => "Or"

def isEquality : BinaryOp → Bool
  | equal | unequal => true
  | _ => false

def isComparison : BinaryOp → Bool
  | equal | unequal | lesser | lesserEq | greater | greaterEq => true
  | _ => false

/-- Binding strength: a stronger operator takes its operands first. All operators associate to the
left. -/
def strength : BinaryOp → Nat
  | or => 1
  | and => 2
  | equal | unequal => 3
  | lesser | lesserEq | greater | greaterEq => 4
  | plus | minus => 5
  | times | div | mod => 6

/-- Result type when both operands have this type. -/
def resultOn? : BinaryOp → Ty → Option Ty
  | plus, .int => some .int
  | plus, .text => some .text
  | minus, .int | times, .int | div, .int | mod, .int => some .int
  | and, .bool | or, .bool => some .bool
  | and, .int | or, .int => some .int
  | lesser, .int | lesserEq, .int | greater, .int | greaterEq, .int => some .bool
  | lesser, .text | lesserEq, .text | greater, .text | greaterEq, .text => some .bool
  | equal, .bool | equal, .int | equal, .text => some .bool
  | unequal, .bool | unequal, .int | unequal, .text => some .bool
  | _, _ => none

/-- Result type on operands of these types. -/
def result? (op : BinaryOp) (left right : Ty) : Option Ty :=
  if left = right then op.resultOn? left else none

end BinaryOp

/-- Strength of the unary operators, above every binary one. -/
def UnaryOp.strength : Nat := 7

end MiniJ
