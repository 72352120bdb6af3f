import MiniJ.Assembly.Register
import MiniJ.Operator

/-!
# Instructions

Lines of assembly code as data, and their NASM spelling. A displacement is a signed 32-bit number;
it is written as its sign and its absolute value, and the smallest one has no absolute value.
-/
namespace MiniJ

/-- What an address is relative to. -/
inductive Address.Base where
  | register (r : Register)
  /-- A symbol of a data section. -/
  | symbol (name : String)
  deriving DecidableEq, Repr

/-- `[base + displacement]` -/
structure Address where
  base : Address.Base
  displacement : Int := 0
  deriving DecidableEq, Repr

namespace Address

/-- The displacements an address can have. -/
def inRange (n : Int) : Bool := -2147483648 ≤ n && n < 2147483648

/-- An address relative to the frame pointer. -/
def frame (displacement : Int) : Address := ⟨.register .rbp, displacement⟩

def symbol (name : String) : Address := ⟨.symbol name, 0⟩

def register (r : Register) : Address := ⟨.register r, 0⟩

/-- The address `delta` bytes further. -/
def offsetBy (a : Address) (delta : Int) : Except Fault Address :=
  if inRange (a.displacement + delta) then
    .ok { a with displacement := a.displacement + delta }
  else .error .displacementOverflow

def Base.name : Base → String
  | register r => r.name
  | symbol name => name

def render (a : Address) : Except Fault String :=
  if a.displacement = 0 then .ok ("[" ++ a.base.name ++ "]")
  else if a.displacement < 0 then
    if inRange (-a.displacement) then
      .ok ("[" ++ a.base.name ++ "-" ++ toString (-a.displacement) ++ "]")
    else .error .displacementOverflow
  else .ok ("[" ++ a.base.name ++ "+" ++ toString a.displacement ++ "]")

end Address

/-- Width of a memory access. -/
inductive Width where
  | dword
  | qword
  deriving DecidableEq, Repr

/-- Values of 4 bytes take a double word, all others a quad word. -/
def Width.ofSize (size : Nat) : Width := if size = 4 then dword else qword

/-- Name in front of a memory operand. -/
def Width.name : Width → String
  | dword => "DWORD"
  | qword => "QWORD"

inductive Operand where
  | reg (r : Register)
  /-- Low 32 bits of a register. -/
  | reg32 (r : Register)
  /-- Low 8 bits of a register. -/
  | reg8 (r : Register)
  | imm (value : Int64)
  | mem (width : Width) (address : Address)
  /-- An address that is computed but not accessed. -/
  | addr (address : Address)
  | label (name : String)
  deriving DecidableEq, Repr

namespace Operand

/-- The part of a register that a value of this width takes. -/
def sized (width : Width) (r : Register) : Operand :=
  match width with
  | .dword => reg32 r
  | .qword => reg r

def render : Operand → Except Fault String
  | reg r => .ok r.name
  | reg32 r => .ok r.name32
  | reg8 r => .ok r.name8
  | imm value => .ok (toString value.toInt)
  | mem width address => return width.name ++ " " ++ (← address.render)
  | addr address => address.render
  | label name => .ok name

end Operand

/-- Outcomes of a comparison that jumps and flag reads depend on. -/
inductive Condition where
  | equal | notEqual | less | lessEqual | greater | greaterEqual
  deriving DecidableEq, Repr

namespace Condition

def all : List Condition := [.equal, .notEqual, .less, .lessEqual, .greater, .greaterEqual]

def suffix : Condition → String
  | equal => "e"
  | notEqual => "ne"
  | less => "l"
  | lessEqual => "le"
  | greater => "g"
  | greaterEqual => "ge"

/-- The outcome that holds exactly when this one does not. -/
def negate : Condition → Condition
  | equal => notEqual
  | notEqual => equal
  | less => greaterEqual
  | lessEqual => greater
  | greater => lessEqual
  | greaterEqual => less

/-- The outcome a comparison operator asks for. -/
def ofOperator? : BinaryOp → Option Condition
  | .equal => some equal
  | .unequal => some notEqual
  | .lesser => some less
  | .lesserEq => some lessEqual
  | .greater => some greater
  | .greaterEq => some greaterEqual
  | _ => none

end Condition

/-- Instruction names. -/
inductive Mnemonic where
  | mov | lea | movzx | add | sub | imul | neg | cqo | idiv | and | or | xor | cmp
  /-- Stores a comparison outcome as 0 or 1. -/
  | set (condition : Condition)
  | jmp
  /-- Jumps on a comparison outcome. -/
  | jump (condition : Condition)
  | push | pop | call | ret
  /-- An instruction that lowering never emits. -/
  | other (name : String)
  deriving DecidableEq, Repr

namespace Mnemonic

/-- The instructions with a meaning to the generator. -/
def known : List Mnemonic :=
  ([.mov, .lea, .movzx, .add, .sub, .imul, .neg, .cqo, .idiv, .and, .or, .xor, .cmp, .jmp, .push,
    .pop, .call, .ret] : List Mnemonic) ++ Condition.all.map Mnemonic.set ++
    Condition.all.map Mnemonic.jump

def name : Mnemonic → String
  | mov => "mov"
  | lea => "lea"
  | movzx => "movzx"
  | add => "add"
  | sub => "sub"
  | imul => "imul"
  | neg => "neg"
  | cqo => "cqo"
  | idiv => "idiv"
  | and => "and"
  | or => "or"
  | xor => "xor"
  | cmp => "cmp"
  | set c => "set" ++ c.suffix
  | jmp => "jmp"
  | jump c => "j" ++ c.suffix
  | push => "push"
  | pop => "pop"
  | call => "call"
  | ret => "ret"
  | other name => name

/-- The instruction with this name. -/
def ofName (name : String) : Mnemonic := (known.find? (·.name == name)).getD (other name)

end Mnemonic

/-- A line of a code section. -/
inductive Line where
  | label (name : String)
  | instruction (mnemonic : Mnemonic) (operands : List Operand)
  deriving DecidableEq, Repr

def Line.render : Line → Except Fault String
  | label name => .ok (name ++ ":")
  | instruction mnemonic operands => do
    let operands ← operands.mapM (·.render)
    return "    " ++ mnemonic.name ++
      if operands.isEmpty then "" else " " ++ ", ".intercalate operands

end MiniJ
