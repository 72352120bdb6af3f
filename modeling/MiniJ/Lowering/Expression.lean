import MiniJ.Lowering.Gen
import MiniJ.Symbol.Builtin

/-!
# Code for expressions

Every expression is computed into a scratch register that its consumer releases. Places are first
lowered to a location, which is then read or written. The functions on the parts of an expression
take the lowering of smaller expressions as an argument; `Lowering.atDepth` ties them together.

## Main definitions

* `Lowering.expressionAt`, `Lowering.placeAt` — one level of an expression or a place.
* `Lowering.callNode` — a call with its arguments.
* `Lowering.ofArena` — all expressions of an arena.
-/
namespace MiniJ

/-- Where the value of a place is read from and written to. -/
inductive Location where
  | register (r : Register)
  | memory (address : Address)
  deriving DecidableEq, Repr

/-- A lowered place. `temp` holds a computed base address until the place has been used. -/
structure Place where
  location : Location
  temp : Option Register := none
  deriving DecidableEq, Repr

/-- How the parts of an expression are lowered. -/
structure Lowering where
  expression : NodeId → Gen Register
  place : NodeId → Gen Place

namespace Lowering

open Gen

/-! ### Loads and stores -/

/-- Reads a location into a register. -/
def load (location : Location) (ty : Ty) (target : Register) (id : NodeId) : Gen Unit := do
  match location with
  | .register source => emit .mov [.reg target, .reg source]
  | .memory address =>
    let width := Width.ofSize (← Gen.sizeOf ty id)
    emit .mov [.sized width target, .mem width address]

/-- Writes a register to a location. -/
def store (location : Location) (ty : Ty) (value : Register) (id : NodeId) : Gen Unit := do
  match location with
  | .register destination => emit .mov [.reg destination, .reg value]
  | .memory address =>
    let width := Width.ofSize (← Gen.sizeOf ty id)
    emit .mov [.mem width address, .sized width value]

def releasePlace (place : Place) : Gen Unit := releaseAll place.temp.toList

/-- The register a place is read into: its base address is no longer needed then. -/
def targetOf (place : Place) (id : NodeId) : Gen Register :=
  match place.temp with
  | some temp => return temp
  | none => scratch id

/-! ### Places -/

/-- Location of a variable. The storage of a reference is followed. -/
def variablePlace (id : NodeId) : Gen Place := do
  let slot ← slotOf id
  match slot.storage, slot.isReference with
  | .global symbol, _ => return ⟨.memory (.symbol symbol), none⟩
  | .register r, false => return ⟨.register r, none⟩
  | .register r, true => return ⟨.memory (.register r), none⟩
  | .frame displacement, false => return ⟨.memory (.frame displacement), none⟩
  | .frame displacement, true =>
    let pointer ← scratch id
    emit .mov [.reg pointer, .mem .qword (.frame displacement)]
    return ⟨.memory (.register pointer), some pointer⟩

/-- Location of a field. -/
def fieldPlace (lower : Lowering) (id base : NodeId) (name : String) : Gen Place := do
  match ← typeOf base with
  | .record record =>
    match ← (← context).table.field record name with
    | none => unsupported .place id
    | some (displacement, _) =>
      let outer ← lower.place base
      match outer.location with
      | .memory address => return ⟨.memory (← address.offsetBy displacement), outer.temp⟩
      | .register _ => unsupported .place id
  | _ => unsupported .place id

/-- Location of an array element. -/
def elementPlace (lower : Lowering) (id base index : NodeId) : Gen Place := do
  let size ← Gen.sizeOf (← typeOf id) id
  let pointer ← lower.expression base
  let offset ← lower.expression index
  emit .imul [.reg offset, .imm (Int64.ofNat size)]
  emit .add [.reg pointer, .reg offset]
  release offset
  return ⟨.memory (.register pointer), some pointer⟩

/-- Lowers an expression that can be written to. -/
def placeAt (lower : Lowering) (id : NodeId) : Gen Place := do
  match ← kind id with
  | .var _ => variablePlace id
  | .field base name => fieldPlace lower id base name
  | .element base index => elementPlace lower id base index
  | _ => unsupported .place id

/-- Address of a place in a register. -/
def address (lower : Lowering) (id : NodeId) : Gen Register := do
  let place ← lower.place id
  match place.location with
  | .register _ => unsupported .registerAddress id
  | .memory address =>
    let target ← targetOf place id
    emit .lea [.reg target, .addr address]
    return target

/-! ### Operators -/

/-- Reads a place, changes it by one and writes it back. The value is the one before the change for
the operators behind their operand, the one after it otherwise. -/
def step (lower : Lowering) (id : NodeId) (op : UnaryOp) (operand : NodeId) : Gen Register := do
  let change : Mnemonic := match op with
    | .preIncrement | .postIncrement => .add
    | _ => .sub
  let ty ← typeOf operand
  let place ← lower.place operand
  let value ← scratch id
  load place.location ty value operand
  match op with
  | .preIncrement | .preDecrement =>
    emit change [.reg value, .imm 1]
    store place.location ty value operand
  | _ =>
    let updated ← scratch id
    emit .mov [.reg updated, .reg value]
    emit change [.reg updated, .imm 1]
    store place.location ty updated operand
    release updated
  releasePlace place
  return value

def unary (lower : Lowering) (id : NodeId) (op : UnaryOp) (operand : NodeId) : Gen Register := do
  match op with
  | .minus =>
    let value ← lower.expression operand
    emit .neg [.reg value]
    return value
  | .not =>
    let value ← lower.expression operand
    emit .xor [.reg value, .imm 1]
    return value
  | _ => step lower id op operand

/-- Texts are addresses of constants, and equal constants share one. Only equality has code. -/
def rejectText (id : NodeId) (op : BinaryOp) (left : NodeId) : Gen Unit := do
  if op.isEquality then
    return ()
  if (← typeOf left) = .text then
    unsupported (.textOperator op) id

/-- Division works on `rdx:rax`. Both are saved around it when they hold other values. -/
def divide (id : NodeId) (result dividend divisor : Register) : Gen Register := do
  let divisor ← if divisor = .rax then do
      let moved ← scratch id
      emit .mov [.reg moved, .reg divisor]
      release divisor
      pure moved
    else pure divisor
  let registers := (← state).registers
  let saveRax := dividend ≠ .rax && registers.isLive .rax
  let saveRdx := registers.isLive .rdx
  if saveRax then
    emit .push [.reg .rax]
  if saveRdx then
    emit .push [.reg .rdx]
  if dividend ≠ .rax then
    emit .mov [.reg .rax, .reg dividend]
  emit .cqo []
  emit .idiv [.reg divisor]
  if dividend ≠ result then
    emit .mov [.reg dividend, .reg result]
  if saveRdx then
    emit .pop [.reg .rdx]
  if saveRax then
    emit .pop [.reg .rax]
  release divisor
  return dividend

/-- Combines two registers into the first and releases the second. -/
def combine (mnemonic : Mnemonic) (left right : Register) : Gen Register := do
  emit mnemonic [.reg left, .reg right]
  release right
  return left

/-- Compares two registers; the first gets the outcome as 0 or 1. -/
def compareTo (condition : Condition) (left right : Register) : Gen Register := do
  emit .cmp [.reg left, .reg right]
  emit (.set condition) [.reg8 left]
  emit .movzx [.reg left, .reg8 left]
  release right
  return left

def binary (lower : Lowering) (id : NodeId) (op : BinaryOp) (left right : NodeId) :
    Gen Register := do
  rejectText id op left
  let lhs ← lower.expression left
  let rhs ← lower.expression right
  match op with
  | .plus => combine .add lhs rhs
  | .minus => combine .sub lhs rhs
  | .times => combine .imul lhs rhs
  | .and => combine .and lhs rhs
  | .or => combine .or lhs rhs
  | .div => divide id .rax lhs rhs
  | .mod => divide id .rdx lhs rhs
  | .equal => compareTo .equal lhs rhs
  | .unequal => compareTo .notEqual lhs rhs
  | .lesser => compareTo .less lhs rhs
  | .lesserEq => compareTo .lessEqual lhs rhs
  | .greater => compareTo .greater lhs rhs
  | .greaterEq => compareTo .greaterEqual lhs rhs

/-! ### Calls -/

/-- What a call needs to know about its callee. -/
structure Callee where
  label : String
  /-- For each parameter, whether its argument is passed as an address. -/
  byAddress : List Bool
  returnsValue : Bool

/-- The callee of a call node. Records passed by value travel as addresses. -/
def calleeOf (id : NodeId) (name : String) (args : List NodeId) : Gen Callee := do
  let cx ← context
  match cx.info.callTarget id with
  | none => unsupported (.unresolvedCall name) id
  | some (.function definition) =>
    match ← cx.arena.function? definition with
    | none => unsupported (.unresolvedCall name) id
    | some f =>
      if f.returnType.isRecord then
        unsupported .recordResult id
      let params ← (f.params.mapM cx.arena.binder? : Except Fault (List (Option Binder)))
      match cx.labels.lookup definition with
      | none => unsupported (.unresolvedCall name) id
      | some label =>
        return ⟨label, params.map (·.any fun b => b.isReference || b.ty.isRecord),
          f.returnType ≠ .void⟩
  | some (.builtin builtin) =>
    match Builtin.named? builtin with
    | none => unsupported (.unresolvedCall name) id
    | some b => return ⟨b.name, args.map fun _ => false, b.returnType ≠ .void⟩

/-- Computes an argument and puts it on the stack. -/
def pushArgument (lower : Lowering) (arg : NodeId) (byAddress : Bool) : Gen Unit := do
  let value ← if byAddress then do
      if (← kind arg).isCall then
        unsupported .recordResult arg
      address lower arg
    else lower.expression arg
  push value
  release value

/-- Takes the result of a call out of `rax`. -/
def takeResult (id : NodeId) : Gen Register := do
  let result ← scratch id
  if result ≠ .rax then
    emit .mov [.reg result, .reg .rax]
  return result

/-- Everything up to the call itself. Live registers are saved, then the arguments are pushed from
the last to the first; the first six are popped into the argument registers and the others stay on
the stack for the callee. The stack holds an even number of words at the call. Gives the number of
words to drop behind the call. -/
def passArguments (lower : Lowering) (callee : Callee) (args : List NodeId) : Gen Nat := do
  (← state).registers.live.forM push
  let onStack := args.length - Register.arguments.length
  let padding := ((← state).stackDepth + onStack) % 2
  if padding = 1 then
    emit .sub [.reg .rsp, .imm 8]
    grow 1
  (args.zip callee.byAddress).reverse.forM fun (arg, byAddress) => pushArgument lower arg byAddress
  (Register.arguments.take args.length).forM pop
  return onStack + padding

/-- Lowers a call; gives the register with its result, if it has one. -/
def callNode (lower : Lowering) (id : NodeId) (name : String) (args : List NodeId) :
    Gen (Option Register) := do
  let callee ← calleeOf id name args
  let saved := (← state).registers.live
  let dropped ← passArguments lower callee args
  emit .call [.label callee.label]
  if dropped > 0 then
    emit .add [.reg .rsp, .imm (Int64.ofNat (8 * dropped))]
    shrink dropped
  let result ← if callee.returnsValue then do
      let r ← takeResult id
      pure (some r)
    else pure none
  saved.reverse.forM pop
  return result

/-- Lowers a call node; other nodes have no code here. -/
def call (lower : Lowering) (id : NodeId) : Gen (Option Register) := do
  match ← kind id with
  | .call name args => callNode lower id name args
  | _ => return none

/-! ### Expressions -/

/-- Loads a constant. -/
def constant (id : NodeId) (value : Int64) : Gen Register := do
  let r ← scratch id
  emit .mov [.reg r, .imm value]
  return r

/-- Reads a place. Records have no value in a register. -/
def placeValue (lower : Lowering) (id : NodeId) : Gen Register := do
  let ty ← typeOf id
  if ty.isRecord then
    unsupported .recordValue id
  let place ← placeAt lower id
  let target ← targetOf place id
  load place.location ty target id
  return target

/-- Lowers an expression into a scratch register. -/
def expressionAt (lower : Lowering) (id : NodeId) : Gen Register := do
  match ← kind id with
  | .int value => constant id value
  | .bool value => constant id (if value then 1 else 0)
  | .text value =>
    let label ← textConstant value
    let r ← scratch id
    emit .lea [.reg r, .addr (.symbol label)]
    return r
  | .var _ | .field .. | .element .. => placeValue lower id
  | .unary op operand => unary lower id op operand
  | .binary op left right => binary lower id op left right
  | .call name args =>
    match ← callNode lower id name args with
    | some r => return r
    | none => unsupported .voidValue id
  | _ => unsupported .statementValue id

/-- Lowering of expressions nested at most `depth` deep. -/
def atDepth : Nat → Lowering
  | 0 => ⟨fun _ => fail (.fault .cyclicArena), fun _ => fail (.fault .cyclicArena)⟩
  | depth + 1 => ⟨expressionAt (atDepth depth), placeAt (atDepth depth)⟩

/-- Lowering of the expressions of an arena. -/
def ofArena (a : Arena) : Lowering := atDepth a.depthLimit

end Lowering

end MiniJ
