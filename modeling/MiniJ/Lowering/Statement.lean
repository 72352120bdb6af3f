import MiniJ.Lowering.Expression

/-!
# Code for statements

Conditions are lowered by their shape: a literal decides at once and the dead side has no code, a
comparison jumps on its outcome, and any other condition is compared with 1. Loops test their
condition at the bottom.
-/
namespace MiniJ

namespace Lowering

open Gen

/-! ### Records and declarations -/

/-- Copies the fields of a record from one address to another, records nested at most `depth`
deep. -/
def copyFields (scratch : Register) (id : NodeId) :
    Nat → String → Address → Address → Gen Unit
  | 0, _, _, _ => unsupported .place id
  | depth + 1, record, source, target => do
    match ← (← context).table.fields record with
    | none => unsupported .place id
    | some fields =>
      fields.forM fun (displacement, ty) => do
        let source ← source.offsetBy displacement
        let target ← target.offsetBy displacement
        match ty with
        | .record inner => copyFields scratch id depth inner source target
        | ty =>
          load (.memory source) ty scratch id
          store (.memory target) ty scratch id

/-- Copies a record from one address to another. -/
def copyRecord (record : String) (source target : Address) (scratch : Register) (id : NodeId) :
    Gen Unit := do
  copyFields scratch id (← context).table.recordDepth record source target

/-- Writes zeros over a value, records nested at most `depth` deep. -/
def zeroFill (id : NodeId) : Nat → Ty → Address → Gen Unit
  | 0, .record record, _ => unsupported (.recordLayout record) id
  | depth + 1, .record record, address => do
    match ← (← context).table.fields record with
    | none => unsupported (.recordLayout record) id
    | some fields =>
      fields.forM fun (displacement, ty) => do
        zeroFill id depth ty (← address.offsetBy displacement)
  | _, ty, address => do
    let width := Width.ofSize (← Gen.sizeOf ty id)
    emit .mov [.mem width address, .imm 0]

/-- Locals are zeroed each time their declaration runs. -/
def declareLocal (id : NodeId) : Gen Unit := do
  let cx ← context
  match cx.frame.slot? id with
  | some ⟨.frame displacement, ty, _⟩ =>
    zeroFill id cx.table.recordDepth ty (.frame displacement)
  | _ => return ()

/-! ### Assignments -/

/-- `target = value` for records. -/
def assignRecord (lower : Lowering) (record : String) (target value : NodeId) : Gen Unit := do
  if (← kind value).isCall then
    unsupported .recordResult value
  let source ← lower.place value
  let destination ← lower.place target
  match source.location, destination.location with
  | .memory src, .memory dst =>
    let r ← scratch target
    copyRecord record src dst r target
    release r
    releasePlace destination
    releasePlace source
  | _, _ => unsupported .place target

/-- `target = value`; the value is computed first. -/
def assign (lower : Lowering) (target value : NodeId) : Gen Unit := do
  match ← typeOf target with
  | .record record => assignRecord lower record target value
  | ty =>
    let r ← lower.expression value
    let place ← lower.place target
    store place.location ty r target
    releasePlace place
    release r

/-! ### Returning -/

/-- Leaves the function. -/
def epilogue : Gen Unit := do
  emit .mov [.reg .rsp, .reg .rbp]
  emit .pop [.reg .rbp]
  emit .ret []

/-- Ends the program with an exit status. -/
def exit (status : Operand) : Gen Unit := do
  emit .mov [.reg .rdi, status]
  emit .call [.label "_exit"]

/-- The value a `return` gives back. A void call is run for its effect and gives back nothing. -/
def returnedValue (lower : Lowering) : Option NodeId → Gen (Option NodeId)
  | none => return none
  | some value => do
    if (← typeOf value) = .void then
      releaseAll (← call lower value).toList
      return none
    return some value

/-- Returning from the entry function ends the program. -/
def exitWith (lower : Lowering) : Option NodeId → Gen Unit
  | none => exit (.imm 0)
  | some value => do
    match ← immediate value with
    | some constant => exit (.imm constant)
    | none =>
      let r ← lower.expression value
      exit (.reg r)
      release r

/-- Puts the result of a function into `rax`. -/
def giveBack (lower : Lowering) (value : NodeId) : Gen Unit := do
  if (← typeOf value).isRecord then
    unsupported .recordResult value
  match ← immediate value with
  | some constant => emit .mov [.reg .rax, .imm constant]
  | none =>
    let r ← lower.expression value
    if r ≠ .rax then
      emit .mov [.reg .rax, .reg r]
    release r

def returnStatement (lower : Lowering) (value : Option NodeId) : Gen Unit := do
  let value ← returnedValue lower value
  if (← context).isEntry then
    exitWith lower value
  else
    value.toList.forM (giveBack lower)
    epilogue

/-! ### Conditions -/

/-- Shapes of conditions. -/
inductive Test where
  | constant (value : Bool)
  | comparison (op : BinaryOp) (condition : Condition) (left right : NodeId)
  | value
  deriving DecidableEq, Repr

def Test.ofKind : NodeKind → Test
  | .bool b => constant b
  | .binary op left right =>
    match Condition.ofOperator? op with
    | some condition => comparison op condition left right
    | none => value
  | _ => value

/-- Sets the flags; the condition holds exactly with the outcome given back. -/
def test (lower : Lowering) (id : NodeId) : Test → Gen Condition
  | .comparison op condition left right => do
    rejectText id op left
    let lhs ← lower.expression left
    let rhs ← lower.expression right
    emit .cmp [.reg lhs, .reg rhs]
    release rhs
    release lhs
    return condition
  | _ => do
    let r ← lower.expression id
    emit .cmp [.reg r, .imm 1]
    release r
    return .equal

/-- Jumps when a condition does not hold. -/
def jumpUnless (lower : Lowering) (id : NodeId) (shape : Test) (target : String) : Gen Unit := do
  let condition ← test lower id shape
  emit (.jump condition.negate) [.label target]

/-- Jumps when a condition holds. -/
def jumpIf (lower : Lowering) (id : NodeId) (shape : Test) (target : String) : Gen Unit := do
  let condition ← test lower id shape
  emit (.jump condition) [.label target]

/-! ### Statements -/

/-- `if` on a condition that has to be tested: a jump over the first branch, and one from its end
over the second. -/
def branchOn (lower : Lowering) (statement : NodeId → Gen Unit) (condition : NodeId) (shape : Test)
    (onTrue : NodeId) (onFalse : Option NodeId) : Gen Unit := do
  let otherwise ← newLabel
  jumpUnless lower condition shape otherwise
  statement onTrue
  match onFalse with
  | none => placeLabel otherwise
  | some other =>
    let done ← newLabel
    emit .jmp [.label done]
    placeLabel otherwise
    statement other
    placeLabel done

def branch (lower : Lowering) (statement : NodeId → Gen Unit) (condition onTrue : NodeId)
    (onFalse : Option NodeId) : Gen Unit := do
  match Test.ofKind (← kind condition) with
  | .constant true => statement onTrue
  | .constant false => onFalse.toList.forM statement
  | shape => branchOn lower statement condition shape onTrue onFalse

/-- `while` without a test: the body and a jump back. -/
def loopForever (statement : NodeId → Gen Unit) (body : NodeId) : Gen Unit := do
  let start ← newLabel
  placeLabel start
  statement body
  emit .jmp [.label start]

/-- `while` on a condition that has to be tested: a jump to the test, the body, and the test at the
bottom. -/
def loopOn (lower : Lowering) (statement : NodeId → Gen Unit) (condition : NodeId) (shape : Test)
    (body : NodeId) : Gen Unit := do
  let start ← newLabel
  let bottom ← newLabel
  emit .jmp [.label bottom]
  placeLabel start
  statement body
  placeLabel bottom
  jumpIf lower condition shape start

def loop (lower : Lowering) (statement : NodeId → Gen Unit) (condition body : NodeId) :
    Gen Unit := do
  match Test.ofKind (← kind condition) with
  | .constant false => return ()
  | .constant true => loopForever statement body
  | shape => loopOn lower statement condition shape body

/-- Lowers a statement nested at most `depth` deep. -/
def statement (lower : Lowering) : Nat → NodeId → Gen Unit
  | 0, _ => fail (.fault .cyclicArena)
  | depth + 1, id => do
    match ← kind id with
    | .block body => body.forM (statement lower depth)
    | .declare declaration => declareLocal declaration
    | .assign target value => assign lower target value
    | .callStatement c => releaseAll (← call lower c).toList
    | .branch condition onTrue onFalse =>
      branch lower (statement lower depth) condition onTrue onFalse
    | .loop condition body => loop lower (statement lower depth) condition body
    | .ret value => returnStatement lower value
    | .empty | .dummy | .declaration _ | .function _ | .record _ | .unit _ => return ()
    | _ => release (← lower.expression id)

end Lowering

end MiniJ
