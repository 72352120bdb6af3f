import MiniJ.Assembly.File
import MiniJ.Lowering.Frame

/-!
# Generating code

`Gen` is the monad code generation runs in. It threads what the generator keeps about the function
at hand (live registers, words on the stack, labels, text constants) and concatenates the lines
each step emits.
-/
namespace MiniJ

/-- Symbol of the entry function. -/
def entryLabel : String := "_start"

/-- Symbol of a global or function that a program names; no builtin, text constant or instruction
is spelled like it. -/
def userSymbol (name : String) : String := "mj_" ++ name

namespace Gen

/-- What stays fixed while a function is lowered. -/
structure Context where
  arena : Arena
  info : SemanticInfo
  table : SymbolTable
  /-- Labels of the functions, by node. -/
  labels : List (NodeId × String)
  frame : Frame
  /-- Whether the function is where the program starts. -/
  isEntry : Bool

/-- What changes while a function is lowered. -/
structure State where
  registers : RegisterFile := {}
  /-- Text constants of the whole file, in the order of their first use. -/
  texts : List String := []
  labelCount : Nat := 0
  /-- Words pushed below the frame. -/
  stackDepth : Nat := 0
  deriving DecidableEq, Repr

/-- A value, the lines emitted on the way to it, and the state afterwards. -/
structure Output (α : Type) where
  value : α
  code : List Line
  state : State

end Gen

/-- Code generation for one function. -/
def Gen (α : Type) : Type :=
  Gen.Context → Gen.State → Except (Failure CodegenError) (Gen.Output α)

namespace Gen

/-- Emits nothing. -/
protected def pure {α : Type} (a : α) : Gen α := fun _ s => .ok ⟨a, [], s⟩

/-- Emits the lines of the first step, then those of the second. -/
protected def bind {α β : Type} (x : Gen α) (f : α → Gen β) : Gen β := fun cx s =>
  match x cx s with
  | .error e => .error e
  | .ok a =>
    match f a.value cx a.state with
    | .error e => .error e
    | .ok b => .ok ⟨b.value, a.code ++ b.code, b.state⟩

instance : Monad Gen where
  pure := Gen.pure
  bind := Gen.bind

/-- Ends code generation. -/
def fail {α : Type} (failure : Failure CodegenError) : Gen α := fun _ _ => .error failure

instance : MonadLift (Except Fault) Gen where
  monadLift x := fun _ s =>
    match x with
    | .ok a => .ok ⟨a, [], s⟩
    | .error f => .error (.fault f)

def context : Gen Context := fun cx s => .ok ⟨cx, [], s⟩

def state : Gen State := fun _ s => .ok ⟨s, [], s⟩

def update (f : State → State) : Gen Unit := fun _ s => .ok ⟨(), [], f s⟩

/-- Emits one instruction. -/
def emit (mnemonic : Mnemonic) (operands : List Operand) : Gen Unit := fun _ s =>
  .ok ⟨(), [.instruction mnemonic operands], s⟩

/-- Emits a label. -/
def placeLabel (name : String) : Gen Unit := fun _ s => .ok ⟨(), [.label name], s⟩

/-- A label that is new in this function. -/
def newLabel : Gen String := do
  let count := (← state).labelCount
  update fun s => { s with labelCount := count + 1 }
  return s!".L{count}"

/-- Label of a text constant. -/
def textConstant (value : String) : Gen String := do
  let (index, texts) := internText (← state).texts value
  update fun s => { s with texts := texts }
  return textLabel index

def node (id : NodeId) : Gen Node := do (← context).arena.node id

def kind (id : NodeId) : Gen NodeKind := return (← node id).kind

/-- Fails at a node that has no code. -/
def unsupported {α : Type} (what : Unsupported) (id : NodeId) : Gen α := do
  fail (.reported (.unsupported what (← node id).span))

/-! ### Registers -/

/-- Claims a register that must be free. -/
def claim (r : Register) : Gen Unit := do
  match (← state).registers.claim? r with
  | some registers => update fun s => { s with registers := registers }
  | none => fail (.reported (.registerInUse r))

/-- Claims a scratch register for a value computed at a node. -/
def scratch (id : NodeId) : Gen Register := do
  match (← state).registers.claimScratch? with
  | some (r, registers) =>
    update fun s => { s with registers := registers }
    return r
  | none => fail (.reported (.outOfRegisters (← node id).span))

def release (r : Register) : Gen Unit := do
  let registers ← (← state).registers.release r
  update fun s => { s with registers := registers }

def releaseAll (rs : List Register) : Gen Unit := rs.forM release

/-! ### Stack -/

/-- Notes words put on the stack. -/
def grow (words : Nat) : Gen Unit :=
  update fun s => { s with stackDepth := s.stackDepth + words }

/-- Notes words taken from the stack. -/
def shrink (words : Nat) : Gen Unit := do
  if words ≤ (← state).stackDepth then
    update fun s => { s with stackDepth := s.stackDepth - words }
  else
    fail (.fault .stackUnderflow)

def push (r : Register) : Gen Unit := do
  emit .push [.reg r]
  grow 1

def pop (r : Register) : Gen Unit := do
  emit .pop [.reg r]
  shrink 1

/-! ### Types and storage -/

/-- Type the checker gave an expression. -/
def typeOf (id : NodeId) : Gen Ty := do
  match (← context).info.typeOf id with
  | some ty => return ty
  | none => unsupported .untypedExpression id

/-- Size of a value of this type, needed at a node. -/
def sizeOf (ty : Ty) (id : NodeId) : Gen Nat := do
  match ← (← context).table.sizeOf ty with
  | some n => return n
  | none => unsupported (.typeStorage ty) id

/-- The variable a node refers to, with its storage. -/
def slotOf (id : NodeId) : Gen Slot := do
  let cx ← context
  match cx.info.resolvedEntry id with
  | none => unsupported .unboundVariable id
  | some entryId =>
    let entry ← cx.table.entry entryId
    match entry.meaning with
    | .var ty _ .global _ => return ⟨.global (userSymbol entry.name), ty, false⟩
    | .var _ _ _ declaration =>
      match cx.frame.slot? declaration with
      | some slot => return slot
      | none => unsupported .unboundVariable id
    | _ => unsupported .unboundVariable id

/-- Value of a constant that can stand in an instruction. -/
def immediate (id : NodeId) : Gen (Option Int64) := do
  match ← kind id with
  | .int value => return some value
  | .bool value => return some (if value then 1 else 0)
  | _ => return none

end Gen

end MiniJ
