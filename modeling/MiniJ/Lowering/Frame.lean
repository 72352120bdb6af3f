import MiniJ.Assembly.Instruction
import MiniJ.Layout
import MiniJ.Lowering.Error
import MiniJ.Semantic.Info

/-!
# Frames

Where the parameters and locals of a function live. The first six parameters stay in their argument
registers, unless the body passes them by reference and they need an address; later ones stay where
the caller put them. Records passed by value are copied into the frame, and locals lie below them.
-/
namespace MiniJ

/-- Where a variable lives. -/
inductive Storage where
  | global (symbol : String)
  | register (r : Register)
  /-- Relative to the frame pointer. -/
  | frame (displacement : Int)
  deriving DecidableEq, Repr

/-- A variable with its storage. The storage of a reference holds the address of what it refers
to. -/
structure Slot where
  storage : Storage
  ty : Ty
  isReference : Bool
  deriving DecidableEq, Repr

/-- A register parameter that is moved into the frame on entry. -/
structure HomedParameter where
  register : Register
  address : Address
  width : Width
  deriving DecidableEq, Repr

/-- A record passed by value: the caller passes its address, and the callee copies it. -/
structure CopiedParameter where
  param : NodeId
  /-- Where the address comes in. -/
  source : Storage
  address : Address
  record : String
  deriving DecidableEq, Repr

structure Frame where
  /-- Variables by declaration node, the latest first. -/
  slots : List (NodeId × Slot) := []
  /-- Bytes below the frame pointer, a multiple of 16 once the frame is complete. -/
  size : Nat := 0
  homed : List HomedParameter := []
  copied : List CopiedParameter := []
  deriving DecidableEq, Repr

namespace Frame

/-- Computations on frames. -/
abbrev FrameM := Except (Failure CodegenError)

def slot? (f : Frame) (declaration : NodeId) : Option Slot := f.slots.lookup declaration

/-- Gives the variable of a declaration its storage. -/
def insert (f : Frame) (declaration : NodeId) (b : Binder) (storage : Storage) : Frame :=
  { f with slots := (declaration, ⟨storage, b.ty, b.isReference⟩) ::
      f.slots.filter (·.1 != declaration) }

/-- Registers that hold a parameter during the whole function. -/
def parameterRegisters (f : Frame) : List Register :=
  f.slots.reverse.filterMap fun (_, slot) =>
    match slot.storage with
    | .register r => some r
    | _ => none

/-- Least multiple of `unit` that is not below `n`. -/
def roundUp (n unit : Nat) : Except Fault Nat :=
  let rounded := (n + unit - 1) / unit * unit
  if rounded < sizeLimit then .ok rounded else .error .sizeOverflow

/-- Bytes a variable takes; references take a handle. -/
def slotSize (table : SymbolTable) (b : Binder) (span : Span) : FrameM Nat := do
  if b.isReference then
    return handleSize
  match ← table.sizeOf b.ty with
  | some n => return n
  | none => throw (.reported (.unsupported (.variableStorage b.name b.ty) span))

/-- Takes bytes below the ones in use; gives their displacement. Booleans are aligned to 4 bytes,
everything else to 8. -/
def allocate (f : Frame) (size : Nat) (ty : Ty) : Except Fault (Int × Frame) := do
  let used ← roundUp (← addSize f.size size) (if ty = .bool then 4 else 8)
  let displacement := -SymbolTable.displacement used
  if !Address.inRange displacement then
    throw .displacementOverflow
  return (displacement, { f with size := used })

/-- Where the caller puts the parameter with this index. -/
def incoming (index : Nat) : Storage :=
  match Register.arguments[index]? with
  | some r => .register r
  | none => .frame (16 + 8 * ((index : Int) - Register.arguments.length))

/-- Adds the parameter with this index. -/
def addParameter (a : Arena) (table : SymbolTable) (taken : List NodeId) (f : Frame)
    (index : Nat) (param : NodeId) : FrameM Frame := do
  let node ← a.node param
  match node.kind.binder? with
  | none => return f
  | some b =>
    match b.ty, b.isReference, incoming index with
    | .record record, false, source =>
      let size ← slotSize table b node.span
      let (displacement, f) ← f.allocate size b.ty
      let copy : CopiedParameter := ⟨param, source, .frame displacement, record⟩
      return { f.insert param b (.frame displacement) with copied := f.copied ++ [copy] }
    | _, _, .register r =>
      if taken.contains param then
        let size ← slotSize table b node.span
        let (displacement, f) ← f.allocate size b.ty
        let home : HomedParameter := ⟨r, .frame displacement, .ofSize size⟩
        return { f.insert param b (.frame displacement) with homed := f.homed ++ [home] }
      else
        return f.insert param b (.register r)
    | _, _, source => return f.insert param b source

/-- Adds parameters, numbered from `index` on. -/
def addParameters (a : Arena) (table : SymbolTable) (taken : List NodeId) :
    Nat → List NodeId → Frame → FrameM Frame
  | _, [], f => return f
  | index, param :: rest, f => do
    addParameters a table taken (index + 1) rest (← addParameter a table taken f index param)

/-- Adds the local that a declaration node declares. -/
def addLocal (a : Arena) (table : SymbolTable) (f : Frame) (id : NodeId) : FrameM Frame := do
  let node ← a.node id
  match node.kind.binder? with
  | none => return f
  | some b =>
    let size ← slotSize table b node.span
    let (displacement, f) ← f.allocate size b.ty
    return f.insert id b (.frame displacement)

/-- Declarations that run somewhere in a statement. -/
def localsOf (a : Arena) (statement : NodeId) : Except Fault (List NodeId) := do
  let kinds ← (← a.walk statement).mapM a.kind
  return kinds.filterMap fun
    | .declare declaration => some declaration
    | _ => none

/-- Adds the locals of a statement. -/
def addLocals (a : Arena) (table : SymbolTable) (f : Frame) (statement : NodeId) :
    FrameM Frame := do
  (← localsOf a statement).foldlM (addLocal a table) f

/-- Declaration of the variable an argument names, if it is passed by reference. -/
def takenBy (a : Arena) (info : SemanticInfo) (table : SymbolTable) (arg param : NodeId) :
    Except Fault (Option NodeId) := do
  let byReference := (← a.binder? param).any (·.isReference)
  if !byReference then
    return none
  match ← a.kind arg with
  | .var _ =>
    match info.resolvedEntry arg with
    | none => return none
    | some entry =>
      match (← table.entry entry).meaning with
      | .var _ _ _ declaration => return some declaration
      | _ => return none
  | _ => return none

/-- Declarations of the variables that a node passes by reference, if it is a call. -/
def takenAt (a : Arena) (info : SemanticInfo) (table : SymbolTable) (id : NodeId) :
    Except Fault (List NodeId) := do
  match ← a.kind id, info.callTarget id with
  | .call _ args, some (.function callee) =>
    match ← a.function? callee with
    | some f =>
      let taken ← (args.zip f.params).mapM fun (arg, param) => takenBy a info table arg param
      return taken.filterMap fun declaration => declaration
    | none => return []
  | _, _ => return []

/-- Declarations of the variables that a statement passes by reference. -/
def takenIn (a : Arena) (info : SemanticInfo) (table : SymbolTable) (statement : NodeId) :
    Except Fault (List NodeId) := do
  return (← (← a.walk statement).mapM (takenAt a info table)).flatten

/-- Storage of all parameters and locals of a function. -/
def layout (a : Arena) (info : SemanticInfo) (table : SymbolTable) (function : FunctionNode) :
    FrameM Frame := do
  let taken ← (function.body.mapM (takenIn a info table) : Except Fault (List (List NodeId)))
  let f ← addParameters a table taken.flatten 0 function.params {}
  let f ← function.body.foldlM (addLocals a table) f
  return { f with size := ← roundUp f.size 16 }

end Frame

end MiniJ
