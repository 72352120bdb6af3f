import MiniJ.Lowering.Statement

/-!
# Code for programs

Functions are lowered one after the other, each with registers, frame and labels of its own. The
entry function is `main`; it starts without a return address and leaves by ending the program.

## Main definitions

* `Lowering.function` — the code of one function.
* `Arena.assemble`, `Arena.generate` — a whole program, as a file and as its text.
-/
namespace MiniJ

namespace Lowering

open Gen

/-- Moves a register parameter into the frame. -/
def homeParameter (p : HomedParameter) : Gen Unit :=
  emit .mov [.mem p.width p.address, .sized p.width p.register]

/-- Copies a record passed by value from the address the caller passed. -/
def copyParameter (p : CopiedParameter) : Gen Unit := do
  let incoming : Option Operand := match p.source with
    | .register r => some (.reg r)
    | .frame displacement => some (.mem .qword (.frame displacement))
    | .global _ => none
  match incoming with
  | none => return ()
  | some source =>
    claim .r11
    claim .rax
    emit .mov [.reg .r11, source]
    copyRecord p.record (.register .r11) p.address .rax p.param
    release .rax
    release .r11

/-- Sets up the frame. The entry function aligns the stack itself. -/
def prologue : Gen Unit := do
  let cx ← context
  emit .push [.reg .rbp]
  emit .mov [.reg .rbp, .reg .rsp]
  if cx.frame.size > 0 then
    emit .sub [.reg .rsp, .imm (Int64.ofNat cx.frame.size)]
  if cx.isEntry then
    emit .and [.reg .rsp, .imm (-16)]
  cx.frame.homed.forM homeParameter
  cx.frame.copied.forM copyParameter

/-- Whether the last statement of a body is a `return`. -/
def endsWithReturn (body : List NodeId) : Gen Bool := do
  match body.getLast? with
  | some last => return (← kind last).isReturn
  | none => return false

/-- Lowers the body of a function between its prologue and epilogue. -/
def functionBody (label : String) (f : FunctionNode) : Gen Unit := do
  let cx ← context
  cx.frame.parameterRegisters.forM claim
  placeLabel label
  prologue
  f.body.forM (statement (ofArena cx.arena) cx.arena.depthLimit)
  if !(← endsWithReturn f.body) then
    if cx.isEntry then exit (.imm 0) else epilogue

/-- Code of a function and the text constants after it. -/
def function (a : Arena) (info : SemanticInfo) (table : SymbolTable)
    (labels : List (NodeId × String)) (texts : List String) (label : String) (f : FunctionNode) :
    Except (Failure CodegenError) (List Line × List String) := do
  let frame ← Frame.layout a info table f
  let output ← functionBody label f ⟨a, info, table, labels, frame, label = entryLabel⟩
    { texts := texts }
  return (output.code, output.state.texts)

/-! ### Labels -/

/-- The functions among some nodes. -/
def functionsIn (a : Arena) (ids : List NodeId) : Except Fault (List (NodeId × FunctionNode)) := do
  let found ← ids.mapM fun id => return (← a.function? id).map (id, ·)
  return found.filterMap fun f => f

/-- Label of a function of which `earlier` namesakes come before it among `all` names: overloads
are numbered. -/
def labelOf (all earlier : List String) (name : String) : String :=
  if name = "main" then entryLabel
  else if all.count name = 1 then userSymbol name
  else s!"{userSymbol name}@{earlier.count name}"

/-- Labels of functions; `earlier` holds the names of those before them. -/
def labelsFrom (all : List String) : List String → List (NodeId × FunctionNode) →
    List (NodeId × String)
  | _, [] => []
  | earlier, (id, f) :: rest =>
    (id, labelOf all earlier f.name) :: labelsFrom all (earlier ++ [f.name]) rest

/-- Labels of functions by node; a node that occurs twice has its last label. -/
def labels (functions : List (NodeId × FunctionNode)) : List (NodeId × String) :=
  (labelsFrom (functions.map (·.2.name)) [] functions).reverse

/-! ### Programs -/

/-- Reserves storage for a global. -/
def global (a : Arena) (table : SymbolTable) (out : Assembly) (id : NodeId) :
    Except (Failure CodegenError) Assembly := do
  let node ← a.node id
  match node.kind.binder? with
  | none => return out
  | some b =>
    match ← table.sizeOf b.ty with
    | some size => return out.reserve (userSymbol b.name) size
    | none => throw (.reported (.unsupported (.globalStorage b.name b.ty) node.span))

/-- Adds the code of a function. -/
def addFunction (a : Arena) (info : SemanticInfo) (table : SymbolTable)
    (labels : List (NodeId × String)) (out : Assembly) (f : NodeId × FunctionNode) :
    Except (Failure CodegenError) Assembly := do
  let (code, texts) ← function a info table labels out.texts ((labels.lookup f.1).getD "") f.2
  return { out with code := out.code ++ code, texts := texts }

/-- What every assembly file of a program starts from. -/
def header : Assembly where
  externals := Builtin.all.map (·.name)
  globals := [entryLabel]

end Lowering

/-- Assembly of a checked program; an arena that is no program gives an empty file. -/
def Arena.assemble (a : Arena) (info : SemanticInfo) (table : SymbolTable) :
    Except (Failure CodegenError) Assembly := do
  match a.unit? with
  | none => return {}
  | some u =>
    let out ← u.globals.foldlM (Lowering.global a table) Lowering.header
    let functions ← Lowering.functionsIn a u.functions
    functions.foldlM (Lowering.addFunction a info table (Lowering.labels functions)) out

/-- Assembly of a checked program as text. -/
def Arena.generate (a : Arena) (info : SemanticInfo) (table : SymbolTable) :
    Except (Failure CodegenError) String := do
  (← a.assemble info table).render

end MiniJ
