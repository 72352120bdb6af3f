import MiniJ.Proofs.Lowering.Balance
import MiniJ.Proofs.Lowering.FunctionShape

/-!
# Where code generation comes to a node

The code of a function is put together from the code of its nodes. A run of code generation comes to
each of them at a point of its own: in a state, behind the code that it has emitted so far. What
that point is follows from the run up to there, by the parts that are lowered in front of the node.
Every call in the code of a function is emitted where the run comes to a call node, or it ends the
program.

## Main definitions

* `Lowering.Task` — what is lowered.
* `Lowering.Part` — the parts of a task, and what the run does in front of them.
* `Lowering.Comes` — the points of the run of a function.
* `Lowering.CallPoint`, `Lowering.ExitPoint` — the points at which calls are emitted.

## Main statements

* `Lowering.visited_functionBody` — every call of a function stands at such a point.
-/
namespace MiniJ

/-- Whether a line is a call. -/
def Line.isCall : Line → Bool
  | instruction .call _ => true
  | _ => false

namespace Lowering

open Gen

/-! ### Points of a run -/

/-- What is lowered at a point, nested at most `depth` deep. -/
inductive Task
  | statement (depth : Nat) (id : NodeId)
  | test (id : NodeId)
  | expression (depth : Nat) (id : NodeId)
  | place (depth : Nat) (id : NodeId)
  | call (depth : Nat) (id : NodeId)

/-- The parts of a task that starts in state `s`: the run comes to a part in the state that is
given, with the code emitted that is given last. -/
inductive Part (cx : Context) (s : State) : Task → Task → State → List Line → Prop
  | member {depth : Nat} {id x : NodeId} {xs ys : List NodeId} {c : List Line} {t : State}
      (kind : cx.arena.kind id = .ok (.block (xs ++ x :: ys)))
      (earlier : Emits (xs.forM (statement (ofArena cx.arena) depth)) cx s () c t) :
      Part cx s (.statement (depth + 1) id) (.statement depth x) t c
  | assigned {depth : Nat} {id target value : NodeId} {ty : Ty}
      (kind : cx.arena.kind id = .ok (.assign target value))
      (type : cx.info.typeOf target = some ty) (scalar : ty.isRecord = false) :
      Part cx s (.statement (depth + 1) id) (.expression cx.arena.depthLimit value) s []
  | target {depth : Nat} {id target value : NodeId} {ty : Ty} {r : Register} {c : List Line}
      {t : State} (kind : cx.arena.kind id = .ok (.assign target value))
      (type : cx.info.typeOf target = some ty) (scalar : ty.isRecord = false)
      (earlier : Emits ((ofArena cx.arena).expression value) cx s r c t) :
      Part cx s (.statement (depth + 1) id) (.place cx.arena.depthLimit target) t c
  | source {depth : Nat} {id target value : NodeId} {record : String}
      (kind : cx.arena.kind id = .ok (.assign target value))
      (type : cx.info.typeOf target = some (.record record)) :
      Part cx s (.statement (depth + 1) id) (.place cx.arena.depthLimit value) s []
  | destination {depth : Nat} {id target value : NodeId} {record : String} {p : Place}
      {c : List Line} {t : State} (kind : cx.arena.kind id = .ok (.assign target value))
      (type : cx.info.typeOf target = some (.record record))
      (earlier : Emits ((ofArena cx.arena).place value) cx s p c t) :
      Part cx s (.statement (depth + 1) id) (.place cx.arena.depthLimit target) t c
  | called {depth : Nat} {id x : NodeId} (kind : cx.arena.kind id = .ok (.callStatement x)) :
      Part cx s (.statement (depth + 1) id) (.call cx.arena.depthLimit x) s []
  | taken {depth : Nat} {id condition onTrue : NodeId} {onFalse : Option NodeId}
      (kind : cx.arena.kind id = .ok (.branch condition onTrue onFalse))
      (literal : cx.arena.kind condition = .ok (.bool true)) :
      Part cx s (.statement (depth + 1) id) (.statement depth onTrue) s []
  | passed {depth : Nat} {id condition onTrue onFalse : NodeId}
      (kind : cx.arena.kind id = .ok (.branch condition onTrue (some onFalse)))
      (literal : cx.arena.kind condition = .ok (.bool false)) :
      Part cx s (.statement (depth + 1) id) (.statement depth onFalse) s []
  | condition {depth : Nat} {id condition onTrue : NodeId} {onFalse : Option NodeId}
      {k : NodeKind} (kind : cx.arena.kind id = .ok (.branch condition onTrue onFalse))
      (tested : cx.arena.kind condition = .ok k) (undecided : ∀ b, k ≠ .bool b) :
      Part cx s (.statement (depth + 1) id) (.test condition) s.labelled []
  | first {depth : Nat} {id condition onTrue : NodeId} {onFalse : Option NodeId} {k : NodeKind}
      {outcome : Condition} {c : List Line} {t : State}
      (kind : cx.arena.kind id = .ok (.branch condition onTrue onFalse))
      (tested : cx.arena.kind condition = .ok k)
      (test : TestShape (ofArena cx.arena) cx condition s.labelled (Test.ofKind k) outcome c t) :
      Part cx s (.statement (depth + 1) id) (.statement depth onTrue) t
        (c ++ [.instruction (.jump outcome.negate) [.label (labelName s.labelCount)]])
  | second {depth : Nat} {id condition onTrue onFalse : NodeId} {k : NodeKind}
      {outcome : Condition} {c c' : List Line} {t t' : State}
      (kind : cx.arena.kind id = .ok (.branch condition onTrue (some onFalse)))
      (tested : cx.arena.kind condition = .ok k)
      (test : TestShape (ofArena cx.arena) cx condition s.labelled (Test.ofKind k) outcome c t)
      (earlier : Emits (statement (ofArena cx.arena) depth onTrue) cx t () c' t') :
      Part cx s (.statement (depth + 1) id) (.statement depth onFalse) t'.labelled
        (c ++ [.instruction (.jump outcome.negate) [.label (labelName s.labelCount)]] ++ c' ++
          [.instruction .jmp [.label (labelName t'.labelCount)], .label (labelName s.labelCount)])
  | forever {depth : Nat} {id condition body : NodeId}
      (kind : cx.arena.kind id = .ok (.loop condition body))
      (literal : cx.arena.kind condition = .ok (.bool true)) :
      Part cx s (.statement (depth + 1) id) (.statement depth body) s.labelled
        [.label (labelName s.labelCount)]
  | body {depth : Nat} {id condition body : NodeId} {k : NodeKind}
      (kind : cx.arena.kind id = .ok (.loop condition body))
      (tested : cx.arena.kind condition = .ok k) (undecided : ∀ b, k ≠ .bool b) :
      Part cx s (.statement (depth + 1) id) (.statement depth body) s.labelled.labelled
        [.instruction .jmp [.label (labelName (s.labelCount + 1))], .label (labelName s.labelCount)]
  | bottom {depth : Nat} {id condition body : NodeId} {k : NodeKind} {c : List Line} {t : State}
      (kind : cx.arena.kind id = .ok (.loop condition body))
      (tested : cx.arena.kind condition = .ok k) (undecided : ∀ b, k ≠ .bool b)
      (earlier : Emits (statement (ofArena cx.arena) depth body) cx s.labelled.labelled () c t) :
      Part cx s (.statement (depth + 1) id) (.test condition) t
        ([.instruction .jmp [.label (labelName (s.labelCount + 1))],
          .label (labelName s.labelCount)] ++ c ++ [.label (labelName (s.labelCount + 1))])
  | last {depth : Nat} {id x : NodeId} (kind : cx.arena.kind id = .ok (.ret (some x)))
      (type : cx.info.typeOf x = some .void) :
      Part cx s (.statement (depth + 1) id) (.call cx.arena.depthLimit x) s []
  | result {depth : Nat} {id x : NodeId} {ty : Ty} (kind : cx.arena.kind id = .ok (.ret (some x)))
      (type : cx.info.typeOf x = some ty) (nonvoid : ty ≠ .void) :
      Part cx s (.statement (depth + 1) id) (.expression cx.arena.depthLimit x) s []
  | comparedLeft {id left right : NodeId} {k : NodeKind} {op : BinaryOp} {condition : Condition}
      (kind : cx.arena.kind id = .ok k)
      (compares : Test.ofKind k = .comparison op condition left right) :
      Part cx s (.test id) (.expression cx.arena.depthLimit left) s []
  | comparedRight {id left right : NodeId} {k : NodeKind} {op : BinaryOp} {condition : Condition}
      {r : Register} {c : List Line} {t : State} (kind : cx.arena.kind id = .ok k)
      (compares : Test.ofKind k = .comparison op condition left right)
      (earlier : Emits ((ofArena cx.arena).expression left) cx s r c t) :
      Part cx s (.test id) (.expression cx.arena.depthLimit right) t c
  | tested {id : NodeId} {k : NodeKind} (kind : cx.arena.kind id = .ok k)
      (plain : Test.ofKind k = .value) :
      Part cx s (.test id) (.expression cx.arena.depthLimit id) s []
  | operand {depth : Nat} {id operand : NodeId} {op : UnaryOp}
      (kind : cx.arena.kind id = .ok (.unary op operand)) (plain : op.isStep = false) :
      Part cx s (.expression (depth + 1) id) (.expression depth operand) s []
  | stepped {depth : Nat} {id operand : NodeId} {op : UnaryOp}
      (kind : cx.arena.kind id = .ok (.unary op operand)) (isStep : op.isStep = true) :
      Part cx s (.expression (depth + 1) id) (.place depth operand) s []
  | left {depth : Nat} {id left right : NodeId} {op : BinaryOp}
      (kind : cx.arena.kind id = .ok (.binary op left right)) :
      Part cx s (.expression (depth + 1) id) (.expression depth left) s []
  | right {depth : Nat} {id left right : NodeId} {op : BinaryOp} {r : Register} {c : List Line}
      {t : State} (kind : cx.arena.kind id = .ok (.binary op left right))
      (earlier : Emits ((atDepth depth).expression left) cx s r c t) :
      Part cx s (.expression (depth + 1) id) (.expression depth right) t c
  | read {depth : Nat} {id : NodeId} {k : NodeKind} (kind : cx.arena.kind id = .ok k)
      (place : k.isPlace = true) :
      Part cx s (.expression (depth + 1) id) (.place (depth + 1) id) s []
  | value {depth : Nat} {id : NodeId} {name : String} {args : List NodeId}
      (kind : cx.arena.kind id = .ok (.call name args)) :
      Part cx s (.expression (depth + 1) id) (.call depth id) s []
  | base {depth : Nat} {id base : NodeId} {name : String}
      (kind : cx.arena.kind id = .ok (.field base name)) :
      Part cx s (.place (depth + 1) id) (.place depth base) s []
  | array {depth : Nat} {id base index : NodeId}
      (kind : cx.arena.kind id = .ok (.element base index)) :
      Part cx s (.place (depth + 1) id) (.expression depth base) s []
  | index {depth : Nat} {id base index : NodeId} {r : Register} {c : List Line} {t : State}
      (kind : cx.arena.kind id = .ok (.element base index))
      (earlier : Emits ((atDepth depth).expression base) cx s r c t) :
      Part cx s (.place (depth + 1) id) (.expression depth index) t c
  | argument {depth : Nat} {id arg : NodeId} {name : String} {args : List NodeId} {callee : Callee}
      {xs ys : List (NodeId × Bool)} {byAddress : Bool} {c : List Line} {t : State}
      (kind : cx.arena.kind id = .ok (.call name args)) (calls : Calls cx id args callee)
      (order : (args.zip callee.byAddress).reverse = xs ++ (arg, byAddress) :: ys)
      (earlier : Emits (xs.forM fun (arg, byAddress) => pushArgument (atDepth depth) arg byAddress)
        cx (s.grown (s.registers.live.length + paddingOf s args.length)) () c t) :
      Part cx s (.call depth id) (if byAddress then .place depth arg else .expression depth arg) t
        (s.registers.live.map .push ++ (paddingCode (paddingOf s args.length) ++ c))

/-- The run of code generation for a function `f` from state `s₀` comes to a task in a state, with
the code emitted that is given last behind the set-up of the frame. -/
inductive Comes (cx : Context) (f : FunctionNode) (s₀ : State) : Task → State → List Line → Prop
  | body {x : NodeId} {xs ys : List NodeId} {moves c : List Line} {t t' : State}
      (claimed : Emits (cx.frame.parameterRegisters.forM claim) cx s₀ () [] t)
      (enters : Emits prologue cx t () (frameCode cx ++ moves) t) (order : f.body = xs ++ x :: ys)
      (earlier : Emits (xs.forM (statement (ofArena cx.arena) cx.arena.depthLimit)) cx t () c t') :
      Comes cx f s₀ (.statement cx.arena.depthLimit x) t' (moves ++ c)
  | part {task task' : Task} {s t : State} {front c : List Line}
      (whole : Comes cx f s₀ task s front) (part : Part cx s task task' t c) :
      Comes cx f s₀ task' t (front ++ c)

/-- The run emits the call of the call node `id` to `callee` behind the code `front`, where it
counts `n` words on the stack. -/
inductive CallPoint (cx : Context) (f : FunctionNode) (s₀ : State) (id : NodeId) (callee : Callee) :
    Nat → List Line → Prop
  | mk {depth dropped : Nat} {name : String} {args : List NodeId} {s t : State}
      {front before : List Line} (comes : Comes cx f s₀ (.call depth id) s front)
      (kind : cx.arena.kind id = .ok (.call name args)) (calls : Calls cx id args callee)
      (passes : Emits (passArguments (atDepth depth) callee args) cx s dropped before t) :
      CallPoint cx f s₀ id callee t.stackDepth (front ++ before)

/-- The run emits a call that ends the program behind the code `front`, where it counts `n` words on
the stack: for a `return`, or at the end of the function. -/
inductive ExitPoint (cx : Context) (f : FunctionNode) (s₀ : State) : Nat → List Line → Prop
  | ret {depth : Nat} {id : NodeId} {value : Option NodeId} {s t : State} {front before : List Line}
      (entry : cx.isEntry = true) (comes : Comes cx f s₀ (.statement depth id) s front)
      (kind : cx.arena.kind id = .ok (.ret value))
      (returns : Emits (returnStatement (ofArena cx.arena) value) cx s ()
        (before ++ [.instruction .call [.label "_exit"]]) t) :
      ExitPoint cx f s₀ t.stackDepth (front ++ before)
  | finish {label : String} {front : List Line} {t : State} (entry : cx.isEntry = true)
      (runs : Emits (functionBody label f) cx s₀ () (.label label :: (frameCode cx ++
        (front ++ [.instruction .call [.label "_exit"]]))) t) : ExitPoint cx f s₀ t.stackDepth front

/-- A call behind the code `front` by its operand, where `n` words are counted. -/
inductive CallSite (cx : Context) (f : FunctionNode) (s₀ : State) (front : List Line) (n : Nat) :
    String → Prop
  | call {id : NodeId} {callee : Callee} (point : CallPoint cx f s₀ id callee n front) :
      CallSite cx f s₀ front n callee.label
  | exit (point : ExitPoint cx f s₀ n front) : CallSite cx f s₀ front n "_exit"

variable {cx : Context} {u : UnitNode} {f : FunctionNode} {s s' s₀ t : State} {task task' : Task}
  {front code code' : List Line} {line : Line} {id : NodeId} {depth n : Nat} {r : Register}

/-! ### Nodes that the run comes to -/

/-- The node of a task is in the body of `f` and is checked. -/
def Task.Fits (cx : Context) (u : UnitNode) (f : FunctionNode) : Task → Prop
  | .statement _ id => cx.InBody f id ∧ ∃ ty, cx.arena.Checked u cx.table cx.info ty id
  | .test id | .expression _ id | .place _ id | .call _ id =>
    cx.InBody f id ∧ ∃ ty, cx.arena.Typed u cx.table cx.info id ty

theorem Part.fits {c : List Line} (h : Part cx s task task' t c) (hfits : task.Fits cx u f) :
    task'.Fits cx u f := by
  cases h with
  | member kind =>
    obtain ⟨hin, ty, hchecked⟩ := hfits
    exact ⟨hin.child kind (by simp [NodeKind.children]), ty, hchecked.block_parts kind _ (by simp)⟩
  | assigned kind | source kind =>
    obtain ⟨hin, _, hchecked⟩ := hfits
    obtain ⟨ty, -, hvalue⟩ := hchecked.assign_parts kind
    exact ⟨hin.child kind (.tail _ (.head _)), ty, hvalue⟩
  | target kind | destination kind =>
    obtain ⟨hin, _, hchecked⟩ := hfits
    obtain ⟨ty, htarget, -⟩ := hchecked.assign_parts kind
    exact ⟨hin.child kind (.head _), ty, htarget⟩
  | called kind =>
    obtain ⟨hin, _, hchecked⟩ := hfits
    exact ⟨hin.child kind (.head _), hchecked.call_part kind⟩
  | taken kind | first kind =>
    obtain ⟨hin, ty, hchecked⟩ := hfits
    exact ⟨hin.child kind (.tail _ (.head _)), ty, (hchecked.branch_parts kind).2.1⟩
  | passed kind | second kind =>
    obtain ⟨hin, ty, hchecked⟩ := hfits
    exact ⟨hin.child kind (.tail _ (.tail _ (.head _))), ty, (hchecked.branch_parts kind).2.2 _ rfl⟩
  | condition kind =>
    obtain ⟨hin, _, hchecked⟩ := hfits
    exact ⟨hin.child kind (.head _), .bool, (hchecked.branch_parts kind).1⟩
  | forever kind | body kind =>
    obtain ⟨hin, ty, hchecked⟩ := hfits
    exact ⟨hin.child kind (.tail _ (.head _)), ty, (hchecked.loop_parts kind).2⟩
  | bottom kind =>
    obtain ⟨hin, _, hchecked⟩ := hfits
    exact ⟨hin.child kind (.head _), .bool, (hchecked.loop_parts kind).1⟩
  | last kind | result kind =>
    obtain ⟨hin, ty, hchecked⟩ := hfits
    exact ⟨hin.child kind (.head _), ty, hchecked.ret_part kind _ rfl⟩
  | tested | read | value => exact hfits
  | comparedLeft kind compares =>
    obtain ⟨hin, _, htyped⟩ := hfits
    obtain rfl := Test.kind_of_comparison compares
    exact ⟨hin.child kind (.head _), htyped.child kind (.head _)⟩
  | comparedRight kind compares =>
    obtain ⟨hin, _, htyped⟩ := hfits
    obtain rfl := Test.kind_of_comparison compares
    exact ⟨hin.child kind (.tail _ (.head _)), htyped.child kind (.tail _ (.head _))⟩
  | operand kind | stepped kind | left kind | base kind | array kind =>
    obtain ⟨hin, _, htyped⟩ := hfits
    exact ⟨hin.child kind (.head _), htyped.child kind (.head _)⟩
  | right kind | index kind =>
    obtain ⟨hin, _, htyped⟩ := hfits
    exact ⟨hin.child kind (.tail _ (.head _)), htyped.child kind (.tail _ (.head _))⟩
  | @argument _ _ arg _ args callee xs ys byAddress _ _ kind calls order =>
    obtain ⟨hin, _, htyped⟩ := hfits
    have hmem : (arg, byAddress) ∈ args.zip callee.byAddress := by
      rw [← List.mem_reverse, order]
      simp
    have harg := (List.of_mem_zip hmem).1
    cases byAddress <;> exact ⟨hin.child kind harg, htyped.child kind harg⟩

/-- The nodes that the run comes to are in the body and checked. -/
theorem Comes.fits (hlowers : cx.Lowers u f) (h : Comes cx f s₀ task s front) :
    task.Fits cx u f := by
  induction h with
  | body claimed enters order earlier =>
    obtain ⟨fid, hfid, hf⟩ := hlowers.member
    have hmem : _ ∈ f.body := order ▸ List.mem_append_right _ (.head _)
    have hbody := (hlowers.program.typed.functions fid hfid f hf).body
    exact ⟨⟨_, hmem, .self _⟩, _, hbody _ hmem⟩
  | part whole part ih => exact part.fits ih

theorem emits_forM_snoc {X : Type} {xs : List X} {g : X → Gen Unit} {x : X} {v : Unit}
    (h : Emits (xs.forM g) cx s v code t) (hx : Emits (g x) cx t v code' s') :
    Emits ((xs ++ [x]).forM g) cx s v (code ++ code') s' := by
  induction xs generalizing s code with
  | nil =>
    obtain ⟨rfl, rfl⟩ := emits_forM_nil.1 h
    exact emits_forM_cons.2 ⟨code', s', [], hx, emits_forM_nil.2 ⟨rfl, rfl⟩, by simp⟩
  | cons y ys ih =>
    obtain ⟨c, t', c', hy, hys, rfl⟩ := emits_forM_cons.1 h
    exact emits_forM_cons.2 ⟨c, t', c' ++ code', hy, ih hys, by simp⟩

/-! ### Code whose calls are visited -/

/-- Every call in the code, behind `front`, stands at a point of the run. -/
def Visited (cx : Context) (f : FunctionNode) (s₀ : State) (front code : List Line) : Prop :=
  ∀ before operands back, code = before ++ .instruction .call operands :: back →
    ∃ name n, operands = [.label name] ∧ CallSite cx f s₀ (front ++ before) n name

namespace Visited

theorem plain (h : ∀ line ∈ code, line.isCall = false) : Visited cx f s₀ front code := by
  rintro before operands back rfl
  cases h (.instruction .call operands) (by simp)

theorem nil : Visited cx f s₀ front [] := plain (by simp)

theorem single (h : line.isCall = false) : Visited cx f s₀ front [line] := plain (by simpa using h)

theorem append (h : Visited cx f s₀ front code) (h' : Visited cx f s₀ (front ++ code) code') :
    Visited cx f s₀ front (code ++ code') := by
  intro before operands back heq
  rcases List.append_eq_append_iff.1 heq with ⟨before', rfl, hcode'⟩ | ⟨rest, rfl, hrest⟩
  · rw [← List.append_assoc]
    exact h' _ _ _ hcode'
  · cases rest with
    | nil =>
      obtain ⟨name, n, hname, hsite⟩ := h' [] _ _ hrest.symm
      exact ⟨name, n, hname, by simpa using hsite⟩
    | cons first rest =>
      cases hrest
      exact h _ _ _ rfl

theorem cons (hline : line.isCall = false) (h : Visited cx f s₀ (front ++ [line]) code) :
    Visited cx f s₀ front (line :: code) :=
  (single hline).append h

theorem site {name : String} (h : CallSite cx f s₀ front n name) :
    Visited cx f s₀ front [.instruction .call [.label name]] := by
  intro before operands back heq
  cases before with
  | nil =>
    cases heq
    exact ⟨name, n, rfl, by simpa using h⟩
  | cons first before => simp at heq

/-- Steps behind each other, each of which is visited behind the ones before it. -/
theorem forM {X : Type} {xs : List X} {g : X → Gen Unit} {v : Unit}
    (hsteps : ∀ ys x zs, xs = ys ++ x :: zs → ∀ {c t c' t'}, Emits (ys.forM g) cx s () c t →
      Emits (g x) cx t () c' t' → Visited cx f s₀ (front ++ c) c')
    (h : Emits (xs.forM g) cx s v code s') : Visited cx f s₀ front code := by
  have hrest : ∀ zs ys c t c', xs = ys ++ zs → Emits (ys.forM g) cx s () c t →
      Emits (zs.forM g) cx t () c' s' → Visited cx f s₀ (front ++ c) c' := by
    intro zs
    induction zs with
    | nil =>
      intro ys c t c' hxs hys hzs
      obtain ⟨rfl, -⟩ := emits_forM_nil.1 hzs
      exact nil
    | cons x zs ih =>
      intro ys c t c' hxs hys hzs
      obtain ⟨c₁, t₁, c₂, hx, hzs', rfl⟩ := emits_forM_cons.1 hzs
      refine (hsteps ys x zs hxs hys hx).append ?_
      rw [List.append_assoc]
      exact ih (ys ++ [x]) _ t₁ _ (by simp [hxs]) (emits_forM_snoc hys hx) hzs'
  simpa using hrest xs [] [] s code rfl (emits_forM_nil.2 ⟨rfl, rfl⟩) h

end Visited

/-! ### Lines that are no calls -/

theorem Loads.isCall {ty : Ty} {location : Location} (h : Loads cx ty r location line) :
    line.isCall = false := by
  cases h <;> rfl

theorem Stores.isCall {ty : Ty} {location : Location} (h : Stores cx ty r location line) :
    line.isCall = false := by
  cases h <;> rfl

theorem isCall_ite {c : Prop} [Decidable c] (h : line.isCall = false) :
    ∀ x ∈ (if c then [line] else []), x.isCall = false := by
  split <;> simp [h]

theorem isCall_divideCode {saveRax saveRdx : Bool} {result dividend divisor : Register} :
    ∀ line ∈ divideCode saveRax saveRdx result dividend divisor, line.isCall = false := by
  have hmiddle : ∀ line ∈ [Line.instruction .cqo [], Line.instruction .idiv [.reg divisor]],
      line.isCall = false := by simp [Line.isCall]
  refine List.forall_mem_append.2 ⟨isCall_ite rfl, List.forall_mem_append.2 ⟨isCall_ite rfl,
    List.forall_mem_append.2 ⟨isCall_ite rfl, List.forall_mem_append.2 ⟨hmiddle, ?_⟩⟩⟩⟩
  exact List.forall_mem_append.2 ⟨isCall_ite rfl, List.forall_mem_append.2 ⟨isCall_ite rfl,
    isCall_ite rfl⟩⟩

theorem OperatorShape.isCall {op : BinaryOp} {lhs rhs : Register}
    (h : OperatorShape op lhs rhs s code s') : ∀ line ∈ code, line.isCall = false := by
  cases h with
  | combine operator => cases op <;> cases operator <;> simp [Line.isCall]
  | compare => simp [Line.isCall]
  | divide operator cleared =>
    refine List.forall_mem_append.2 ⟨?_, isCall_divideCode⟩
    cases cleared with
    | stays => simp
    | moved => simp [Line.isCall, Line.move]

theorem isCall_pushes (rs : List Register) : ∀ line ∈ rs.map Line.push, line.isCall = false := by
  simp [Line.isCall, Line.push]

theorem isCall_pops (rs : List Register) : ∀ line ∈ rs.map Line.pop, line.isCall = false := by
  simp [Line.isCall, Line.pop]

theorem isCall_resultCode (result : Option Register) :
    ∀ line ∈ resultCode result, line.isCall = false := by
  cases result with
  | none => simp [resultCode]
  | some r => exact isCall_ite rfl

/-! ### Expressions and places -/

/-- The step into a part that nothing is emitted in front of. -/
theorem Comes.enter (h : Comes cx f s₀ task s front) (part : Part cx s task task' t []) :
    Comes cx f s₀ task' t front := by
  simpa using h.part part

/-- The calls in expressions and places are visited. -/
structure VisitsParts (depth : Nat) (cx : Context) (f : FunctionNode) (s₀ : State) : Prop where
  expression : ∀ {id s r code s' front}, Comes cx f s₀ (.expression depth id) s front →
    Emits ((atDepth depth).expression id) cx s r code s' → Visited cx f s₀ front code
  place : ∀ {id s p code s' front}, Comes cx f s₀ (.place depth id) s front →
    Emits ((atDepth depth).place id) cx s p code s' → Visited cx f s₀ front code

theorem PlaceShape.visited (hparts : VisitsParts depth cx f s₀) {p : Place}
    (hcomes : Comes cx f s₀ (.place (depth + 1) id) s front)
    (h : PlaceShape (atDepth depth) cx id s p code s') : Visited cx f s₀ front code := by
  cases h with
  | global | register | registerReference | frame => exact .nil
  | frameReference => exact .single rfl
  | field kind type field outer => exact hparts.place (hcomes.enter (.base kind)) outer
  | element kind type size array position =>
    refine (hparts.expression (hcomes.enter (.array kind)) array).append ?_
    refine (hparts.expression (hcomes.part (.index kind array)) position).append (.plain ?_)
    simp [Line.isCall]

theorem StepShape.visited (hparts : VisitsParts depth cx f s₀) {op : UnaryOp} {operand : NodeId}
    (hcomes : Comes cx f s₀ (.place depth operand) s front)
    (h : StepShape (atDepth depth) cx op operand s r code s') : Visited cx f s₀ front code := by
  have hchange : ∀ {q}, (Line.instruction (change op) [.reg q, .imm 1]).isCall = false := by
    intro q
    cases op <;> rfl
  have hmove : ∀ {q q'}, (Line.move q q').isCall = false := rfl
  cases h with
  | before order reads stores =>
    obtain ⟨_, ⟨_, placed, -⟩, load⟩ := reads
    exact (hparts.place hcomes placed).append
      (.plain (by simp [load.isCall, stores.isCall, hchange]))
  | after order reads claimed stores =>
    obtain ⟨_, ⟨_, placed, -⟩, load⟩ := reads
    exact (hparts.place hcomes placed).append
      (.plain (by simp [load.isCall, stores.isCall, hchange, hmove]))

theorem visited_pushArgument (hparts : VisitsParts depth cx f s₀) {arg : NodeId} {byAddress : Bool}
    {v : Unit}
    (hcomes : Comes cx f s₀ (if byAddress then .place depth arg else .expression depth arg) s front)
    (h : Emits (pushArgument (atDepth depth) arg byAddress) cx s v code s') :
    Visited cx f s₀ front code := by
  obtain ⟨r, c, t, hshape, -, rfl⟩ := emits_pushArgument h
  refine Visited.append ?_ (.single rfl)
  cases hshape with
  | value computed => exact hparts.expression hcomes computed
  | address placed => exact (hparts.place hcomes placed).append (.single rfl)

theorem visited_passArguments (hparts : VisitsParts depth cx f s₀) {name : String}
    {args : List NodeId} {callee : Callee} {dropped : Nat}
    (hcomes : Comes cx f s₀ (.call depth id) s front)
    (hk : cx.arena.kind id = .ok (.call name args)) (hcalls : Calls cx id args callee)
    (h : Emits (passArguments (atDepth depth) callee args) cx s dropped code s') :
    Visited cx f s₀ front code := by
  obtain ⟨-, argCode, t, harguments, rfl, -⟩ := emits_passArguments h
  refine Visited.append (.plain (isCall_pushes _)) (Visited.append (.plain (isCall_ite rfl))
    (Visited.append ?_ (.plain (isCall_pops _))))
  refine .forM (fun xs p ys horder {c t c' t'} hxs hp => ?_) harguments
  have hpart := hcomes.part (.argument hk hcalls horder hxs)
  rw [← List.append_assoc, ← List.append_assoc] at hpart
  exact visited_pushArgument hparts hpart hp

/-- The call itself stands behind the code that passes its arguments. -/
theorem visited_callNode (hparts : VisitsParts depth cx f s₀) {name : String} {args : List NodeId}
    {result : Option Register} (hcomes : Comes cx f s₀ (.call depth id) s front)
    (hk : cx.arena.kind id = .ok (.call name args))
    (h : Emits (callNode (atDepth depth) id name args) cx s result code s') :
    Visited cx f s₀ front code := by
  obtain ⟨callee, _, _, c₁, hcallee, h₁, rfl⟩ := emits_bind.1 h
  obtain ⟨hcalls, rfl, hstate⟩ := emits_calleeOf hcallee
  rw [hstate] at h₁
  obtain ⟨dropped, before, t, c₂, hpass, h₂, rfl⟩ := emits_bind.1 (emits_state_bind.1 h₁)
  obtain ⟨c₃, rfl, h₃⟩ := emits_emit_bind.1 h₂
  obtain ⟨c₄, rfl, h₄⟩ := emits_drop_bind h₃
  obtain ⟨t', -, -, -, rfl⟩ := emits_result h₄
  have hcall : Visited cx f s₀ (front ++ before) [.instruction .call [.label callee.label]] :=
    .site (.call (.mk hcomes hk hcalls hpass))
  have hrest : ∀ line ∈ dropCode dropped ++ (resultCode result ++
      s.registers.live.reverse.map Line.pop), line.isCall = false :=
    List.forall_mem_append.2 ⟨isCall_ite rfl, List.forall_mem_append.2 ⟨isCall_resultCode result,
      isCall_pops _⟩⟩
  rw [List.nil_append, ← List.singleton_append]
  exact (visited_passArguments hparts hcomes hk hcalls hpass).append (hcall.append (.plain hrest))

theorem visited_expressionAt (hparts : VisitsParts depth cx f s₀)
    (hcomes : Comes cx f s₀ (.expression (depth + 1) id) s front)
    (h : Emits (expressionAt (atDepth depth) id) cx s r code s') : Visited cx f s₀ front code := by
  cases expressionShape h with
  | constant | text => exact .single rfl
  | read kind place type scalar shape target load =>
    exact (shape.visited hparts (hcomes.enter (.read kind place))).append (.single load.isCall)
  | sign kind part | invert kind part =>
    exact (hparts.expression (hcomes.enter (.operand kind rfl)) part).append (.single rfl)
  | step kind isStep shape => exact shape.visited hparts (hcomes.enter (.stepped kind isStep))
  | binary kind first second shape =>
    refine (hparts.expression (hcomes.enter (.left kind)) first).append ?_
    exact (hparts.expression (hcomes.part (.right kind first)) second).append (.plain shape.isCall)
  | call kind shape =>
    exact visited_callNode hparts (hcomes.enter (.value kind)) kind
      (emits_call_of_expression kind h)

/-- Expressions and places of any depth. -/
theorem visits_atDepth (depth : Nat) : VisitsParts depth cx f s₀ := by
  induction depth with
  | zero => exact ⟨fun _ h => (emits_fail.1 h).elim, fun _ h => (emits_fail.1 h).elim⟩
  | succ depth ih =>
    exact ⟨fun hcomes h => visited_expressionAt ih hcomes h,
      fun hcomes h => (placeShape h).visited ih hcomes⟩

/-! ### Statements -/

theorem TestShape.undecided {lower : Lowering} {k : NodeKind} {outcome : Condition}
    (h : TestShape lower cx id s (Test.ofKind k) outcome code s') : ∀ b, k ≠ .bool b := by
  rintro b rfl
  cases h

theorem TestShape.visited {k : NodeKind} {outcome : Condition} (hk : cx.arena.kind id = .ok k)
    (hcomes : Comes cx f s₀ (.test id) s front)
    (h : TestShape (ofArena cx.arena) cx id s (Test.ofKind k) outcome code s') :
    Visited cx f s₀ front code := by
  have hparts : VisitsParts cx.arena.depthLimit cx f s₀ := visits_atDepth _
  generalize hshape : Test.ofKind k = shape at h
  cases h with
  | comparison first second =>
    refine (hparts.expression (hcomes.enter (.comparedLeft hk hshape)) first).append ?_
    exact (hparts.expression (hcomes.part (.comparedRight hk hshape first)) second).append
      (.single rfl)
  | value computed =>
    exact (hparts.expression (hcomes.enter (.tested hk hshape)) computed).append (.single rfl)

theorem AssignShape.visited {target value : NodeId}
    (hk : cx.arena.kind id = .ok (.assign target value))
    (hcomes : Comes cx f s₀ (.statement (depth + 1) id) s front)
    (h : AssignShape (ofArena cx.arena) cx target value s code s') :
    Visited cx f s₀ front code := by
  have hparts : VisitsParts cx.arena.depthLimit cx f s₀ := visits_atDepth _
  cases h with
  | record type kind stored first second claimed copied =>
    refine (hparts.place (hcomes.enter (.source hk type)) first).append ?_
    refine (hparts.place (hcomes.part (.destination hk type first)) second).append (.plain ?_)
    intro line hline
    cases (emits_copyFields (emits_context_bind.1 copied)).2 line hline <;> rfl
  | scalar type plain first second stores =>
    refine (hparts.expression (hcomes.enter (.assigned hk type plain)) first).append ?_
    exact (hparts.place (hcomes.part (.target hk type plain first)) second).append
      (.single stores.isCall)

theorem visited_call {v : Unit} (hcomes : Comes cx f s₀ (.call depth id) s front)
    (h : Emits (call (atDepth depth) id >>= fun r => releaseAll r.toList) cx s v code s') :
    Visited cx f s₀ front code := by
  rcases emits_call_release h with ⟨name, args, result, t, hk, hcall, -⟩ | ⟨rfl, -⟩
  · exact visited_callNode (visits_atDepth depth) hcomes hk hcall
  · exact .nil

theorem PutShape.visited {v : NodeId} (h : PutShape (ofArena cx.arena) cx s r v code s')
    (hcomes : Comes cx f s₀ (.expression cx.arena.depthLimit v) s front) :
    Visited cx f s₀ front code := by
  have hparts : VisitsParts cx.arena.depthLimit cx f s₀ := visits_atDepth _
  cases h with
  | constant => exact .single rfl
  | moved computed => exact (hparts.expression hcomes computed).append (.single rfl)
  | there computed => exact hparts.expression hcomes computed

theorem isCall_epilogueCode : ∀ line ∈ epilogueCode, line.isCall = false := by
  simp [epilogueCode, Line.isCall]

/-- A `return` calls what it lowers, and `_exit` at its end. -/
theorem visited_returnStatement {value : Option NodeId} {v : Unit}
    (hk : cx.arena.kind id = .ok (.ret value))
    (hcomes : Comes cx f s₀ (.statement (depth + 1) id) s front)
    (h : Emits (returnStatement (ofArena cx.arena) value) cx s v code s') :
    Visited cx f s₀ front code := by
  have hexit : ∀ {before}, cx.isEntry = true →
      code = before ++ [(.instruction .call [.label "_exit"] : Line)] →
      Visited cx f s₀ (front ++ before) [.instruction .call [.label "_exit"]] := by
    rintro before hentry rfl
    exact .site (.exit (.ret hentry hcomes hk h))
  obtain @⟨result, c, c', t, _, returned, leaves⟩ := returnShape h
  have hfirst : Visited cx f s₀ front c := by
    cases returned with
    | none | value => exact .nil
    | void type called => exact visited_call (hcomes.enter (.last hk type)) called
  -- the value that is given back is lowered at once
  have hput : ∀ {w r code}, result = some w → PutShape (ofArena cx.arena) cx t r w code s' →
      Visited cx f s₀ (front ++ c) code := by
    intro w r code hresult put
    cases returned with
    | none | void => cases hresult
    | value type nonvoid =>
      cases hresult
      rw [List.append_nil]
      exact put.visited (hcomes.enter (.result hk type nonvoid))
  refine hfirst.append ?_
  cases leaves with
  | exit entry =>
    have hmove : Visited cx f s₀ (front ++ c) [.instruction .mov [.reg .rdi, .imm 0]] := .single rfl
    refine hmove.append ?_
    rw [List.append_assoc]
    exact hexit entry (by simp [exitCode])
  | exitWith entry put =>
    refine (hput rfl put).append ?_
    rw [List.append_assoc]
    exact hexit entry (by simp)
  | epilogue => exact .plain isCall_epilogueCode
  | giveBack entry put => exact (hput rfl put).append (.plain isCall_epilogueCode)

/-- Every call of a statement stands at a point of the run. -/
theorem visited_statement (hlowers : cx.Lowers u f) {v : Unit}
    (hcomes : Comes cx f s₀ (.statement depth id) s front)
    (h : Emits (statement (ofArena cx.arena) depth id) cx s v code s') :
    Visited cx f s₀ front code := by
  induction depth generalizing id s front code s' with
  | zero => exact (emits_fail.1 h).elim
  | succ depth ih =>
    obtain ⟨-, ty, hchecked⟩ := hcomes.fits hlowers
    obtain ⟨k, hk, hrole⟩ := hchecked.role
    cases statementShape hk hrole h with
    | block kind parts =>
      refine .forM (fun xs x ys hbody {c t c' t'} hxs hx => ?_) parts
      exact ih (hcomes.part (.member (hbody ▸ kind) hxs)) hx
    | declare kind cleared =>
      refine .plain fun line hline => ?_
      obtain ⟨width, a, rfl⟩ := (emits_declareLocal cleared).2 line hline
      rfl
    | never | empty => exact .nil
    | assign kind shape => exact shape.visited kind hcomes
    | callStatement kind called => exact visited_call (hcomes.enter (.called kind)) called
    | taken kind literal part => exact ih (hcomes.enter (.taken kind literal)) part
    | @passed condition onTrue onFalse _ _ kind literal part =>
      cases onFalse with
      | none =>
        obtain ⟨rfl, -⟩ := emits_forM_nil.1 part
        exact .nil
      | some other =>
        obtain ⟨c, t, c', hother, hnone, rfl⟩ := emits_forM_cons.1 part
        obtain ⟨rfl, -⟩ := emits_forM_nil.1 hnone
        rw [List.append_nil]
        exact ih (hcomes.enter (.passed kind literal)) hother
    | choice kind tested test first =>
      have hfirst := ih (hcomes.part (.first kind tested test)) first
      rw [← List.append_assoc] at hfirst
      refine (test.visited tested (hcomes.enter (.condition kind tested test.undecided))).append ?_
      exact .cons rfl (hfirst.append (.single rfl))
    | alternative kind tested test first second =>
      have hfirst := ih (hcomes.part (.first kind tested test)) first
      have hsecond := ih (hcomes.part (.second kind tested test first)) second
      rw [← List.append_assoc] at hfirst
      simp only [List.append_assoc] at hsecond
      refine (test.visited tested (hcomes.enter (.condition kind tested test.undecided))).append ?_
      refine .cons rfl (hfirst.append (.cons rfl (.cons rfl (Visited.append ?_ (.single rfl)))))
      simpa using hsecond
    | forever kind literal part =>
      have hbody := ih (hcomes.part (.forever kind literal)) part
      exact .cons rfl (hbody.append (.single rfl))
    | loop kind tested part test =>
      have hbody := ih (hcomes.part (.body kind tested test.undecided)) part
      have htest := test.visited tested (hcomes.part (.bottom kind tested test.undecided part))
      refine .cons rfl (.cons rfl (Visited.append (by simpa using hbody)
        (.cons rfl (Visited.append ?_ (.single rfl)))))
      simpa using htest
    | ret kind shape =>
      obtain ⟨k', hk', hcode⟩ := emits_kind_bind.1 h
      cases kind.symm.trans hk'
      exact visited_returnStatement kind hcomes hcode

/-! ### Functions -/

theorem CopiesShape.isCall {ps : List CopiedParameter} (h : CopiesShape cx s ps code) :
    ∀ line ∈ code, line.isCall = false := by
  induction h with
  | nil => simp
  | cons first others ih =>
    refine List.forall_mem_append.2 ⟨?_, ih⟩
    cases first with
    | nothing => simp
    | copy source copied =>
      refine List.forall_mem_cons.2 ⟨rfl, fun line hline => ?_⟩
      cases (emits_copyFields (emits_context_bind.1 copied)).2 line hline <;> rfl

/-- Every call of a function stands at a point of the run. -/
theorem visited_functionBody (hlowers : cx.Lowers u f) {label : String} {v : Unit}
    (h : Emits (functionBody label f) cx s₀ v code s') :
    ∃ rest, code = .label label :: (frameCode cx ++ rest) ∧ Visited cx f s₀ [] rest := by
  obtain ⟨_, _, t, _, hclaim, h₁, hcode⟩ := emits_bind.1 (emits_context_bind.1 h)
  obtain ⟨rfl, -⟩ := emits_forM_claim hclaim
  obtain ⟨_, rfl, h₂⟩ := emits_placeLabel_bind.1 h₁
  obtain ⟨_, _, _, _, hprologue, h₃, rfl⟩ := emits_bind.1 h₂
  obtain ⟨copies, hcopies, rfl, rfl⟩ := emits_prologue hprologue
  obtain ⟨_, body, t', _, hbody, h₄, rfl⟩ := emits_bind.1 h₃
  obtain ⟨returns, _, _, tail, hends, htail, rfl⟩ := emits_bind.1 h₄
  obtain ⟨rfl, rfl⟩ := emits_endsWithReturn hends
  have hmoves : ∀ line ∈ cx.frame.homed.map homeCode ++ copies, line.isCall = false :=
    List.forall_mem_append.2 ⟨by simp [homeCode, Line.isCall], hcopies.isCall⟩
  refine ⟨(cx.frame.homed.map homeCode ++ copies) ++ (body ++ tail), by simp [hcode], ?_⟩
  refine (Visited.plain hmoves).append (Visited.append ?_ ?_)
  · refine .forM (fun xs x ys horder {c t₁ c' t₂} hxs hx => ?_) hbody
    exact visited_statement hlowers (.body hclaim hprologue horder hxs) hx
  · cases returns with
    | true =>
      obtain ⟨-, rfl, -⟩ := emits_pure.1 htail
      exact .nil
    | false =>
      cases hentry : cx.isEntry with
      | true =>
        rw [hentry] at htail
        obtain ⟨rfl, rfl⟩ := emits_exit.1 htail
        have hruns : Emits (functionBody label f) cx s₀ v (.label label :: (frameCode cx ++
            (([] ++ (cx.frame.homed.map homeCode ++ copies) ++ body ++
              [.instruction .mov [.reg .rdi, .imm 0]]) ++
                [.instruction .call [.label "_exit"]]))) s' := by
          rw [hcode] at h
          simpa [exitCode] using h
        exact .cons rfl (.site (.exit (.finish hentry hruns)))
      | false =>
        rw [hentry] at htail
        obtain ⟨rfl, -⟩ := emits_epilogue.1 htail
        exact .plain isCall_epilogueCode

end Lowering

end MiniJ
