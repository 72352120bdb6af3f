import MiniJ.Proofs.Lowering.Balance
import MiniJ.Proofs.Lowering.Records
import MiniJ.Proofs.Machine.Position
import MiniJ.Proofs.Typing.Storage

/-!
# Statements do what they mean

The code of a statement stands somewhere in the block of its function. From a machine that
represents a store it runs to the end of the code, or out of the function, in a machine that
represents the store behind the statement.

## Main definitions

* `Activation.Leaves` — the function is left, with a result.
* `Activation.Ends` — where the code of statements gets to.
* `Activation.Performs` — code that does to a store what statements do to it.

## Main statements

* `Lowering.TestShape.correct` — conditions, by the shape of their code.
* `Lowering.AssignShape.correct`, `Lowering.AssignShape.correct_record` — assignments.
* `Lowering.Setting.performs` — statements behind each other.
-/
namespace MiniJ

theorem Condition.holds_negate (c : Condition) (x y : Word) :
    c.negate.holds x y = !c.holds x y := by
  cases c <;> simp [negate, holds, bne, BitVec.sle_eq_not_slt]

namespace Activation

open Gen Machine

variable {A : Activation} {f : FunctionNode} {σ : Store} {m : Machine} {block : List Line}

/-- The function is left: at a return to the caller with the frame gone, or at the end of the
program. Everything but the frame registers is as in a machine that represents the store. -/
inductive Leaves (A : Activation) (block : List Line) (σ : Store) :
    Option Value → Nat × Machine → Prop
  | ret {value : Option Value} {i : Nat} {m m₀ : Machine} (inner : A.context.isEntry = false)
      (line : block[i]? = some (.instruction .ret [])) (held : A.Represents σ m₀)
      (mem : m.mem = m₀.mem) (regs : ∀ q, q ≠ .rbp → q ≠ .rsp → m.regs q = m₀.regs q)
      (rsp : m.regs .rsp = A.base + 8#64)
      (rbp : m.regs .rbp = BitVec.ofNat 64 (m.mem.read A.base 8))
      (result : ∀ v ∈ value, m.regs .rax = v.word) : Leaves A block σ value (i, m)
  | exit {value : Option Value} {i : Nat} {m : Machine} (entry : A.context.isEntry = true)
      (line : block[i]? = some (.instruction .call [.label "_exit"])) (held : A.Represents σ m)
      (status : m.regs .rdi = (value.map Value.word).getD 0#64) : Leaves A block σ value (i, m)

/-- Where the code of statements gets to: behind it, or out of the function. -/
def Ends (A : Activation) (block : List Line) (stop : Nat) (σ : Store) :
    Completion → Nat × Machine → Prop
  | .normal, y => y.1 = stop ∧ A.Represents σ y.2
  | .returned value, y => A.Leaves block σ value y

/-- A path that ends behind some code or out of the function does not end at a jump before. -/
theorem Ends.ne_of_jmp {stop i : Nat} {c : Completion} {y : Nat × Machine} {name : String}
    (h : A.Ends block stop σ c y) (hlt : i < stop)
    (hline : block[i]? = some (.instruction .jmp [.label name])) : y.1 ≠ i := by
  cases c with
  | normal =>
    have hstop := h.1
    omega
  | returned value =>
    rintro rfl
    cases h with
    | ret _ line => cases hline.symm.trans line
    | exit _ line => cases hline.symm.trans line

/-- Wherever the code stands in the block: from a machine that represents the first store it gets to
its end, or out of the function, as the statements do. -/
def Performs (A : Activation) (block : List Line) (σ : Store) (code : List Line) (c : Completion)
    (σ' : Store) : Prop :=
  ∀ i m, CodeAt block i code → A.Represents σ m →
    ∃ y, Reaches A.env block (i, m) y ∧ A.Ends block (i + code.length) σ' c y

namespace Performs

variable {σ₁ σ' : Store} {code code' : List Line} {c : Completion}

theorem nil : A.Performs block σ [] .normal σ := fun i m _ hrep => ⟨(i, m), .refl, rfl, hrep⟩

/-- Code without labels and jumps. -/
theorem of_runs (h : ∀ m, A.Represents σ m → ∃ m', RunsTo A.env code m m' ∧ A.Represents σ' m') :
    A.Performs block σ code .normal σ' := by
  intro i m hcode hrep
  obtain ⟨m', hrun, hrep'⟩ := h m hrep
  exact ⟨_, .of_runs hrun hcode, rfl, hrep'⟩

theorem append (h : A.Performs block σ code .normal σ₁) (h' : A.Performs block σ₁ code' c σ') :
    A.Performs block σ (code ++ code') c σ' := by
  intro i m hcode hrep
  obtain ⟨⟨j, m₁⟩, hreach, hj, hrep₁⟩ := h i m hcode.left hrep
  cases hj
  obtain ⟨y, hreach', hends⟩ := h' _ m₁ hcode.right hrep₁
  rw [List.length_append, ← Nat.add_assoc]
  exact ⟨y, hreach.trans hreach', hends⟩

/-- Code behind a place where the function is left does not run. -/
theorem leave {value : Option Value} (h : A.Performs block σ code (.returned value) σ') :
    A.Performs block σ (code ++ code') (.returned value) σ' :=
  fun i m hcode hrep => h i m hcode.left hrep

end Performs

theorem Claimed.balanced {s t : State} (h : A.Claimed s) (hbalanced : Balanced s t) : A.Claimed t :=
  h.mono fun _ hq => hbalanced.registers ▸ hq

/-- Comparisons do not change what is represented. -/
theorem Represents.flagged (h : A.Represents σ m) (flags : Option (Word × Word)) :
    A.Represents σ { m with flags := flags } :=
  ⟨h.rbp, h.rsp, h.scalar, h.register, h.pointer, h.handle⟩

end Activation

namespace Lowering

open Gen Machine Activation

/-! ### Lowering one node -/

section

variable {β : Type} {lower : Lowering} {cx : Context} {s s' : State} {code : List Line}
  {id : NodeId} {k : NodeKind}

theorem emits_forM_singleton {α : Type} {x : α} {g : α → Gen Unit} :
    Emits ([x].forM g) cx s () code s' ↔ Emits (g x) cx s () code s' := by
  rw [emits_forM_cons]
  constructor
  · rintro ⟨c, t, c', h, hnil, rfl⟩
    obtain ⟨rfl, rfl⟩ := emits_forM_nil.1 hnil
    rwa [List.append_nil]
  · exact fun h => ⟨code, s', [], h, emits_forM_nil.2 ⟨rfl, rfl⟩, (List.append_nil _).symm⟩

/-- A statement that has code is not nested too deep. -/
theorem exists_level {depth : Nat}
    (h : Emits ([id].forM (Lowering.statement lower depth)) cx s () code s') :
    ∃ d, depth = d + 1 ∧ Emits (Lowering.statement lower (d + 1) id) cx s () code s' := by
  cases depth with
  | zero => exact (emits_fail.1 (emits_forM_singleton.1 h)).elim
  | succ d => exact ⟨d, rfl, emits_forM_singleton.1 h⟩

theorem Test.ofOperator_of_comparison {op : BinaryOp} {condition : Condition} {left right : NodeId}
    (h : Test.ofKind k = .comparison op condition left right) :
    Condition.ofOperator? op = some condition := by
  unfold Test.ofKind at h
  split at h
  · cases h
  · split at h
    · next hop =>
      cases h
      exact hop
    · cases h
  · cases h

/-- Only a call has no value. -/
theorem call_of_void {u : UnitNode} {f : FunctionNode} (h : cx.Lowers u f) (hin : cx.InBody f id)
    (htyped : cx.arena.Typed u cx.table cx.info id .void) :
    ∃ name args, cx.arena.kind id = .ok (.call name args) := by
  have hplace : ∀ k, cx.arena.kind id = .ok k → k.isPlace = true → False := by
    intro k hk hplace
    exact (h.storable_place hin htyped ⟨k, hk, hplace⟩).1 rfl
  generalize hty : Ty.void = ty at htyped
  cases htyped with
  | int | text | bool => cases hty
  | call kind => exact ⟨_, _, kind⟩
  | var kind | field kind | element kind => exact (hplace _ kind rfl).elim
  | unary kind part result =>
    obtain ⟨rfl, hcases⟩ := UnaryOp.result_cases result
    rcases hcases with rfl | rfl <;> cases hty
  | binary kind first second result =>
    rcases (BinaryOp.result_cases result).2.2 with rfl | rfl | rfl <;> cases hty

end

/-! ### Conditions, assignments and results -/

variable {A : Activation} {f : FunctionNode} {lower : Lowering} {s s' t : State} {σ σ' : Store}
  {m : Machine} {id target value : NodeId} {r : Region} {ty : Ty} {q : Register} {v : Value}
  {code block : List Line} {i : Nat}

/-- The code of a condition sets the flags for its outcome. -/
theorem TestShape.correct (hlower : Correct lower A)
    (hdisciplined : Disciplined lower A.context A.unit) {k : NodeKind} {outcome : Condition}
    {b : Bool} (hk : A.context.arena.kind id = .ok k)
    (htyped : A.context.arena.Typed A.unit A.context.table A.context.info id .bool)
    (h : TestShape lower A.context id s (Test.ofKind k) outcome code s') (hs : A.Claimed s)
    (heval : A.scene.Evaluates σ id (.bool b) σ') (hrep : A.Represents σ m) :
    ∃ m' x y, RunsTo A.env code m m' ∧ A.Represents σ' m' ∧ m'.flags = some (x, y) ∧
      outcome.holds x y = b := by
  generalize hshape : Test.ofKind k = shape at h
  cases h with
  | @comparison op _ left right lhs rhs c c' t t' _ _ first second dropped dropped' =>
    have hop := Test.ofOperator_of_comparison hshape
    obtain rfl := Test.kind_of_comparison hshape
    obtain ⟨x, y, σ₁, hx, hy, hvalue⟩ := heval.computes hk
    obtain ⟨l, hleft, hright, -⟩ := htyped.of_binary hk
    have hclaims := hdisciplined.expression hleft first
    obtain ⟨m₁, hrun₁, hadvances₁, hx₁, -⟩ := hlower.expression hleft first hs hx hrep
    obtain ⟨m₂, hrun₂, hadvances₂, hy₂, -⟩ :=
      hlower.expression hright second (hs.claims hclaims) hy hadvances₁.represents
    have hx₂ : m₂.regs lhs = x.word := by
      rw [hadvances₂.live lhs ((hclaims.live lhs).2 (.inl (by simp)))
        (hs.not_resident hclaims (by simp)), hx₁]
    refine ⟨{ m₂ with flags := some (m₂.regs lhs, m₂.regs rhs) }, _, _,
      hrun₁.append (hrun₂.append (.line rfl)), hadvances₂.represents.flagged _, rfl, ?_⟩
    rw [hx₂, hy₂]
    exact (Value.bool.inj (holds_of_value hop hvalue)).symm
  | @value r c t _ computed dropped =>
    obtain ⟨m₁, hrun, hadvances, hword, -⟩ := hlower.expression htyped computed hs heval hrep
    refine ⟨{ m₁ with flags := some (m₁.regs r, 1#64) }, _, _, hrun.append (.line rfl),
      hadvances.represents.flagged _, rfl, ?_⟩
    rw [hword]
    cases b <;> rfl

/-- A scalar is assigned. -/
theorem AssignShape.correct (hA : A.Of f) (hlower : Correct lower A)
    (hdisciplined : Disciplined lower A.context A.unit)
    (htarget : A.context.arena.Typed A.unit A.context.table A.context.info target ty)
    (hvalue : A.context.arena.Typed A.unit A.context.table A.context.info value ty)
    (hscalar : ty.isRecord = false) (h : AssignShape lower A.context target value s code s')
    (hs : A.Claimed s) (heval : A.scene.Evaluates σ value v σ') (hr : A.scene.Denotes target r)
    (hrep : A.Represents σ m) :
    ∃ m', RunsTo A.env code m m' ∧ A.Represents (σ'.set r v) m' := by
  cases h with
  | record type =>
    cases type.symm.trans htarget.noted
    cases hscalar
  | @scalar ty' q p c c' line t t' _ _ type plain first second stores released released' =>
    cases type.symm.trans htarget.noted
    have hclaims := hdisciplined.expression hvalue first
    obtain ⟨m₁, hrun₁, hadvances₁, hword, hfits⟩ := hlower.expression hvalue first hs heval hrep
    obtain ⟨m₂, hrun₂, hadvances₂, haddresses⟩ :=
      hlower.place htarget second (hs.claims hclaims) hr hadvances₁.represents
    have hkept : m₂.regs q = v.word := by
      rw [hadvances₂.live q ((hclaims.live q).2 (.inl (by simp)))
        (hs.not_resident hclaims (by simp)), hword]
    obtain ⟨m', hrun', hrep', -⟩ :=
      haddresses.store hA hadvances₂.represents hscalar stores hkept hfits
    exact ⟨m', hrun₁.append (hrun₂.append hrun'), hrep'⟩

/-- A record is assigned. -/
theorem AssignShape.correct_record (hA : A.Of f)
    (hdistinct : ∀ record fields, A.context.table.lookupRecord record = .ok (some fields) →
      (fields.map Field.name).Nodup) (hlower : Correct lower A)
    (hdisciplined : Disciplined lower A.context A.unit) {record : String} {src dst : Region}
    (htarget : A.context.arena.Typed A.unit A.context.table A.context.info target (.record record))
    (hvalue : A.context.arena.Typed A.unit A.context.table A.context.info value (.record record))
    (h : AssignShape lower A.context target value s code s') (hs : A.Claimed s)
    (hsrc : A.scene.Denotes value src) (hdst : A.scene.Denotes target dst)
    (hrep : A.Represents σ m) :
    ∃ m', RunsTo A.env code m m' ∧ A.Represents (σ.copy dst src) m' := by
  cases h with
  | scalar type plain =>
    cases type.symm.trans htarget.noted
    cases plain
  | @record record' k source destination temp temp' q c c' copy t t' t₁ _ _ _ type kind stored first
      second claimed copied =>
    cases type.symm.trans htarget.noted
    have hfirst := hdisciplined.place hvalue first
    have hsecond := hdisciplined.place htarget second
    have hs' : A.Claimed t' := (hs.claims hfirst).claims hsecond
    obtain ⟨m₁, hrun₁, hadvances₁, haddresses₁⟩ := hlower.place hvalue first hs hsrc hrep
    obtain ⟨m₂, hrun₂, hadvances₂, haddresses₂⟩ :=
      hlower.place htarget second (hs.claims hfirst) hdst hadvances₁.represents
    have hrbp : m₂.regs .rbp = m₁.regs .rbp :=
      hadvances₂.represents.rbp.trans hadvances₁.represents.rbp.symm
    have hunused : A.Unused q := hs'.unused claimed (by simp)
    have hfree := (claimed.free q (by simp)).2
    have hbase : ∀ {a : Address} {r : Region} {ty : Ty},
        A.Addresses t' m₂ (.memory a) r ty → a.base ≠ .register q := by
      rintro a r ty (_ | ⟨-, steady⟩) hq
      exact (steady q hq).elim hunused.2.1 fun hlive => hfree hlive.1
    have hsource := haddresses₁.mono (t := t') hrbp hadvances₂.live fun _ hq => hsecond.mono hq
    cases hsource with
    | memory located steady =>
      cases haddresses₂ with
      | memory located' steady' =>
        obtain ⟨m', hrun', hrep', -⟩ := hadvances₂.represents.copyRecord hA hdistinct
          hunused located
          located' (hbase (.memory located steady)) (hbase (.memory located' steady')) copied
        exact ⟨m', hrun₁.append (hrun₂.append hrun'), hrep'⟩

/-- A value is put into a register. -/
theorem PutShape.correct (hA : A.Of f) (hlower : Correct lower A) (hunused : A.Unused q)
    (htyped : A.context.arena.Typed A.unit A.context.table A.context.info value ty)
    (h : PutShape lower A.context s q value code s') (hs : A.Claimed s)
    (heval : A.scene.Evaluates σ value v σ') (hrep : A.Represents σ m) :
    ∃ m', RunsTo A.env code m m' ∧ A.Represents σ' m' ∧ m'.regs q = v.word := by
  cases h with
  | @constant number kind =>
    have hword : σ' = σ ∧ v.word = number.toBitVec := by
      rcases kind with hk | ⟨b, hk, rfl⟩
      · obtain ⟨rfl, rfl⟩ := heval.computes hk
        exact ⟨rfl, rfl⟩
      · obtain ⟨rfl, rfl⟩ := heval.computes hk
        exact ⟨rfl, by cases b <;> rfl⟩
    obtain ⟨rfl, hword⟩ := hword
    exact ⟨m.set q number.toBitVec, .line rfl, hrep.set hA hunused _, hword ▸ regs_set_self ..⟩
  | @moved r c t _ computed released =>
    obtain ⟨m₁, hrun, hadvances, hword, -⟩ := hlower.expression htyped computed hs heval hrep
    exact ⟨m₁.set q (m₁.regs r), hrun.append (.line rfl), hadvances.represents.set hA hunused _,
      hword ▸ regs_set_self ..⟩
  | there computed released =>
    obtain ⟨m₁, hrun, hadvances, hword, -⟩ := hlower.expression htyped computed hs heval hrep
    exact ⟨m₁, hrun, hadvances.represents, hword⟩

/-! ### Leaving -/

/-- What the code of statements in a block is run with. -/
structure Setting (lower : Lowering) (A : Activation) (f : FunctionNode) (block : List Line) :
    Prop where
  activation : A.Of f
  correct : Correct lower A
  disciplined : Disciplined lower A.context A.unit
  labels : DistinctLabels block
  fields : ∀ record fields, A.context.table.lookupRecord record = .ok (some fields) →
    (fields.map Field.name).Nodup
  /-- The entry has no parameters. -/
  entry : A.context.isEntry = true → A.context.frame.parameterRegisters = []

namespace Setting

theorem unused_rax (h : Setting lower A f block) : A.Unused .rax := by
  obtain ⟨taken, -, hsound, -⟩ := h.activation.lowers.frame_sound
  exact ⟨fun hin => absurd (hsound.parameterRegisters.2 _ hin) (by decide), by decide, by decide⟩

theorem unused_rdi (h : Setting lower A f block) (hentry : A.context.isEntry = true) :
    A.Unused .rdi := by
  rw [Activation.Unused, h.entry hentry]
  exact ⟨List.not_mem_nil, by decide, by decide⟩

end Setting

/-- The epilogue takes the frame away and returns. -/
theorem leaves_epilogue {result : Option Value} (hentry : A.context.isEntry = false)
    (hrep : A.Represents σ m) (hresult : ∀ v ∈ result, m.regs .rax = v.word)
    (hcode : CodeAt block i epilogueCode) :
    ∃ y, Reaches A.env block (i, m) y ∧ A.Leaves block σ result y := by
  have hrun : RunsTo A.env [.instruction .mov [.reg .rsp, .reg .rbp], .instruction .pop [.reg .rbp]]
      m
      ((m.set .rsp (m.regs .rbp)).pop .rbp) := .cons rfl (.line rfl)
  have hparts : CodeAt block i ([.instruction .mov [.reg .rsp, .reg .rbp],
      .instruction .pop [.reg .rbp]] ++ [.instruction .ret []]) := hcode
  refine ⟨_, .of_runs hrun hparts.left,
    .ret hentry hcode.tail.tail.head hrep rfl (fun q hbp hsp => ?_) ?_ ?_ fun v hv => hresult v hv⟩
  · rw [Machine.pop, regs_set_of_ne _ _ hbp, regs_set_of_ne _ _ hsp, regs_set_of_ne _ _ hsp]
  · rw [← hrep.rbp]
    rfl
  · rw [← hrep.rbp]
    rfl

/-- A `return` leaves the function with the value. -/
theorem Setting.leaves (hset : Setting lower A f block) {result : Option NodeId}
    {returned : Option Value}
    (htyped : ∀ v ∈ result, A.context.arena.Typed A.unit A.context.table A.context.info v ty)
    (h : LeaveShape lower A.context s result code s') (hs : A.Claimed s)
    (heval : result = none ∧ returned = none ∧ σ' = σ ∨
      ∃ id v, result = some id ∧ returned = some v ∧ A.scene.Evaluates σ id v σ')
    (hcode : CodeAt block i code) (hrep : A.Represents σ m) :
    ∃ y, Reaches A.env block (i, m) y ∧ A.Leaves block σ' returned y := by
  cases h with
  | exit entry =>
    obtain ⟨-, rfl, rfl⟩ | ⟨_, _, hsome, -⟩ := heval
    · have hrun : RunsTo A.env [.instruction .mov [.reg .rdi, .imm 0]] m (m.set .rdi 0#64) :=
        .line rfl
      exact ⟨_, .of_runs hrun (show CodeAt block i (_ ++ [Line.instruction .call _])
        from hcode).left,
        .exit entry hcode.tail.head (hrep.set hset.activation (hset.unused_rdi entry) _)
          (regs_set_self ..)⟩
    · cases hsome
  | @exitWith id c _ entry put =>
    obtain ⟨hnone, -⟩ | ⟨_, v, hsome, rfl, hv⟩ := heval
    · cases hnone
    · cases hsome
      obtain ⟨m', hrun, hrep', hword⟩ := put.correct hset.activation hset.correct
        (hset.unused_rdi entry) (htyped id rfl) hs hv hrep
      exact ⟨_, .of_runs hrun hcode.left, .exit entry hcode.behind hrep' hword⟩
  | epilogue entry =>
    obtain ⟨-, rfl, rfl⟩ | ⟨_, _, hsome, -⟩ := heval
    · exact leaves_epilogue entry hrep (by simp) hcode
    · cases hsome
  | @giveBack id c _ entry put =>
    obtain ⟨hnone, -⟩ | ⟨_, v, hsome, rfl, hv⟩ := heval
    · cases hnone
    · cases hsome
      obtain ⟨m', hrun, hrep', hword⟩ := put.correct hset.activation hset.correct
        hset.unused_rax (htyped id rfl) hs hv hrep
      have hresult : ∀ w ∈ some v, m'.regs .rax = w.word := by
        rintro w ⟨⟩
        exact hword
      obtain ⟨y, hreaches, hleaves⟩ := leaves_epilogue entry hrep' hresult hcode.right
      exact ⟨y, (Reaches.of_runs hrun hcode.left).trans hreaches, hleaves⟩

/-! ### Statements -/

/-- The code behind a part may be a label or a jump. -/
theorem ends_go {y : Nat × Machine} {x : Nat × Machine} {stop stop' : Nat} {c : Completion}
    (h : Reaches A.env block x y) (hends : A.Ends block stop σ c y)
    (hgo : ∀ m, Reaches A.env block (stop, m) (stop', m)) :
    ∃ y', Reaches A.env block x y' ∧ A.Ends block stop' σ c y' := by
  cases c with
  | normal =>
    obtain ⟨j, m⟩ := y
    obtain ⟨rfl, hrep⟩ := hends
    exact ⟨_, h.trans (hgo m), rfl, hrep⟩
  | returned value => exact ⟨y, h, hends⟩

section

variable {k : NodeKind} {outcome condition : Condition} {b : Bool} {name : String}
  {back : List Line} {j : Nat}

/-- A jump behind a condition that does not take place. -/
theorem Setting.test_passes (hset : Setting lower A f block) (hk : A.context.arena.kind id = .ok k)
    (htyped : A.context.arena.Typed A.unit A.context.table A.context.info id .bool)
    (h : TestShape lower A.context id s (Test.ofKind k) outcome code s') (hs : A.Claimed s)
    (heval : A.scene.Evaluates σ id (.bool b) σ') (hrep : A.Represents σ m)
    (hcode : CodeAt block i (code ++ .instruction (.jump condition) [.label name] :: back))
    (hcondition : ∀ x y, outcome.holds x y = b → condition.holds x y = false) :
    ∃ m', Reaches A.env block (i, m) (i + code.length + 1, m') ∧ A.Represents σ' m' := by
  obtain ⟨m', x, y, hrun, hrep', hflags, hholds⟩ :=
    h.correct hset.correct hset.disciplined hk htyped hs heval hrep
  exact ⟨m', (Reaches.of_runs hrun hcode.left).tail
    (.passed hcode.behind hflags (hcondition x y hholds)), hrep'⟩

/-- A jump behind a condition that takes place. -/
theorem Setting.test_jumps (hset : Setting lower A f block) (hk : A.context.arena.kind id = .ok k)
    (htyped : A.context.arena.Typed A.unit A.context.table A.context.info id .bool)
    (h : TestShape lower A.context id s (Test.ofKind k) outcome code s') (hs : A.Claimed s)
    (heval : A.scene.Evaluates σ id (.bool b) σ') (hrep : A.Represents σ m)
    (hcode : CodeAt block i (code ++ .instruction (.jump condition) [.label name] :: back))
    (hcondition : ∀ x y, outcome.holds x y = b → condition.holds x y = true)
    (htarget : block[j]? = some (.label name)) :
    ∃ m', Reaches A.env block (i, m) (j, m') ∧ A.Represents σ' m' := by
  obtain ⟨m', x, y, hrun, hrep', hflags, hholds⟩ :=
    h.correct hset.correct hset.disciplined hk htyped hs heval hrep
  exact ⟨m', (Reaches.of_runs hrun hcode.left).tail
    (.taken hcode.behind hflags (hcondition x y hholds) htarget), hrep'⟩

end

/-! ### Statements behind each other -/

section

variable {depth : Nat} {ret : Ty} {ids : List NodeId} {c : Completion} {σ₁ : Store}
  {condition body onTrue : NodeId} {onFalse : Option NodeId}

/-- The code of a statement has one of the shapes. -/
theorem exists_shape (hchecked : A.context.arena.Checked A.unit A.context.table A.context.info ret
      id) (h : Emits ([id].forM (Lowering.statement lower depth)) A.context s () code s') :
    ∃ d, StatementShape lower A.context (Lowering.statement lower d) id s code s' := by
  obtain ⟨d, rfl, hemits⟩ := exists_level h
  obtain ⟨k, hk, hrole⟩ := hchecked.role
  exact ⟨d, statementShape hk hrole hemits⟩

/-- A condition that holds leads to the first part. -/
theorem Setting.performs_onTrue (hset : Setting lower A f block)
    (hk : A.context.arena.kind id = .ok (.branch condition onTrue onFalse))
    (htyped : A.context.arena.Typed A.unit A.context.table A.context.info condition .bool)
    (h : StatementShape lower A.context (Lowering.statement lower depth) id s code s')
    (hs : A.Claimed s) (heval : A.scene.Evaluates σ condition (.bool true) σ₁)
    (hpart : ∀ {t t' code},
      Emits ([onTrue].forM (Lowering.statement lower depth)) A.context t () code t' →
      A.Claimed t → A.Performs block σ₁ code c σ') : A.Performs block σ code c σ' := by
  have hlabelled : A.Claimed s.labelled := hs
  cases h with
  | taken kind literal part =>
    cases hk.symm.trans kind
    obtain ⟨-, rfl⟩ := heval.computes literal
    exact hpart (emits_forM_singleton.2 part) hs
  | passed kind literal part =>
    cases hk.symm.trans kind
    obtain ⟨hfalse, -⟩ := heval.computes literal
    cases hfalse
  | @choice _ _ k outcome front back t _ kind tested test first =>
    cases hk.symm.trans kind
    intro i m hcode hrep
    obtain ⟨m₁, hreach, hrep₁⟩ := hset.test_passes tested htyped test hs heval hrep hcode
      fun x y hholds => by rw [Condition.holds_negate, hholds]; rfl
    have hback := hcode.right.tail
    obtain ⟨y, hreach', hends⟩ := hpart (emits_forM_singleton.2 first)
      (hlabelled.claims (test.claims hset.disciplined tested htyped)) _ m₁ hback.left hrep₁
    obtain ⟨y', hreach'', hends'⟩ := ends_go hreach' hends fun m => .label hback.behind
    refine ⟨y', hreach.trans hreach'', ?_⟩
    simpa [Nat.add_assoc, Nat.add_comm 1] using hends'
  | @alternative _ _ other k outcome front middle back t t' _ kind tested test first second =>
    cases hk.symm.trans kind
    intro i m hcode hrep
    obtain ⟨m₁, hreach, hrep₁⟩ := hset.test_passes tested htyped test hs heval hrep hcode
      fun x y hholds => by rw [Condition.holds_negate, hholds]; rfl
    have hback := hcode.right.tail
    obtain ⟨y, hreach', hends⟩ := hpart (emits_forM_singleton.2 first)
      (hlabelled.claims (test.claims hset.disciplined tested htyped)) _ m₁ hback.left hrep₁
    -- behind the part, a jump leads over the other one
    have hlast := hback.right.tail.tail.behind
    obtain ⟨y', hreach'', hends'⟩ := ends_go hreach' hends fun m =>
      (Reaches.jmp hback.behind hlast).trans (Reaches.label hlast)
    refine ⟨y', hreach.trans hreach'', ?_⟩
    simpa [Nat.add_assoc, Nat.add_comm, Nat.add_left_comm] using hends'
  | block kind | declare kind | assign kind | callStatement kind | never kind | forever kind
  | loop kind | ret kind | empty kind => cases hk.symm.trans kind

/-- A condition that does not hold leads to the second part, if there is one. -/
theorem Setting.performs_onFalse (hset : Setting lower A f block)
    (hk : A.context.arena.kind id = .ok (.branch condition onTrue onFalse))
    (htyped : A.context.arena.Typed A.unit A.context.table A.context.info condition .bool)
    (hfirst : A.context.arena.Checked A.unit A.context.table A.context.info ret onTrue)
    (h : StatementShape lower A.context (Lowering.statement lower depth) id s code s')
    (hs : A.Claimed s) (heval : A.scene.Evaluates σ condition (.bool false) σ₁)
    (hpart : ∀ {t t' code},
      Emits (onFalse.toList.forM (Lowering.statement lower depth)) A.context t () code t' →
      A.Claimed t → A.Performs block σ₁ code c σ') : A.Performs block σ code c σ' := by
  have hlabelled : A.Claimed s.labelled := hs
  cases h with
  | taken kind literal part =>
    cases hk.symm.trans kind
    obtain ⟨htrue, -⟩ := heval.computes literal
    cases htrue
  | passed kind literal part =>
    cases hk.symm.trans kind
    obtain ⟨-, rfl⟩ := heval.computes literal
    exact hpart part hs
  | @choice _ _ k outcome front back t _ kind tested test first =>
    cases hk.symm.trans kind
    intro i m hcode hrep
    have hback := hcode.right.tail
    obtain ⟨m₁, hreach, hrep₁⟩ := hset.test_jumps tested htyped test hs heval hrep hcode
      (fun x y hholds => by rw [Condition.holds_negate, hholds]; rfl) hback.behind
    obtain ⟨y, hreach', hends⟩ := hpart (emits_forM_nil.2 ⟨rfl, rfl⟩) hs _ m₁ List.nil_prefix hrep₁
    refine ⟨y, (hreach.trans (Reaches.label hback.behind)).trans hreach', ?_⟩
    simpa [Nat.add_assoc, Nat.add_comm 1] using hends
  | @alternative _ _ other k outcome front middle back t t' _ kind tested test first second =>
    cases hk.symm.trans kind
    intro i m hcode hrep
    have hback := hcode.right.tail
    have helse := hback.right.tail
    obtain ⟨m₁, hreach, hrep₁⟩ := hset.test_jumps tested htyped test hs heval hrep hcode
      (fun x y hholds => by rw [Condition.holds_negate, hholds]; rfl) helse.head
    have ht := (hlabelled.claims (test.claims hset.disciplined tested htyped)).balanced
      (balanced_statement hset.activation.lowers.program hset.disciplined hfirst first)
    obtain ⟨y, hreach', hends⟩ :=
      hpart (emits_forM_singleton.2 second) ht _ m₁ helse.tail.left hrep₁
    obtain ⟨y', hreach'', hends'⟩ := ends_go hreach' hends fun m => .label helse.tail.behind
    refine ⟨y', (hreach.trans (Reaches.label helse.head)).trans hreach'', ?_⟩
    simpa [Nat.add_assoc, Nat.add_comm, Nat.add_left_comm] using hends'
  | block kind | declare kind | assign kind | callStatement kind | never kind | forever kind
  | loop kind | ret kind | empty kind => cases hk.symm.trans kind

/-- A loop whose condition holds gets to its body, and behind the body it goes on as from its
beginning. -/
theorem Setting.loop_round (hset : Setting lower A f block)
    (hk : A.context.arena.kind id = .ok (.loop condition body))
    (htyped : A.context.arena.Typed A.unit A.context.table A.context.info condition .bool)
    (hbody : A.context.arena.Checked A.unit A.context.table A.context.info ret body)
    (h : StatementShape lower A.context (Lowering.statement lower depth) id s code s')
    (hs : A.Claimed s) (heval : A.scene.Evaluates σ condition (.bool true) σ₁)
    (hcode : CodeAt block i code) (hrep : A.Represents σ m) :
    ∃ j part t t' m₁, CodeAt block j part ∧
      Emits ([body].forM (Lowering.statement lower depth)) A.context t () part t' ∧ A.Claimed t ∧
      Reaches A.env block (i, m) (j, m₁) ∧ A.Represents σ₁ m₁ ∧
      ∀ m₂ y σ' c, Reaches A.env block (i, m₂) y → A.Ends block (i + code.length) σ' c y →
        Reaches A.env block (j + part.length, m₂) y := by
  cases h with
  | never kind literal =>
    cases hk.symm.trans kind
    obtain ⟨hfalse, -⟩ := heval.computes literal
    cases hfalse
  | @forever _ _ back _ kind literal part =>
    cases hk.symm.trans kind
    obtain ⟨-, rfl⟩ := heval.computes literal
    refine ⟨i + 1, back, _, _, m, hcode.tail.left, emits_forM_singleton.2 part, hs,
      .label hcode.head, hrep, fun m₂ y _ _ hagain _ => ?_⟩
    exact (Reaches.jmp hcode.tail.behind hcode.head).trans hagain
  | @loop _ _ k outcome first second t _ kind tested part test =>
    cases hk.symm.trans kind
    have hparts := hcode.tail.tail
    have hlabelled : A.Claimed s.labelled.labelled := hs
    have ht := hlabelled.balanced
      (balanced_statement hset.activation.lowers.program hset.disciplined hbody part)
    have hstart : ∀ m, Reaches A.env block (i, m) (i + 1 + 1 + first.length, m) :=
      fun m => .jmp hcode.head hparts.behind
    obtain ⟨m₁, hreach, hrep₁⟩ := hset.test_jumps tested htyped test ht heval hrep hparts.right.tail
      (fun _ _ hholds => hholds) hcode.tail.head
    refine ⟨i + 1 + 1, first, _, _, m₁, hparts.left, emits_forM_singleton.2 part, hs,
      (((hstart m).trans (Reaches.label hparts.behind)).trans hreach).trans
        (Reaches.label hcode.tail.head), hrep₁,
      fun m₂ y σ' c hagain hends => ?_⟩
    -- the way from the beginning starts with a jump to the condition
    exact hagain.of_jmp hset.labels hcode.head hparts.behind
      (hends.ne_of_jmp (by simp) hcode.head)
  | block kind | declare kind | assign kind | callStatement kind | taken kind | passed kind
  | choice kind | alternative kind | ret kind | empty kind => cases hk.symm.trans kind

/-- A loop whose condition does not hold is left behind. -/
theorem Setting.performs_loopEnd (hset : Setting lower A f block)
    (hk : A.context.arena.kind id = .ok (.loop condition body))
    (htyped : A.context.arena.Typed A.unit A.context.table A.context.info condition .bool)
    (hbody : A.context.arena.Checked A.unit A.context.table A.context.info ret body)
    (h : StatementShape lower A.context (Lowering.statement lower depth) id s code s')
    (hs : A.Claimed s) (heval : A.scene.Evaluates σ condition (.bool false) σ') :
    A.Performs block σ code .normal σ' := by
  cases h with
  | never kind literal =>
    cases hk.symm.trans kind
    obtain ⟨-, rfl⟩ := heval.computes literal
    exact .nil
  | forever kind literal part =>
    cases hk.symm.trans kind
    obtain ⟨htrue, -⟩ := heval.computes literal
    cases htrue
  | @loop _ _ k outcome first second t _ kind tested part test =>
    cases hk.symm.trans kind
    intro i m hcode hrep
    have hparts := hcode.tail.tail
    have hlabelled : A.Claimed s.labelled.labelled := hs
    have ht := hlabelled.balanced
      (balanced_statement hset.activation.lowers.program hset.disciplined hbody part)
    obtain ⟨m₁, hreach, hrep₁⟩ := hset.test_passes tested htyped test ht heval hrep
      hparts.right.tail
      fun _ _ hholds => hholds
    refine ⟨_, ((Reaches.jmp hcode.head hparts.behind).trans (Reaches.label hparts.behind)).trans
      hreach, ?_, hrep₁⟩
    simp [Nat.add_comm, Nat.add_left_comm]
  | block kind | declare kind | assign kind | callStatement kind | taken kind | passed kind
  | choice kind | alternative kind | ret kind | empty kind => cases hk.symm.trans kind

/-- A `return` leaves the function. -/
theorem Setting.performs_ret (hset : Setting lower A f block) {value : Option NodeId}
    {returned : Option Value} (hk : A.context.arena.kind id = .ok (.ret value))
    (hin : A.context.InBody f id)
    (htyped : ∀ v ∈ value, A.context.arena.Typed A.unit A.context.table A.context.info v ret)
    (h : StatementShape lower A.context (Lowering.statement lower depth) id s code s')
    (hs : A.Claimed s)
    (heval : value = none ∧ returned = none ∧ σ' = σ ∨
      ∃ v w, value = some v ∧ returned = some w ∧ A.scene.Evaluates σ v w σ') :
    A.Performs block σ code (.returned returned) σ' := by
  cases h with
  | ret kind shape =>
    cases hk.symm.trans kind
    obtain ⟨hreturned, hleaves⟩ := shape
    intro i m hcode hrep
    cases hreturned with
    | none => exact hset.leaves htyped hleaves hs heval hcode hrep
    | value => exact hset.leaves htyped hleaves hs heval hcode hrep
    | @void v _ _ type called =>
      -- a void call has no value
      obtain ⟨hnone, -⟩ | ⟨_, w, hsome, rfl, hw⟩ := heval
      · cases hnone
      · cases hsome
        have hvoid := htyped v rfl
        cases type.symm.trans hvoid.noted
        obtain ⟨name, args, hcall⟩ := call_of_void hset.activation.lowers
          (hin.child hk (by simp [NodeKind.children])) hvoid
        exact (hw.computes hcall).elim
  | block kind | declare kind | assign kind | callStatement kind | taken kind | passed kind
  | choice kind | alternative kind | never kind | forever kind | loop kind | empty kind =>
    cases hk.symm.trans kind

/-- The code of statements does to a store what the statements do. -/
theorem Setting.performs (hset : Setting lower A f block) (h : A.scene.Executes σ ids c σ')
    (hchecked : ∀ x ∈ ids, A.context.arena.Checked A.unit A.context.table A.context.info ret x)
    (hin : ∀ x ∈ ids, A.context.InBody f x)
    (hemits : Emits (ids.forM (Lowering.statement lower depth)) A.context s () code s')
    (hs : A.Claimed s) : A.Performs block σ code c σ' := by
  have hprogram := hset.activation.lowers.program
  induction h generalizing depth s s' code with
  | nil =>
    obtain ⟨rfl, -⟩ := emits_forM_nil.1 hemits
    exact .nil
  | next first others ihfirst ihothers =>
    obtain ⟨code₁, t, code₂, hfirst, hothers, rfl⟩ := emits_forM_cons.1 hemits
    have ht := hs.balanced (balanced_statement hprogram hset.disciplined
      (hchecked _ (by simp)) hfirst)
    refine (ihfirst (by simpa using hchecked _ (by simp)) (by simpa using hin _ (by simp))
      (emits_forM_singleton.2 hfirst) hs).append ?_
    exact ihothers (fun x hx => hchecked x (by simp [hx])) (fun x hx => hin x (by simp [hx]))
      hothers ht
  | leave first ihfirst =>
    obtain ⟨code₁, t, code₂, hfirst, -, rfl⟩ := emits_forM_cons.1 hemits
    exact (ihfirst (by simpa using hchecked _ (by simp)) (by simpa using hin _ (by simp))
      (emits_forM_singleton.2 hfirst) hs).leave
  | empty kind =>
    obtain ⟨d, hshape⟩ := exists_shape (hchecked _ (by simp)) hemits
    cases hshape with
    | empty => exact .nil
    | block kind' | declare kind' | assign kind' | callStatement kind' | taken kind' | passed kind'
    | choice kind' | alternative kind' | never kind' | forever kind' | loop kind' | ret kind' =>
      cases kind.symm.trans kind'
  | block kind parts ihparts =>
    have hstatement := hchecked _ (List.mem_singleton_self _)
    obtain ⟨d, hshape⟩ := exists_shape hstatement hemits
    cases hshape with
    | block kind' parts =>
      cases kind.symm.trans kind'
      exact ihparts (hstatement.block_parts kind)
        (fun x hx => (hin _ (List.mem_singleton_self _)).child kind hx) parts hs
    | empty kind' | declare kind' | assign kind' | callStatement kind' | taken kind' | passed kind'
    | choice kind' | alternative kind' | never kind' | forever kind' | loop kind' | ret kind' =>
      cases kind.symm.trans kind'
  | declare kind declaration =>
    obtain ⟨d, hshape⟩ := exists_shape (hchecked _ (by simp)) hemits
    cases hshape with
    | declare kind' cleared =>
      cases kind.symm.trans kind'
      obtain ⟨δ, N, hslot, hN⟩ := hset.activation.lowers.slot_of_local (hin _ (by simp)) kind
        declaration
      refine .of_runs fun m hrep => ?_
      obtain ⟨m', hrun, hrep', -⟩ :=
        hrep.declareLocal hset.activation hset.fields hslot hN cleared
      exact ⟨m', hrun, hrep'⟩
    | empty kind' | block kind' | assign kind' | callStatement kind' | taken kind' | passed kind'
    | choice kind' | alternative kind' | never kind' | forever kind' | loop kind' | ret kind' =>
      cases kind.symm.trans kind'
  | assign kind type scalar evaluated place =>
    have hstatement := hchecked _ (List.mem_singleton_self _)
    obtain ⟨d, hshape⟩ := exists_shape hstatement hemits
    cases hshape with
    | assign kind' shape =>
      cases kind.symm.trans kind'
      obtain ⟨ty, htarget, hvalue⟩ := hstatement.assign_parts kind
      cases type.symm.trans htarget.noted
      exact .of_runs fun m hrep => shape.correct hset.activation hset.correct hset.disciplined
        htarget hvalue scalar hs evaluated place hrep
    | empty kind' | block kind' | declare kind' | callStatement kind' | taken kind' | passed kind'
    | choice kind' | alternative kind' | never kind' | forever kind' | loop kind' | ret kind' =>
      cases kind.symm.trans kind'
  | assignRecord kind type stored place =>
    have hstatement := hchecked _ (List.mem_singleton_self _)
    obtain ⟨d, hshape⟩ := exists_shape hstatement hemits
    cases hshape with
    | assign kind' shape =>
      cases kind.symm.trans kind'
      obtain ⟨ty, htarget, hvalue⟩ := hstatement.assign_parts kind
      cases type.symm.trans htarget.noted
      exact .of_runs fun m hrep => shape.correct_record hset.activation hset.fields hset.correct
        hset.disciplined htarget hvalue hs stored place hrep
    | empty kind' | block kind' | declare kind' | callStatement kind' | taken kind' | passed kind'
    | choice kind' | alternative kind' | never kind' | forever kind' | loop kind' | ret kind' =>
      cases kind.symm.trans kind'
  | onTrue kind test part ihpart =>
    have hstatement := hchecked _ (List.mem_singleton_self _)
    obtain ⟨htyped, hfirst, -⟩ := hstatement.branch_parts kind
    obtain ⟨d, hshape⟩ := exists_shape hstatement hemits
    refine hset.performs_onTrue kind htyped hshape hs test fun hpart ht => ihpart ?_ ?_ hpart ht
    · simpa using hfirst
    · simpa using (hin _ (List.mem_singleton_self _)).child kind (by simp [NodeKind.children])
  | onFalse kind test part ihpart =>
    have hstatement := hchecked _ (List.mem_singleton_self _)
    obtain ⟨htyped, hfirst, hsecond⟩ := hstatement.branch_parts kind
    obtain ⟨d, hshape⟩ := exists_shape hstatement hemits
    refine hset.performs_onFalse kind htyped hfirst hshape hs test fun hpart ht =>
      ihpart (fun x hx => hsecond x (by simpa using hx)) (fun x hx => ?_) hpart ht
    exact (hin _ (List.mem_singleton_self _)).child kind (by simp_all [NodeKind.children])
  | loopEnd kind test =>
    have hstatement := hchecked _ (List.mem_singleton_self _)
    obtain ⟨htyped, hbody⟩ := hstatement.loop_parts kind
    obtain ⟨d, hshape⟩ := exists_shape hstatement hemits
    exact hset.performs_loopEnd kind htyped hbody hshape hs test
  | loopNext kind test part again ihpart ihagain =>
    have hstatement := hchecked _ (List.mem_singleton_self _)
    obtain ⟨htyped, hbody⟩ := hstatement.loop_parts kind
    obtain ⟨d, hshape⟩ := exists_shape hstatement hemits
    intro i m hcode hrep
    obtain ⟨j, back, t, t', m₁, hback, hpart, ht, hreach, hrep₁, hon⟩ :=
      hset.loop_round kind htyped hbody hshape hs test hcode hrep
    obtain ⟨⟨j', m₂⟩, hreach', hj, hrep₂⟩ := ihpart (by simpa using hbody)
      (by simpa using (hin _ (List.mem_singleton_self _)).child kind (by simp [NodeKind.children]))
      hpart ht _ m₁ hback hrep₁
    cases hj
    obtain ⟨y, hagain, hends⟩ := ihagain hchecked hin hemits hs i m₂ hcode hrep₂
    exact ⟨y, (hreach.trans hreach').trans (hon m₂ y _ _ hagain hends), hends⟩
  | loopLeave kind test part ihpart =>
    have hstatement := hchecked _ (List.mem_singleton_self _)
    obtain ⟨htyped, hbody⟩ := hstatement.loop_parts kind
    obtain ⟨d, hshape⟩ := exists_shape hstatement hemits
    intro i m hcode hrep
    obtain ⟨j, back, t, t', m₁, hback, hpart, ht, hreach, hrep₁, -⟩ :=
      hset.loop_round kind htyped hbody hshape hs test hcode hrep
    obtain ⟨y, hreach', hends⟩ := ihpart (by simpa using hbody)
      (by simpa using (hin _ (List.mem_singleton_self _)).child kind (by simp [NodeKind.children]))
      hpart ht _ m₁ hback hrep₁
    exact ⟨y, hreach.trans hreach', hends⟩
  | ret kind =>
    have hstatement := hchecked _ (List.mem_singleton_self _)
    obtain ⟨d, hshape⟩ := exists_shape hstatement hemits
    exact hset.performs_ret kind (hin _ (by simp)) (hstatement.ret_part kind) hshape hs
      (.inl ⟨rfl, rfl, rfl⟩)
  | retValue kind evaluated =>
    have hstatement := hchecked _ (List.mem_singleton_self _)
    obtain ⟨d, hshape⟩ := exists_shape hstatement hemits
    exact hset.performs_ret kind (hin _ (by simp)) (hstatement.ret_part kind) hshape hs
      (.inr ⟨_, _, rfl, rfl, evaluated⟩)

end

end Lowering

end MiniJ
