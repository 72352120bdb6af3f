import MiniJ.Proofs.Lowering.Call
import Mathlib.Algebra.Order.Ring.Int

/-!
# Parameters in registers

A parameter that stays in its register changes only by `++` and `--`. While the arguments of a call
are computed it changes by what they count up and down outside of calls; behind the call it has the
value again that it had before, so that the call takes back every change.

## Main definitions

* `Gen.Context.drift` — how much the code of an expression counts a variable up.

## Main statements

* `Lowering.drifts_atDepth` — the register of a parameter follows the drift.
* `Lowering.update_lost` — a call takes back what its arguments changed.
-/
namespace MiniJ

/-- What an operator adds to its operand. -/
def UnaryOp.delta : UnaryOp → Int
  | preIncrement | postIncrement => 1
  | preDecrement | postDecrement => -1
  | minus | not => 0

namespace Gen.Context

/-- The declaration of the parameter or local that a node refers to. -/
def declarationOf (cx : Context) (id : NodeId) : Option NodeId :=
  match cx.arena.kind id, cx.info.resolvedEntry id with
  | .ok (.var _), some e =>
    match (cx.table.entry e).toOption.map Entry.meaning with
    | some (.var _ _ .global _) => none
    | some (.var _ _ _ d) => some d
    | _ => none
  | _, _ => none

/-- How much a node itself counts a variable up. -/
def change (cx : Context) (d : NodeId) : NodeKind → Int
  | .unary op operand => if cx.declarationOf operand = some d then op.delta else 0
  | _ => 0

/-- How much the nodes of an expression, nested at most `depth` deep, count a variable up; those in
the arguments of a call only if `inCalls` asks for them. -/
def drift (cx : Context) (d : NodeId) (inCalls : Bool) : Nat → NodeId → Int
  | 0, _ => 0
  | depth + 1, id =>
    match cx.arena.kind id with
    | .error _ => 0
    | .ok k =>
      if k.isCall && !inCalls then 0
      else cx.change d k + (k.children.map (cx.drift d inCalls depth)).sum

end Gen.Context

namespace Lowering

open Gen Machine

variable {lower : Lowering} {cx : Context} {u : UnitNode} {f : FunctionNode} {env : Environment}
  {bottom : Word} {s s' t : State} {code : List Line} {id d : NodeId} {ty : Ty} {m m' : Machine}
  {r : Register} {depth : Nat}

/-- The register of a parameter follows the drift of the code that runs. -/
structure Drifts (lower : Lowering) (cx : Context) (u : UnitNode) (f : FunctionNode)
    (env : Environment) (bottom : Word) (d : NodeId) (r : Register) (depth : Nat) : Prop where
  expression : ∀ {id ty s q code s' m m'}, cx.arena.Typed u cx.table cx.info id ty →
    Emits (lower.expression id) cx s q code s' → r ∈ s.registers.live → Ready cx f bottom m →
    Runs env (Spares env bottom) code m m' →
    m'.regs r = m.regs r + BitVec.ofInt 64 (cx.drift d false depth id)
  place : ∀ {id ty s p code s' m m'}, cx.arena.Typed u cx.table cx.info id ty →
    Emits (lower.place id) cx s p code s' → r ∈ s.registers.live → Ready cx f bottom m →
    Runs env (Spares env bottom) code m m' →
    m'.regs r = m.regs r + BitVec.ofInt 64 (cx.drift d false depth id)

theorem drift_of_kind {k : NodeKind} (hk : cx.arena.kind id = .ok k) (hcall : k.isCall = false) :
    cx.drift d false (depth + 1) id =
      cx.change d k + (k.children.map (cx.drift d false depth)).sum := by
  simp [Context.drift, hk, hcall]

theorem drift_of_call {k : NodeKind} (hk : cx.arena.kind id = .ok k) (hcall : k.isCall = true) :
    cx.drift d false (depth + 1) id = 0 := by
  simp [Context.drift, hk, hcall]

/-! ### Places -/

theorem declarationOf_framed {name : String} {e : EntryId} {x : Entry} {ref : Bool}
    {cls : VariableClass} (hk : cx.arena.kind id = .ok (.var name))
    (hresolved : cx.info.resolvedEntry id = some e) (hentry : cx.table.entry e = .ok x)
    (hmeaning : x.meaning = .var ty ref cls d) (hcls : cls ≠ .global) :
    cx.declarationOf id = some d := by
  cases cls <;> simp_all [Context.declarationOf, Except.toOption]

theorem declarationOf_global {name : String} {e : EntryId} {x : Entry} {ref : Bool}
    (hk : cx.arena.kind id = .ok (.var name)) (hresolved : cx.info.resolvedEntry id = some e)
    (hentry : cx.table.entry e = .ok x) (hmeaning : x.meaning = .var ty ref .global d) :
    cx.declarationOf id = none := by
  simp_all [Context.declarationOf, Except.toOption]

theorem declarationOf_of_ne_var {k : NodeKind} (hk : cx.arena.kind id = .ok k)
    (hvar : ∀ name, k ≠ .var name) : cx.declarationOf id = none := by
  unfold Context.declarationOf
  rw [hk]
  split
  · next heq _ => exact absurd (Except.ok.inj heq) (hvar _)
  · rfl

/-- Whether a place is in a register is decided by the storage of its variable. -/
inductive Settled (cx : Context) (id : NodeId) : Location → Prop
  | register {q : Register} {d : NodeId} {ty : Ty} (declaration : cx.declarationOf id = some d)
      (slot : cx.frame.slot? d = some ⟨.register q, ty, false⟩) : Settled cx id (.register q)
  | memory {a : Address} (elsewhere : ∀ d q ty, cx.declarationOf id = some d →
      cx.frame.slot? d ≠ some ⟨.register q, ty, false⟩) : Settled cx id (.memory a)

/-- A variable of the function with its storage. -/
theorem stored_cases {name : String} {slot : Slot} (hk : cx.arena.kind id = .ok (.var name))
    (h : Stored cx id slot) : (∃ x, slot.storage = .global x ∧ cx.declarationOf id = none) ∨
      ∃ d, cx.declarationOf id = some d ∧ cx.frame.slot? d = some slot := by
  cases h with
  | global resolved entry meaning =>
    exact .inl ⟨_, rfl, declarationOf_global hk resolved entry meaning⟩
  | framed resolved entry meaning inner found =>
    exact .inr ⟨_, declarationOf_framed hk resolved entry meaning inner, found⟩

theorem PlaceShape.settled {p : Place} (h : PlaceShape lower cx id s p code s') :
    Settled cx id p.location := by
  -- a variable whose storage is no plain register
  have hmemory : ∀ {slot name a}, cx.arena.kind id = .ok (.var name) → Stored cx id slot →
      (∀ q ty, slot ≠ ⟨.register q, ty, false⟩) → Settled cx id (.memory a) := by
    intro slot name a hk hstored hslot
    refine .memory fun d q ty hd hfound => ?_
    rcases stored_cases hk hstored with ⟨-, -, hnone⟩ | ⟨d', hd', hslot'⟩
    · cases hd.symm.trans hnone
    · cases hd.symm.trans hd'
      exact hslot q ty (Option.some.inj (hslot'.symm.trans hfound))
  cases h with
  | global kind stored => exact hmemory kind stored (by simp)
  | register kind stored =>
    rcases stored_cases kind stored with ⟨x, hglobal, -⟩ | ⟨d, hd, hslot⟩
    · cases hglobal
    · exact .register hd hslot
  | registerReference kind stored => exact hmemory kind stored (by simp)
  | frame kind stored => exact hmemory kind stored (by simp)
  | frameReference kind stored => exact hmemory kind stored (by simp)
  | field kind =>
    refine .memory fun d q ty hd => ?_
    rw [declarationOf_of_ne_var kind (by simp)] at hd
    cases hd
  | element kind =>
    refine .memory fun d q ty hd => ?_
    rw [declarationOf_of_ne_var kind (by simp)] at hd
    cases hd

theorem settled_atDepth {p : Place} (h : Emits ((atDepth depth).place id) cx s p code s') :
    Settled cx id p.location := by
  cases depth with
  | zero => exact (emits_fail.1 h).elim
  | succ depth => exact (placeShape h).settled

/-! ### One level -/

variable {guard : Mnemonic → List Operand → Machine → Prop} {line : Line}

theorem Loads.regs_of_ne {target : Register} {location : Location}
    (h : Loads cx ty target location line) (hr : r ≠ target) (hrun : Runs env guard [line] m m') :
    m'.regs r = m.regs r := by
  cases h with
  | register source => exact regs_move hr hrun
  | @memory address n size =>
    cases hwidth : Width.ofSize n <;> rw [hwidth] at hrun <;>
      exact regs_line (by decide) (by simpa [written, Operand.sized] using hr) hrun

theorem Stores.regs_of_ne {value : Register} {location : Location}
    (h : Stores cx ty value location line) (hr : location ≠ .register r)
    (hrun : Runs env guard [line] m m') : m'.regs r = m.regs r := by
  cases h with
  | register target =>
    refine regs_move ?_ hrun
    rintro rfl
    exact hr rfl
  | memory address size => exact regs_line (by decide) (by simp [written]) hrun

theorem regs_moved {target source : Register} (hrun : Runs env guard [.move target source] m m') :
    m'.regs target = m.regs source := by
  obtain ⟨m₁, -, hexec, hdone⟩ := (runs_cons (by decide)).1 hrun
  obtain rfl := runs_nil.1 hdone
  cases hexec
  exact regs_set_self _ _ _

/-- A step adds what its operator says. -/
theorem regs_changed {op : UnaryOp} (hop : op.isStep = true) (hr : r ≠ .rsp)
    (hrun : Runs env guard [.instruction (change op) [.reg r, .imm 1]] m m') :
    m'.regs r = m.regs r + BitVec.ofInt 64 op.delta ∧ ∀ q, q ≠ r → m'.regs q = m.regs q := by
  have hcall : change op ≠ .call := by cases op <;> decide
  obtain ⟨m₁, -, hexec, hdone⟩ := (runs_cons hcall).1 hrun
  obtain rfl := runs_nil.1 hdone
  have hone : m.argument (.imm 1) = some 1#64 := rfl
  refine ⟨?_, fun q hq => exec_regs hexec (by cases op <;> simpa [change, written] using hq)⟩
  cases op with
  | minus | not => cases hop
  | preIncrement | postIncrement =>
    obtain ⟨w, hw, rfl⟩ := combine_eq_some hexec
    cases hone.symm.trans hw
    simp [UnaryOp.delta]
  | preDecrement | postDecrement =>
    obtain ⟨w, hw, rfl⟩ := combine_eq_some ((exec_sub hr).symm.trans hexec)
    cases hone.symm.trans hw
    simp only [regs_clear, regs_set_self, UnaryOp.delta]
    bv_omega

/-- The register of a parameter is the place of this parameter only. -/
theorem Settled.register_iff {location : Location} (hlowers : cx.Lowers u f)
    (hslot : cx.frame.slot? d = some ⟨.register r, ty, false⟩) (h : Settled cx id location) :
    location = .register r ↔ cx.declarationOf id = some d := by
  obtain ⟨taken, -, hsound, -⟩ := hlowers.frame_sound
  cases h with
  | @register q d' ty' declaration slot =>
    rw [declaration]
    constructor
    · intro heq
      cases heq
      by_cases hd : d' = d
      · rw [hd]
      · exact absurd rfl (hsound.register_ne slot hslot hd rfl)
    · intro heq
      cases heq
      cases slot.symm.trans hslot
      rfl
  | memory elsewhere => exact ⟨nofun, fun hd => absurd hslot (elsewhere d r ty hd)⟩

theorem PlaceShape.drifts {p : Place} (hlower : Known lower cx u f env bottom)
    (hdrifts : Drifts lower cx u f env bottom d r depth)
    (htyped : cx.arena.Typed u cx.table cx.info id ty) (h : PlaceShape lower cx id s p code s')
    (hlive : r ∈ s.registers.live) (hready : Ready cx f bottom m)
    (hrun : Runs env (Spares env bottom) code m m') :
    m'.regs r = m.regs r + BitVec.ofInt 64 (cx.drift d false (depth + 1) id) := by
  cases h with
  | global kind | register kind | registerReference kind | frame kind =>
    obtain rfl := runs_nil.1 hrun
    simp [drift_of_kind kind rfl, Context.change, NodeKind.children]
  | frameReference kind stored claimed =>
    have hr := claimed.ne_of_live (.head _) hlive
    rw [regs_line (by decide) (by simpa [written] using hr) hrun]
    simp [drift_of_kind kind rfl, Context.change, NodeKind.children]
  | field kind type field outer =>
    obtain ⟨_, hbase⟩ := htyped.child kind (.head _)
    rw [hdrifts.place hbase outer hlive hready hrun]
    simp [drift_of_kind kind rfl, Context.change, NodeKind.children]
  | element kind type size array position released =>
    obtain ⟨_, hbase⟩ := htyped.child kind (.head _)
    obtain ⟨_, hindex⟩ := htyped.child kind (.tail _ (.head _))
    obtain ⟨m₁, hrun₁, hrest⟩ := runs_append.1 hrun
    obtain ⟨m₂, hrun₂, hrest⟩ := runs_append.1 hrest
    obtain ⟨m₃, hmul, hadd⟩ := runs_line.1 hrest
    have hclaims := hlower.disciplined.expression hbase array
    have hclaims' := hlower.disciplined.expression hindex position
    have hkept := hlower.keeps.expression hbase array hready hrun₁
    have hpointer := hclaims.ne_of_live (.head _) hlive
    have hoffset := hclaims'.ne_of_live (.head _) (hclaims.mono hlive)
    rw [regs_line (by decide) (by simpa [written] using hpointer) hadd,
      regs_line (by decide) (by simpa [written] using hoffset) hmul,
      hdrifts.expression hindex position (hclaims.mono hlive) (hready.kept hkept) hrun₂,
      hdrifts.expression hbase array hlive hready hrun₁, BitVec.add_assoc, ← BitVec.ofInt_add]
    simp [drift_of_kind kind rfl, Context.change, NodeKind.children]

theorem StepShape.drifts {op : UnaryOp} {operand : NodeId} {value : Register}
    (hlowers : cx.Lowers u f) (hsettled : ∀ {s p code s'},
      Emits (lower.place operand) cx s p code s' → Settled cx operand p.location)
    (hlower : Known lower cx u f env bottom) (hdrifts : Drifts lower cx u f env bottom d r depth)
    (hslot : cx.frame.slot? d = some ⟨.register r, ty, false⟩) {ty' : Ty}
    (htyped : cx.arena.Typed u cx.table cx.info operand ty') (hop : op.isStep = true)
    (h : StepShape lower cx op operand s value code s') (hlive : r ∈ s.registers.live)
    (hready : Ready cx f bottom m) (hrun : Runs env (Spares env bottom) code m m') :
    m'.regs r = m.regs r + BitVec.ofInt 64
      (cx.change d (.unary op operand) + cx.drift d false depth operand) := by
  have hchange : cx.change d (.unary op operand) =
      if cx.declarationOf operand = some d then op.delta else 0 := rfl
  -- the drift of the operand is in `m₁`; what is stored is compared with it
  have hfinish : ∀ {p : Place} {m₁ : Machine}, Settled cx operand p.location →
      m₁.regs r = m.regs r + BitVec.ofInt 64 (cx.drift d false depth operand) →
      (p.location = .register r → m'.regs r = m₁.regs r + BitVec.ofInt 64 op.delta) →
      (p.location ≠ .register r → m'.regs r = m₁.regs r) →
      m'.regs r = m.regs r + BitVec.ofInt 64
        (cx.change d (.unary op operand) + cx.drift d false depth operand) := by
    intro p m₁ hp hm₁ hsame hother
    rw [hchange]
    by_cases hlocation : p.location = .register r
    · rw [if_pos ((hp.register_iff hlowers hslot).1 hlocation), hsame hlocation, hm₁,
        BitVec.ofInt_add, BitVec.add_assoc, BitVec.add_comm (BitVec.ofInt 64 op.delta)]
    · rw [if_neg fun hd => hlocation ((hp.register_iff hlowers hslot).2 hd), hother hlocation, hm₁,
        Int.zero_add]
  cases h with
  | @before _ p c t _ load store order reads stores released =>
    obtain ⟨-, ⟨v, hplace, hvalue⟩, hload⟩ := reads
    obtain ⟨m₁, hrun₁, hrest⟩ := runs_append.1 hrun
    obtain ⟨m₂, hrun₂, hrest⟩ := runs_line.1 hrest
    obtain ⟨m₃, hrun₃, hrun₄⟩ := runs_line.1 hrest
    have hclaims := hlower.disciplined.place htyped hplace
    have hne : r ≠ value := hvalue.ne_of_live (.head _) (hclaims.mono hlive)
    have hrsp := Register.ne_rsp_of_tracked hvalue.tracked
    obtain ⟨hadded, hkeeps⟩ := regs_changed hop hrsp hrun₃
    refine hfinish (hsettled hplace) (hdrifts.place htyped hplace hlive hready hrun₁) ?_ ?_
    · intro hlocation
      rw [hlocation] at hload stores
      cases hload
      cases stores
      rw [regs_moved hrun₄, hadded, regs_moved hrun₂]
    · intro hlocation
      rw [stores.regs_of_ne hlocation hrun₄, hkeeps r hne, hload.regs_of_ne hne hrun₂]
  | @after _ p c t t₁ t₂ _ load store updated order reads claimed stores dropped released =>
    obtain ⟨-, ⟨v, hplace, hvalue⟩, hload⟩ := reads
    obtain ⟨m₁, hrun₁, hrest⟩ := runs_append.1 hrun
    obtain ⟨m₂, hrun₂, hrest⟩ := runs_line.1 hrest
    obtain ⟨m₃, hrun₃, hrest⟩ := runs_line.1 hrest
    obtain ⟨m₄, hrun₄, hrun₅⟩ := runs_line.1 hrest
    have hclaims := hlower.disciplined.place htyped hplace
    have hlive' := hclaims.mono hlive
    have hne : r ≠ value := hvalue.ne_of_live (.head _) hlive'
    have hne' : r ≠ updated := claimed.ne_of_live (.head _) (hvalue.mono hlive')
    have hrsp := Register.ne_rsp_of_tracked claimed.tracked
    obtain ⟨hadded, hkeeps⟩ := regs_changed hop hrsp hrun₄
    refine hfinish (hsettled hplace) (hdrifts.place htyped hplace hlive hready hrun₁) ?_ ?_
    · intro hlocation
      rw [hlocation] at hload stores
      cases hload
      cases stores
      rw [regs_moved hrun₅, hadded, regs_moved hrun₃, regs_moved hrun₂]
    · intro hlocation
      rw [stores.regs_of_ne hlocation hrun₅, hkeeps r hne', regs_move hne' hrun₃,
        hload.regs_of_ne hne hrun₂]

theorem isLive_of_mem {q : Register} (h : q ∈ s.registers.live) : s.registers.isLive q = true := by
  simpa [RegisterFile.isLive] using h

/-- An operator changes none of the registers that were live before its operands. -/
theorem OperatorShape.regs_of_live {op : BinaryOp} {lhs rhs : Register}
    (h : OperatorShape op lhs rhs t code s') (hclaims : Claims [rhs, lhs] s t)
    (hlive : r ∈ s.registers.live) (hready : Ready cx f bottom m)
    (hrun : Runs env guard code m m') : m'.regs r = m.regs r := by
  have hlhs : r ≠ lhs := hclaims.ne_of_live (.tail _ (.head _)) hlive
  cases h with
  | @combine mnemonic _ operator released =>
    have hmnemonic : mnemonic ≠ .call ∧ written mnemonic [.reg lhs, .reg rhs] = [lhs] := by
      cases op <;> cases operator <;> exact ⟨by decide, rfl⟩
    exact regs_line hmnemonic.1 (by simpa [hmnemonic.2] using hlhs) hrun
  | compare operator released =>
    obtain ⟨m₁, hcmp, hrest⟩ := runs_line.1 hrun
    obtain ⟨m₂, hset, hextend⟩ := runs_line.1 hrest
    rw [regs_line (by decide) (by simpa [written] using hlhs) hextend,
      regs_line (by simp) (by simpa [written] using hlhs) hset,
      regs_line (by decide) (by simp [written]) hcmp]
  | @divide result divisor c t' _ operator cleared released =>
    obtain ⟨m₁, hclear, hdivide⟩ := runs_append.1 hrun
    have hlhs' : lhs ∈ Register.tracked :=
      Register.mem_tracked_of_scratch (hclaims.free lhs (.tail _ (.head _))).1
    have hlive' : r ∈ t'.registers.live := (cleared.claims hclaims).mono hlive
    have hkept : Kept bottom m m₁ := cleared.kept hclear
    have hregs : m₁.regs r = m.regs r := by
      cases cleared with
      | stays elsewhere => rw [runs_nil.1 hclear]
      | moved inRax claimed dropped =>
        exact regs_move (claimed.ne_of_live (.head _) (hclaims.mono hlive)) hclear
    obtain ⟨-, hkeeps⟩ := run_divide (hready.kept hkept).stack hlhs' hdivide
    rw [hkeeps r (live_tracked hlive) hlhs ?_ ?_, hregs]
    · rintro rfl
      simp [hlhs.symm, isLive_of_mem hlive']
    · rintro rfl
      exact isLive_of_mem hlive'

theorem ExpressionShape.drifts {value : Register} (hlowers : cx.Lowers u f)
    (hsettled : ∀ {id s p code s'},
      Emits (lower.place id) cx s p code s' → Settled cx id p.location)
    (hlower : Known lower cx u f env bottom) (hdrifts : Drifts lower cx u f env bottom d r depth)
    (hcallees : Conventional cx env bottom)
    (hslot : cx.frame.slot? d = some ⟨.register r, ty, false⟩) {ty' : Ty}
    (htyped : cx.arena.Typed u cx.table cx.info id ty')
    (h : ExpressionShape lower cx id s value code s') (hlive : r ∈ s.registers.live)
    (hready : Ready cx f bottom m) (hrun : Runs env (Spares env bottom) code m m') :
    m'.regs r = m.regs r + BitVec.ofInt 64 (cx.drift d false (depth + 1) id) := by
  have hvalue : r ≠ value :=
    (h.claims hlowers.program hlower.disciplined htyped).ne_of_live (.head _) hlive
  cases h with
  | constant kind claimed =>
    rw [regs_line (by decide) (by simpa [written] using hvalue) hrun]
    rcases kind with kind | ⟨b, kind, -⟩ <;>
      simp [drift_of_kind kind rfl, Context.change, NodeKind.children]
  | text kind claimed =>
    rw [regs_line (by decide) (by simpa [written] using hvalue) hrun]
    simp [drift_of_kind kind rfl, Context.change, NodeKind.children]
  | read kind place type scalar shape target load =>
    obtain ⟨m₁, hplace, hload⟩ := runs_append.1 hrun
    rw [load.regs_of_ne hvalue hload]
    exact shape.drifts hlower hdrifts htyped hlive hready hplace
  | sign kind part | invert kind part =>
    obtain ⟨_, hpart⟩ := htyped.child kind (.head _)
    obtain ⟨m₁, hfirst, hlast⟩ := runs_append.1 hrun
    rw [regs_line (by decide) (by simpa [written] using hvalue) hlast,
      hdrifts.expression hpart part hlive hready hfirst]
    simp [drift_of_kind kind rfl, Context.change, NodeKind.children, UnaryOp.delta]
  | step kind isStep shape =>
    obtain ⟨_, hpart⟩ := htyped.child kind (.head _)
    rw [shape.drifts hlowers hsettled hlower hdrifts hslot hpart isStep hlive hready hrun]
    simp [drift_of_kind kind rfl, NodeKind.children]
  | binary kind first second shape =>
    obtain ⟨_, hleft⟩ := htyped.child kind (.head _)
    obtain ⟨_, hright⟩ := htyped.child kind (.tail _ (.head _))
    obtain ⟨m₁, hrun₁, hrest⟩ := runs_append.1 hrun
    obtain ⟨m₂, hrun₂, hrun₃⟩ := runs_append.1 hrest
    have hclaims := hlower.disciplined.expression hleft first
    have hclaims' := hlower.disciplined.expression hright second
    have hready₁ := hready.kept (hlower.keeps.expression hleft first hready hrun₁)
    have hready₂ := hready₁.kept (hlower.keeps.expression hright second hready₁ hrun₂)
    rw [shape.regs_of_live (hclaims.trans hclaims') hlive hready₂ hrun₃,
      hdrifts.expression hright second (hclaims.mono hlive) hready₁ hrun₂,
      hdrifts.expression hleft first hlive hready hrun₁, BitVec.add_assoc, ← BitVec.ofInt_add]
    simp [drift_of_kind kind rfl, Context.change, NodeKind.children]
  | call kind shape =>
    have hclaims := shape.claims hlowers.program hlower.disciplined htyped kind
    obtain ⟨calls, arguments, -, -⟩ := shape
    obtain ⟨-, -, -, -, hkeeps, -⟩ := run_call hlowers hlower hcallees htyped kind calls arguments
      hclaims hready hrun
    rw [hkeeps r hlive]
    simp [drift_of_call kind rfl]

/-- The register of a parameter follows the drift of expressions and places of any depth. -/
theorem drifts_atDepth (hlowers : cx.Lowers u f) (hcallees : Conventional cx env bottom)
    (hslot : cx.frame.slot? d = some ⟨.register r, ty, false⟩) (depth : Nat) :
    Drifts (atDepth depth) cx u f env bottom d r depth := by
  induction depth with
  | zero => exact ⟨fun _ h => (emits_fail.1 h).elim, fun _ h => (emits_fail.1 h).elim⟩
  | succ depth ih =>
    have hknown := keepsStack_atDepth hlowers hcallees depth
    exact ⟨fun htyped h => (expressionShape h).drifts hlowers settled_atDepth hknown ih hcallees
        hslot htyped,
      fun htyped h => (placeShape h).drifts hknown ih htyped⟩

/-! ### Calls -/

theorem ArgumentShape.drifts {value : Register} {byAddress : Bool}
    (hlower : Known lower cx u f env bottom) (hdrifts : Drifts lower cx u f env bottom d r depth)
    (htyped : cx.arena.Typed u cx.table cx.info id ty)
    (h : ArgumentShape lower cx id s value byAddress code s') (hlive : r ∈ s.registers.live)
    (hready : Ready cx f bottom m) (hrun : Runs env (Spares env bottom) code m m') :
    m'.regs r = m.regs r + BitVec.ofInt 64 (cx.drift d false depth id) := by
  have hvalue : r ≠ value := (h.claims hlower.disciplined htyped).ne_of_live (.head _) hlive
  cases h with
  | value computed => exact hdrifts.expression htyped computed hlive hready hrun
  | address placed target =>
    obtain ⟨m₁, hplace, hlea⟩ := runs_append.1 hrun
    rw [regs_line (by decide) (by simpa [written] using hvalue) hlea]
    exact hdrifts.place htyped placed hlive hready hplace

/-- While arguments are computed, the register of a parameter follows what they count. -/
theorem ArgumentsShape.drifts {args : List (NodeId × Bool)} {m₀ : Machine} {ws : List Word}
    (hlower : Known lower cx u f env bottom) (hdrifts : Drifts lower cx u f env bottom d r depth)
    (htyped : ∀ p ∈ args, ∃ ty, cx.arena.Typed u cx.table cx.info p.1 ty)
    (h : ArgumentsShape lower cx s args code s') (hlive : r ∈ s.registers.live)
    (hready : Ready cx f bottom m₀) (hpushed : Pushed bottom m₀ ws m)
    (hrun : Runs env (Spares env bottom) code m m') :
    m'.regs r = m.regs r + BitVec.ofInt 64 (args.map fun p => cx.drift d false depth p.1).sum := by
  induction h generalizing ws m with
  | nil s =>
    obtain rfl := runs_nil.1 hrun
    simp
  | @cons arg byAddress rest value _ _ s t t' s' first released others ih =>
    obtain ⟨ty, hty⟩ := htyped _ (.head _)
    obtain ⟨m₁, hfirst, hrest⟩ := runs_append.1 hrun
    obtain ⟨m₂, hpush, hothers⟩ := runs_push_cons hrest
    have hready' := hready.pushed hpushed
    have hkept := first.kept hlower hty hready' hfirst
    have hlive' : r ∈ t'.registers.live :=
      (((first.claims hlower.disciplined hty).grown 1).releases (.head _) released).mono hlive
    rw [ih (fun p hp => htyped p (.tail _ hp)) hlive' ((hpushed.kept hkept).push hpush) hothers,
      regs_push hpush (Register.ne_rsp_of_tracked (live_tracked hlive)),
      first.drifts hlower hdrifts hty hlive hready' hfirst, BitVec.add_assoc, ← BitVec.ofInt_add,
      List.map_cons, List.sum_cons]

/-- How much the arguments of a call count a variable up; what is in the arguments of other calls
only if `inCalls` asks for it. -/
def countedBy (cx : Context) (d : NodeId) (inCalls : Bool) (args : List NodeId) : Int :=
  (args.map (cx.drift d inCalls cx.arena.depthLimit)).sum

/-- Counting up by a number changes a word unless the number is a multiple of the words there
are. -/
theorem self_eq_add_ofInt {w : Word} {n : Int} :
    w = w + BitVec.ofInt 64 n ↔ (18446744073709551616 : Int) ∣ n := by
  have hn : (BitVec.ofInt 64 n).toNat = _ := BitVec.toNat_ofInt n
  constructor
  · intro h
    have hzero : (BitVec.ofInt 64 n).toNat = 0 := by bv_omega
    omega
  · intro h
    have hzero : BitVec.ofInt 64 n = 0#64 := by
      apply BitVec.eq_of_toNat_eq
      rw [hn]
      simp only [BitVec.toNat_zero]
      omega
    rw [hzero, BitVec.add_zero]

/-- A call takes back what its arguments changed. When the argument registers are about to be
filled, the register of a parameter has followed the `++` and `--` of the arguments outside of other
calls; behind the call it has its old value again. So the updates survive exactly if all those in
the arguments, at any depth, cancel out. -/
theorem update_lost {name : String} {args : List NodeId} {result : Option Register}
    (haccepted : Accepted cx.arena cx.table cx.info) (hunit : cx.arena.unit? = some u)
    (hmember : ∃ d ∈ u.functions, cx.arena.kind d = .ok (.function f))
    (hframe : Frame.layout cx.arena cx.info cx.table f = .ok cx.frame)
    (hslot : cx.frame.slot? d = some ⟨.register r, ty, false⟩)
    (hbody : ∃ x ∈ f.body, cx.arena.Below x id) (hk : cx.arena.kind id = .ok (.call name args))
    (hlive : r ∈ s.registers.live)
    (hemits : Emits (callNode (ofArena cx.arena) id name args) cx s result code s')
    (hcallees : Conventional cx env bottom) (hready : Ready cx f bottom m)
    (hrun : Runs env (Spares env bottom) code m m') :
    (∃ callee front mₐ, Calls cx id args callee ∧
      code = front ++ ((Register.arguments.take args.length).map .pop ++
        .instruction .call [.label callee.label] :: afterCall s args.length result) ∧
      Runs env (Spares env bottom) front m mₐ ∧
      mₐ.regs r = m.regs r + BitVec.ofInt 64 (countedBy cx d false args)) ∧
    m'.regs r = m.regs r ∧
    (m'.regs r = m.regs r + BitVec.ofInt 64 (countedBy cx d true args) ↔
      (18446744073709551616 : Int) ∣ countedBy cx d true args) := by
  have hprogram := haccepted.checked_of_unit hunit
  have hlowers : cx.Lowers u f := ⟨hprogram, hmember, hframe⟩
  obtain ⟨x, hx, hbelow⟩ := hbody
  obtain ⟨ty', htyped⟩ := hlowers.typed hx hbelow hk rfl
  have hlower : Known (ofArena cx.arena) cx u f env bottom := keepsStack_atDepth hlowers hcallees _
  have hdrifts : Drifts (ofArena cx.arena) cx u f env bottom d r cx.arena.depthLimit :=
    drifts_atDepth hlowers hcallees hslot _
  have hshape := callShape hemits
  have hclaims := hshape.claims hprogram hlower.disciplined htyped hk
  obtain @⟨callee, argCode, t, t', _, calls, arguments, returns, claimed⟩ := hshape
  obtain ⟨-, -, -, -, hkeeps, -⟩ := run_call hlowers hlower hcallees htyped hk calls arguments
    hclaims hready hrun
  have hregs := hkeeps r hlive
  refine ⟨⟨callee, s.registers.live.map Line.push ++ (paddingCode (paddingOf s args.length) ++
    argCode), ?_⟩, hregs, by rw [hregs]; exact self_eq_add_ofInt⟩
  have hrsp := Register.ne_rsp_of_tracked (live_tracked hlive)
  obtain ⟨mc, hbefore, -⟩ := runs_append.1 hrun
  obtain ⟨m₁, hsave, hrest⟩ := runs_append.1 hbefore
  obtain ⟨m₂, hpad, hrest⟩ := runs_append.1 hrest
  obtain ⟨m₃, hargs, -⟩ := runs_append.1 hrest
  obtain ⟨hsaved, hregs₁⟩ := hready.refl_pushed.pushAll rsp_not_live hsave
  obtain ⟨junk, -, hpadded⟩ := pushed_padding (Nat.mod_lt _ Nat.two_pos) hsaved hpad
  have hregs₂ : m₂.regs r = m₁.regs r := by
    unfold paddingCode at hpad
    split at hpad
    · exact regs_line (by decide) (by simpa [written] using hrsp) hpad
    · rw [runs_nil.1 hpad]
  have hcounted := arguments.drifts hlower hdrifts (fun p hp => by
    rw [List.mem_reverse] at hp
    exact htyped.child hk (List.of_mem_zip hp).1) hlive hready hpadded hargs
  have hsum : ((args.zip callee.byAddress).reverse.map fun p =>
      cx.drift d false cx.arena.depthLimit p.1).sum = countedBy cx d false args := by
    have hlength := calls.length_byAddress hprogram htyped hk
    have hfst : args = (args.zip callee.byAddress).map Prod.fst :=
      (List.map_fst_zip (Nat.le_of_eq hlength.symm)).symm
    rw [List.map_reverse, List.sum_reverse, countedBy]
    conv_rhs => rw [hfst, List.map_map]
    rfl
  refine ⟨m₃, calls, by simp [beforeCall], hsave.append (hpad.append hargs), ?_⟩
  rw [hcounted, hsum, hregs₂, hregs₁ r hrsp]

end Lowering

namespace Sample

open Gen Lowering Machine

/-- All parameters are zero. -/
def machine : Machine where
  regs r := if r = .rsp ∨ r = .rbp then 4096#64 else 0#64
  mem _ := 0

/-- Where the outer call leaves the machine. -/
def machineAfter : Machine :=
  (run? environment returning called.code machine).get (by decide +kernel)

theorem runs_called :
    Runs environment (Spares environment 4096) called.code machine machineAfter := by
  refine runs_of_run? (fun name m m' h => h) ?_ (Option.some_get _).symm
  rintro mnemonic _ m hfree width a rest rfl
  cases hfree

/-- The first argument counts the first parameter up, and the call takes that back. -/
theorem increment_lost : machineAfter.regs .rdi = machine.regs .rdi ∧
    machineAfter.regs .rdi ≠ machine.regs .rdi + BitVec.ofInt 64
      (countedBy context 2 true arguments) := by
  have hfacts : countedBy context 2 true arguments = 1 ∧
      frame.slot? 2 = some ⟨.register .rdi, .int, false⟩ ∧ frame.size = 0 := by decide +kernel
  obtain ⟨hcounted, hslot, hsize⟩ := hfacts
  have hready : Ready context function 4096 machine := ⟨by decide, by
    show 4096 + frame.size ≤ 4096
    rw [hsize], by decide⟩
  obtain ⟨-, hold, hiff⟩ := @update_lost context unit function environment 4096 state called.state
    called.code 24 2 .int machine machineAfter .rdi "f" arguments called.value accepted unit?_arena
    ⟨30, function_mem, kind_function⟩ layout_function hslot ⟨25, .head _, below_call⟩
    kind_call (by decide) emits_called (conventional 4096) hready runs_called
  refine ⟨hold, fun h => ?_⟩
  have hdvd := hiff.1 h
  rw [hcounted] at hdvd
  omega

end Sample

end MiniJ
