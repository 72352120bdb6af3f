import MiniJ.Assembly.Instruction
import MiniJ.Proofs.Machine.Memory

/-!
# Machine

A model of the instructions that code generation emits: 64-bit registers, byte memory and the
operands of the last comparison. An instruction that cannot be encoded, a division without a
quotient and a stack that grows beyond its end have no outcome.

## Main definitions

* `Machine.exec` — one instruction that neither jumps nor calls.
* `Machine.Runs` — instructions behind each other, calls included.
-/
namespace MiniJ

/-- Registers, memory and, unless an instruction changed the flags since, the operands of the last
comparison. -/
structure Machine where
  regs : Register → Word
  mem : Memory
  flags : Option (Word × Word) := none

/-- What code does not decide itself. -/
structure Environment where
  /-- Addresses of globals and text constants. -/
  symbols : String → Word
  /-- Lowest address of the stack. -/
  stackLimit : Nat
  /-- What a call of a label makes of the machine, from the entry to behind the return. -/
  callee : String → Machine → Machine → Prop

/-- Whether a comparison has this outcome. -/
def Condition.holds : Condition → Word → Word → Bool
  | equal, x, y => x == y
  | notEqual, x, y => x != y
  | less, x, y => x.slt y
  | lessEqual, x, y => x.sle y
  | greater, x, y => y.slt x
  | greaterEqual, x, y => y.sle x

def Width.bytes : Width → Nat
  | dword => 4
  | qword => 8

/-- Numbers that an instruction can carry, apart from a move into a register. -/
def fitsInstruction (v : Int64) : Bool := Address.inRange v.toInt

/-- Width of an operand in bytes, if it has one of its own. -/
def Operand.bytes? : Operand → Option Nat
  | reg _ => some 8
  | reg32 _ => some 4
  | reg8 _ => some 1
  | mem width _ => some width.bytes
  | imm _ | addr _ | label _ => none

def Operand.isMemory : Operand → Bool
  | mem .. => true
  | _ => false

/-- Whether there is a move with these operands. -/
def movable (target source : Operand) : Bool :=
  match target, source with
  | .reg _, .imm _ => true
  | _, .imm v => fitsInstruction v
  | _, _ => target.bytes? == source.bytes? && !(target.isMemory && source.isMemory)

namespace Machine

variable (env : Environment)

/-- Changes a register. -/
def set (m : Machine) (r : Register) (w : Word) : Machine :=
  { m with regs := fun q => if q = r then w else m.regs q }

/-- Forgets the last comparison. -/
def clear (m : Machine) : Machine := { m with flags := none }

/-- The address an operand stands for. -/
def locate (m : Machine) (a : Address) : Word :=
  (match a.base with
    | .register r => m.regs r
    | .symbol name => env.symbols name) + BitVec.ofInt 64 a.displacement

/-- Reads an operand. Narrow parts are extended by zeros. -/
def value (m : Machine) : Operand → Option Word
  | .reg r => some (m.regs r)
  | .reg32 r => some (BitVec.ofNat 64 ((m.regs r).toNat % 4294967296))
  | .reg8 r => some (BitVec.ofNat 64 ((m.regs r).toNat % 256))
  | .imm v => some v.toBitVec
  | .mem width a => some (BitVec.ofNat 64 (m.mem.read (m.locate env a) width.bytes))
  | .addr _ | .label _ => none

/-- Writes an operand. Writing the low 32 bits of a register clears the others; writing the low 8
bits keeps them. -/
def assign (m : Machine) (w : Word) : Operand → Option Machine
  | .reg r => some (m.set r w)
  | .reg32 r => some (m.set r (BitVec.ofNat 64 (w.toNat % 4294967296)))
  | .reg8 r => some (m.set r (BitVec.ofNat 64
      ((m.regs r).toNat - (m.regs r).toNat % 256 + w.toNat % 256)))
  | .mem width a => some { m with mem := m.mem.write (m.locate env a) width.bytes w.toNat }
  | .imm _ | .addr _ | .label _ => none

/-- The second operand of an arithmetic instruction. -/
def argument (m : Machine) : Operand → Option Word
  | .reg r => some (m.regs r)
  | .imm v => if fitsInstruction v then some v.toBitVec else none
  | _ => none

/-- An arithmetic instruction on a register. -/
def combine (m : Machine) (f : Word → Word → Word) (r : Register) (source : Operand) :
    Option Machine :=
  (m.argument source).map fun w => (m.set r (f (m.regs r) w)).clear

/-- A subtraction from a register. The stack pointer stays above the end of the stack. -/
def subtract (m : Machine) (r : Register) (source : Operand) : Option Machine :=
  (m.argument source).bind fun w =>
    if r = .rsp → env.stackLimit + w.toInt ≤ (m.regs .rsp).toNat then
      some (m.set r (m.regs r - w)).clear
    else none

/-- Puts a word on the stack. -/
def push (m : Machine) (w : Word) : Option Machine :=
  if env.stackLimit + 8 ≤ (m.regs .rsp).toNat then
    some { m.set .rsp (m.regs .rsp - 8#64) with mem := m.mem.write (m.regs .rsp - 8#64) 8 w.toNat }
  else none

/-- Takes a word from the stack. -/
def pop (m : Machine) (r : Register) : Machine :=
  (m.set .rsp (m.regs .rsp + 8#64)).set r (BitVec.ofNat 64 (m.mem.read (m.regs .rsp) 8))

/-- Divides `rdx:rax`. There is no outcome without a divisor or when the quotient does not fit. -/
def divide (m : Machine) (divisor : Word) : Option Machine :=
  let dividend : Int := (m.regs .rdx).toInt * 18446744073709551616 + (m.regs .rax).toNat
  let quotient := dividend.tdiv divisor.toInt
  if divisor = 0#64 then none
  else if -9223372036854775808 ≤ quotient ∧ quotient < 9223372036854775808 then
    some ((m.set .rax (BitVec.ofInt 64 quotient)).set .rdx
      (BitVec.ofInt 64 (dividend.tmod divisor.toInt))).clear
  else none

/-- Runs an instruction that neither jumps nor calls. -/
def exec (m : Machine) : Mnemonic → List Operand → Option Machine
  | .mov, [target, source] =>
    if movable target source then (m.value env source).bind fun w => m.assign env w target
    else none
  | .lea, [.reg r, .addr a] => some (m.set r (m.locate env a))
  | .movzx, [.reg r, .reg8 q] => some (m.set r (BitVec.ofNat 64 ((m.regs q).toNat % 256)))
  | .add, [.reg r, source] => m.combine (· + ·) r source
  | .sub, [.reg r, source] => m.subtract env r source
  | .imul, [.reg r, source] => m.combine (· * ·) r source
  | .and, [.reg r, source] => m.combine (· &&& ·) r source
  | .or, [.reg r, source] => m.combine (· ||| ·) r source
  | .xor, [.reg r, source] => m.combine (· ^^^ ·) r source
  | .neg, [.reg r] => some (m.set r (-m.regs r)).clear
  | .cqo, [] => some (m.set .rdx (if (m.regs .rax).msb then BitVec.allOnes 64 else 0#64))
  | .idiv, [.reg r] => m.divide (m.regs r)
  | .cmp, [.reg r, source] => (m.argument source).map fun w =>
    { m with flags := some (m.regs r, w) }
  | .set c, [.reg8 r] => m.flags.bind fun (x, y) =>
      m.assign env (if c.holds x y then 1#64 else 0#64) (.reg8 r)
  | .push, [.reg r] => m.push env (m.regs r)
  | .pop, [.reg r] => some (m.pop r)
  | _, _ => none

/-- Instructions behind each other take the machine from one state to another. Every instruction
but a call satisfies `guard` when it runs. A call puts its return address on the stack. -/
inductive Runs (guard : Mnemonic → List Operand → Machine → Prop) :
    List Line → Machine → Machine → Prop
  | nil (m : Machine) : Runs guard [] m m
  | step {mnemonic : Mnemonic} {operands : List Operand} {rest : List Line} {m m₁ m' : Machine}
      (ok : guard mnemonic operands m) (exec : m.exec env mnemonic operands = some m₁)
      (runs : Runs guard rest m₁ m') :
      Runs guard (.instruction mnemonic operands :: rest) m m'
  | call {label : String} {back : Word} {rest : List Line} {m m₁ m₂ m' : Machine}
      (pushed : m.push env back = some m₁) (callee : env.callee label m₁ m₂)
      (runs : Runs guard rest m₂ m') :
      Runs guard (.instruction .call [.label label] :: rest) m m'

variable {env : Environment} {m m' : Machine} {q r : Register}

@[simp] theorem regs_set_self (m : Machine) (r : Register) (w : Word) : (m.set r w).regs r = w :=
  if_pos rfl

theorem regs_set_of_ne (m : Machine) (w : Word) (h : q ≠ r) : (m.set r w).regs q = m.regs q :=
  if_neg h

@[simp] theorem mem_set (m : Machine) (r : Register) (w : Word) : (m.set r w).mem = m.mem := rfl

@[simp] theorem flags_set (m : Machine) (r : Register) (w : Word) : (m.set r w).flags = m.flags :=
  rfl

@[simp] theorem regs_clear (m : Machine) : m.clear.regs = m.regs := rfl

@[simp] theorem mem_clear (m : Machine) : m.clear.mem = m.mem := rfl

theorem subtract_eq_some {source : Operand} (h : m.subtract env r source = some m') :
    ∃ w, m.argument source = some w ∧
      (r = .rsp → env.stackLimit + w.toInt ≤ (m.regs .rsp).toNat) ∧
      m' = (m.set r (m.regs r - w)).clear := by
  obtain ⟨w, hw, h⟩ := Option.bind_eq_some_iff.1 h
  split at h
  · next hlimit =>
    cases h
    exact ⟨w, hw, hlimit, rfl⟩
  · cases h

/-- Only the stack pointer is checked against the end of the stack. -/
theorem exec_sub {source : Operand} (hr : r ≠ .rsp) :
    m.exec env .sub [.reg r, source] = m.combine (· - ·) r source := by
  rw [exec, subtract, combine, Option.map_eq_bind]
  exact congrArg _ (funext fun w => if_pos fun heq => absurd heq hr)

/-! ### What an instruction changes -/

/-- Registers that an instruction writes. -/
def written : Mnemonic → List Operand → List Register
  | .cqo, _ => [.rdx]
  | .idiv, _ => [.rax, .rdx]
  | .cmp, _ => []
  | .push, _ => [.rsp]
  | .pop, [.reg r] => [r, .rsp]
  | _, .reg r :: _ | _, .reg32 r :: _ | _, .reg8 r :: _ => [r]
  | _, _ => []

/-- The instruction does not write to memory. -/
def keepsMemory : Mnemonic → List Operand → Bool
  | .push, _ | _, .mem .. :: _ => false
  | _, _ => true

theorem combine_eq_some {f : Word → Word → Word} {source : Operand}
    (h : m.combine f r source = some m') : ∃ w, m.argument source = some w ∧
      m' = (m.set r (f (m.regs r) w)).clear := by
  obtain ⟨w, hw, rfl⟩ := Option.map_eq_some_iff.1 h
  exact ⟨w, hw, rfl⟩

theorem divide_eq_some {w : Word} (h : m.divide w = some m') :
    ∃ x y, m' = ((m.set .rax x).set .rdx y).clear := by
  unfold divide at h
  dsimp only at h
  split at h
  · cases h
  · split at h
    · cases h
      exact ⟨_, _, rfl⟩
    · cases h

/-- Registers that an instruction does not write stay the same. -/
theorem exec_regs {mnemonic : Mnemonic} {operands : List Operand}
    (h : m.exec env mnemonic operands = some m') (hq : q ∉ written mnemonic operands) :
    m'.regs q = m.regs q := by
  unfold exec at h
  split at h
  · split at h
    · obtain ⟨w, hw, hassign⟩ := Option.bind_eq_some_iff.1 h
      unfold assign at hassign
      split at hassign <;> cases hassign <;> simp_all [written, regs_set_of_ne]
    · cases h
  · cases h
    simp_all [written, regs_set_of_ne]
  · cases h
    simp_all [written, regs_set_of_ne]
  all_goals first
    | (obtain ⟨w, hw, rfl⟩ := combine_eq_some h; simp_all [written, regs_set_of_ne])
    | skip
  · obtain ⟨w, hw, -, rfl⟩ := subtract_eq_some h
    simp_all [written, regs_set_of_ne]
  · cases h
    simp_all [written, regs_set_of_ne]
  · cases h
    simp_all [written, regs_set_of_ne]
  · obtain ⟨x, y, rfl⟩ := divide_eq_some h
    simp_all [written, regs_set_of_ne]
  · obtain ⟨w, hw, rfl⟩ := Option.map_eq_some_iff.1 h
    rfl
  · obtain ⟨⟨x, y⟩, hw, hassign⟩ := Option.bind_eq_some_iff.1 h
    cases hassign
    simp_all [written, regs_set_of_ne]
  · unfold push at h
    split at h
    · cases h
      simp_all [written, regs_set_of_ne]
    · cases h
  · cases h
    simp_all [written, pop, regs_set_of_ne]
  · cases h

/-- Memory stays the same unless an instruction writes to it. -/
theorem exec_mem {mnemonic : Mnemonic} {operands : List Operand}
    (h : m.exec env mnemonic operands = some m') (hkeeps : keepsMemory mnemonic operands = true) :
    m'.mem = m.mem := by
  unfold exec at h
  split at h
  · split at h
    · obtain ⟨w, hw, hassign⟩ := Option.bind_eq_some_iff.1 h
      unfold assign at hassign
      split at hassign <;> cases hassign <;> simp_all [keepsMemory]
    · cases h
  · cases h
    rfl
  · cases h
    rfl
  all_goals first
    | (obtain ⟨w, hw, rfl⟩ := combine_eq_some h; rfl)
    | skip
  · obtain ⟨w, hw, -, rfl⟩ := subtract_eq_some h
    rfl
  · cases h
    rfl
  · cases h
    rfl
  · obtain ⟨x, y, rfl⟩ := divide_eq_some h
    rfl
  · obtain ⟨w, hw, rfl⟩ := Option.map_eq_some_iff.1 h
    rfl
  · obtain ⟨⟨x, y⟩, hw, hassign⟩ := Option.bind_eq_some_iff.1 h
    cases hassign
    rfl
  · cases hkeeps
  · cases h
    rfl
  · cases h

/-! ### Runs -/

variable {guard : Mnemonic → List Operand → Machine → Prop} {code code' : List Line}

theorem Runs.append {m₁ : Machine} (h : Runs env guard code m m₁)
    (h' : Runs env guard code' m₁ m') : Runs env guard (code ++ code') m m' := by
  induction h with
  | nil => exact h'
  | step ok exec _ ih => exact .step ok exec (ih h')
  | call pushed callee _ ih => exact .call pushed callee (ih h')

theorem runs_append : Runs env guard (code ++ code') m m' ↔
    ∃ m₁, Runs env guard code m m₁ ∧ Runs env guard code' m₁ m' := by
  constructor
  · intro h
    induction code generalizing m with
    | nil => exact ⟨m, .nil m, h⟩
    | cons line rest ih =>
      cases h with
      | step ok exec runs =>
        obtain ⟨m₁, hfirst, hrest⟩ := ih runs
        exact ⟨m₁, .step ok exec hfirst, hrest⟩
      | call pushed callee runs =>
        obtain ⟨m₁, hfirst, hrest⟩ := ih runs
        exact ⟨m₁, .call pushed callee hfirst, hrest⟩
  · rintro ⟨m₁, h, h'⟩
    exact h.append h'

/-- The first line and the lines behind it. -/
theorem runs_line {line : Line} : Runs env guard (line :: code) m m' ↔
    ∃ m₁, Runs env guard [line] m m₁ ∧ Runs env guard code m₁ m' := by
  rw [← List.singleton_append, runs_append]

theorem runs_nil : Runs env guard [] m m' ↔ m' = m := by
  constructor
  · intro h
    cases h
    rfl
  · rintro rfl
    exact .nil m'

theorem runs_cons {mnemonic : Mnemonic} {operands : List Operand} (hcall : mnemonic ≠ .call) :
    Runs env guard (.instruction mnemonic operands :: code) m m' ↔
      ∃ m₁, guard mnemonic operands m ∧ m.exec env mnemonic operands = some m₁ ∧
        Runs env guard code m₁ m' := by
  constructor
  · intro h
    cases h with
    | step ok exec runs => exact ⟨_, ok, exec, runs⟩
    | call => exact absurd rfl hcall
  · rintro ⟨m₁, ok, exec, runs⟩
    exact .step ok exec runs

theorem runs_call {label : String} :
    Runs env guard (.instruction .call [.label label] :: code) m m' ↔
      ∃ back m₁ m₂, m.push env back = some m₁ ∧ env.callee label m₁ m₂ ∧
        Runs env guard code m₂ m' := by
  constructor
  · intro h
    cases h with
    | step ok exec runs => cases exec
    | call pushed callee runs => exact ⟨_, _, _, pushed, callee, runs⟩
  · rintro ⟨back, m₁, m₂, pushed, callee, runs⟩
    exact .call pushed callee runs

/-- No operand of an instruction is in memory. -/
def storeFree (operands : List Operand) : Bool := !operands.any (·.isMemory)

/-- Runs code that has no memory operands, with a function for what a callee does. -/
def run? (env : Environment) (call : String → Machine → Option Machine) :
    List Line → Machine → Option Machine
  | [], m => some m
  | .label _ :: _, _ => none
  | .instruction .call [.label name] :: rest, m =>
    (m.push env 0#64).bind fun m => (call name m).bind fun m => run? env call rest m
  | .instruction mnemonic operands :: rest, m =>
    if storeFree operands then (m.exec env mnemonic operands).bind fun m => run? env call rest m
    else none

theorem runs_of_run? {call : String → Machine → Option Machine}
    (hcall : ∀ name m m', call name m = some m' → env.callee name m m')
    (hguard : ∀ mnemonic operands m, storeFree operands → guard mnemonic operands m)
    (h : run? env call code m = some m') : Runs env guard code m m' := by
  induction code, m using run?.induct with
  | case1 m =>
    cases h
    exact .nil m'
  | case2 name rest m => cases h
  | case3 name rest m ih =>
    obtain ⟨m₁, hpush, h⟩ := Option.bind_eq_some_iff.1 h
    obtain ⟨m₂, hcallee, h⟩ := Option.bind_eq_some_iff.1 h
    exact .call hpush (hcall name m₁ m₂ hcallee) (ih m₂ h)
  | case4 mnemonic operands rest m hne hfree ih =>
    rw [run?, if_pos hfree] at h
    · obtain ⟨m₁, hexec, h⟩ := Option.bind_eq_some_iff.1 h
      exact .step (hguard mnemonic operands m hfree) hexec (ih m₁ h)
    · exact hne
  | case5 mnemonic operands rest m hne hfree =>
    rw [run?, if_neg hfree] at h
    · cases h
    · exact hne

end Machine

end MiniJ
