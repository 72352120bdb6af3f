import MiniJ.Fault

/-!
# Registers

The machine registers that generated code uses, and the record of which ones hold a value. Argument
and scratch registers are tracked; the frame and stack pointers never are.
-/
namespace MiniJ

/-- General purpose registers. -/
inductive Register where
  | rdi | rsi | rdx | rcx | r8 | r9 | rax | rbx | r10 | r11 | r12 | rbp | rsp
  deriving DecidableEq, Repr

namespace Register

def all : List Register :=
  [.rdi, .rsi, .rdx, .rcx, .r8, .r9, .rax, .rbx, .r10, .r11, .r12, .rbp, .rsp]

/-- Registers that carry the first arguments of a call, in order. -/
def arguments : List Register := [.rdi, .rsi, .rdx, .rcx, .r8, .r9]

/-- Registers for intermediate values, in the order they are handed out. -/
def scratch : List Register := [.rax, .rbx, .r10, .r11, .r12]

/-- Registers whose use is recorded. -/
def tracked : List Register := arguments ++ scratch

/-- Name of the whole register. -/
def name : Register → String
  | rdi => "rdi"
  | rsi => "rsi"
  | rdx => "rdx"
  | rcx => "rcx"
  | r8 => "r8"
  | r9 => "r9"
  | rax => "rax"
  | rbx => "rbx"
  | r10 => "r10"
  | r11 => "r11"
  | r12 => "r12"
  | rbp => "rbp"
  | rsp => "rsp"

/-- Name of the low 32 bits. -/
def name32 : Register → String
  | rdi => "edi"
  | rsi => "esi"
  | rdx => "edx"
  | rcx => "ecx"
  | r8 => "r8d"
  | r9 => "r9d"
  | rax => "eax"
  | rbx => "ebx"
  | r10 => "r10d"
  | r11 => "r11d"
  | r12 => "r12d"
  | rbp => "ebp"
  | rsp => "esp"

/-- Name of the low 8 bits. -/
def name8 : Register → String
  | rdi => "dil"
  | rsi => "sil"
  | rdx => "dl"
  | rcx => "cl"
  | r8 => "r8b"
  | r9 => "r9b"
  | rax => "al"
  | rbx => "bl"
  | r10 => "r10b"
  | r11 => "r11b"
  | r12 => "r12b"
  | rbp => "bpl"
  | rsp => "spl"

end Register

/-- The tracked registers that hold a value, arguments first. -/
structure RegisterFile where
  live : List Register := []
  ordered : live.Sublist Register.tracked := by simp
  deriving DecidableEq, Repr

namespace RegisterFile

def isLive (f : RegisterFile) (r : Register) : Bool := f.live.contains r

/-- Marks a free tracked register as live. -/
def claim? (f : RegisterFile) (r : Register) : Option RegisterFile :=
  if Register.tracked.contains r && !f.isLive r then
    some ⟨Register.tracked.filter fun q => q == r || f.isLive q, List.filter_sublist⟩
  else none

/-- Claims the first free scratch register. -/
def claimScratch? (f : RegisterFile) : Option (Register × RegisterFile) := do
  let r ← Register.scratch.find? fun r => !f.isLive r
  return (r, ← f.claim? r)

/-- Marks a live register as free. Untracked registers are ignored; releasing a register that is
free is a fault. -/
def release (f : RegisterFile) (r : Register) : Except Fault RegisterFile :=
  if !Register.tracked.contains r then .ok f
  else if f.isLive r then .ok ⟨f.live.erase r, List.erase_sublist.trans f.ordered⟩
  else .error .freeRegister

end RegisterFile

end MiniJ
