import MiniJ.Proofs.Layout.Path
import MiniJ.Proofs.Lowering.Shape
import MiniJ.Proofs.Machine.Stack
import MiniJ.Proofs.Semantics.Store

/-!
# Arithmetic

What the instructions of an operator compute on words that stand for values. Numbers are compared
and divided as signed ones, and a truth value is 0 or 1 in all bits of its register.

## Main definitions

* `Machine.RunsTo` — a run on which no condition is put.

## Main statements

* `Machine.exec_combine`, `Machine.exists_compare`, `Machine.exists_divide` — the operators, by the
  shape of their code.
-/
namespace MiniJ

/-! ### Words -/

namespace Value

@[simp] theorem word_and (a b : Bool) :
    (bool (a && b)).word = (bool a).word &&& (bool b).word := by
  cases a <;> cases b <;> rfl

@[simp] theorem word_or (a b : Bool) : (bool (a || b)).word = (bool a).word ||| (bool b).word := by
  cases a <;> cases b <;> rfl

@[simp] theorem word_not (b : Bool) : (bool (!b)).word = (bool b).word ^^^ 1#64 := by
  cases b <;> rfl

theorem word_bool_lt (b : Bool) : (bool b).word.toNat < 2 := by
  cases b <;> decide

/-- A value fits into the bytes of its type. -/
theorem HasType.word_lt {v : Value} {ty : Ty} {n : Nat} (h : v.HasType ty)
    (hn : ty.scalarBytes = some n) : v.word.toNat < Memory.capacity n := by
  cases h with
  | bool b =>
    cases hn
    have hlt := word_bool_lt b
    simp only [Memory.capacity]
    omega
  | int | text | array =>
    cases hn
    exact BitVec.isLt _

end Value

namespace Machine

variable {env : Environment} {m m' : Machine} {l r : Register} {op : BinaryOp} {x y v : Value}
  {code code' : List Line}

/-- Instructions behind each other run. -/
abbrev RunsTo (env : Environment) : List Line → Machine → Machine → Prop :=
  Runs env fun _ _ _ => True

/-- One instruction runs, and then the others. -/
theorem Runs.cons {mnemonic : Mnemonic} {operands : List Operand} {m₁ : Machine}
    (hexec : m.exec env mnemonic operands = some m₁) (h : RunsTo env code m₁ m') :
    RunsTo env (.instruction mnemonic operands :: code) m m' := .step trivial hexec h

theorem Runs.line {mnemonic : Mnemonic} {operands : List Operand}
    (hexec : m.exec env mnemonic operands = some m') :
    RunsTo env [.instruction mnemonic operands] m m' := .cons hexec (.nil m')

/-! ### Values in memory -/

theorem exec_load {n : Nat} {a : Address} {w : Word} (hn : n = 4 ∨ n = 8)
    (hread : m.mem.read (m.locate env a) n = w.toNat) :
    m.exec env .mov [.sized (.ofSize n) r, .mem (.ofSize n) a] = some (m.set r w) := by
  rcases hn with rfl | rfl
  · have hlt : w.toNat < 4294967296 := hread ▸ m.mem.read_lt _ 4
    simp [-Memory.read_succ, exec, movable, Operand.sized, Width.ofSize, value, assign,
      Operand.bytes?, Width.bytes, Operand.isMemory, hread, Nat.mod_eq_of_lt hlt]
  · simp [-Memory.read_succ, exec, movable, Operand.sized, Width.ofSize, value, assign,
      Operand.bytes?, Width.bytes, Operand.isMemory, hread]

theorem exec_store_word {n : Nat} {a : Address} {w : Word} (hn : n = 4 ∨ n = 8)
    (hw : m.regs r = w) (hlt : w.toNat < Memory.capacity n) :
    m.exec env .mov [.mem (.ofSize n) a, .sized (.ofSize n) r] =
      some { m with mem := m.mem.write (m.locate env a) n w.toNat } := by
  rcases hn with rfl | rfl
  · simp only [Memory.capacity] at hlt
    simp [exec, movable, Operand.sized, Width.ofSize, value, assign, Operand.bytes?,
      Operand.isMemory, Width.bytes, hw, Nat.mod_eq_of_lt hlt]
  · simp [exec, movable, Operand.sized, Width.ofSize, value, assign, Operand.bytes?,
      Operand.isMemory, Width.bytes, hw]

/-! ### Two registers -/

/-- The instruction of an operator that works on two registers computes its value. -/
theorem exec_combine {mnemonic : Mnemonic} (hop : Lowering.combines? op = some mnemonic)
    (hv : op.value? x y = some v) (hx : m.regs l = x.word) (hy : m.regs r = y.word)
    (hl : l ≠ .rsp) : m.exec env mnemonic [.reg l, .reg r] = some (m.set l v.word).clear := by
  cases op <;> cases hop <;> cases x <;> cases y <;> cases hv
  case minus.refl.int.int.refl => simp [exec_sub hl, combine, argument, hx, hy, Value.word]
  case and.refl.bool.bool.refl => simp [exec, combine, argument, hx, hy]
  case or.refl.bool.bool.refl => simp [exec, combine, argument, hx, hy]
  all_goals simp [exec, combine, argument, hx, hy, Value.word]

/-! ### Comparisons -/

/-- The outcome of a comparison is the value of its operator. -/
theorem holds_of_value {condition : Condition} (hop : Condition.ofOperator? op = some condition)
    (hv : op.value? x y = some v) : v = .bool (condition.holds x.word y.word) := by
  have hslt : ∀ a b : Int64, decide (a < b) = a.toBitVec.slt b.toBitVec := fun a b => by
    rw [Bool.eq_iff_iff, decide_eq_true_iff, Int64.lt_iff_toBitVec_slt]
  have hsle : ∀ a b : Int64, decide (a ≤ b) = a.toBitVec.sle b.toBitVec := fun a b => by
    rw [Bool.eq_iff_iff, decide_eq_true_iff, Int64.le_iff_toBitVec_sle]
  have hbeq : ∀ a b : Int64, (a == b) = (a.toBitVec == b.toBitVec) := fun a b => by
    rw [Bool.eq_iff_iff, beq_iff_eq, beq_iff_eq, Int64.toBitVec_inj]
  cases op <;> cases hop <;> cases x <;> cases y <;> cases hv <;>
    simp only [Condition.holds, hslt, hsle, hbeq, bne, Value.bool.injEq, Value.word]
  case equal.refl.bool.bool.refl a b => cases a <;> cases b <;> rfl
  case unequal.refl.bool.bool.refl a b => cases a <;> cases b <;> rfl

theorem byte_of_bool (w : Word) (b : Bool) :
    BitVec.ofNat 64 ((BitVec.ofNat 64 (w.toNat - w.toNat % 256 +
      (if b then 1#64 else 0#64).toNat % 256)).toNat % 256) = (Value.bool b).word := by
  cases b <;> simp [Value.word] <;> bv_omega

/-- A comparison that is read from the flags into a register. -/
theorem exists_compare (env : Environment) {condition : Condition}
    (hop : Condition.ofOperator? op = some condition)
    (hv : op.value? x y = some v) (hx : m.regs l = x.word) (hy : m.regs r = y.word) :
    ∃ m', RunsTo env [.instruction .cmp [.reg l, .reg r],
      .instruction (.set condition) [.reg8 l], .instruction .movzx [.reg l, .reg8 l]] m m' ∧
      m'.regs l = v.word ∧ m'.mem = m.mem ∧ ∀ q, q ≠ l → m'.regs q = m.regs q := by
  refine ⟨_, .cons rfl (.cons rfl (.line rfl)), ?_, rfl, fun q hq => ?_⟩
  · rw [regs_set_self, regs_set_self, byte_of_bool, hx, hy, holds_of_value hop hv]
  · rw [regs_set_of_ne _ _ hq, regs_set_of_ne _ _ hq]

/-! ### Divisions -/

/-- The sign of a number fills the register above it. -/
theorem toInt_signed (a : Int64) :
    (if a.toBitVec.msb then BitVec.allOnes 64 else 0#64).toInt * 18446744073709551616 +
      a.toBitVec.toNat = a.toInt := by
  rw [← Int64.toInt_toBitVec, BitVec.toInt_eq_msb_cond a.toBitVec]
  cases a.toBitVec.msb
  · simp
  · simp
    omega

/-- The quotient of two numbers fits into a word, apart from one case. -/
theorem quotient_fits {a b : Int64} (h : Divides a b) :
    -9223372036854775808 ≤ a.toInt.tdiv b.toInt ∧ a.toInt.tdiv b.toInt < 9223372036854775808 := by
  obtain ⟨hzero, hover⟩ := h
  have hlower := a.le_toInt
  have hupper := a.toInt_lt
  have hb : b.toInt ≠ 0 := fun hb => hzero (Int64.toInt_inj.1 hb)
  by_cases hone : b.toInt = 1
  · rw [hone, Int.tdiv_one]
    omega
  · by_cases hminus : b.toInt = -1
    · have hleast : a.toInt ≠ -9223372036854775808 := fun ha =>
        hover ⟨Int64.toInt_inj.1 ha, Int64.toInt_inj.1 hminus⟩
      rw [hminus, Int.tdiv_neg, Int.tdiv_one]
      omega
    · have habs : (a.toInt.tdiv b.toInt).natAbs = a.toInt.natAbs / b.toInt.natAbs :=
        Int.natAbs_tdiv _ _
      have hhalf : a.toInt.natAbs / b.toInt.natAbs ≤ a.toInt.natAbs / 2 :=
        Nat.div_le_div_left (by omega) (by decide)
      omega

/-- What `idiv` leaves in its two registers. -/
theorem exec_idiv {a b : Int64} (ha : m.regs .rax = a.toBitVec)
    (hsign : m.regs .rdx = if a.toBitVec.msb then BitVec.allOnes 64 else 0#64)
    (hb : m.regs r = b.toBitVec) (h : Divides a b) :
    m.exec env .idiv [.reg r] =
      some ((m.set .rax (a / b).toBitVec).set .rdx (a % b).toBitVec).clear := by
  have hdividend : (m.regs .rdx).toInt * 18446744073709551616 + (m.regs .rax).toNat = a.toInt := by
    rw [hsign, ha, toInt_signed]
  have hzero : b.toBitVec ≠ 0#64 := fun hzero => h.1 (Int64.toBitVec_inj.1 hzero)
  have hquotient : BitVec.ofInt 64 (a.toInt.tdiv b.toInt) = (a / b).toBitVec := by
    rw [← BitVec.toInt_inj, BitVec.toInt_ofInt, Int64.toInt_toBitVec, Int64.toInt_div]
  have hremainder : BitVec.ofInt 64 (a.toInt.tmod b.toInt) = (a % b).toBitVec := by
    rw [← Int64.toInt_mod, ← Int64.toInt_toBitVec, BitVec.ofInt_toInt]
  rw [exec, divide, hdividend, hb, if_neg hzero, Int64.toInt_toBitVec, if_pos (quotient_fits h),
    hquotient, hremainder]

/-- Only the `k` bytes below the stack pointer change. -/
structure Below (k : Nat) (m m' : Machine) : Prop where
  rsp : m'.regs .rsp = m.regs .rsp
  mem : ∀ x : Word, ¬(x - (m.regs .rsp - BitVec.ofNat 64 k)).toNat < k → m'.mem x = m.mem x

/-- The division itself: the dividend goes to `rax`, and the result comes back from there or from
`rdx`. -/
def idivCode (result dividend divisor : Register) : List Line :=
  (if dividend ≠ .rax then [.move .rax dividend] else []) ++
    (.instruction .cqo [] :: .instruction .idiv [.reg divisor] ::
      if dividend ≠ result then [.move dividend result] else [])

/-- Code that runs with a register saved on the stack. -/
def saving (save : Bool) (r : Register) (code : List Line) : List Line :=
  (if save then [.push r] else []) ++ (code ++ if save then [.pop r] else [])

theorem divideCode_eq (saveRax saveRdx : Bool) (result dividend divisor : Register) :
    Lowering.divideCode saveRax saveRdx result dividend divisor =
      saving saveRax .rax (saving saveRdx .rdx (idivCode result dividend divisor)) := by
  simp [Lowering.divideCode, saving, idivCode]

theorem exists_move (env : Environment) (c : Prop) [Decidable c] (m : Machine) (h : ¬c → r = l) :
    ∃ m', RunsTo env (if c then [.move r l] else []) m m' ∧ m'.regs r = m.regs l ∧
      m'.mem = m.mem ∧ ∀ q, q ≠ r → m'.regs q = m.regs q := by
  by_cases hc : c
  · rw [if_pos hc]
    exact ⟨_, .line rfl, regs_set_self _ _ _, rfl, fun q hq => regs_set_of_ne _ _ hq⟩
  · rw [if_neg hc]
    exact ⟨m, .nil m, by rw [h hc], rfl, fun _ _ => rfl⟩

/-- Code runs and leaves the word `w` in register `l`. Of the other registers it changes only those
that are `spent`, and of memory only `k` bytes below the stack pointer. -/
def Delivers (env : Environment) (code : List Line) (k : Nat) (l : Register) (w : Word)
    (spent : Register → Prop) (m : Machine) : Prop :=
  ∃ m', RunsTo env code m m' ∧ m'.regs l = w ∧ Below k m m' ∧
    ∀ q, q ≠ l → ¬spent q → m'.regs q = m.regs q

theorem delivers_idiv {result dividend divisor : Register} {a b : Int64}
    (hresult : result = .rax ∨ result = .rdx) (hrax : divisor ≠ .rax) (hrdx : divisor ≠ .rdx)
    (hrsp : dividend ≠ .rsp) (ha : m.regs dividend = a.toBitVec) (hb : m.regs divisor = b.toBitVec)
    (h : Divides a b) :
    Delivers env (idivCode result dividend divisor) 0 dividend
      (if result = .rax then a / b else a % b).toBitVec (fun q => q = .rax ∨ q = .rdx) m := by
  obtain ⟨m₁, hrun₁, hvalue₁, hmem₁, hregs₁⟩ :=
    exists_move (r := .rax) (l := dividend) env (dividend ≠ .rax) m fun h => (not_not.1 h).symm
  rw [ha] at hvalue₁
  have hcqo : m₁.exec env .cqo [] =
      some (m₁.set .rdx (if a.toBitVec.msb then BitVec.allOnes 64 else 0#64)) := by
    rw [exec, hvalue₁]
  obtain ⟨m₂, hm₂⟩ : ∃ m₂, m₂ = m₁.set .rdx (if a.toBitVec.msb then BitVec.allOnes 64 else 0#64) :=
    ⟨_, rfl⟩
  have hregs₂ : ∀ q, q ≠ .rdx → m₂.regs q = m₁.regs q := fun q hq => by
    rw [hm₂, regs_set_of_ne _ _ hq]
  have hidiv : m₂.exec env .idiv [.reg divisor] = _ :=
    exec_idiv ((hregs₂ .rax (by decide)).trans hvalue₁) (by rw [hm₂, regs_set_self])
      (by rw [hregs₂ _ hrdx, hregs₁ _ hrax, hb]) h
  obtain ⟨m₃, hrun₃, hvalue₃, hmem₃, hregs₃⟩ := exists_move (r := dividend) (l := result) env
    (dividend ≠ result) ((m₂.set .rax (a / b).toBitVec).set .rdx (a % b).toBitVec).clear
    fun h => not_not.1 h
  have hregs : ∀ q, q ≠ dividend → ¬(q = .rax ∨ q = .rdx) → m₃.regs q = m.regs q := by
    intro q hq hspent
    rw [not_or] at hspent
    rw [hregs₃ q hq, regs_clear, regs_set_of_ne _ _ hspent.2, regs_set_of_ne _ _ hspent.1,
      hregs₂ q hspent.2, hregs₁ q hspent.1]
  refine ⟨m₃, hrun₁.append (.cons (hm₂ ▸ hcqo) (.cons hidiv hrun₃)), ?_,
    ⟨hregs .rsp hrsp.symm (by decide), fun x _ => ?_⟩, hregs⟩
  · rw [hvalue₃]
    rcases hresult with rfl | rfl <;> rfl
  · rw [hmem₃, ← hmem₁, mem_clear, mem_set, mem_set, hm₂, mem_set]

theorem exists_push (w : Word) (hroom : env.stackLimit + 8 ≤ (m.regs .rsp).toNat) :
    ∃ m₁, m.push env w = some m₁ ∧ m₁.regs .rsp = m.regs .rsp - 8#64 ∧
      m₁.mem = m.mem.write (m.regs .rsp - 8#64) 8 w.toNat ∧ ∀ q, q ≠ .rsp →
      m₁.regs q = m.regs q := by
  refine ⟨_, if_pos hroom, ?_, rfl, fun q hq => ?_⟩
  · exact regs_set_self m .rsp _
  · exact regs_set_of_ne m _ hq

/-- A register that is saved around code is not spent. -/
theorem Delivers.saving {save : Bool} {k : Nat} {w : Word} {spent : Register → Prop}
    (hroom : env.stackLimit + 8 ≤ (m.regs .rsp).toNat) (hk : k < 4294967296) (hr : r ≠ .rsp)
    (hl : l ≠ .rsp) (hsave : save = true → l ≠ r)
    (hcode : ∀ m₁ : Machine, (m.regs .rsp).toNat ≤ (m₁.regs .rsp).toNat + 8 →
      (∀ q, q ≠ .rsp → m₁.regs q = m.regs q) → Delivers env code k l w spent m₁) :
    Delivers env (saving save r code) (k + 8) l w
      (fun q => spent q ∧ ¬(save = true ∧ q = r)) m := by
  cases save with
  | false =>
    obtain ⟨m₂, hrun, hvalue, hbelow, hregs⟩ := hcode m (by omega) fun _ _ => rfl
    refine ⟨m₂, by simpa [Machine.saving] using hrun, hvalue,
      ⟨hbelow.rsp, fun x hx => hbelow.mem x (by bv_omega)⟩, fun q hq hspent => ?_⟩
    exact hregs q hq fun h => hspent ⟨h, by simp⟩
  | true =>
    obtain ⟨m₁, hpush, hsp₁, hmem₁, hregs₁⟩ := exists_push (m.regs r) hroom
    obtain ⟨m₂, hrun, hvalue, hbelow, hregs⟩ := hcode m₁ (by rw [hsp₁]; bv_omega) hregs₁
    have hsp : m₂.regs .rsp = m.regs .rsp - 8#64 := hbelow.rsp.trans hsp₁
    have hmem := hbelow.mem
    rw [hsp₁, hmem₁] at hmem
    have hrsp : (m₂.pop r).regs .rsp = m.regs .rsp := by
      rw [pop, regs_set_of_ne _ _ hr.symm, regs_set_self, hsp, BitVec.sub_add_cancel]
    have hsaved : (m₂.pop r).regs r = m.regs r := by
      rw [pop, regs_set_self, hsp, Memory.read_congr (by decide) fun x hx => hmem x (by bv_omega),
        Memory.read_write (by decide) (m.regs r).isLt, BitVec.ofNat_toNat, BitVec.setWidth_eq]
    refine ⟨m₂.pop r, .cons hpush (hrun.append (.line rfl)), ?_, ⟨hrsp, fun x hx => ?_⟩,
      fun q hq hspent => ?_⟩
    · rw [regs_pop_of_ne (hsave rfl) hl, hvalue]
    · rw [pop, mem_set, mem_set, hmem x (by bv_omega)]
      apply if_neg
      bv_omega
    · by_cases hqr : q = r
      · rw [hqr, hsaved]
      · by_cases hqrsp : q = .rsp
        · rw [hqrsp, hrsp]
        · rw [regs_pop_of_ne hqr hqrsp, hregs q hq fun h => hspent ⟨h, fun h => hqr h.2⟩,
            hregs₁ q hqrsp]

/-- A division leaves its value in the register of the dividend, and keeps every other register that
is saved or not involved. -/
theorem exists_divide (saveRax saveRdx : Bool) {result dividend divisor : Register} {a b : Int64}
    (hroom : env.stackLimit + 16 ≤ (m.regs .rsp).toNat) (hdividend : dividend ∈ Register.scratch)
    (hdivisor : divisor ∈ Register.scratch) (hrax : divisor ≠ .rax)
    (hsave : saveRax = true → dividend ≠ .rax) (hresult : result = .rax ∨ result = .rdx)
    (ha : m.regs dividend = a.toBitVec) (hb : m.regs divisor = b.toBitVec) (h : Divides a b) :
    ∃ m', RunsTo env (Lowering.divideCode saveRax saveRdx result dividend divisor) m m' ∧
      m'.regs dividend = (if result = .rax then a / b else a % b).toBitVec ∧ Below 16 m m' ∧
      ∀ q, q ≠ dividend → (q = .rax → saveRax = true) → (q = .rdx → saveRdx = true) →
        m'.regs q = m.regs q := by
  have hscratch : ∀ q ∈ Register.scratch, q ≠ .rsp ∧ q ≠ .rdx := by decide
  obtain ⟨hrsp, hrdx⟩ := hscratch dividend hdividend
  obtain ⟨hrsp', hrdx'⟩ := hscratch divisor hdivisor
  have hroom₁ : env.stackLimit + 8 ≤ (m.regs .rsp).toNat := by omega
  obtain ⟨m', hrun, hvalue, hbelow, hregs⟩ : Delivers env _ _ _ _ _ m :=
    .saving (r := .rax) hroom₁ (by decide) (by decide) hrsp hsave fun m₁ hsp₁ hregs₁ =>
      .saving (r := .rdx) (Nat.le_of_add_le_add_right (Nat.le_trans hroom hsp₁)) (by decide)
        (by decide) hrsp (fun _ => hrdx) fun m₂ _ hregs₂ =>
          delivers_idiv hresult hrax hrdx' hrsp (by rw [hregs₂ _ hrsp, hregs₁ _ hrsp, ha])
            (by rw [hregs₂ _ hrsp', hregs₁ _ hrsp', hb]) h
  rw [divideCode_eq]
  refine ⟨m', hrun, hvalue, hbelow, fun q hq hqrax hqrdx => hregs q hq ?_⟩
  rintro ⟨⟨rfl | rfl, hnot⟩, hnot'⟩
  · exact hnot' ⟨hqrax rfl, rfl⟩
  · exact hnot ⟨hqrdx rfl, rfl⟩

end Machine

end MiniJ
