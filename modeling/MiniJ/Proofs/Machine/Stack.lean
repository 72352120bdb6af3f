import MiniJ.Proofs.Assembly.Register
import MiniJ.Proofs.Machine.Execution

/-!
# The stack

Words that code has pushed, as a list with the last one first. What code keeps is the memory from
its stack pointer up to `bottom`, the lowest address of the frame it runs in.

## Main definitions

* `Machine.Kept` — code leaves the pushed words alone.
* `Machine.Pushed` — words were pushed since a machine state.
* `Machine.Returns` — what a callee does to the stack of its caller.
-/
namespace MiniJ

/-- The words in memory from an address on. -/
def Memory.Stacked (mem : Memory) : Word → List Word → Prop
  | _, [] => True
  | sp, w :: ws => BitVec.ofNat 64 (mem.read sp 8) = w ∧ Stacked mem (sp + 8#64) ws

namespace Memory

variable {mem mem' : Memory} {sp : Word} {ws ws' : List Word}

theorem Stacked.congr (h : mem.Stacked sp ws) (hlength : 8 * ws.length < 18446744073709551616)
    (hmem : ∀ x : Word, (x - sp).toNat < 8 * ws.length → mem' x = mem x) : mem'.Stacked sp ws := by
  induction ws generalizing sp with
  | nil => trivial
  | cons w ws ih =>
    rw [List.length_cons] at hlength hmem
    refine ⟨?_, ih h.2 (by omega) fun x hx => hmem x (by bv_omega)⟩
    rw [read_congr (by decide) fun x hx => hmem x (by omega)]
    exact h.1

/-- Bytes that some words take. -/
def span (ws : List Word) : Word := BitVec.ofNat 64 (8 * ws.length)

theorem stacked_append :
    mem.Stacked sp (ws ++ ws') ↔ mem.Stacked sp ws ∧ mem.Stacked (sp + span ws) ws' := by
  induction ws generalizing sp with
  | nil => simp [Stacked, span]
  | cons w ws ih =>
    have hspan : sp + span (w :: ws) = sp + 8#64 + span ws := by
      simp only [span, List.length_cons]
      bv_omega
    simp only [List.cons_append, Stacked, ih, hspan, and_assoc]

theorem Stacked.get {i : Nat} {w : Word} (h : mem.Stacked sp ws) (hw : ws[i]? = some w) :
    BitVec.ofNat 64 (mem.read (sp + BitVec.ofNat 64 (8 * i)) 8) = w := by
  induction ws generalizing sp i with
  | nil => simp at hw
  | cons v ws ih =>
    cases i with
    | zero =>
      cases hw
      rw [Nat.mul_zero, BitVec.add_zero]
      exact h.1
    | succ i =>
      have haddress : sp + BitVec.ofNat 64 (8 * (i + 1)) = sp + 8#64 + BitVec.ofNat 64 (8 * i) := by
        bv_omega
      rw [haddress]
      exact ih h.2 hw

theorem exists_stacked (mem : Memory) (sp : Word) (n : Nat) :
    ∃ ws, ws.length = n ∧ mem.Stacked sp ws := by
  induction n generalizing sp with
  | zero => exact ⟨[], rfl, trivial⟩
  | succ n ih =>
    obtain ⟨ws, hlength, hws⟩ := ih (sp + 8#64)
    exact ⟨_ :: ws, by simp [hlength], rfl, hws⟩

/-- What was written is on top. -/
theorem stacked_write (w : Word) (hlength : 8 * ws.length + 8 < 18446744073709551616)
    (h : mem.Stacked sp ws) : (mem.write (sp - 8#64) 8 w.toNat).Stacked (sp - 8#64) (w :: ws) := by
  refine ⟨?_, ?_⟩
  · rw [read_write (by decide) (by simpa [capacity] using w.isLt), BitVec.ofNat_toNat,
      BitVec.setWidth_eq]
  · rw [BitVec.sub_add_cancel]
    refine h.congr (by omega) fun x hx => ?_
    apply if_neg
    bv_omega

end Memory

namespace Machine

variable {env : Environment} {bottom : Word} {m m' m₀ m₁ m₂ : Machine} {ws : List Word} {w : Word}
  {r : Register}

/-- Code leaves its caller's registers for the stack and the words up to `bottom` as they were. -/
structure Kept (bottom : Word) (m m' : Machine) : Prop where
  rsp : m'.regs .rsp = m.regs .rsp
  rbp : m'.regs .rbp = m.regs .rbp
  mem : ∀ x : Word, (x - m.regs .rsp).toNat < (bottom - m.regs .rsp).toNat → m'.mem x = m.mem x

theorem Kept.refl (m : Machine) : Kept bottom m m := ⟨rfl, rfl, fun _ _ => rfl⟩

theorem Kept.trans (h : Kept bottom m m₁) (h' : Kept bottom m₁ m') : Kept bottom m m' := by
  refine ⟨h'.rsp.trans h.rsp, h'.rbp.trans h.rbp, fun x hx => ?_⟩
  rw [h'.mem x (by rwa [h.rsp]), h.mem x hx]

/-- The words `ws` were pushed since `m₀`; everything above them is as it was. -/
structure Pushed (bottom : Word) (m₀ : Machine) (ws : List Word) (m : Machine) : Prop where
  above : (m₀.regs .rsp).toNat ≤ bottom.toNat
  rsp : (m.regs .rsp).toNat + 8 * ws.length = (m₀.regs .rsp).toNat
  rbp : m.regs .rbp = m₀.regs .rbp
  stacked : m.mem.Stacked (m.regs .rsp) ws
  mem : ∀ x : Word, (x - m₀.regs .rsp).toNat < (bottom - m₀.regs .rsp).toNat → m.mem x = m₀.mem x

theorem Pushed.refl (h : (m.regs .rsp).toNat ≤ bottom.toNat) : Pushed bottom m [] m :=
  ⟨h, rfl, rfl, trivial, fun _ _ => rfl⟩

/-- Code that leaves pushed words alone. -/
theorem Pushed.kept (h : Pushed bottom m₀ ws m) (hkept : Kept bottom m m') :
    Pushed bottom m₀ ws m' := by
  have hrsp := h.rsp
  have habove := h.above
  refine ⟨habove, by rw [hkept.rsp]; exact hrsp, hkept.rbp.trans h.rbp, ?_, fun x hx => ?_⟩
  · rw [hkept.rsp]
    refine h.stacked.congr (by omega) fun x hx => hkept.mem x ?_
    bv_omega
  · rw [hkept.mem x (by bv_omega), h.mem x hx]

/-- An instruction that does not touch the stack. -/
theorem Pushed.quiet (h : Pushed bottom m₀ ws m) {mnemonic : Mnemonic} {operands : List Operand}
    (hexec : m.exec env mnemonic operands = some m') (hmem : keepsMemory mnemonic operands = true)
    (hrsp : .rsp ∉ written mnemonic operands) (hrbp : .rbp ∉ written mnemonic operands) :
    Pushed bottom m₀ ws m' := by
  have hregs := exec_regs hexec hrsp
  refine ⟨h.above, by rw [hregs]; exact h.rsp, (exec_regs hexec
    hrbp).trans h.rbp, ?_, fun x hx => ?_⟩
  · rw [hregs, exec_mem hexec hmem]
    exact h.stacked
  · rw [exec_mem hexec hmem]
    exact h.mem x hx

theorem push_eq_some (h : m.push env w = some m') :
    8 ≤ (m.regs .rsp).toNat ∧ m' = { m.set .rsp (m.regs .rsp - 8#64) with
      mem := m.mem.write (m.regs .rsp - 8#64) 8 w.toNat } := by
  unfold push at h
  split at h
  · next hlimit =>
    cases h
    exact ⟨by omega, rfl⟩
  · cases h

theorem Pushed.push (h : Pushed bottom m₀ ws m) (hpush : m.push env w = some m') :
    Pushed bottom m₀ (w :: ws) m' := by
  obtain ⟨hlimit, rfl⟩ := push_eq_some hpush
  have hrsp := h.rsp
  have habove := h.above
  have hlt := (m₀.regs .rsp).isLt
  refine ⟨habove, ?_, ?_, ?_, fun x hx => ?_⟩
  · simp only [regs_set_self, List.length_cons]
    bv_omega
  · exact h.rbp
  · simp only [regs_set_self]
    exact Memory.stacked_write w (by omega) h.stacked
  · rw [← h.mem x hx]
    apply if_neg
    bv_omega

theorem Pushed.pop (h : Pushed bottom m₀ (w :: ws) m) (hr : r ≠ .rsp) (hr' : r ≠ .rbp) :
    Pushed bottom m₀ ws (m.pop r) ∧ (m.pop r).regs r = w := by
  have hrsp := h.rsp
  rw [List.length_cons] at hrsp
  have hsp : (m.pop r).regs .rsp = m.regs .rsp + 8#64 := by
    rw [Machine.pop, regs_set_of_ne _ _ hr.symm, regs_set_self]
  refine ⟨⟨h.above, ?_, ?_, ?_, fun x hx => h.mem x hx⟩, ?_⟩
  · rw [hsp]
    bv_omega
  · rw [Machine.pop, regs_set_of_ne _ _ hr'.symm, regs_set_of_ne _ _ (by decide)]
    exact h.rbp
  · rw [hsp]
    exact h.stacked.2
  · rw [Machine.pop, regs_set_self]
    exact h.stacked.1

/-- Room for a word that nothing is put into. -/
theorem Pushed.padding (h : Pushed bottom m₀ ws m)
    (hexec : m.exec env .sub [.reg .rsp, .imm 8] = some m') :
    ∃ w, Pushed bottom m₀ (w :: ws) m' := by
  have hstep : 8 ≤ (m.regs .rsp).toNat ∧ m' = (m.set .rsp (m.regs .rsp - 8#64)).clear := by
    obtain ⟨v, hv, hlimit, rfl⟩ := subtract_eq_some hexec
    have hconst : (Int64.toBitVec 8).toInt = 8 := rfl
    cases hv
    have hroom := hlimit rfl
    exact ⟨by omega, rfl⟩
  obtain ⟨hlimit, rfl⟩ := hstep
  have hrsp := h.rsp
  refine ⟨_, h.above, ?_, ?_, ⟨rfl, ?_⟩, h.mem⟩
  · simp only [regs_clear, regs_set_self, List.length_cons]
    bv_omega
  · exact h.rbp
  · simp only [regs_clear, regs_set_self, BitVec.sub_add_cancel]
    exact h.stacked

/-- Words are dropped. -/
theorem Pushed.drop {n : Nat} (h : Pushed bottom m₀ ws m) (hn : n ≤ ws.length)
    (hexec : m.exec env .add [.reg .rsp, .imm (Int64.ofNat (8 * n))] = some m') :
    Pushed bottom m₀ (ws.drop n) m' := by
  obtain ⟨v, hv, rfl⟩ := combine_eq_some hexec
  have hv' : v = BitVec.ofNat 64 (8 * n) := by
    simp only [argument] at hv
    split at hv
    · cases hv
      rfl
    · cases hv
  have hrsp := h.rsp
  have hlt := (m₀.regs .rsp).isLt
  have hstacked := h.stacked
  rw [← List.take_append_drop n ws, Memory.stacked_append] at hstacked
  rw [hv']
  refine ⟨h.above, ?_, ?_, ?_, h.mem⟩
  · simp only [regs_clear, regs_set_self, List.length_drop]
    bv_omega
  · exact h.rbp
  · simp only [regs_clear, regs_set_self]
    simpa [Memory.span, Nat.min_eq_left hn] using hstacked.2

/-- What a callee that was passed `words` words on the stack does to its caller: it takes the return
address and keeps the memory above its arguments up to `bottom`. -/
structure Returns (words : Nat) (bottom : Word) (m m' : Machine) : Prop where
  rsp : m'.regs .rsp = m.regs .rsp + 8#64
  rbp : m'.regs .rbp = m.regs .rbp
  mem : ∀ x : Word, (x - (m.regs .rsp + BitVec.ofNat 64 (8 + 8 * words))).toNat <
    (bottom - (m.regs .rsp + BitVec.ofNat 64 (8 + 8 * words))).toNat → m'.mem x = m.mem x

/-- A call leaves everything but the words of its arguments. -/
theorem Pushed.call {words : Nat} {back : Word} (h : Pushed bottom m₀ ws m)
    (hwords : words ≤ ws.length)
    (hpush : m.push env back = some m₁) (hreturns : Returns words bottom m₁ m₂) :
    ∃ ws', ws'.length = words ∧ Pushed bottom m₀ (ws' ++ ws.drop words) m₂ := by
  have hentry := h.push hpush
  have hrsp := hentry.rsp
  have habove := h.above
  have hlt := (m₀.regs .rsp).isLt
  rw [List.length_cons] at hrsp
  obtain ⟨ws', hlength, hstacked⟩ := m₂.mem.exists_stacked (m₂.regs .rsp) words
  have hrest := hentry.stacked.2
  rw [← List.take_append_drop words ws, Memory.stacked_append] at hrest
  refine ⟨ws', hlength, habove, ?_, hreturns.rbp.trans hentry.rbp, ?_, fun x hx => ?_⟩
  · rw [hreturns.rsp, List.length_append, hlength, List.length_drop]
    bv_omega
  · refine Memory.stacked_append.2 ⟨hstacked, ?_⟩
    have haddress : m₂.regs .rsp + Memory.span ws' =
        m₁.regs .rsp + 8#64 + Memory.span (ws.take words) := by
      rw [hreturns.rsp, Memory.span, Memory.span, hlength, List.length_take,
        Nat.min_eq_left hwords]
    rw [haddress]
    refine hrest.2.congr (by rw [List.length_drop]; omega) fun x hx => hreturns.mem x ?_
    simp only [Memory.span, List.length_take, List.length_drop, Nat.min_eq_left hwords] at hx
    bv_omega
  · rw [hreturns.mem x (by bv_omega), hentry.mem x hx]

/-! ### Many registers -/

variable {guard : Mnemonic → List Operand → Machine → Prop} {rs : List Register}

theorem runs_push_cons {code : List Line} (h : Runs env guard (.push r :: code) m m') :
    ∃ m₁, m.push env (m.regs r) = some m₁ ∧ Runs env guard code m₁ m' := by
  obtain ⟨m₁, -, hexec, hrun⟩ := (runs_cons (by decide)).1 h
  exact ⟨m₁, hexec, hrun⟩

theorem runs_pop_cons {code : List Line} (h : Runs env guard (.pop r :: code) m m') :
    Runs env guard code (m.pop r) m' := by
  obtain ⟨m₁, -, hexec, hrun⟩ := (runs_cons (by decide)).1 h
  cases hexec
  exact hrun

theorem regs_push (h : m.push env w = some m') (hr : r ≠ .rsp) : m'.regs r = m.regs r := by
  obtain ⟨-, rfl⟩ := push_eq_some h
  exact regs_set_of_ne _ _ hr

theorem regs_pop_of_ne {q : Register} (hq : q ≠ r) (hq' : q ≠ .rsp) :
    (m.pop r).regs q = m.regs q := by
  rw [pop, regs_set_of_ne _ _ hq, regs_set_of_ne _ _ hq']

theorem Pushed.pushAll (h : Pushed bottom m₀ ws m) (hrs : .rsp ∉ rs)
    (hrun : Runs env guard (rs.map .push) m m') :
    Pushed bottom m₀ (rs.reverse.map m.regs ++ ws) m' ∧
      ∀ q, q ≠ .rsp → m'.regs q = m.regs q := by
  induction rs generalizing ws m with
  | nil =>
    obtain rfl := runs_nil.1 hrun
    exact ⟨h, fun _ _ => rfl⟩
  | cons r rs ih =>
    obtain ⟨m₁, hpush, hrest⟩ := runs_push_cons hrun
    obtain ⟨hpushed, hregs⟩ := ih (h.push hpush) (fun hmem => hrs (by simp [hmem])) hrest
    have hkeep : ∀ q, q ≠ .rsp → m₁.regs q = m.regs q := fun q hq => regs_push hpush hq
    refine ⟨?_, fun q hq => (hregs q hq).trans (hkeep q hq)⟩
    have hmap : rs.reverse.map m₁.regs = rs.reverse.map m.regs := by
      apply List.map_congr_left
      intro q hq
      apply hkeep
      rintro rfl
      exact hrs (List.mem_cons_of_mem _ (List.mem_reverse.1 hq))
    rw [hmap] at hpushed
    simpa using hpushed

theorem Pushed.popAll {vs : List Word} (h : Pushed bottom m₀ (vs ++ ws) m)
    (hlength : vs.length = rs.length) (hnodup : rs.Nodup) (hrs : ∀ r ∈ rs, r ∈ Register.tracked)
    (hrun : Runs env guard (rs.map .pop) m m') :
    Pushed bottom m₀ ws m' ∧ rs.map m'.regs = vs ∧
      ∀ q, q ∉ rs → q ≠ .rsp → m'.regs q = m.regs q := by
  induction rs generalizing vs m with
  | nil =>
    obtain rfl := runs_nil.1 hrun
    obtain rfl := List.eq_nil_of_length_eq_zero hlength
    exact ⟨h, rfl, fun _ _ _ => rfl⟩
  | cons r rs ih =>
    obtain ⟨v, vs, rfl⟩ : ∃ v vs', vs = v :: vs' := List.exists_cons_of_length_eq_add_one hlength
    obtain ⟨hr, hnodup⟩ := List.nodup_cons.1 hnodup
    have htracked := hrs r (by simp)
    have hne := Register.ne_rsp_of_tracked htracked
    obtain ⟨hpushed, hv⟩ := Pushed.pop h hne (Register.ne_rbp_of_tracked htracked)
    obtain ⟨hpushed', hmap, hregs⟩ := ih hpushed (by simpa using hlength) hnodup
      (fun q hq => hrs q (by simp [hq])) (runs_pop_cons hrun)
    refine ⟨hpushed', ?_, fun q hq hq' => ?_⟩
    · rw [List.map_cons, hmap, hregs r hr hne, hv]
    · simp only [List.mem_cons, not_or] at hq
      rw [hregs q hq.2 hq', regs_pop_of_ne hq.1 hq']

end Machine

end MiniJ
