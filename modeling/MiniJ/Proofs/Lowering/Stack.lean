import MiniJ.Proofs.Lowering.Place
import MiniJ.Proofs.Machine.Stack
import Mathlib.Data.List.Nodup

/-!
# Lowered code and the stack

The code of an expression gives back every word it pushes and leaves the words below the frame
alone: its stores to variables of the function hit the frame, and its other stores are assumed to
hit what references and array handles stand for.

## Main definitions

* `Machine.Spares` — the assumption on stores through pointers.
* `Lowering.Conventional` — the assumption on callees.

## Main statements

* `Lowering.keepsStack_atDepth` — expressions and places keep the stack.
* `Lowering.run_call` — what a call does to stack and registers.
-/
namespace MiniJ

namespace Machine

variable {env : Environment} {bottom : Word} {m m' : Machine}

/-- A store that is not addressed from the frame pointer leaves the words between the stack pointer
and `bottom` alone: references, handles and globals stand for other memory. -/
def Spares (env : Environment) (bottom : Word) (_ : Mnemonic) (operands : List Operand)
    (m : Machine) : Prop :=
  ∀ width a rest, operands = .mem width a :: rest → a.base ≠ .register .rbp →
    Memory.Apart (m.locate env a) width.bytes (m.regs .rsp) (bottom - m.regs .rsp).toNat

theorem kept_of_exec {mnemonic : Mnemonic} {operands : List Operand}
    (hexec : m.exec env mnemonic operands = some m') (hmem : keepsMemory mnemonic operands = true)
    (hrsp : .rsp ∉ written mnemonic operands) (hrbp : .rbp ∉ written mnemonic operands) :
    Kept bottom m m' :=
  ⟨exec_regs hexec hrsp, exec_regs hexec hrbp, fun _ _ => by rw [exec_mem hexec hmem]⟩

theorem exec_store {width : Width} {a : Address} {source : Operand}
    (hexec : m.exec env .mov [.mem width a, source] = some m') :
    ∃ w, m.value env source = some w ∧
      m' = { m with mem := m.mem.write (m.locate env a) width.bytes w.toNat } := by
  simp only [exec] at hexec
  split at hexec
  · obtain ⟨w, hw, hassign⟩ := Option.bind_eq_some_iff.1 hexec
    cases hassign
    exact ⟨w, hw, rfl⟩
  · cases hexec

theorem kept_of_store {width : Width} {a : Address} {source : Operand}
    (hexec : m.exec env .mov [.mem width a, source] = some m')
    (hapart : Memory.Apart (m.locate env a) width.bytes (m.regs .rsp)
      (bottom - m.regs .rsp).toNat) :
    Kept bottom m m' := by
  obtain ⟨w, -, rfl⟩ := exec_store hexec
  exact ⟨rfl, rfl, fun x hx => Memory.write_of_apart hapart hx⟩

end Machine

namespace Lowering

open Gen Machine

variable {lower : Lowering} {cx : Context} {u : UnitNode} {f : FunctionNode} {env : Environment}
  {bottom : Word} {s s' : State} {code : List Line} {id : NodeId} {ty : Ty} {m m' : Machine}

/-- The machine runs code of the function: the stack is below `bottom`, the frame is between
`bottom` and the frame pointer, and nothing reaches the end of memory. -/
structure Ready (cx : Context) (f : FunctionNode) (bottom : Word) (m : Machine) : Prop where
  stack : (m.regs .rsp).toNat ≤ bottom.toNat
  frame : bottom.toNat + cx.frame.size ≤ (m.regs .rbp).toNat
  top : (m.regs .rbp).toNat + 2147483664 + 8 * f.params.length ≤ 18446744073709551616

theorem Ready.kept (h : Ready cx f bottom m) (hkept : Kept bottom m m') : Ready cx f bottom m' :=
  ⟨by rw [hkept.rsp]; exact h.stack, by rw [hkept.rbp]; exact h.frame,
    by rw [hkept.rbp]; exact h.top⟩

/-- A place that is addressed from the frame pointer is not among the pushed words. -/
theorem Grounded.apart {δ : Int} {n : Nat} (h : Grounded cx f ty δ) (hready : Ready cx f bottom m)
    (hn : n ≤ 8) : Memory.Apart (m.regs .rbp + BitVec.ofInt 64 δ) n (m.regs .rsp)
      (bottom - m.regs .rsp).toNat := by
  have hlower := h.lower
  have hupper := h.upper
  obtain ⟨hstack, hframe, htop⟩ := hready
  intro x hx hx'
  have hδ : (BitVec.ofInt 64 δ).toNat = _ := BitVec.toNat_ofInt δ
  bv_omega

/-! ### Instructions -/

variable {guard : Mnemonic → List Operand → Machine → Prop} {r : Register} {line : Line}

theorem kept_line {mnemonic : Mnemonic} {operands : List Operand} (hcall : mnemonic ≠ .call)
    (hmem : keepsMemory mnemonic operands = true) (hr : r ∈ Register.tracked)
    (hwritten : written mnemonic operands = [r])
    (hrun : Runs env guard [.instruction mnemonic operands] m m') : Kept bottom m m' := by
  obtain ⟨m₁, -, hexec, hdone⟩ := (runs_cons hcall).1 hrun
  obtain rfl := runs_nil.1 hdone
  have hrsp := (Register.ne_rsp_of_tracked hr).symm
  have hrbp := (Register.ne_rbp_of_tracked hr).symm
  exact kept_of_exec hexec hmem (by simpa [hwritten] using hrsp) (by simpa [hwritten] using hrbp)

theorem kept_move {q : Register} (hr : r ∈ Register.tracked)
    (hrun : Runs env guard [.move r q] m m') : Kept bottom m m' :=
  kept_line (by decide) rfl hr rfl hrun

theorem Loads.kept {location : Location} (h : Loads cx ty r location line)
    (hr : r ∈ Register.tracked) (hrun : Runs env guard [line] m m') : Kept bottom m m' := by
  cases h with
  | register source => exact kept_move hr hrun
  | @memory address n size =>
    cases hwidth : Width.ofSize n <;> rw [hwidth] at hrun <;>
      exact kept_line (by decide) rfl hr rfl hrun

theorem Stores.kept {location : Location} (h : Stores cx ty r location line)
    (hsited : Sited cx f ty location) (hready : Ready cx f bottom m)
    (hrun : Runs env (Spares env bottom) [line] m m') : Kept bottom m m' := by
  cases h with
  | register target =>
    cases hsited with
    | register argument => exact kept_move (Register.mem_tracked_of_arguments argument) hrun
  | @memory address n size =>
    obtain ⟨m₁, hspares, hexec, hdone⟩ := (runs_cons (by decide)).1 hrun
    obtain rfl := runs_nil.1 hdone
    cases hsited with
    | memory grounded =>
      refine kept_of_store hexec ?_
      by_cases hbase : address.base = .register .rbp
      · have hlocate : m.locate env address =
            m.regs .rbp + BitVec.ofInt 64 address.displacement := by
          rw [locate, hbase]
        rw [hlocate]
        exact (grounded hbase).apart hready (by cases Width.ofSize n <;> decide)
      · exact hspares _ _ _ rfl hbase

/-! ### Divisions -/

variable {m₀ : Machine} {ws : List Word}

theorem Pushed.toKept (h : Pushed bottom m [] m') : Kept bottom m m' := by
  have hrsp := h.rsp
  simp only [List.length_nil, Nat.mul_zero, Nat.add_zero] at hrsp
  exact ⟨BitVec.eq_of_toNat_eq hrsp, h.rbp, h.mem⟩

theorem Ready.refl_pushed (h : Ready cx f bottom m) : Pushed bottom m [] m := .refl h.stack

theorem pushed_optional_push {c : Prop} [Decidable c] {rest : List Line}
    (h : Pushed bottom m₀ ws m)
    (hrun : Runs env guard ((if c then [.push r] else []) ++ rest) m m') :
    ∃ m₁, Pushed bottom m₀ ((if c then [m.regs r] else []) ++ ws) m₁ ∧
      (∀ q, q ≠ .rsp → m₁.regs q = m.regs q) ∧ Runs env guard rest m₁ m' := by
  by_cases hc : c
  · rw [if_pos hc] at hrun
    obtain ⟨m₁, hpush, hrest⟩ := runs_push_cons hrun
    exact ⟨m₁, by simpa [hc] using h.push hpush, fun q hq => regs_push hpush hq, hrest⟩
  · rw [if_neg hc] at hrun
    exact ⟨m, by simpa [hc] using h, fun _ _ => rfl, hrun⟩

theorem pushed_optional_pop {c : Prop} [Decidable c] {w : Word} {rest : List Line}
    (hr : r ∈ Register.tracked) (h : Pushed bottom m₀ ((if c then [w] else []) ++ ws) m)
    (hrun : Runs env guard ((if c then [.pop r] else []) ++ rest) m m') :
    ∃ m₁, Pushed bottom m₀ ws m₁ ∧ (c → m₁.regs r = w) ∧
      (∀ q, q ≠ .rsp → q ≠ r → m₁.regs q = m.regs q) ∧ Runs env guard rest m₁ m' := by
  by_cases hc : c
  · rw [if_pos hc] at hrun h
    obtain ⟨hpushed, hw⟩ := Pushed.pop h (Register.ne_rsp_of_tracked hr)
      (Register.ne_rbp_of_tracked hr)
    exact ⟨m.pop r, hpushed, fun _ => hw, fun q hq hq' => regs_pop_of_ne hq' hq, runs_pop_cons hrun⟩
  · rw [if_neg hc] at hrun h
    exact ⟨m, h, fun h => absurd h hc, fun _ _ _ => rfl, hrun⟩

theorem regs_line {mnemonic : Mnemonic} {operands : List Operand} (hcall : mnemonic ≠ .call)
    (hr : r ∉ written mnemonic operands)
    (hrun : Runs env guard [.instruction mnemonic operands] m m') : m'.regs r = m.regs r := by
  obtain ⟨m₁, -, hexec, hdone⟩ := (runs_cons hcall).1 hrun
  obtain rfl := runs_nil.1 hdone
  exact exec_regs hexec hr

theorem regs_move {p q : Register} (hq : q ≠ r) (hrun : Runs env guard [.move r p] m m') :
    m'.regs q = m.regs q := regs_line (by decide) (by simpa [written] using hq) hrun

theorem pushed_optional_move {c : Prop} [Decidable c] {q : Register} {rest : List Line}
    (hr : r ∈ Register.tracked) (h : Pushed bottom m₀ ws m)
    (hrun : Runs env guard ((if c then [.move r q] else []) ++ rest) m m') :
    ∃ m₁, Pushed bottom m₀ ws m₁ ∧ (∀ p, p ≠ r → m₁.regs p = m.regs p) ∧
      Runs env guard rest m₁ m' := by
  obtain ⟨m₁, hfirst, hrest⟩ := runs_append.1 hrun
  by_cases hc : c
  · rw [if_pos hc] at hfirst
    exact ⟨m₁, h.kept (kept_move hr hfirst), fun p hp => regs_move hp hfirst, hrest⟩
  · rw [if_neg hc] at hfirst
    obtain rfl := runs_nil.1 hfirst
    exact ⟨m₁, h, fun _ _ => rfl, hrest⟩

/-- A division keeps the stack and every register that is saved or not involved. -/
theorem run_divide {saveRax saveRdx : Bool} {result dividend divisor : Register}
    (hstack : (m.regs .rsp).toNat ≤ bottom.toNat) (hdividend : dividend ∈ Register.tracked)
    (hrun : Runs env guard (divideCode saveRax saveRdx result dividend divisor) m m') :
    Kept bottom m m' ∧ ∀ q, q ∈ Register.tracked → q ≠ dividend → (q = .rax → saveRax = true) →
      (q = .rdx → saveRdx = true) → m'.regs q = m.regs q := by
  obtain ⟨m₁, hpushed₁, hregs₁, hrun₁⟩ := pushed_optional_push (.refl hstack) hrun
  obtain ⟨m₂, hpushed₂, hregs₂, hrun₂⟩ := pushed_optional_push hpushed₁ hrun₁
  obtain ⟨m₃, hpushed₃, hregs₃, hrun₃⟩ := pushed_optional_move (by decide) hpushed₂ hrun₂
  obtain ⟨m₄, -, hcqo, hrun₄⟩ := (runs_cons (by decide)).1 hrun₃
  obtain ⟨m₅, -, hidiv, hrun₅⟩ := (runs_cons (by decide)).1 hrun₄
  have hpushed₄ := hpushed₃.quiet hcqo rfl (by simp [written]) (by simp [written])
  have hpushed₅ := hpushed₄.quiet hidiv rfl (by simp [written]) (by simp [written])
  obtain ⟨m₆, hpushed₆, hregs₆, hrun₆⟩ := pushed_optional_move hdividend hpushed₅ hrun₅
  obtain ⟨m₇, hpushed₇, hrdx, hregs₇, hrun₇⟩ := pushed_optional_pop (by decide) hpushed₆ hrun₆
  rw [← List.append_nil (if saveRax = true then [Line.pop .rax] else [])] at hrun₇
  obtain ⟨m₈, hpushed₈, hrax, hregs₈, hdone⟩ := pushed_optional_pop (by decide) hpushed₇ hrun₇
  obtain rfl := runs_nil.1 hdone
  refine ⟨Pushed.toKept hpushed₈, fun q hq hne hsaveRax hsaveRdx => ?_⟩
  have hrsp := Register.ne_rsp_of_tracked hq
  by_cases hqrax : q = .rax
  · subst hqrax
    exact hrax (hsaveRax rfl)
  · rw [hregs₈ q hrsp hqrax]
    by_cases hqrdx : q = .rdx
    · subst hqrdx
      rw [hrdx (hsaveRdx rfl), hregs₁ .rdx hrsp]
    · rw [hregs₇ q hrsp hqrdx, hregs₆ q hne, exec_regs hidiv (by simp [written, hqrax, hqrdx]),
        exec_regs hcqo (by simp [written, hqrdx]), hregs₃ q hqrax, hregs₂ q hrsp, hregs₁ q hrsp]

/-! ### Expressions without calls -/

/-- Typed expressions and places keep the stack. -/
structure KeepsStack (lower : Lowering) (cx : Context) (u : UnitNode) (f : FunctionNode)
    (env : Environment) (bottom : Word) : Prop where
  expression : ∀ {id ty s r code s' m m'}, cx.arena.Typed u cx.table cx.info id ty →
    Emits (lower.expression id) cx s r code s' → Ready cx f bottom m →
    Runs env (Spares env bottom) code m m' → Kept bottom m m'
  place : ∀ {id ty s p code s' m m'}, cx.arena.Typed u cx.table cx.info id ty →
    Emits (lower.place id) cx s p code s' → Ready cx f bottom m →
    Runs env (Spares env bottom) code m m' → Kept bottom m m'

/-- What is known about the parts of an expression. -/
structure Known (lower : Lowering) (cx : Context) (u : UnitNode) (f : FunctionNode)
    (env : Environment) (bottom : Word) : Prop where
  disciplined : Disciplined lower cx u
  sited : SitedPlaces lower cx u f
  keeps : KeepsStack lower cx u f env bottom

variable {t : State}

theorem PlaceShape.kept {p : Place} (hlower : Known lower cx u f env bottom)
    (htyped : cx.arena.Typed u cx.table cx.info id ty) (h : PlaceShape lower cx id s p code s')
    (hready : Ready cx f bottom m) (hrun : Runs env (Spares env bottom) code m m') :
    Kept bottom m m' := by
  cases h with
  | global | register | registerReference | frame =>
    obtain rfl := runs_nil.1 hrun
    exact .refl m'
  | frameReference kind stored claimed =>
    exact kept_line (by decide) rfl claimed.tracked rfl hrun
  | field kind type field outer =>
    obtain ⟨_, hbase⟩ := htyped.child kind (.head _)
    exact hlower.keeps.place hbase outer hready hrun
  | element kind type size array position released =>
    obtain ⟨_, hbase⟩ := htyped.child kind (.head _)
    obtain ⟨_, hindex⟩ := htyped.child kind (.tail _ (.head _))
    obtain ⟨m₁, hrun₁, hrest⟩ := runs_append.1 hrun
    obtain ⟨m₂, hrun₂, hrest⟩ := runs_append.1 hrest
    obtain ⟨m₃, hmul, hadd⟩ := runs_line.1 hrest
    have hkept₁ := hlower.keeps.expression hbase array hready hrun₁
    have hkept₂ := hlower.keeps.expression hindex position (hready.kept hkept₁) hrun₂
    have hpointer := (hlower.disciplined.expression hbase array).tracked
    have hoffset := (hlower.disciplined.expression hindex position).tracked
    have hkept₃ : Kept bottom m₂ m₃ := kept_line (by decide) rfl hoffset rfl hmul
    have hkept₄ : Kept bottom m₃ m' := kept_line (by decide) rfl hpointer rfl hadd
    exact ((hkept₁.trans hkept₂).trans hkept₃).trans hkept₄

theorem StepShape.kept {op : UnaryOp} {operand : NodeId}
    (hlower : Known lower cx u f env bottom)
    (htyped : cx.arena.Typed u cx.table cx.info operand ty)
    (h : StepShape lower cx op operand s r code s') (hready : Ready cx f bottom m)
    (hrun : Runs env (Spares env bottom) code m m') : Kept bottom m m' := by
  have hchange : change op ≠ .call := by cases op <;> decide
  have hwritten : ∀ q : Register, keepsMemory (change op) [.reg q, .imm 1] = true ∧
      written (change op) [.reg q, .imm 1] = [q] := by
    intro q
    cases op <;> exact ⟨rfl, rfl⟩
  cases h with
  | @before ty' p c t _ load store order reads stores released =>
    obtain ⟨htype, ⟨v, hplace, hvalue⟩, hload⟩ := reads
    cases htype.symm.trans htyped.noted
    obtain ⟨m₁, hrun₁, hrest⟩ := runs_append.1 hrun
    obtain ⟨m₂, hrun₂, hrest⟩ := runs_line.1 hrest
    obtain ⟨m₃, hrun₃, hrun₄⟩ := runs_line.1 hrest
    have hr := hvalue.tracked
    have hkept₁ := hlower.keeps.place htyped hplace hready hrun₁
    have hkept₂ := hkept₁.trans (hload.kept hr hrun₂)
    have hkept₃ := hkept₂.trans (kept_line hchange (hwritten r).1 hr (hwritten r).2 hrun₃)
    exact hkept₃.trans
      (stores.kept (hlower.sited htyped hplace) (hready.kept hkept₃) hrun₄)
  | @after ty' p c t t₁ t₂ _ load store updated order reads claimed stores dropped released =>
    obtain ⟨htype, ⟨v, hplace, hvalue⟩, hload⟩ := reads
    cases htype.symm.trans htyped.noted
    obtain ⟨m₁, hrun₁, hrest⟩ := runs_append.1 hrun
    obtain ⟨m₂, hrun₂, hrest⟩ := runs_line.1 hrest
    obtain ⟨m₃, hrun₃, hrest⟩ := runs_line.1 hrest
    obtain ⟨m₄, hrun₄, hrun₅⟩ := runs_line.1 hrest
    have hr := hvalue.tracked
    have hq := claimed.tracked
    have hkept₁ := hlower.keeps.place htyped hplace hready hrun₁
    have hkept₂ := hkept₁.trans (hload.kept hr hrun₂)
    have hkept₃ := hkept₂.trans (kept_move hq hrun₃)
    have hkept₄ := hkept₃.trans
      (kept_line hchange (hwritten updated).1 hq (hwritten updated).2 hrun₄)
    exact hkept₄.trans
      (stores.kept (hlower.sited htyped hplace) (hready.kept hkept₄) hrun₅)

theorem Clears.kept {divisor d : Register} (h : Clears t divisor d code s')
    (hrun : Runs env guard code m m') : Kept bottom m m' := by
  cases h with
  | stays =>
    obtain rfl := runs_nil.1 hrun
    exact .refl m'
  | moved inRax claimed released => exact kept_move claimed.tracked hrun

theorem OperatorShape.kept {op : BinaryOp} {lhs rhs : Register}
    (h : OperatorShape op lhs rhs t code s') (hlhs : lhs ∈ Register.tracked)
    (hready : Ready cx f bottom m) (hrun : Runs env guard code m m') : Kept bottom m m' := by
  cases h with
  | @combine mnemonic _ operator released =>
    have hmnemonic : mnemonic ≠ .call ∧ keepsMemory mnemonic [.reg lhs, .reg rhs] = true ∧
        written mnemonic [.reg lhs, .reg rhs] = [lhs] := by
      cases op <;> cases operator <;> exact ⟨by decide, rfl, rfl⟩
    exact kept_line hmnemonic.1 hmnemonic.2.1 hlhs hmnemonic.2.2 hrun
  | compare operator released =>
    obtain ⟨m₁, -, hcmp, hrest⟩ := (runs_cons (by decide)).1 hrun
    obtain ⟨m₂, hset, hextend⟩ := runs_line.1 hrest
    have hkept₁ : Kept bottom m m₁ := kept_of_exec hcmp rfl (by simp [written]) (by simp [written])
    have hkept₂ : Kept bottom m₁ m₂ := kept_line (by simp) rfl hlhs rfl hset
    have hkept₃ : Kept bottom m₂ m' := kept_line (by decide) rfl hlhs rfl hextend
    exact (hkept₁.trans hkept₂).trans hkept₃
  | divide operator cleared released =>
    obtain ⟨m₁, hclear, hdivide⟩ := runs_append.1 hrun
    have hkept : Kept bottom m m₁ := cleared.kept hclear
    exact hkept.trans (run_divide (hready.kept hkept).stack hlhs hdivide).1

/-! ### Calls -/

/-- Arguments are computed one after the other, each into a register that is then pushed. The list
holds the words in the order in which they lie on the stack, the last one pushed first. -/
inductive Computes (lower : Lowering) (cx : Context) (env : Environment)
    (guard : Mnemonic → List Operand → Machine → Prop) :
    State → List (NodeId × Bool) → List Line → Machine → List Word → Machine → Prop
  | nil (s : State) (m : Machine) : Computes lower cx env guard s [] [] m [] m
  | cons {arg : NodeId} {byAddress : Bool} {rest : List (NodeId × Bool)} {r : Register}
      {code code' : List Line} {s t t' : State} {m m₁ m₂ m' : Machine} {words : List Word}
      (first : ArgumentShape lower cx arg s r byAddress code t) (run : Runs env guard code m m₁)
      (pushed : m₁.push env (m₁.regs r) = some m₂) (released : Releases r (t.grown 1) t')
      (others : Computes lower cx env guard t' rest code' m₂ words m') :
      Computes lower cx env guard s ((arg, byAddress) :: rest) (code ++ .push r :: code') m
        (words ++ [m₁.regs r]) m'

theorem Computes.length_eq {args : List (NodeId × Bool)} {words : List Word}
    (h : Computes lower cx env guard s args code m words m') : words.length = args.length := by
  induction h with
  | nil => rfl
  | cons first run pushed released others ih => simp [ih]

theorem ArgumentShape.kept {byAddress : Bool} (hlower : Known lower cx u f env bottom)
    (htyped : cx.arena.Typed u cx.table cx.info id ty)
    (h : ArgumentShape lower cx id s r byAddress code s') (hready : Ready cx f bottom m)
    (hrun : Runs env (Spares env bottom) code m m') : Kept bottom m m' := by
  have hr := (h.claims hlower.disciplined htyped).tracked
  cases h with
  | value computed => exact hlower.keeps.expression htyped computed hready hrun
  | address placed target =>
    obtain ⟨m₁, hplace, hlea⟩ := runs_append.1 hrun
    have hkept := hlower.keeps.place htyped placed hready hplace
    exact hkept.trans (kept_line (by decide) rfl hr rfl hlea)

/-- The stack of a machine that runs code of the function stays in bounds. -/
theorem Ready.pushed (h : Ready cx f bottom m₀) (hpushed : Pushed bottom m₀ ws m) :
    Ready cx f bottom m := by
  have hrsp := hpushed.rsp
  have hstack := h.stack
  exact ⟨by omega, by rw [hpushed.rbp]; exact h.frame, by rw [hpushed.rbp]; exact h.top⟩

theorem ArgumentsShape.run {args : List (NodeId × Bool)} (hlower : Known lower cx u f env bottom)
    (htyped : ∀ p ∈ args, ∃ ty, cx.arena.Typed u cx.table cx.info p.1 ty)
    (h : ArgumentsShape lower cx s args code s') (hready : Ready cx f bottom m₀)
    (hpushed : Pushed bottom m₀ ws m) (hrun : Runs env (Spares env bottom) code m m') :
    ∃ words, Computes lower cx env (Spares env bottom) s args code m words m' ∧
      Pushed bottom m₀ (words ++ ws) m' := by
  induction h generalizing ws m with
  | nil s =>
    obtain rfl := runs_nil.1 hrun
    exact ⟨[], .nil s m', hpushed⟩
  | cons first released others ih =>
    obtain ⟨_, hty⟩ := htyped _ (.head _)
    obtain ⟨m₁, hfirst, hrest⟩ := runs_append.1 hrun
    obtain ⟨m₂, hpush, hothers⟩ := runs_push_cons hrest
    have hkept := first.kept hlower hty (hready.pushed hpushed) hfirst
    obtain ⟨words, hcomputes, hdone⟩ := ih (fun p hp => htyped p (.tail _ hp))
      ((hpushed.kept hkept).push hpush) hothers
    exact ⟨_, .cons first hfirst hpush released hcomputes, by simpa using hdone⟩

/-- Every callee of a call in the program respects the calling convention. -/
def Conventional (cx : Context) (env : Environment) (bottom : Word) : Prop :=
  ∀ {id name args callee}, cx.arena.kind id = .ok (.call name args) → Calls cx id args callee →
    ∀ m m', env.callee callee.label m m' → Returns (stackWords args.length) bottom m m'

theorem live_tracked {q : Register} (h : q ∈ s.registers.live) : q ∈ Register.tracked :=
  RegisterFile.mem_tracked h

theorem rsp_not_live : .rsp ∉ s.registers.live :=
  fun h => absurd (live_tracked h) (by decide)

theorem pushed_padding {padding : Nat} (hpadding : padding < 2) (h : Pushed bottom m₀ ws m)
    (hrun : Runs env guard (paddingCode padding) m m') :
    ∃ junk, junk.length = padding ∧ Pushed bottom m₀ (junk ++ ws) m' := by
  unfold paddingCode at hrun
  split at hrun
  · next hone =>
    obtain ⟨m₁, -, hexec, hdone⟩ := (runs_cons (by decide)).1 hrun
    obtain rfl := runs_nil.1 hdone
    obtain ⟨w, hpushed⟩ := h.padding hexec
    exact ⟨[w], by simp [hone], hpushed⟩
  · next hone =>
    obtain rfl := runs_nil.1 hrun
    exact ⟨[], by simp; omega, h⟩

theorem pushed_drop {n : Nat} {vs : List Word} (h : Pushed bottom m₀ (vs ++ ws) m)
    (hn : vs.length = n) (hrun : Runs env guard (dropCode n) m m') :
    Pushed bottom m₀ ws m' ∧ m'.regs .rax = m.regs .rax := by
  unfold dropCode at hrun
  split at hrun
  · obtain ⟨m₁, -, hexec, hdone⟩ := (runs_cons (by decide)).1 hrun
    obtain rfl := runs_nil.1 hdone
    have hdrop := h.drop (n := n) (by simp [hn]) hexec
    rw [List.drop_left' hn] at hdrop
    exact ⟨hdrop, exec_regs hexec (by simp [written])⟩
  · obtain rfl := runs_nil.1 hrun
    obtain rfl : vs = [] := List.eq_nil_of_length_eq_zero (by omega)
    exact ⟨h, rfl⟩

theorem pushed_result {result : Option Register}
    (hresult : ∀ r, result = some r → r ∈ Register.tracked) (h : Pushed bottom m₀ ws m)
    (hrun : Runs env guard (resultCode result) m m') :
    Pushed bottom m₀ ws m' ∧ ∀ r, result = some r → m'.regs r = m.regs .rax := by
  cases result with
  | none =>
    obtain rfl := runs_nil.1 hrun
    exact ⟨h, nofun⟩
  | some r =>
    unfold resultCode at hrun
    dsimp only at hrun
    split at hrun
    · refine ⟨h.kept (kept_move (hresult r rfl) hrun), ?_⟩
      obtain ⟨m₁, -, hexec, hdone⟩ := (runs_cons (by decide)).1 hrun
      obtain rfl := runs_nil.1 hdone
      cases hexec
      rintro _ ⟨⟩
      exact regs_set_self _ _ _
    · next hrax =>
      obtain rfl := runs_nil.1 hrun
      obtain rfl : r = .rax := by simpa using hrax
      exact ⟨h, by rintro _ ⟨⟩; rfl⟩

/-- When a call is reached, the first six words are in the argument registers and the others on top
of the stack. -/
theorem run_beforeCall {args : List NodeId} {byAddress : List Bool} {argCode : List Line}
    {t : State} (hlower : Known lower cx u f env bottom)
    (htyped : ∀ p ∈ args, ∃ ty, cx.arena.Typed u cx.table cx.info p ty)
    (hlength : byAddress.length = args.length)
    (harguments : ArgumentsShape lower cx
      (s.grown (s.registers.live.length + paddingOf s args.length))
      (args.zip byAddress).reverse argCode t) (hready : Ready cx f bottom m)
    (hrun : Runs env (Spares env bottom) (beforeCall s args.length argCode) m m') :
    ∃ m₁ m₂ words junk,
      Runs env (Spares env bottom)
        (s.registers.live.map .push ++ paddingCode (paddingOf s args.length)) m m₁ ∧
      Computes lower cx env (Spares env bottom)
        (s.grown (s.registers.live.length + paddingOf s args.length))
        (args.zip byAddress).reverse argCode m₁ words m₂ ∧
      Runs env (Spares env bottom) ((Register.arguments.take args.length).map .pop) m₂ m' ∧
      words.length = args.length ∧ junk.length = paddingOf s args.length ∧
      (Register.arguments.take args.length).map m'.regs = words.take 6 ∧
      Pushed bottom m (words.drop 6 ++ (junk ++ s.registers.live.reverse.map m.regs)) m' := by
  obtain ⟨m₀, hsave, hrest⟩ := runs_append.1 hrun
  obtain ⟨m₁, hpad, hrest⟩ := runs_append.1 hrest
  obtain ⟨m₂, hargs, hpops⟩ := runs_append.1 hrest
  obtain ⟨hsaved, -⟩ := hready.refl_pushed.pushAll rsp_not_live hsave
  rw [List.append_nil] at hsaved
  obtain ⟨junk, hjunk, hpadded⟩ := pushed_padding (Nat.mod_lt _ Nat.two_pos) hsaved hpad
  obtain ⟨words, hcomputes, hpushed⟩ := harguments.run hlower (fun p hp => by
    rw [List.mem_reverse] at hp
    exact htyped p.1 (List.of_mem_zip hp).1) hready hpadded hargs
  have hwords : words.length = args.length := by
    rw [hcomputes.length_eq]
    simp [hlength]
  rw [← List.take_append_drop 6 words, List.append_assoc] at hpushed
  have hsix : Register.arguments.length = 6 := rfl
  obtain ⟨hdone, hmap, -⟩ := hpushed.popAll
    (by simp [hwords, hsix, Nat.min_comm]) ((by decide : Register.arguments.Nodup).sublist
      (List.take_sublist _ _))
    (fun r hr => Register.mem_tracked_of_arguments (List.mem_of_mem_take hr)) hpops
  exact ⟨m₁, m₂, words, junk, hsave.append hpad, hcomputes, hpops, hwords, hjunk, hmap, hdone⟩

/-- Behind a call everything is as it was, but for the result. -/
theorem run_afterCall {n : Nat} {result : Option Register} {vs : List Word} {m₂ : Machine}
    (hresult : ∀ r, result = some r → r ∈ Register.tracked ∧ r ∉ s.registers.live)
    (hvs : vs.length = stackWords n + paddingOf s n)
    (hpushed : Pushed bottom m (vs ++ s.registers.live.reverse.map m.regs) m₂)
    (hrun : Runs env guard (afterCall s n result) m₂ m') :
    Kept bottom m m' ∧ (∀ q ∈ s.registers.live, m'.regs q = m.regs q) ∧
      ∀ r, result = some r → m'.regs r = m₂.regs .rax := by
  obtain ⟨m₃, hdrop, hrest⟩ := runs_append.1 hrun
  obtain ⟨m₄, htake, hpops⟩ := runs_append.1 hrest
  obtain ⟨hdropped, hrax⟩ := pushed_drop hpushed hvs hdrop
  obtain ⟨htaken, hvalue⟩ := pushed_result (fun r hr => (hresult r hr).1) hdropped htake
  rw [← List.append_nil (List.map _ _)] at htaken
  obtain ⟨hdone, hmap, hothers⟩ := htaken.popAll (by simp)
    (List.nodup_reverse.2 s.registers.nodup_live)
    (fun r hr => live_tracked (List.mem_reverse.1 hr)) hpops
  refine ⟨Pushed.toKept hdone, fun q hq => ?_, fun r hr => ?_⟩
  · exact List.map_inj_left.1 hmap q (List.mem_reverse.2 hq)
  · obtain ⟨htracked, hfree⟩ := hresult r hr
    rw [hothers r (by simpa using hfree) (Register.ne_rsp_of_tracked htracked), hvalue r hr, hrax]

/-- A call keeps the stack and the live registers, and its result is what the callee gives back. -/
theorem run_call {name : String} {args : List NodeId} {result : Option Register} {callee : Callee}
    {argCode : List Line} {t : State} (hlowers : cx.Lowers u f)
    (hlower : Known lower cx u f env bottom) (hcallees : Conventional cx env bottom)
    (htyped : cx.arena.Typed u cx.table cx.info id ty)
    (hk : cx.arena.kind id = .ok (.call name args)) (hcalls : Calls cx id args callee)
    (harguments : ArgumentsShape lower cx
      (s.grown (s.registers.live.length + paddingOf s args.length))
      (args.zip callee.byAddress).reverse argCode t)
    (hclaims : Claims result.toList s s') (hready : Ready cx f bottom m)
    (hrun : Runs env (Spares env bottom) (beforeCall s args.length argCode ++
      .instruction .call [.label callee.label] :: afterCall s args.length result) m m') :
    ∃ entry exit, env.callee callee.label entry exit ∧ Kept bottom m m' ∧
      (∀ q ∈ s.registers.live, m'.regs q = m.regs q) ∧
      ∀ r, result = some r → m'.regs r = exit.regs .rax := by
  have hargs : ∀ p ∈ args, ∃ ty, cx.arena.Typed u cx.table cx.info p ty :=
    fun p hp => htyped.child hk hp
  obtain ⟨mc, hbefore, hrest⟩ := runs_append.1 hrun
  obtain ⟨back, m₁, m₂, hpush, hcallee, hafter⟩ := runs_call.1 hrest
  obtain ⟨_, _, words, junk, -, -, -, hwords, hjunk, -, hpushed⟩ := run_beforeCall hlower
    hargs (hcalls.length_byAddress hlowers.program htyped hk) harguments hready hbefore
  have hstack : (words.drop 6).length = stackWords args.length := by
    rw [List.length_drop, hwords]
    rfl
  obtain ⟨vs, hvs, hreturned⟩ := hpushed.call
    (by rw [List.length_append]; omega) hpush (hcallees hk hcalls m₁ m₂ hcallee)
  rw [List.drop_left' hstack, ← List.append_assoc] at hreturned
  obtain ⟨hkept, hlive, hresult⟩ := run_afterCall
    (fun r hr => by
      obtain ⟨hscratch, hfree⟩ := hclaims.free r (by simp [hr])
      exact ⟨Register.mem_tracked_of_scratch hscratch, hfree⟩)
    (by rw [List.length_append, hvs, hjunk]) hreturned hafter
  exact ⟨m₁, m₂, hcallee, hkept, hlive, hresult⟩

theorem ExpressionShape.kept (hlowers : cx.Lowers u f) (hlower : Known lower cx u f env bottom)
    (hcallees : Conventional cx env bottom) (htyped : cx.arena.Typed u cx.table cx.info id ty)
    (h : ExpressionShape lower cx id s r code s') (hready : Ready cx f bottom m)
    (hrun : Runs env (Spares env bottom) code m m') : Kept bottom m m' := by
  have hr := (h.claims hlowers.program hlower.disciplined htyped).tracked
  cases h with
  | constant kind claimed => exact kept_line (by decide) rfl hr rfl hrun
  | text kind claimed => exact kept_line (by decide) rfl hr rfl hrun
  | read kind place type scalar shape target load =>
    obtain ⟨m₁, hplace, hload⟩ := runs_append.1 hrun
    exact (shape.kept hlower htyped hready hplace).trans (load.kept hr hload)
  | sign kind part | invert kind part =>
    obtain ⟨_, hpart⟩ := htyped.child kind (.head _)
    obtain ⟨m₁, hfirst, hlast⟩ := runs_append.1 hrun
    exact (hlower.keeps.expression hpart part hready hfirst).trans
      (kept_line (by decide) rfl hr rfl hlast)
  | step kind isStep shape =>
    obtain ⟨_, hpart⟩ := htyped.child kind (.head _)
    exact shape.kept hlower hpart hready hrun
  | binary kind first second shape =>
    obtain ⟨_, hleft⟩ := htyped.child kind (.head _)
    obtain ⟨_, hright⟩ := htyped.child kind (.tail _ (.head _))
    obtain ⟨m₁, hrun₁, hrest⟩ := runs_append.1 hrun
    obtain ⟨m₂, hrun₂, hrun₃⟩ := runs_append.1 hrest
    have hkept₁ := hlower.keeps.expression hleft first hready hrun₁
    have hkept₂ := hkept₁.trans
      (hlower.keeps.expression hright second (hready.kept hkept₁) hrun₂)
    exact hkept₂.trans (shape.kept hr (hready.kept hkept₂) hrun₃)
  | call kind shape =>
    have hclaims := shape.claims hlowers.program hlower.disciplined htyped kind
    obtain ⟨calls, arguments, -, -⟩ := shape
    obtain ⟨-, -, -, hkept, -⟩ := run_call hlowers hlower hcallees htyped kind calls arguments
      hclaims hready hrun
    exact hkept

/-- Expressions and places of any depth keep the stack. -/
theorem keepsStack_atDepth (hlowers : cx.Lowers u f) (hcallees : Conventional cx env bottom)
    (depth : Nat) : Known (atDepth depth) cx u f env bottom := by
  refine ⟨disciplined_atDepth hlowers.program depth, sited_atDepth hlowers depth, ?_⟩
  induction depth with
  | zero => exact ⟨fun _ h => (emits_fail.1 h).elim, fun _ h => (emits_fail.1 h).elim⟩
  | succ depth ih =>
    have hknown : Known (atDepth depth) cx u f env bottom :=
      ⟨disciplined_atDepth hlowers.program depth, sited_atDepth hlowers depth, ih⟩
    exact ⟨fun htyped h => (expressionShape h).kept hlowers hknown hcallees htyped,
      fun htyped h => (placeShape h).kept hknown htyped⟩

end Lowering

end MiniJ
