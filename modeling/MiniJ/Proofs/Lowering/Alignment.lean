import MiniJ.Proofs.Lowering.Counts
import MiniJ.Proofs.Lowering.RegisterDiscipline
import MiniJ.Proofs.Machine.Path

/-!
# Balance of the stack and alignment of calls

The words that the code of a function pushes are counted line by line, and the count is zero at
labels, jumps and ends, and even at calls. A frame takes a multiple of 16 bytes and the entry
function aligns the stack by itself, so the stack pointer is a multiple of 16 whenever a path comes
to a call.

## Main definitions

* `Machine.Aligned` — the stack pointer fits a number of words.

## Main statements

* `Lowering.aligned_of_reaches` — alignment along every path.
* `Accepted.stack_balanced` — functions of accepted programs.
-/
namespace MiniJ

open Gen Outcome

/-! ### Frames -/

theorem Frame.layout_size {a : Arena} {info : SemanticInfo} {table : SymbolTable} {f : FunctionNode}
    {frame : Frame} (h : layout a info table f = .ok frame) : 16 ∣ frame.size := by
  simp only [layout, bind_eq_ok, lift_eq_ok, pure_eq_ok] at h
  obtain ⟨_, _, _, _, _, _, size, hsize, rfl⟩ := h
  unfold roundUp at hsize
  dsimp only at hsize
  split at hsize
  · cases hsize
    exact Nat.dvd_mul_left _ _
  · cases hsize

/-! ### Alignment -/

namespace Machine

variable {env : Environment} {m m' : Machine} {n : Int}

/-- The stack pointer is `n` words off a multiple of 16 bytes. -/
def Aligned (n : Int) (m : Machine) : Prop := ((m.regs .rsp).toNat + 8 * n) % 16 = 0

theorem Aligned.of_rsp (h : Aligned n m) (hrsp : m'.regs .rsp = m.regs .rsp) : Aligned n m' := by
  rwa [Aligned, hrsp]

theorem Aligned.down {m' : Machine} (h : Aligned n m) (hrsp : m'.regs .rsp = m.regs .rsp - 8#64) :
    Aligned (n + 1) m' := by
  unfold Aligned at h ⊢
  rw [hrsp, BitVec.toNat_sub]
  simp only [BitVec.toNat_ofNat]
  omega

theorem Aligned.up {m' : Machine} (h : Aligned n m) (hrsp : m'.regs .rsp = m.regs .rsp + 8#64) :
    Aligned (n - 1) m' := by
  unfold Aligned at h ⊢
  rw [hrsp, BitVec.toNat_add]
  simp only [BitVec.toNat_ofNat]
  omega

/-- Words are dropped from the stack. -/
theorem Aligned.drop {m' : Machine} {v : Int64} {k : Nat} (h : Aligned n m)
    (hv : v.toInt = 8 * k) (hrsp : m'.regs .rsp = m.regs .rsp + v.toBitVec) :
    Aligned (n - k) m' := by
  have hword : v.toBitVec.toInt = 8 * k := hv
  rw [BitVec.toInt_eq_toNat_cond] at hword
  unfold Aligned at h ⊢
  rw [hrsp, BitVec.toNat_add]
  split at hword <;> omega

/-- The stack pointer after an instruction that subtracts from it. -/
theorem Aligned.sub {v : Int64} {k : Nat} (h : Aligned n m)
    (hv : v.toBitVec.toNat % 16 = 8 * k % 16)
    (hexec : m.exec env .sub [.reg .rsp, .imm v] = some m') : Aligned (n + k) m' := by
  obtain ⟨w, hw, -, rfl⟩ := subtract_eq_some hexec
  have hword : w = v.toBitVec := by
    simp only [argument, Option.ite_none_right_eq_some, Option.some.injEq] at hw
    exact hw.2.symm
  unfold Aligned at h ⊢
  rw [regs_clear, regs_set_self, hword, BitVec.toNat_sub]
  have hlt := v.toBitVec.isLt
  omega

/-- The stack pointer after it is cut to a multiple of 16. -/
theorem aligned_and (hexec : m.exec env .and [.reg .rsp, .imm (-16)] = some m') : Aligned 0 m' := by
  obtain ⟨w, hw, rfl⟩ := combine_eq_some hexec
  obtain rfl : (-16 : Int64).toBitVec = w := Option.some.inj hw
  have hmod : (m.regs .rsp &&& (-16 : Int64).toBitVec).toNat % 16 = 0 := by
    rw [BitVec.toNat_and, show 16 = 2 ^ 4 from rfl, Nat.and_mod_two_pow]
    exact Nat.and_zero _
  unfold Aligned
  rw [regs_clear, regs_set_self]
  omega

end Machine

namespace Lowering

open Machine

variable {cx : Context} {u : UnitNode} {f : FunctionNode} {env : Environment} {m m' : Machine}
  {guard : Mnemonic → List Operand → Machine → Prop} {label : String} {code rest : List Line}
  {front back : List Line} {n : Int}

/-- A function finds its return address on an aligned stack, unless it is where the program
starts; behind the set-up of its frame, the stack is aligned. -/
theorem aligned_frameCode (hsize : 16 ∣ cx.frame.size)
    (henters : cx.isEntry = true ∨ Aligned 1 m) (hrun : Runs env guard (frameCode cx) m m') :
    Aligned 0 m' := by
  obtain ⟨m₁, hpush, hrun⟩ := runs_push_cons hrun
  obtain ⟨-, hm₁⟩ := push_eq_some hpush
  obtain ⟨m₂, -, hmove, hrun⟩ := (runs_cons (by decide)).1 hrun
  have hrsp : m₂.regs .rsp = m.regs .rsp - 8#64 := by
    rw [exec_regs hmove (by simp [written]), hm₁]
    rfl
  obtain ⟨m₃, hsub, hand⟩ := runs_append.1 hrun
  cases hentry : cx.isEntry with
  | true =>
    rw [hentry, if_pos rfl] at hand
    obtain ⟨m₄, -, hexec, hdone⟩ := (runs_cons (by decide)).1 hand
    cases hdone
    exact aligned_and hexec
  | false =>
    rw [hentry] at hand henters
    cases hand
    have hpushed : Aligned 2 m₂ := (henters.resolve_left (by simp)).down hrsp
    split at hsub
    · obtain ⟨m₄, -, hexec, hdone⟩ := (runs_cons (by decide)).1 hsub
      cases hdone
      obtain ⟨k, hk⟩ := hsize
      have hword : (Int64.ofNat cx.frame.size).toBitVec.toNat % 16 = 8 * (2 * k) % 16 := by
        simp only [Int64.toBitVec_ofNat', BitVec.toNat_ofNat]
        omega
      have haligned := hpushed.sub hword hexec
      unfold Aligned at haligned ⊢
      omega
    · cases hsub
      unfold Aligned at hpushed ⊢
      omega

/-! ### Positions -/

theorem frameCode_lines : ∀ line ∈ frameCode cx, ∃ mnemonic operands,
    line = .instruction mnemonic operands ∧ Step.leavesLine mnemonic = false := by
  intro line hline
  simp only [frameCode, List.mem_cons, List.mem_append] at hline
  rcases hline with rfl | rfl | hline | hline
  · exact ⟨_, _, rfl, rfl⟩
  · exact ⟨_, _, rfl, rfl⟩
  · split at hline
    · cases List.mem_singleton.1 hline
      exact ⟨_, _, rfl, rfl⟩
    · cases hline
  · split at hline
    · cases List.mem_singleton.1 hline
      exact ⟨_, _, rfl, rfl⟩
    · cases hline

/-- Position of the line behind `front` in the code of a function. -/
def bodyPosition (cx : Context) (front : List Line) : Nat :=
  1 + ((frameCode cx).length + front.length)

theorem getElem?_body :
    (.label label :: (frameCode cx ++ (front ++ back)))[bodyPosition cx front]? = back.head? := by
  rw [bodyPosition, Nat.add_comm 1, List.getElem?_cons_succ, ← List.append_assoc,
    List.getElem?_append_right (by simp), List.head?_eq_getElem?]
  simp

theorem getElem?_frame {k : Nat} (hk : k < (frameCode cx).length) :
    (.label label :: (frameCode cx ++ rest))[1 + k]? = (frameCode cx)[k]? := by
  rw [Nat.add_comm, List.getElem?_cons_succ, List.getElem?_append_left hk]

/-- A label other than the one of the function stands in the body. -/
theorem exists_split_of_label {name : String} {j : Nat} (hne : label ≠ name)
    (h : (.label label :: (frameCode cx ++ rest))[j]? = some (.label name)) :
    ∃ front back, rest = front ++ .label name :: back ∧ j = bodyPosition cx front := by
  cases j with
  | zero =>
    cases h
    exact absurd rfl hne
  | succ j =>
    rw [List.getElem?_cons_succ] at h
    by_cases hj : j < (frameCode cx).length
    · rw [List.getElem?_append_left hj] at h
      obtain ⟨_, _, hline, -⟩ := frameCode_lines _ (List.mem_of_getElem? h)
      cases hline
    · rw [List.getElem?_append_right (by omega)] at h
      obtain ⟨hlt, hget⟩ := List.getElem?_eq_some_iff.1 h
      refine ⟨rest.take (j - (frameCode cx).length), rest.drop (j - (frameCode cx).length + 1), ?_,
        ?_⟩
      · rw [← hget, ← List.drop_eq_getElem_cons hlt, List.take_append_drop]
      · rw [bodyPosition, List.length_take]
        omega

/-! ### Paths -/

/-- The end of a function, behind the restoring of the stack pointer. -/
def Leaving (back : List Line) : Prop :=
  ∃ later, back = .pop .rbp :: .instruction .ret [] :: later ∨ back = .instruction .ret [] :: later

/-- How the stack pointer is aligned along a path through a function. -/
inductive OnPath (cx : Context) (env : Environment) (rest : List Line) : Nat × Machine → Prop
  | start {m : Machine} (enters : cx.isEntry = true ∨ Aligned 1 m) : OnPath cx env rest (0, m)
  | frame {k : Nat} {m : Machine} (inside : k < (frameCode cx).length)
      (aligns : ∀ m', Runs env (fun _ _ _ => True) ((frameCode cx).drop k) m m' → Aligned 0 m') :
      OnPath cx env rest (1 + k, m)
  | body {front back : List Line} {m : Machine} (split : rest = front ++ back)
      (aligned : Leaving back ∨ Aligned (pushedWords front) m) :
      OnPath cx env rest (bodyPosition cx front, m)

/-- The next line of the body. -/
theorem OnPath.next {line : Line} (split : rest = front ++ line :: back)
    (aligned : Leaving back ∨ Aligned (pushedWords front + line.words) m) :
    OnPath cx env rest (bodyPosition cx front + 1, m) := by
  have hnext : bodyPosition cx front + 1 = bodyPosition cx (front ++ [line]) := by
    simp [bodyPosition, Nat.add_assoc]
  rw [hnext]
  exact @OnPath.body _ _ _ _ back _ (by simp [split]) (by simpa using aligned)

/-- A line of the body that is found with an aligned stack. -/
theorem OnPath.step_body {line : Line} {y : Nat × Machine}
    (hlabel : ∀ k, label ≠ labelName k)
    (hcallees : ∀ name m₁ m₂, env.callee name m₁ m₂ → m₂.regs .rsp = m₁.regs .rsp + 8#64)
    (hsteady : Steady 0 rest 0) (split : rest = front ++ line :: back)
    (aligned : Aligned (pushedWords front) m)
    (hstep : Step env (.label label :: (frameCode cx ++ rest)) (bodyPosition cx front, m) y) :
    OnPath cx env rest y := by
  have hline : (.label label :: (frameCode cx ++ rest))[bodyPosition cx front]? = some line := by
    rw [split, getElem?_body]
    rfl
  have hjump : ∀ {k j}, pushedWords front = 0 →
      (.label label :: (frameCode cx ++ rest))[j]? = some (.label (labelName k)) →
      OnPath cx env rest (j, m) := by
    intro k j hzero hj
    obtain ⟨front', back', hsplit, rfl⟩ := exists_split_of_label (hlabel k) hj
    refine .body hsplit (.inr ?_)
    have hfinds := hsteady.finds hsplit
    rw [Int.zero_add] at hfinds
    cases hfinds with
    | label empty => rwa [empty, ← hzero]
    | quiet quiet => cases quiet
  have hfinds := hsteady.finds split
  rw [Int.zero_add] at hfinds
  cases hfinds with
  | quiet quiet counts =>
    obtain ⟨plain, kept⟩ := id quiet
    obtain ⟨m', hexec, rfl⟩ := hstep.of_instruction hline (by
      rename_i mnemonic _
      cases mnemonic <;> first | rfl | cases plain)
    refine .next split (.inr ?_)
    rw [quiet.words, Int.add_zero]
    exact aligned.of_rsp (exec_regs hexec kept)
  | push counts =>
    obtain ⟨m', hexec, rfl⟩ := hstep.of_instruction hline rfl
    obtain ⟨-, rfl⟩ := push_eq_some hexec
    exact .next split (.inr (aligned.down rfl))
  | @pop r _ tracked counts =>
    obtain ⟨m', hexec, rfl⟩ := hstep.of_instruction hline rfl
    cases hexec
    refine .next split (.inr ?_)
    rw [Line.words_pop tracked]
    refine aligned.up ?_
    rw [Machine.pop, regs_set_of_ne _ _ (Register.ne_rsp_of_tracked tracked).symm, regs_set_self]
  | pad counts =>
    obtain ⟨m', hexec, rfl⟩ := hstep.of_instruction hline rfl
    exact .next split (.inr (aligned.sub (k := 1) rfl hexec))
  | @drop v k _ words counts =>
    obtain ⟨m', hexec, rfl⟩ := hstep.of_instruction hline rfl
    obtain ⟨w, hw, rfl⟩ := combine_eq_some hexec
    simp only [argument, Option.ite_none_right_eq_some, Option.some.injEq] at hw
    refine .next split (.inr ?_)
    have hcount : (Line.instruction .add [.reg .rsp, .imm v]).words = -(k : Int) := by
      simp only [Line.words, if_pos, words]
      omega
    rw [hcount]
    refine aligned.drop words ?_
    rw [regs_clear, regs_set_self, hw.2]
  | call counts even =>
    obtain ⟨ret, m₁, m₂, hpush, hcallee, rfl⟩ := hstep.of_call hline
    obtain ⟨-, rfl⟩ := push_eq_some hpush
    refine .next split (.inr ?_)
    show Aligned (pushedWords front + 0) m₂
    rw [Int.add_zero]
    refine aligned.of_rsp ?_
    rw [hcallees _ _ _ hcallee]
    show m.regs .rsp - 8#64 + 8#64 = _
    exact BitVec.sub_add_cancel _ _
  | label empty =>
    obtain rfl := hstep.of_label hline
    exact .next split (.inr (by simpa [Line.words] using aligned))
  | jmp empty =>
    obtain ⟨j, hj, rfl⟩ := hstep.of_jmp hline
    exact hjump empty hj
  | jump empty =>
    obtain ⟨x, x', -, ⟨-, j, hj, rfl⟩ | ⟨-, rfl⟩⟩ := hstep.of_jump hline
    · exact hjump empty hj
    · exact .next split (.inr (by simpa [Line.words] using aligned))
  | leave empty =>
    obtain ⟨m', hexec, rfl⟩ := hstep.of_instruction hline rfl
    exact .next split (.inl ⟨_, .inl rfl⟩)
  | restore empty =>
    obtain ⟨m', hexec, rfl⟩ := hstep.of_instruction hline rfl
    exact .next split (.inl ⟨_, .inr rfl⟩)
  | ret empty =>
    obtain ⟨m', hexec, rfl⟩ := hstep.of_instruction hline rfl
    cases hexec

theorem OnPath.step {x y : Nat × Machine} (hsize : 16 ∣ cx.frame.size)
    (hlabel : ∀ k, label ≠ labelName k)
    (hcallees : ∀ name m₁ m₂, env.callee name m₁ m₂ → m₂.regs .rsp = m₁.regs .rsp + 8#64)
    (hsteady : Steady 0 rest 0) (h : OnPath cx env rest x)
    (hstep : Step env (.label label :: (frameCode cx ++ rest)) x y) : OnPath cx env rest y := by
  cases h with
  | start enters =>
    obtain rfl := hstep.of_label rfl
    exact .frame (k := 0) (by simp [frameCode]) fun m' hrun => aligned_frameCode hsize enters hrun
  | @frame k m inside aligns =>
    have hdrop := List.drop_eq_getElem_cons inside
    obtain ⟨mnemonic, operands, hinstruction, hleaves⟩ :=
      frameCode_lines _ (List.getElem_mem inside)
    have hline : (.label label :: (frameCode cx ++ rest))[1 + k]? = _ := getElem?_frame inside
    rw [List.getElem?_eq_getElem inside, hinstruction] at hline
    obtain ⟨m', hexec, rfl⟩ := hstep.of_instruction hline hleaves
    have haligns : ∀ m'', Runs env (fun _ _ _ => True) ((frameCode cx).drop (k + 1)) m' m'' →
        Aligned 0 m'' := by
      intro m'' hrun
      refine aligns m'' ?_
      rw [hdrop, hinstruction]
      exact .step trivial hexec hrun
    by_cases hlast : k + 1 < (frameCode cx).length
    · exact .frame hlast haligns
    · have hend : 1 + k + 1 = bodyPosition cx [] := by
        simp only [bodyPosition, List.length_nil]
        omega
      rw [hend]
      refine .body rfl (.inr (haligns m' ?_))
      rw [List.drop_eq_nil_of_le (by omega)]
      exact .nil m'
  | @body front back m split aligned =>
    cases back with
    | nil =>
      have hnone : (.label label :: (frameCode cx ++ rest))[bodyPosition cx front]? = none := by
        rw [split, getElem?_body]
        rfl
      cases hstep <;> simp_all
    | cons line back =>
      rcases aligned with ⟨later, hleaving⟩ | aligned
      · have hline : (.label label :: (frameCode cx ++ rest))[bodyPosition cx front]? =
            some line := by
          rw [split, getElem?_body]
          rfl
        rcases hleaving with hleaving | hleaving
        · cases hleaving
          obtain ⟨m', -, rfl⟩ := hstep.of_instruction hline rfl
          exact .next split (.inl ⟨later, .inr rfl⟩)
        · cases hleaving
          obtain ⟨m', hexec, -⟩ := hstep.of_instruction hline rfl
          cases hexec
      · exact step_body hlabel hcallees hsteady split aligned hstep

/-- Whenever a path through a function comes to a call, the stack pointer is a multiple of 16. -/
theorem aligned_of_reaches {i : Nat} {name : String} (hsize : 16 ∣ cx.frame.size)
    (hlabel : ∀ k, label ≠ labelName k)
    (hcallees : ∀ name m₁ m₂, env.callee name m₁ m₂ → m₂.regs .rsp = m₁.regs .rsp + 8#64)
    (hsteady : Steady 0 rest 0) (henters : cx.isEntry = true ∨ Aligned 1 m)
    (hreaches : Reaches env (.label label :: (frameCode cx ++ rest)) (0, m) (i, m'))
    (hline : (.label label :: (frameCode cx ++ rest))[i]? =
      some (.instruction .call [.label name])) : Aligned 0 m' := by
  have honPath : OnPath cx env rest (i, m') := hreaches.invariant (.start henters)
    fun h hstep => h.step hsize hlabel hcallees hsteady hstep
  generalize hx : (i, m') = x at honPath
  cases honPath with
  | start =>
    cases hx
    cases hline
  | @frame k m inside =>
    cases hx
    rw [getElem?_frame inside] at hline
    obtain ⟨_, _, heq, hleaves⟩ := frameCode_lines _ (List.mem_of_getElem? hline)
    cases heq
    cases hleaves
  | @body front back m split aligned =>
    cases hx
    rw [split, getElem?_body] at hline
    obtain ⟨back', rfl⟩ := List.head?_eq_some_iff.1 hline
    have hfinds := hsteady.finds split
    rw [Int.zero_add] at hfinds
    rcases aligned with ⟨later, hleaving | hleaving⟩ | aligned
    · cases hleaving
    · cases hleaving
    · cases hfinds with
      | call counts even =>
        unfold Aligned at aligned ⊢
        omega
      | quiet quiet =>
        obtain ⟨plain, -⟩ := quiet
        cases plain

/-! ### Labels of functions -/

/-- How the label of a function begins. -/
theorem labelOf_cases (all earlier : List String) (name : String) :
    labelOf all earlier name = entryLabel ∨
      ∃ rest, (labelOf all earlier name).toList = 'm' :: rest := by
  have huser : ∃ rest, (userSymbol name).toList = 'm' :: rest := by
    refine ⟨'j' :: '_' :: name.toList, ?_⟩
    rw [userSymbol, String.toList_append]
    rfl
  unfold labelOf
  split
  · exact .inl rfl
  · obtain ⟨rest, hrest⟩ := huser
    split
    · exact .inr ⟨rest, hrest⟩
    · refine .inr ⟨rest ++ ("@" ++ toString (earlier.count name)).toList, ?_⟩
      have happend : s!"{userSymbol name}@{earlier.count name}" =
          userSymbol name ++ ("@" ++ toString (earlier.count name)) := by
        rw [← String.append_assoc]
        rfl
      rw [happend, String.toList_append, hrest]
      rfl

theorem mem_of_lookup {pairs : List (NodeId × String)} {d : NodeId} {name : String}
    (h : pairs.lookup d = some name) : (d, name) ∈ pairs := by
  obtain ⟨front, back, rfl, -⟩ := List.lookup_eq_some_iff.1 h
  simp

variable {functions : List (NodeId × FunctionNode)} {d : NodeId}

/-- Functions are not labelled like places inside of them, nor like the end of the program. -/
theorem label_ne (h : (labels functions).lookup d = some label) :
    (∀ k, label ≠ labelName k) ∧ label ≠ "_exit" := by
  obtain ⟨g, before, -, rfl⟩ := mem_labelsFrom (List.mem_reverse.1 (mem_of_lookup h))
  have hdot : ∀ k, ∃ rest, (labelName k).toList = '.' :: rest := by
    intro k
    refine ⟨'L' :: (toString k).toList, ?_⟩
    rw [labelName, show s!".L{k}" = ".L" ++ toString k from rfl, String.toList_append]
    rfl
  constructor
  · intro k heq
    obtain ⟨rest, hrest⟩ := hdot k
    rcases labelOf_cases (functions.map (·.2.name)) before g.name with hentry | ⟨rest', hrest'⟩
    · rw [← heq, hentry] at hrest
      cases hrest
    · rw [heq, hrest] at hrest'
      cases hrest'
  · intro heq
    rcases labelOf_cases (functions.map (·.2.name)) before g.name with hentry | ⟨rest', hrest'⟩
    · exact absurd (hentry.symm.trans heq) (by decide)
    · rw [heq] at hrest'
      cases hrest'

end Lowering

/-! ### Functions of a program -/

/-- Lines where control arrives from elsewhere or leaves: labels, jumps and the end of a
function. -/
inductive Line.IsControl : Line → Prop
  | label (name : String) : IsControl (.label name)
  | jmp (target : String) : IsControl (.instruction .jmp [.label target])
  | jump (condition : Condition) (target : String) :
      IsControl (.instruction (.jump condition) [.label target])
  | leave : IsControl (.move .rsp .rbp)
  | restore : IsControl (.pop .rbp)
  | ret : IsControl (.instruction .ret [])

theorem Line.Quiet.not_control {line : Line} (h : line.Quiet) : ¬line.IsControl := by
  intro hcontrol
  cases hcontrol with
  | label => cases h
  | jmp | jump | restore | ret =>
    obtain ⟨plain, -⟩ := h
    cases plain
  | leave =>
    obtain ⟨-, kept⟩ := h
    simp [Machine.written] at kept

namespace Lowering

open Machine

variable {cx : Context} {u : UnitNode} {f : FunctionNode} {s₀ : State}
  {rest front back : List Line} {n : Int} {functions : List (NodeId × FunctionNode)}

/-- How the code of a function behind the set-up of its frame uses the stack. Code generation starts
in state `s₀`. -/
structure BalancesStack (cx : Context) (f : FunctionNode) (s₀ : State) (rest : List Line) :
    Prop where
  /-- There are never fewer words than none. -/
  nonneg : ∀ {front back}, rest = front ++ back → 0 ≤ pushedWords front
  /-- Nothing is on the stack at labels, jumps and ends. -/
  control : ∀ {front line back}, rest = front ++ line :: back → line.IsControl →
    pushedWords front = 0
  /-- Nothing is on the stack when a `return` ends the program. -/
  exits : ∀ {front status back}, rest = front ++ (exitCode status ++ back) → pushedWords front = 0
  /-- Nothing is counted either where the run emits the call for it. -/
  ends : ∀ {front n}, ExitPoint cx f s₀ n front → pushedWords front = 0 ∧ n = 0
  /-- An even number of words is on the stack at a call: as many as the run of code generation
  counts at the point where it emits the call. -/
  calls : ∀ {front operands back}, rest = front ++ .instruction .call operands :: back →
    pushedWords front % 2 = 0 ∧ ∃ name n, operands = [.label name] ∧ CallSite cx f s₀ front n name ∧
      pushedWords front = n

theorem Finds.control {line : Line} (h : Finds n line back) (hcontrol : line.IsControl) :
    n = 0 := by
  cases h with
  | quiet quiet => exact absurd hcontrol quiet.not_control
  | pop tracked =>
    cases hcontrol
    exact absurd tracked (by decide)
  | push | pad | drop | call => cases hcontrol
  | label empty | jmp empty | jump empty | leave empty | restore empty | ret empty => exact empty

/-- The builtin that ends the program is called with its status taken from the stack. -/
theorem CallPoint.exit_cases {id : NodeId} {callee : Callee} {k : Nat} (hlowers : cx.Lowers u f)
    (hlabels : cx.labels = labels functions) (h : CallPoint cx f s₀ id callee k front)
    (hexit : callee.label = "_exit") : ∃ before, front = before ++ [.pop .rdi] := by
  obtain @⟨depth, dropped, name, args, s, t, front, before, comes, kind, calls, passes⟩ := h
  obtain ⟨-, ty, htyped⟩ : Task.Fits cx u f (.call depth id) := comes.fits hlowers
  obtain ⟨sig, hsig, harity, htarget, -⟩ := htyped.call_cases kind
  obtain ⟨-, argCode, t', -, rfl, -⟩ := emits_passArguments passes
  have hone : args.length = 1 := by
    cases calls with
    | function target found scalar binders labelled =>
      rw [hlabels] at labelled
      exact absurd hexit (label_ne labelled).2
    | @builtin label b target found =>
      rw [target] at htarget
      unfold Typing.target at htarget
      split at htarget
      · cases htarget
      · next hd =>
        cases htarget
        obtain ⟨b', hb', rfl⟩ := hsig.builtin hd
        cases found.symm.trans hb'
        have hparams : ∀ b ∈ Builtin.all, b.name = "_exit" → b.signature.params.length = 1 := by
          decide
        rw [harity]
        exact hparams b (List.mem_of_find?_eq_some found) hexit
  refine ⟨front ++ (s.registers.live.map Line.push ++ (paddingCode (paddingOf s 1) ++ argCode)), ?_⟩
  simp [beforeCall, hone, Register.arguments]

theorem Steady.balancesStack (hlowers : cx.Lowers u f) (hlabels : cx.labels = labels functions)
    (hsmall : cx.arena.size < 4294967296) (hempty : s₀.stackDepth = 0) (h : Steady 0 rest 0)
    (hvisited : Visited cx f s₀ [] rest) : BalancesStack cx f s₀ rest := by
  have hfinds : ∀ {front line back}, rest = front ++ line :: back →
      Finds (pushedWords front) line back := by
    intro front line back hsplit
    have hline := h.finds hsplit
    rwa [Int.zero_add] at hline
  refine ⟨fun {front back} hsplit => ?_, fun hsplit => (hfinds hsplit).control, ?_,
    fun point => ?_, ?_⟩
  · cases back with
    | nil =>
      rw [List.append_nil] at hsplit
      have htotal := h.total
      rw [← hsplit]
      omega
    | cons line back => exact (hfinds hsplit).nonneg
  · intro front status back hsplit
    have hcall : rest = (front ++ [Line.instruction .mov [.reg .rdi, status]]) ++
        Line.instruction .call [.label "_exit"] :: back := by
      simp [hsplit, exitCode]
    have hzero : pushedWords [.instruction .mov [.reg .rdi, status]] = 0 := rfl
    obtain ⟨name, k, hname, hsite⟩ := hvisited _ _ _ hcall
    generalize hlabel : "_exit" = label at hname
    cases hname
    cases hsite with
    | exit point =>
      obtain ⟨hwords, rfl⟩ := point.counts hlowers hsmall hempty
      rw [List.nil_append, pushedWords_append, hzero] at hwords
      omega
    | call point =>
      obtain ⟨before, hbefore⟩ := point.exit_cases hlowers hlabels hlabel.symm
      rw [List.nil_append] at hbefore
      cases List.append_inj_right' hbefore rfl
  · obtain ⟨hwords, rfl⟩ := point.counts hlowers hsmall hempty
    exact ⟨hwords, rfl⟩
  · intro front operands back hsplit
    obtain ⟨name, k, hname, hsite⟩ := hvisited _ _ _ hsplit
    obtain ⟨hwords, heven⟩ := hsite.counts hlowers hsmall hempty
    rw [List.nil_append] at hwords hsite
    exact ⟨by omega, name, k, hname, hsite, hwords⟩

end Lowering

/-- The stack is balanced in every function of an accepted program with fewer nodes than 32 bits can
number, and aligned to 16 bytes at every call on every path through it; code generation never counts
fewer words than none. -/
theorem Accepted.stack_balanced {a : Arena} {table : SymbolTable} {info : SemanticInfo}
    {u : UnitNode} {d : NodeId} {f : FunctionNode} {functions : List (NodeId × FunctionNode)}
    {frame : Frame} {label : String} {texts texts' : List String} {code : List Line}
    (h : Accepted a table info) (hsize : a.size < 4294967296) (hunit : a.unit? = some u)
    (hd : d ∈ u.functions) (hf : a.kind d = .ok (.function f))
    (hlabel : (Lowering.labels functions).lookup d = some label)
    (hframe : Frame.layout a info table f = .ok frame)
    (hcode : Lowering.function a info table (Lowering.labels functions) texts label f =
      .ok (code, texts')) :
    (∃ rest, code = .label label :: (Lowering.frameCode
        ⟨a, info, table, Lowering.labels functions, frame, label = entryLabel⟩ ++ rest) ∧
      Lowering.BalancesStack
        ⟨a, info, table, Lowering.labels functions, frame, label = entryLabel⟩ f { texts := texts }
        rest) ∧
    16 ∣ frame.size ∧
    (∀ env m i m' name,
      (∀ name m₁ m₂, env.callee name m₁ m₂ → m₂.regs .rsp = m₁.regs .rsp + 8#64) →
      (label = entryLabel ∨ (m.regs .rsp).toNat % 16 = 8) →
      Machine.Reaches env code (0, m) (i, m') →
      code[i]? = some (.instruction .call [.label name]) → (m'.regs .rsp).toNat % 16 = 0) ∧
    ∀ e, a.generate info table = .error e → e ≠ .fault .stackUnderflow := by
  have hprogram := h.checked_of_unit hunit
  generalize hcx :
    (⟨a, info, table, Lowering.labels functions, frame, label = entryLabel⟩ : Context) = cx
  have hlowers : cx.Lowers u f := by
    rw [← hcx]
    exact ⟨hprogram, ⟨d, hd, hf⟩, hframe⟩
  have hparts := Lowering.steady_atDepth hlowers (by rw [← hcx]; exact hsize) cx.arena.depthLimit
  have hlayout := Frame.layout_size hframe
  simp only [Lowering.function, hframe, ok_bind] at hcode
  obtain ⟨output, hbody, hdone⟩ := bind_eq_ok.1 hcode
  cases hdone
  rw [hcx] at hbody
  obtain ⟨rest, hrest, hsteady, -⟩ := (Lowering.functionShape hbody).steady hparts rfl
  obtain ⟨rest', hrest', hvisited⟩ := Lowering.visited_functionBody hlowers hbody
  obtain rfl := List.append_cancel_left (List.cons.inj (hrest.symm.trans hrest')).2
  refine ⟨⟨rest, hrest, hsteady.balancesStack hlowers (by rw [← hcx]) (by rw [← hcx]; exact hsize)
    rfl hvisited⟩, hlayout, ?_, ?_⟩
  · intro env m i m' name hcallees henters hreaches hline
    rw [hrest] at hreaches hline
    have hentry : cx.isEntry = true ∨ Machine.Aligned 1 m := by
      rcases henters with hentry | hmod
      · exact .inl (by rw [← hcx]; exact decide_eq_true hentry)
      · refine .inr ?_
        unfold Machine.Aligned
        omega
    have haligned := Lowering.aligned_of_reaches (by rw [← hcx]; exact hlayout)
      (Lowering.label_ne hlabel).1 hcallees hsteady hentry hreaches hline
    unfold Machine.Aligned at haligned
    omega
  · rintro e he rfl
    exact h.avoids_generate _ he trivial

namespace Sample

/-- The code of the function, and its text constants. -/
def compiled : List Line × List String :=
  (Lowering.function arena info table (Lowering.labels [(30, function)]) [] "mj_f"
    function).toOption.get (by decide +kernel)

theorem function_compiled : Lowering.function arena info table (Lowering.labels [(30, function)]) []
    "mj_f" function = .ok compiled := ok_get_toOption _

/-- The function calls itself twice, with words on the stack that are counted, and its calls are
reached with an aligned stack. -/
theorem calls_aligned : arena.size < 4294967296 ∧
    (compiled.1.filter Line.isCall = List.replicate 2 (.instruction .call [.label "mj_f"]) ∧
      ∃ cx rest, compiled.1 = .label "mj_f" :: (Lowering.frameCode cx ++ rest) ∧
        Lowering.BalancesStack cx function {} rest) ∧
    ∀ m i m', (m.regs .rsp).toNat % 16 = 8 →
      Machine.Reaches environment compiled.1 (0, m) (i, m') →
      compiled.1[i]? = some (.instruction .call [.label "mj_f"]) →
      (m'.regs .rsp).toNat % 16 = 0 := by
  have hsize : arena.size < 4294967296 := by decide +kernel
  have hcalls : compiled.1.filter Line.isCall =
      List.replicate 2 (.instruction .call [.label "mj_f"]) := by decide +kernel
  obtain ⟨⟨rest, hrest, hbalances⟩, -, haligned, -⟩ := accepted.stack_balanced hsize unit?_arena
    function_mem kind_function (by decide) layout_function function_compiled
  refine ⟨hsize, ⟨hcalls, _, rest, hrest, hbalances⟩, fun m i m' hm => ?_⟩
  refine haligned environment m i m' "mj_f" (fun name m₁ m₂ hcallee => ?_) (.inr hm)
  cases hcallee
  exact Machine.regs_set_self ..

end Sample

end MiniJ
