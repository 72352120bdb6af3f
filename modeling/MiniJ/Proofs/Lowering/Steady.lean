import MiniJ.Proofs.Arena.Depth
import MiniJ.Proofs.Lowering.Balance
import MiniJ.Proofs.Lowering.FunctionShape
import MiniJ.Proofs.Lowering.Place
import MiniJ.Proofs.Machine.Execution

/-!
# Words on the stack, line by line

Read from top to bottom, the code of a function says how many words are on the stack above its frame
at every line. The number is even at calls, and it is zero wherever control can arrive or leave.

## Main definitions

* `Line.words`, `pushedWords` — words that lines put on the stack, by their text.
* `Lowering.Finds` — what a line may find on the stack.
* `Lowering.Steady` — code whose lines find what they may.

## Main statements

* `Lowering.steady_atDepth` — expressions and places.
* `Lowering.steady_statement` — statements.
* `Lowering.FunctionShape.steady` — functions.
-/
namespace MiniJ

/-! ### Counting words -/

/-- Words that a line puts on the stack. The frame pointer that the end of a function takes off was
put there by its beginning, below everything that is counted. -/
def Line.words : Line → Int
  | .instruction .push _ => 1
  | .instruction .pop [.reg r] => if r = .rbp then 0 else -1
  | .instruction .sub [.reg r, .imm v] => if r = .rsp then v.toInt / 8 else 0
  | .instruction .add [.reg r, .imm v] => if r = .rsp then -(v.toInt / 8) else 0
  | _ => 0

/-- Words that lines put on the stack, from top to bottom. -/
def pushedWords : List Line → Int
  | [] => 0
  | line :: rest => line.words + pushedWords rest

@[simp] theorem pushedWords_nil : pushedWords [] = 0 := rfl

@[simp] theorem pushedWords_cons (line : Line) (rest : List Line) :
    pushedWords (line :: rest) = line.words + pushedWords rest := rfl

@[simp] theorem pushedWords_append (code code' : List Line) :
    pushedWords (code ++ code') = pushedWords code + pushedWords code' := by
  induction code with
  | nil => simp
  | cons line rest ih => simp [ih, Int.add_assoc]

/-- Instructions that go on to the next line and do not work on the stack by themselves. -/
def Mnemonic.isPlain : Mnemonic → Bool
  | .push | .pop | .call | .jmp | .jump _ | .ret | .other _ => false
  | _ => true

/-- An instruction that leaves the stack alone. -/
inductive Line.Quiet : Line → Prop
  | mk {mnemonic : Mnemonic} {operands : List Operand} (plain : mnemonic.isPlain = true)
      (kept : .rsp ∉ Machine.written mnemonic operands) : Quiet (.instruction mnemonic operands)

theorem Line.Quiet.words {line : Line} (h : line.Quiet) : line.words = 0 := by
  obtain ⟨plain, kept⟩ := h
  unfold Line.words
  split
  · rename_i heq
    cases heq
    cases plain
  · rename_i heq
    cases heq
    cases plain
  · rename_i heq
    cases heq
    refine if_neg ?_
    rintro rfl
    simp [Machine.written] at kept
  · rename_i heq
    cases heq
    refine if_neg ?_
    rintro rfl
    simp [Machine.written] at kept
  · rfl

/-- An instruction that writes a tracked register only. -/
theorem Line.Quiet.of_written {mnemonic : Mnemonic} {operands : List Operand} {r : Register}
    (plain : mnemonic.isPlain = true) (hr : r ∈ Register.tracked)
    (hwritten : Machine.written mnemonic operands = [r]) :
    Line.Quiet (.instruction mnemonic operands) := by
  refine .mk plain ?_
  simpa [hwritten] using (Register.ne_rsp_of_tracked hr).symm

theorem Line.Quiet.move {r q : Register} (hr : r ∈ Register.tracked) : Line.Quiet (.move r q) :=
  .of_written rfl hr rfl

theorem Line.words_pop {r : Register} (h : r ∈ Register.tracked) : (Line.pop r).words = -1 :=
  if_neg (Register.ne_rbp_of_tracked h)

namespace Lowering

open Gen

variable {cx : Context} {u : UnitNode} {f : FunctionNode} {s s' : State} {code code' : List Line}
  {id : NodeId} {ty ret : Ty} {front back : List Line} {line : Line} {n d d' : Int}

/-! ### What a line finds -/

/-- What a line may find, with `n` words on the stack and the code behind it. -/
inductive Finds (n : Int) : Line → List Line → Prop
  | quiet {line : Line} {back : List Line} (quiet : line.Quiet) (counts : 0 ≤ n) :
      Finds n line back
  | push {r : Register} {back : List Line} (counts : 0 ≤ n) : Finds n (.push r) back
  | pop {r : Register} {back : List Line} (tracked : r ∈ Register.tracked) (counts : 1 ≤ n) :
      Finds n (.pop r) back
  | pad {back : List Line} (counts : 0 ≤ n) :
      Finds n (.instruction .sub [.reg .rsp, .imm 8]) back
  | drop {v : Int64} {k : Nat} {back : List Line} (words : v.toInt = 8 * k) (counts : k ≤ n) :
      Finds n (.instruction .add [.reg .rsp, .imm v]) back
  | call {label : String} {back : List Line} (counts : 0 ≤ n) (even : n % 2 = 0) :
      Finds n (.instruction .call [.label label]) back
  | label {name : String} {back : List Line} (empty : n = 0) : Finds n (.label name) back
  | jmp {k : Nat} {back : List Line} (empty : n = 0) :
      Finds n (.instruction .jmp [.label (labelName k)]) back
  | jump {condition : Condition} {k : Nat} {back : List Line} (empty : n = 0) :
      Finds n (.instruction (.jump condition) [.label (labelName k)]) back
  | leave {back : List Line} (empty : n = 0) :
      Finds n (.move .rsp .rbp) (.pop .rbp :: .instruction .ret [] :: back)
  | restore {back : List Line} (empty : n = 0) :
      Finds n (.pop .rbp) (.instruction .ret [] :: back)
  | ret {back : List Line} (empty : n = 0) : Finds n (.instruction .ret []) back

/-- More code behind a line does not change what it finds. -/
theorem Finds.mono (h : Finds n line back) (y : List Line) :
    Finds n line (back ++ y) := by
  cases h with
  | quiet quiet counts => exact .quiet quiet counts
  | push counts => exact .push counts
  | pop tracked counts => exact .pop tracked counts
  | pad counts => exact .pad counts
  | drop words counts => exact .drop words counts
  | call counts even => exact .call counts even
  | label empty => exact .label empty
  | jmp empty => exact .jmp empty
  | jump empty => exact .jump empty
  | leave empty => exact .leave empty
  | restore empty => exact .restore empty
  | ret empty => exact .ret empty

theorem Finds.nonneg (h : Finds n line back) : 0 ≤ n := by
  cases h with
  | quiet _ counts => exact counts
  | push counts | pad counts | call counts => exact counts
  | pop _ counts | drop _ counts => omega
  | label empty | jmp empty | jump empty | leave empty | restore empty | ret empty => omega

/-- Every line of the code finds what it may, counting from `d` words on; `d'` words are left. -/
structure Steady (d : Int) (code : List Line) (d' : Int) : Prop where
  total : d + pushedWords code = d'
  finds : ∀ {front line back}, code = front ++ line :: back →
    Finds (d + pushedWords front) line back

theorem Steady.nil (d : Int) : Steady d [] d := ⟨by simp, by simp⟩

theorem Steady.append {t : Int} (h : Steady d code t) (h' : Steady t code' d') :
    Steady d (code ++ code') d' := by
  have htotal := h.total
  have htotal' := h'.total
  refine ⟨by rw [pushedWords_append]; omega, fun {front line back} heq => ?_⟩
  rcases List.append_eq_append_iff.1 heq with ⟨front', rfl, hcode'⟩ | ⟨rest, rfl, hrest⟩
  · have hfinds := (h'.finds hcode').mono []
    rw [List.append_nil] at hfinds
    rwa [pushedWords_append, ← Int.add_assoc, htotal]
  · cases rest with
    | nil =>
      have hfinds := (@Steady.finds _ _ _ h' [] _ _ hrest.symm).mono []
      simp only [List.append_nil, pushedWords_nil, Int.add_zero] at htotal hfinds
      rwa [htotal]
    | cons first rest =>
      cases hrest
      exact (h.finds rfl).mono code'

/-- One more line. -/
theorem Steady.snoc (h : Steady d code n) (hline : Finds n line []) :
    Steady d (code ++ [line]) (n + line.words) := by
  have htotal := h.total
  refine ⟨by simp; omega, fun {front _ back} heq => ?_⟩
  rcases List.append_eq_append_iff.1 heq with ⟨front', rfl, hsplit⟩ | ⟨rest, rfl, hsplit⟩
  · cases front' with
    | nil =>
      cases hsplit
      rwa [List.append_nil, htotal]
    | cons first front' => simp at hsplit
  · cases rest with
    | nil =>
      cases hsplit
      rw [List.append_nil] at htotal
      rwa [htotal]
    | cons first rest =>
      cases hsplit
      exact (h.finds rfl).mono _

/-- A line by itself. -/
theorem Steady.single (h : Finds d line []) : Steady d [line] (d + line.words) :=
  (Steady.nil d).snoc h

theorem Steady.quiet (h : line.Quiet) (hd : 0 ≤ d) : Steady d [line] d := by
  have hline : Steady d [line] (d + line.words) := .single (.quiet h hd)
  rwa [h.words, Int.add_zero] at hline

theorem Steady.all_quiet (h : ∀ line ∈ code, line.Quiet) (hd : 0 ≤ d) : Steady d code d := by
  induction code with
  | nil => exact .nil d
  | cons line rest ih =>
    exact (Steady.quiet (h line (by simp)) hd).append (ih fun line hline =>
      h line (by simp [hline]))

theorem Steady.pushes {rs : List Register} (hd : 0 ≤ d) :
    Steady d (rs.map .push) (d + rs.length) := by
  induction rs generalizing d with
  | nil => simpa using Steady.nil d
  | cons r rs ih =>
    have hfirst : Steady d [.push r] (d + 1) := .single (.push hd)
    have hrest := hfirst.append (ih (d := d + 1) (by omega))
    rw [List.length_cons, Nat.cast_succ, Int.add_comm (rs.length : Int), ← Int.add_assoc]
    exact hrest

theorem Steady.pops {rs : List Register} (hrs : ∀ r ∈ rs, r ∈ Register.tracked)
    (hd : rs.length ≤ d) : Steady d (rs.map .pop) (d - rs.length) := by
  induction rs generalizing d with
  | nil => simpa using Steady.nil d
  | cons r rs ih =>
    rw [List.length_cons, Nat.cast_succ] at hd ⊢
    have hr := hrs r (by simp)
    have hfirst : Steady d [.pop r] (d + (Line.pop r).words) := .single (.pop hr (by omega))
    rw [Line.words_pop hr] at hfirst
    have hrest := hfirst.append (ih (d := d + -1) (fun q hq => hrs q (by simp [hq])) (by omega))
    rw [show d - ((rs.length : Int) + 1) = d + -1 - rs.length by omega]
    exact hrest

/-! ### Instructions on registers and variables -/

variable {r : Register}

theorem Loads.quiet {location : Location} (h : Loads cx ty r location line)
    (hr : r ∈ Register.tracked) : line.Quiet := by
  cases h with
  | register source => exact .move hr
  | @memory address size n => cases hwidth : Width.ofSize size <;> exact .of_written rfl hr rfl

theorem Stores.quiet {location : Location} (h : Stores cx ty r location line)
    (hsited : Sited cx f ty location) : line.Quiet := by
  cases h with
  | register target =>
    cases hsited with
    | register argument => exact .move (Register.mem_tracked_of_arguments argument)
  | memory address size => exact .mk rfl (by simp [Machine.written])

/-! ### Expressions and places -/

variable {depth : Nat}

/-- Expressions and places of a function leave the stack as they find it. -/
structure SteadyParts (depth : Nat) (cx : Context) (u : UnitNode) (f : FunctionNode) : Prop where
  lowers : cx.Lowers u f
  small : cx.arena.size < 4294967296
  expression : ∀ {id ty s r code s'}, cx.InBody f id → cx.arena.Typed u cx.table cx.info id ty →
    Emits ((atDepth depth).expression id) cx s r code s' → Steady s.stackDepth code s.stackDepth
  place : ∀ {id ty s p code s'}, cx.InBody f id → cx.arena.Typed u cx.table cx.info id ty →
    Emits ((atDepth depth).place id) cx s p code s' → Steady s.stackDepth code s.stackDepth

theorem SteadyParts.disciplined (h : SteadyParts depth cx u f) : Disciplined (atDepth depth) cx u :=
  disciplined_atDepth h.lowers.program depth

theorem SteadyParts.sited (h : SteadyParts depth cx u f) : SitedPlaces (atDepth depth) cx u f :=
  sited_atDepth h.lowers depth

/-- Two expressions behind each other. -/
theorem SteadyParts.both (h : SteadyParts depth cx u f) {left right : NodeId} {ty' : Ty}
    {lhs rhs : Register} {t : State} (hin : cx.InBody f left) (hin' : cx.InBody f right)
    (hleft : cx.arena.Typed u cx.table cx.info left ty)
    (hright : cx.arena.Typed u cx.table cx.info right ty')
    (first : Emits ((atDepth depth).expression left) cx s lhs code t)
    (second : Emits ((atDepth depth).expression right) cx t rhs code' s') :
    Steady s.stackDepth (code ++ code') s.stackDepth := by
  have hdepth := (h.disciplined.expression hleft first).depth
  refine (h.expression hin hleft first).append ?_
  rw [← hdepth]
  exact h.expression hin' hright second

theorem PlaceShape.steady (hparts : SteadyParts depth cx u f) (hin : cx.InBody f id)
    (htyped : cx.arena.Typed u cx.table cx.info id ty) {p : Place}
    (h : PlaceShape (atDepth depth) cx id s p code s') :
    Steady s.stackDepth code s.stackDepth := by
  cases h with
  | global | register | registerReference | frame => exact .nil _
  | frameReference kind stored claimed =>
    exact .quiet (.of_written rfl claimed.tracked rfl) (by omega)
  | field kind type field outer =>
    obtain ⟨_, hbase⟩ := htyped.child kind (.head _)
    exact hparts.place (hin.child kind (.head _)) hbase outer
  | @element base index ty' n pointer offset c c' t t' _ kind type size array position released =>
    obtain ⟨_, hbase⟩ := htyped.child kind (.head _)
    obtain ⟨_, hindex⟩ := htyped.child kind (.tail _ (.head _))
    have hpointer := (hparts.disciplined.expression hbase array).tracked
    have hoffset := (hparts.disciplined.expression hindex position).tracked
    rw [← List.append_assoc]
    refine (hparts.both (hin.child kind (.head _)) (hin.child kind (.tail _ (.head _))) hbase hindex
      array position).append (.all_quiet (fun line hline => ?_) (by omega))
    rcases List.mem_cons.1 hline with rfl | hline
    · exact .of_written rfl hoffset rfl
    · cases List.mem_singleton.1 hline
      exact .of_written rfl hpointer rfl

theorem change_isPlain (op : UnaryOp) : (change op).isPlain = true := by
  cases op <;> rfl

theorem written_change (op : UnaryOp) {operand : Operand} :
    Machine.written (change op) [.reg r, operand] = [r] := by
  cases op <;> rfl

theorem StepShape.steady (hparts : SteadyParts depth cx u f) {op : UnaryOp} {operand : NodeId}
    (hin : cx.InBody f operand) (htyped : cx.arena.Typed u cx.table cx.info operand ty)
    (h : StepShape (atDepth depth) cx op operand s r code s') :
    Steady s.stackDepth code s.stackDepth := by
  cases h with
  | before order reads stores released =>
    obtain ⟨type, ⟨t, placed, claimed⟩, load⟩ := reads
    cases type.symm.trans htyped.noted
    refine (hparts.place hin htyped placed).append (.all_quiet (fun line hline => ?_) (by omega))
    rcases List.mem_cons.1 hline with rfl | hline
    · exact load.quiet claimed.tracked
    rcases List.mem_cons.1 hline with rfl | hline
    · exact .of_written (change_isPlain op) claimed.tracked (written_change op)
    · cases List.mem_singleton.1 hline
      exact stores.quiet (hparts.sited htyped placed)
  | after order reads claimed' stores dropped released =>
    obtain ⟨type, ⟨t, placed, claimed⟩, load⟩ := reads
    cases type.symm.trans htyped.noted
    refine (hparts.place hin htyped placed).append (.all_quiet (fun line hline => ?_) (by omega))
    rcases List.mem_cons.1 hline with rfl | hline
    · exact load.quiet claimed.tracked
    rcases List.mem_cons.1 hline with rfl | hline
    · exact .move claimed'.tracked
    rcases List.mem_cons.1 hline with rfl | hline
    · exact .of_written (change_isPlain op) claimed'.tracked (written_change op)
    · cases List.mem_singleton.1 hline
      exact stores.quiet (hparts.sited htyped placed)

/-! ### Operators -/

/-- A register saved around code that leaves the stack alone. -/
theorem Steady.around {c : Bool} (hd : 0 ≤ d) (hr : r ∈ Register.tracked)
    (h : ∀ d, 0 ≤ d → Steady d code d) :
    Steady d ((if c then [.push r] else []) ++ (code ++ if c then [.pop r] else [])) d := by
  cases c with
  | false => simpa using h d hd
  | true =>
    have hpush : Steady d [.push r] (d + 1) := .single (.push hd)
    have hpop : Steady (d + 1) [.pop r] (d + 1 + (Line.pop r).words) :=
      .single (.pop hr (by omega))
    rw [Line.words_pop hr, show d + 1 + -1 = d by omega] at hpop
    exact hpush.append ((h _ (by omega)).append hpop)

theorem steady_divideCode {saveRax saveRdx : Bool} {result dividend divisor : Register}
    (hd : 0 ≤ d) (hdividend : dividend ∈ Register.tracked) :
    Steady d (divideCode saveRax saveRdx result dividend divisor) d := by
  have hmiddle : ∀ d, 0 ≤ d → Steady d
      ((if dividend ≠ .rax then [.move .rax dividend] else []) ++
        ([.instruction .cqo [], .instruction .idiv [.reg divisor]] ++
          if dividend ≠ result then [.move dividend result] else [])) d := by
    intro d hd
    refine .all_quiet (fun line hline => ?_) hd
    rcases List.mem_append.1 hline with hline | hline
    · split at hline
      · cases List.mem_singleton.1 hline
        exact .move (by decide)
      · cases hline
    rcases List.mem_append.1 hline with hline | hline
    · rcases List.mem_cons.1 hline with rfl | hline
      · exact .mk rfl (by simp [Machine.written])
      · cases List.mem_singleton.1 hline
        exact .mk rfl (by simp [Machine.written])
    · split at hline
      · cases List.mem_singleton.1 hline
        exact .move hdividend
      · cases hline
  have hcode := Steady.around (c := saveRax) hd (by decide : Register.rax ∈ Register.tracked)
    fun d hd => Steady.around (c := saveRdx) hd (by decide : Register.rdx ∈ Register.tracked)
      hmiddle
  simpa [divideCode] using hcode

theorem OperatorShape.steady {op : BinaryOp} {lhs rhs : Register} (hd : 0 ≤ d)
    (hlhs : lhs ∈ Register.tracked) (h : OperatorShape op lhs rhs s code s') :
    Steady d code d := by
  cases h with
  | @combine mnemonic _ operator released =>
    have hline : Line.Quiet (.instruction mnemonic [.reg lhs, .reg rhs]) := by
      cases op <;> cases operator <;> exact .of_written rfl hlhs rfl
    exact .quiet hline hd
  | compare operator released =>
    refine .all_quiet (fun line hline => ?_) hd
    rcases List.mem_cons.1 hline with rfl | hline
    · exact .mk rfl (by simp [Machine.written])
    rcases List.mem_cons.1 hline with rfl | hline
    · exact .of_written rfl hlhs rfl
    · cases List.mem_singleton.1 hline
      exact .of_written rfl hlhs rfl
  | divide operator cleared released =>
    refine Steady.append ?_ (steady_divideCode hd hlhs)
    cases cleared with
    | stays => exact .nil d
    | moved inRax claimed => exact .quiet (.move claimed.tracked) hd

/-! ### Calls -/

theorem Calls.length_lt {args : List NodeId} {name : String} (hparts : SteadyParts depth cx u f)
    (hin : cx.InBody f id) (hk : cx.arena.kind id = .ok (.call name args)) :
    args.length < 4294967296 := by
  obtain ⟨start, htree⟩ := hparts.lowers.tree hin
  have hlt := htree.length_children_lt hk
  have hle := Arena.le_size_of_kind hk
  have hsmall := hparts.small
  simp only [NodeKind.children] at hlt
  omega

theorem ArgumentShape.steady (hparts : SteadyParts depth cx u f) (hin : cx.InBody f id)
    (htyped : cx.arena.Typed u cx.table cx.info id ty) {byAddress : Bool}
    (h : ArgumentShape (atDepth depth) cx id s r byAddress code s') :
    Steady s.stackDepth code s.stackDepth := by
  have hclaims := h.claims hparts.disciplined htyped
  cases h with
  | value computed => exact hparts.expression hin htyped computed
  | address placed target =>
    refine (hparts.place hin htyped placed).append (.quiet ?_ (by omega))
    exact .of_written rfl hclaims.tracked rfl

theorem ArgumentsShape.steady (hparts : SteadyParts depth cx u f) {args : List (NodeId × Bool)}
    (hargs : ∀ p ∈ args, cx.InBody f p.1 ∧ ∃ ty, cx.arena.Typed u cx.table cx.info p.1 ty)
    (h : ArgumentsShape (atDepth depth) cx s args code s') :
    Steady s.stackDepth code (s.stackDepth + args.length) := by
  induction h with
  | nil s => simpa using Steady.nil _
  | @cons arg byAddress rest r c c' s t t' s' first released others ih =>
    obtain ⟨hin, ty, hty⟩ := hargs _ (.head _)
    have hclaims := ((first.claims hparts.disciplined hty).grown 1).releases (by simp) released
    have hdepth : t'.stackDepth = s.stackDepth + 1 := hclaims.depth
    have hpush : Steady s.stackDepth [.push r] (s.stackDepth + 1) := .single (.push (by omega))
    have hrest := ih fun p hp => hargs p (.tail _ hp)
    rw [hdepth, Nat.cast_succ] at hrest
    rw [List.length_cons, Nat.cast_succ, Int.add_comm (rest.length : Int), ← Int.add_assoc]
    exact (first.steady hparts hin hty).append (hpush.append hrest)

theorem steady_paddingCode {padding : Nat} (hd : 0 ≤ d) (hpadding : padding < 2) :
    Steady d (paddingCode padding) (d + padding) := by
  by_cases hone : padding = 1
  · subst hone
    exact .single (.pad hd)
  · obtain rfl : padding = 0 := by omega
    simpa [paddingCode] using Steady.nil d

theorem steady_dropCode {words : Nat} (hd : words ≤ d) (hwords : words < 8589934592) :
    Steady d (dropCode words) (d - words) := by
  unfold dropCode
  split
  · have hvalue : (Int64.ofNat (8 * words)).toInt = 8 * words := by
      rw [Int64.toInt_ofNat_of_lt (by omega)]
      omega
    have hline : Steady d _ _ := .single (.drop hvalue hd)
    have hcount : (Line.instruction .add [.reg .rsp, .imm (Int64.ofNat (8 * words))]).words =
        -(words : Int) := by
      simp only [Line.words, if_pos, hvalue]
      omega
    rwa [hcount] at hline
  · obtain rfl : words = 0 := by omega
    simpa using Steady.nil d

theorem resultCode_quiet {result : Option Register} {t : State} (h : Claims result.toList s t) :
    ∀ line ∈ resultCode result, line.Quiet := by
  intro line hline
  cases result with
  | none => cases hline
  | some r =>
    simp only [resultCode] at hline
    split at hline
    · cases List.mem_singleton.1 hline
      exact .move h.tracked
    · cases hline

/-- Up to the call itself: an even number of words is on the stack then. -/
theorem steady_passArguments (hparts : SteadyParts depth cx u f) (hin : cx.InBody f id)
    {name : String} {args : List NodeId} {callee : Callee} {dropped : Nat}
    (htyped : cx.arena.Typed u cx.table cx.info id ty)
    (hk : cx.arena.kind id = .ok (.call name args)) (hcalls : Calls cx id args callee)
    (h : Emits (passArguments (atDepth depth) callee args) cx s dropped code s') :
    Steady s.stackDepth code s'.stackDepth ∧ s'.stackDepth % 2 = 0 ∧
      s'.stackDepth = s.stackDepth + s.registers.live.length + dropped ∧
      dropped < 4294967296 := by
  obtain ⟨rfl, argCode, t, harguments, rfl, rfl⟩ := emits_passArguments h
  have hshape := argumentsShape harguments
  have hsix : Register.arguments.length = 6 := rfl
  have hlength := Calls.length_lt hparts hin hk
  have hzip : (args.zip callee.byAddress).reverse.length = args.length := by
    simp [hcalls.length_byAddress hparts.lowers.program htyped hk]
  have hdepth := depth_passArguments hparts.lowers.program hparts.disciplined htyped hk hcalls
    hshape
  have hpadding : paddingOf s args.length < 2 := Nat.mod_lt _ Nat.two_pos
  have hparity : paddingOf s args.length =
      (s.stackDepth + s.registers.live.length + (args.length - 6)) % 2 := rfl
  have hargs : ∀ p ∈ (args.zip callee.byAddress).reverse, cx.InBody f p.1 ∧
      ∃ ty, cx.arena.Typed u cx.table cx.info p.1 ty := by
    intro p hp
    have hmem := (List.of_mem_zip (List.mem_reverse.1 hp)).1
    exact ⟨hin.child hk hmem, htyped.child hk hmem⟩
  have hpushed := hshape.steady hparts hargs
  have hpops := @Steady.pops t.stackDepth (Register.arguments.take args.length)
    (fun r hr => Register.mem_tracked_of_arguments (List.mem_of_mem_take hr)) (by
      rw [List.length_take]
      omega)
  rw [State.stackDepth_shrunk]
  simp only [stackWords]
  refine ⟨?_, by omega, by omega, by omega⟩
  refine (Steady.pushes (by omega)).append ((steady_paddingCode (by omega) hpadding).append ?_)
  rw [hzip, State.stackDepth_grown] at hpushed
  rw [List.length_take] at hpops
  have hstart : (s.stackDepth : Int) + s.registers.live.length + paddingOf s args.length =
      ((s.stackDepth + (s.registers.live.length + paddingOf s args.length) : Nat) : Int) := by
    omega
  have hmiddle :
      ((s.stackDepth + (s.registers.live.length + paddingOf s args.length) : Nat) : Int) +
      args.length = t.stackDepth := by
    omega
  have hend : (t.stackDepth : Int) - (min args.length Register.arguments.length : Nat) =
      ((t.stackDepth - min args.length 6 : Nat) : Int) := by
    omega
  rw [hstart, ← hend]
  rw [hmiddle] at hpushed
  exact hpushed.append hpops

/-- A call, with everything around it. -/
theorem steady_callNode (hparts : SteadyParts depth cx u f) (hin : cx.InBody f id)
    {name : String} {args : List NodeId} {result : Option Register}
    (htyped : cx.arena.Typed u cx.table cx.info id ty)
    (hk : cx.arena.kind id = .ok (.call name args))
    (h : Emits (callNode (atDepth depth) id name args) cx s result code s') :
    Steady s.stackDepth code s.stackDepth := by
  obtain ⟨callee, _, _, c₁, hcallee, h₁, rfl⟩ := emits_bind.1 h
  obtain ⟨hcalls, rfl, hstate⟩ := emits_calleeOf hcallee
  rw [hstate] at h₁
  obtain ⟨dropped, before, t, c₂, hpass, h₂, rfl⟩ := emits_bind.1 (emits_state_bind.1 h₁)
  obtain ⟨c₃, rfl, h₃⟩ := emits_emit_bind.1 h₂
  obtain ⟨c₄, rfl, h₄⟩ := emits_drop_bind h₃
  obtain ⟨t', -, hclaims, -, rfl⟩ := emits_result h₄
  obtain ⟨hbefore, heven, hdepth, hdropped⟩ := steady_passArguments hparts hin htyped hk
    hcalls hpass
  -- the call stands right behind the code that passes its arguments
  have hcall := hbefore.snoc (@Finds.call _ callee.label [] (by omega) (by omega))
  have hdrop := @steady_dropCode t.stackDepth dropped (by omega) (by omega)
  have hresult := @Steady.all_quiet _ (t.stackDepth - dropped) (resultCode_quiet hclaims)
    (by omega)
  have hpops := @Steady.pops (t.stackDepth - dropped) s.registers.live.reverse
    (fun r hr => s.registers.ordered.subset (List.mem_reverse.1 hr)) (by
      rw [List.length_reverse]
      omega)
  rw [List.length_reverse,
    show (t.stackDepth : Int) - dropped - s.registers.live.length = s.stackDepth by omega] at hpops
  have hall := hcall.append (hdrop.append (hresult.append hpops))
  simpa using hall

/-! ### Expressions -/

theorem steady_expressionAt (hparts : SteadyParts depth cx u f) (hin : cx.InBody f id)
    (htyped : cx.arena.Typed u cx.table cx.info id ty)
    (h : Emits (expressionAt (atDepth depth) id) cx s r code s') :
    Steady s.stackDepth code s.stackDepth := by
  have hclaims := (expressionShape h).claims hparts.lowers.program hparts.disciplined htyped
  cases expressionShape h with
  | constant kind claimed => exact .quiet (.of_written rfl claimed.tracked rfl) (by omega)
  | text kind claimed => exact .quiet (.of_written rfl claimed.tracked rfl) (by omega)
  | read kind place type scalar shape target load =>
    exact (shape.steady hparts hin htyped).append (.quiet (load.quiet hclaims.tracked) (by omega))
  | sign kind part | invert kind part =>
    obtain ⟨_, hpart⟩ := htyped.child kind (.head _)
    exact (hparts.expression (hin.child kind (.head _)) hpart part).append
      (.quiet (.of_written rfl hclaims.tracked rfl) (by omega))
  | step kind isStep shape =>
    obtain ⟨_, hpart⟩ := htyped.child kind (.head _)
    exact shape.steady hparts (hin.child kind (.head _)) hpart
  | binary kind first second shape =>
    obtain ⟨_, hleft⟩ := htyped.child kind (.head _)
    obtain ⟨_, hright⟩ := htyped.child kind (.tail _ (.head _))
    rw [← List.append_assoc]
    exact (hparts.both (hin.child kind (.head _)) (hin.child kind (.tail _ (.head _))) hleft hright
      first second).append (shape.steady (by omega) hclaims.tracked)
  | call kind shape =>
    exact steady_callNode hparts hin htyped kind (emits_call_of_expression kind h)

/-- Expressions and places of any depth leave the stack as they find it. -/
theorem steady_atDepth (hlowers : cx.Lowers u f) (hsmall : cx.arena.size < 4294967296)
    (depth : Nat) : SteadyParts depth cx u f := by
  induction depth with
  | zero =>
    exact ⟨hlowers, hsmall, fun _ _ h => (emits_fail.1 h).elim, fun _ _ h => (emits_fail.1 h).elim⟩
  | succ depth ih =>
    exact ⟨hlowers, hsmall, fun hin htyped h => steady_expressionAt ih hin htyped h,
      fun hin htyped h => (placeShape h).steady ih hin htyped⟩

/-! ### Statements -/

theorem IsTransfer.quiet (h : IsTransfer r line) (hr : r ∈ Register.tracked) : line.Quiet := by
  cases h with
  | load width a => cases width <;> exact .of_written rfl hr rfl
  | store width a => exact .mk rfl (by simp [Machine.written])

theorem IsClearing.quiet (h : IsClearing line) : line.Quiet := by
  obtain ⟨width, a, rfl⟩ := h
  exact .mk rfl (by simp [Machine.written])

theorem steady_call (hparts : SteadyParts depth cx u f) (hin : cx.InBody f id)
    (htyped : cx.arena.Typed u cx.table cx.info id ty) {v : Unit}
    (h : Emits (call (atDepth depth) id >>= fun r => releaseAll r.toList) cx s v code s') :
    Steady s.stackDepth code s.stackDepth := by
  rcases emits_call_release h with ⟨name, args, result, t, hk, hcall, -⟩ | ⟨rfl, -⟩
  · exact steady_callNode hparts hin htyped hk hcall
  · exact .nil _

theorem TestShape.steady (hparts : SteadyParts depth cx u f) (hin : cx.InBody f id) {k : NodeKind}
    {outcome : Condition} (hk : cx.arena.kind id = .ok k)
    (htyped : cx.arena.Typed u cx.table cx.info id ty)
    (h : TestShape (atDepth depth) cx id s (Test.ofKind k) outcome code s') :
    Steady s.stackDepth code s.stackDepth := by
  generalize hshape : Test.ofKind k = shape at h
  cases h with
  | comparison first second dropped dropped' =>
    obtain rfl := Test.kind_of_comparison hshape
    obtain ⟨_, hleft⟩ := htyped.child hk (.head _)
    obtain ⟨_, hright⟩ := htyped.child hk (.tail _ (.head _))
    rw [← List.append_assoc]
    exact (hparts.both (hin.child hk (.head _)) (hin.child hk (.tail _ (.head _))) hleft
      hright first
      second).append (.quiet (.mk rfl (by simp [Machine.written])) (by omega))
  | value computed dropped =>
    exact (hparts.expression hin htyped computed).append
      (.quiet (.mk rfl (by simp [Machine.written])) (by omega))

theorem AssignShape.steady (hparts : SteadyParts depth cx u f) {target value : NodeId}
    (hin : cx.InBody f target) (hin' : cx.InBody f value)
    (htarget : cx.arena.Typed u cx.table cx.info target ty)
    (hvalue : cx.arena.Typed u cx.table cx.info value ty)
    (h : AssignShape (atDepth depth) cx target value s code s') :
    Steady s.stackDepth code s.stackDepth := by
  cases h with
  | record type kind stored first second claimed copied released released' released'' =>
    have hdepth := (hparts.disciplined.place hvalue first).depth
    refine (hparts.place hin' hvalue first).append ?_
    rw [← hdepth]
    refine (hparts.place hin htarget second).append (.all_quiet (fun line hline => ?_) (by omega))
    have hcopy := (emits_copyFields (emits_context_bind.1 copied)).2 line hline
    exact hcopy.quiet claimed.tracked
  | scalar type plain first second stores released released' =>
    cases type.symm.trans htarget.noted
    have hdepth := (hparts.disciplined.expression hvalue first).depth
    refine (hparts.expression hin' hvalue first).append ?_
    rw [← hdepth]
    refine (hparts.place hin htarget second).append (.quiet ?_ (by omega))
    exact stores.quiet (hparts.sited htarget second)

theorem PutShape.steady (hparts : SteadyParts depth cx u f) (hin : cx.InBody f id)
    (htyped : cx.arena.Typed u cx.table cx.info id ty) (hr : r ∈ Register.tracked)
    (h : PutShape (atDepth depth) cx s r id code s') :
    Steady s.stackDepth code s.stackDepth := by
  cases h with
  | constant kind => exact .quiet (.of_written rfl hr rfl) (by omega)
  | moved computed released =>
    exact (hparts.expression hin htyped computed).append (.quiet (.move hr) (by omega))
  | there computed released => exact hparts.expression hin htyped computed

theorem steady_epilogueCode : Steady 0 epilogueCode 0 := by
  refine ⟨rfl, fun {front line back} heq => ?_⟩
  match front, heq with
  | [], heq =>
    cases heq
    exact .leave rfl
  | [_], heq =>
    cases heq
    exact .restore rfl
  | [_, _], heq =>
    cases heq
    exact .ret rfl
  | _ :: _ :: _ :: _, heq => simp [epilogueCode] at heq

/-- The program ends with nothing on the stack. -/
theorem steady_exit (h : Steady 0 code 0) :
    Steady 0 (code ++ [(.instruction .call [.label "_exit"] : Line)]) 0 :=
  h.snoc (.call (Int.le_refl 0) rfl)

theorem LeaveShape.steady (hparts : SteadyParts cx.arena.depthLimit cx u f)
    {value : Option NodeId} (hin : ∀ v ∈ value, cx.InBody f v)
    (htyped : ∀ v ∈ value, cx.arena.Typed u cx.table cx.info v ty) (hempty : s.stackDepth = 0)
    (h : LeaveShape (ofArena cx.arena) cx s value code s') : Steady 0 code 0 := by
  cases h with
  | exit entry =>
    have hzero : Steady 0 [.instruction .mov [.reg .rdi, .imm 0]] 0 :=
      .quiet (.of_written rfl (by decide : Register.rdi ∈ Register.tracked) rfl) (Int.le_refl 0)
    exact steady_exit hzero
  | @exitWith v c s' entry put =>
    have hsteady := put.steady hparts (hin v rfl) (htyped v rfl) (by decide)
    have hdepth := (put.claims hparts.disciplined (htyped v rfl)).depth
    rw [hempty] at hsteady hdepth
    exact steady_exit hsteady
  | epilogue entry => exact steady_epilogueCode
  | giveBack entry put =>
    have hsteady := put.steady hparts (hin _ rfl) (htyped _ rfl) (by decide)
    rw [hempty] at hsteady
    exact hsteady.append steady_epilogueCode

theorem LeaveShape.steady_none (hparts : SteadyParts cx.arena.depthLimit cx u f)
    (hempty : s.stackDepth = 0) (h : LeaveShape (ofArena cx.arena) cx s none code s') :
    Steady 0 code 0 :=
  have htyped : ∀ v ∈ none, cx.arena.Typed u cx.table cx.info v .void := by simp
  h.steady hparts (by simp) htyped hempty

theorem ReturnShape.steady (hparts : SteadyParts cx.arena.depthLimit cx u f)
    {value : Option NodeId} (hin : ∀ v ∈ value, cx.InBody f v)
    (htyped : ∀ v ∈ value, cx.arena.Typed u cx.table cx.info v ty) (hempty : s.stackDepth = 0)
    (h : ReturnShape (ofArena cx.arena) cx value s code s') : Steady 0 code 0 := by
  obtain ⟨returned, leaves⟩ := h
  cases returned with
  | none => exact leaves.steady hparts hin htyped hempty
  | value => exact leaves.steady hparts hin htyped hempty
  | void type called =>
    have hcall := steady_call hparts (hin _ rfl) (htyped _ rfl) called
    have hdepth := (claims_call hparts.lowers.program hparts.disciplined (htyped _ rfl)
      called).depth
    rw [hempty] at hcall hdepth
    exact hcall.append (leaves.steady_none hparts hdepth)

/-- Statements behind each other. -/
theorem steady_forM {xs : List NodeId} {g : NodeId → Gen Unit} {v : Unit}
    (hg : ∀ x ∈ xs, ∀ {s c s'}, s.stackDepth = 0 → Emits (g x) cx s () c s' →
      Steady 0 c 0 ∧ s'.stackDepth = 0)
    (hempty : s.stackDepth = 0) (h : Emits (xs.forM g) cx s v code s') : Steady 0 code 0 := by
  induction xs generalizing s code with
  | nil =>
    obtain ⟨rfl, -⟩ := emits_forM_nil.1 h
    exact .nil 0
  | cons x xs ih =>
    obtain ⟨c, t, c', hx, hxs, rfl⟩ := emits_forM_cons.1 h
    obtain ⟨hsteady, ht⟩ := hg x (by simp) hempty hx
    exact hsteady.append (ih (fun y hy => hg y (by simp [hy])) ht hxs)

/-- One level of a statement. -/
theorem StatementShape.steady (hparts : SteadyParts cx.arena.depthLimit cx u f)
    {statement : NodeId → Gen Unit}
    (hstatement : ∀ {id s c s'}, cx.InBody f id → cx.arena.Checked u cx.table cx.info ret id →
      s.stackDepth = 0 → Emits (statement id) cx s () c s' →
      Steady 0 c 0 ∧ s'.stackDepth = 0)
    (hin : cx.InBody f id) (hchecked : cx.arena.Checked u cx.table cx.info ret id)
    (hempty : s.stackDepth = 0)
    (h : StatementShape (ofArena cx.arena) cx statement id s code s') : Steady 0 code 0 := by
  have hlabel : ∀ {name}, Steady 0 [.label name] 0 := .single (.label rfl)
  have hjmp : ∀ {k}, Steady 0 [.instruction .jmp [.label (labelName k)]] 0 := .single (.jmp rfl)
  have hjump : ∀ {condition k},
      Steady 0 [.instruction (.jump condition) [.label (labelName k)]] 0 := .single (.jump rfl)
  have htest : ∀ {condition k outcome s c s'}, s.stackDepth = 0 → cx.InBody f condition →
      cx.arena.kind condition = .ok k → cx.arena.Typed u cx.table cx.info condition .bool →
      TestShape (ofArena cx.arena) cx condition s (Test.ofKind k) outcome c s' →
      Steady 0 c 0 ∧ s'.stackDepth = 0 := by
    intro condition k outcome s c s' hs hcondition hk htyped test
    have hsteady := test.steady hparts hcondition hk htyped
    have hdepth := (test.claims hparts.disciplined hk htyped).depth
    rw [hs] at hsteady hdepth
    exact ⟨hsteady, hdepth⟩
  cases h with
  | block kind parts =>
    have hbody := hchecked.block_parts kind
    exact steady_forM (fun x hx _ _ _ => hstatement (hin.child kind hx) (hbody x hx)) hempty parts
  | declare kind cleared =>
    exact .all_quiet (fun line hline => ((emits_declareLocal cleared).2 line hline).quiet)
      (Int.le_refl 0)
  | never | empty => exact .nil 0
  | assign kind shape =>
    obtain ⟨_, htarget, hvalue⟩ := hchecked.assign_parts kind
    have hsteady := shape.steady hparts (hin.child kind (.head _))
      (hin.child kind (.tail _ (.head _)))
      htarget hvalue
    rwa [hempty] at hsteady
  | callStatement kind called =>
    obtain ⟨_, hcall⟩ := hchecked.call_part kind
    have hsteady := steady_call hparts (hin.child kind (.head _)) hcall called
    rwa [hempty] at hsteady
  | taken kind literal part =>
    exact (hstatement (hin.child kind (.tail _ (.head _))) (hchecked.branch_parts kind).2.1 hempty
      part).1
  | passed kind literal part =>
    have hsecond := (hchecked.branch_parts kind).2.2
    refine steady_forM (fun x hx _ _ _ => hstatement (hin.child kind ?_)
      (hsecond x (by simpa using hx))) hempty part
    exact .tail _ (.tail _ hx)
  | choice kind tested test first =>
    obtain ⟨hcondition, hfirst, -⟩ := hchecked.branch_parts kind
    obtain ⟨hc, ht⟩ := htest (by exact hempty) (hin.child kind (.head _)) tested hcondition test
    obtain ⟨hc', -⟩ := hstatement (hin.child kind (.tail _ (.head _))) hfirst ht first
    exact hc.append (hjump.append (hc'.append hlabel))
  | alternative kind tested test first second =>
    obtain ⟨hcondition, hfirst, hsecond⟩ := hchecked.branch_parts kind
    obtain ⟨hc, ht⟩ := htest (by exact hempty) (hin.child kind (.head _)) tested hcondition test
    obtain ⟨hc', ht'⟩ := hstatement (hin.child kind (.tail _ (.head _))) hfirst ht first
    obtain ⟨hc'', -⟩ := hstatement (hin.child kind (.tail _ (.tail _ (.head _)))) (hsecond _ rfl)
      (by exact ht') second
    exact hc.append (hjump.append (hc'.append (hjmp.append (hlabel.append (hc''.append hlabel)))))
  | forever kind literal part =>
    obtain ⟨hc, -⟩ := hstatement (hin.child kind (.tail _ (.head _))) (hchecked.loop_parts kind).2
      (by exact hempty) part
    exact hlabel.append (hc.append hjmp)
  | loop kind tested part test =>
    obtain ⟨hcondition, hbody⟩ := hchecked.loop_parts kind
    obtain ⟨hc, ht⟩ := hstatement (hin.child kind (.tail _ (.head _))) hbody
      (by exact hempty) part
    obtain ⟨hc', -⟩ := htest ht (hin.child kind (.head _)) tested hcondition test
    exact hjmp.append (hlabel.append (hc.append (hlabel.append (hc'.append hjump))))
  | ret kind shape =>
    have hvalue := hchecked.ret_part kind
    exact shape.steady hparts (fun v hv => hin.child kind (by simpa [NodeKind.children] using hv))
      hvalue hempty

/-- Statements of any depth leave an empty stack empty. -/
theorem steady_statement (hparts : SteadyParts cx.arena.depthLimit cx u f) {depth : Nat}
    (hin : cx.InBody f id) (hchecked : cx.arena.Checked u cx.table cx.info ret id)
    (hempty : s.stackDepth = 0)
    (h : Emits (statement (ofArena cx.arena) depth id) cx s () code s') :
    Steady 0 code 0 ∧ s'.stackDepth = 0 := by
  have hbalanced := balanced_statement hparts.lowers.program hparts.disciplined hchecked h
  refine ⟨?_, hbalanced.depth.trans hempty⟩
  induction depth generalizing id s code s' with
  | zero => exact (emits_fail.1 h).elim
  | succ depth ih =>
    obtain ⟨k, hk, hrole⟩ := hchecked.role
    refine (statementShape hk hrole h).steady hparts (fun hin hchecked hempty h => ?_) hin hchecked
      hempty
    have hbalanced := balanced_statement hparts.lowers.program hparts.disciplined hchecked h
    exact ⟨ih hin hchecked hempty h hbalanced, hbalanced.depth.trans hempty⟩

/-! ### Functions -/

theorem CopiesShape.quiet {ps : List CopiedParameter} (h : CopiesShape cx s ps code) :
    ∀ line ∈ code, line.Quiet := by
  induction h with
  | nil => simp
  | cons first others ih =>
    intro line hline
    rcases List.mem_append.1 hline with hline | hline
    · cases first with
      | nothing source => cases hline
      | copy source copied =>
        rcases List.mem_cons.1 hline with rfl | hline
        · exact .of_written rfl (by decide : Register.r11 ∈ Register.tracked) rfl
        · have hcopy := (emits_copyFields (emits_context_bind.1 copied)).2 line hline
          exact hcopy.quiet (by decide)
    · exact ih line hline

/-- The code of a function behind the set-up of its frame. -/
theorem FunctionShape.steady {label : String} (hparts : SteadyParts cx.arena.depthLimit cx u f)
    (hempty : s.stackDepth = 0) (h : FunctionShape label f cx s code s') :
    ∃ rest, code = .label label :: (frameCode cx ++ rest) ∧ Steady 0 rest 0 ∧
      s'.stackDepth = 0 := by
  obtain @⟨t, _, copies, body, returns, claimed, copied, lowered, ends⟩ := h
  obtain ⟨fid, hfid, hf⟩ := hparts.lowers.member
  have hbody := (hparts.lowers.program.typed.functions fid hfid f hf).body
  have ht : t.stackDepth = 0 := by
    rw [(emits_forM_claim claimed).2.1]
    exact hempty
  have hs' : s'.stackDepth = 0 := (balanced_forM (fun x hx _ _ _ h =>
    balanced_statement hparts.lowers.program hparts.disciplined (hbody x hx) h) lowered).depth.trans
      ht
  refine ⟨_, rfl, ?_, hs'⟩
  refine (Steady.all_quiet (fun line hline => ?_) (Int.le_refl 0)).append
    ((Steady.all_quiet copied.quiet (Int.le_refl 0)).append (Steady.append (t := 0) ?_ ?_))
  · obtain ⟨p, -, rfl⟩ := List.mem_map.1 hline
    exact .mk rfl (by simp [Machine.written])
  · exact steady_forM (fun r hr _ _ _ => steady_statement hparts ⟨r, hr, .self r⟩ (hbody r hr)) ht
      lowered
  · unfold tailCode
    split
    · exact .nil 0
    · split
      · next hentry =>
        have hexit : LeaveShape (ofArena cx.arena) cx s' none _ s' := .exit hentry
        exact hexit.steady_none hparts hs'
      · exact steady_epilogueCode

end Lowering

end MiniJ
