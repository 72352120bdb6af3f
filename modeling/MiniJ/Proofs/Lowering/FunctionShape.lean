import MiniJ.Proofs.Lowering.StatementShape

/-!
# Shape of the code for functions

A function starts with its label, sets up its frame, moves parameters that need an address into it,
copies records, and runs its body. Code generation claims the registers of the parameters first and
keeps them until the end.

## Main definitions

* `Lowering.FunctionShape` — the code of a function.

## Main statements

* `Lowering.functionShape` — lowering a function emits this shape.
-/
namespace MiniJ

namespace Gen

variable {cx : Context} {s s' : State} {code : List Line} {r : Register} {rs : List Register}

/-! ### Claiming -/

theorem emits_claim {v : Unit} : Emits (claim r) cx s v code s' ↔
    ∃ g, s.registers.claim? r = some g ∧ code = [] ∧ s' = { s with registers := g } := by
  rw [claim, emits_state_bind]
  cases h : s.registers.claim? r with
  | none => simp [emits_fail]
  | some g => simp [emits_update]

/-- A free register is claimed. -/
theorem exists_claim (cx : Context) (htracked : r ∈ Register.tracked)
    (hfree : r ∉ s.registers.live) :
    ∃ t, Emits (claim r) cx s () [] t ∧
      ∀ q, q ∈ t.registers.live ↔ q = r ∨ q ∈ s.registers.live := by
  obtain ⟨g, hg⟩ := RegisterFile.claim?_isSome htracked hfree
  exact ⟨_, emits_claim.2 ⟨g, hg, rfl, rfl⟩, (RegisterFile.claim?_eq_some hg).2.2⟩

theorem exists_forM_claim (cx : Context) (hnodup : rs.Nodup)
    (htracked : ∀ r ∈ rs, r ∈ Register.tracked)
    (hfree : ∀ r ∈ rs, r ∉ s.registers.live) : ∃ t, Emits (rs.forM claim) cx s () [] t ∧
      ∀ q, q ∈ t.registers.live ↔ q ∈ rs ∨ q ∈ s.registers.live := by
  induction rs generalizing s with
  | nil => exact ⟨s, emits_forM_nil.2 ⟨rfl, rfl⟩, by simp⟩
  | cons r rs ih =>
    obtain ⟨hr, hrs⟩ := List.nodup_cons.1 hnodup
    obtain ⟨t, ht, hlive⟩ := exists_claim cx (htracked r (by simp)) (hfree r (by simp))
    have hrest : ∀ q ∈ rs, q ∉ t.registers.live := by
      intro q hq hmem
      rcases (hlive q).1 hmem with rfl | hmem
      · exact hr hq
      · exact hfree q (by simp [hq]) hmem
    obtain ⟨t', ht', hlive'⟩ := ih hrs (fun q hq => htracked q (by simp [hq])) hrest
    refine ⟨t', emits_forM_cons.2 ⟨[], t, [], ht, ht', rfl⟩, fun q => ?_⟩
    rw [hlive', hlive, List.mem_cons]
    tauto

/-- Claimed registers become live, and nothing else changes. -/
theorem emits_forM_claim {v : Unit} (h : Emits (rs.forM claim) cx s v code s') :
    code = [] ∧ s' = { s with registers := s'.registers } ∧
      ∀ q, q ∈ s'.registers.live ↔ q ∈ rs ∨ q ∈ s.registers.live := by
  induction rs generalizing s code with
  | nil =>
    obtain ⟨rfl, rfl⟩ := emits_forM_nil.1 h
    exact ⟨rfl, rfl, by simp⟩
  | cons r rs ih =>
    obtain ⟨c, t, c', hr, hrs, rfl⟩ := emits_forM_cons.1 h
    obtain ⟨g, hg, rfl, rfl⟩ := emits_claim.1 hr
    obtain ⟨rfl, hstate, hlive⟩ := ih hrs
    refine ⟨rfl, hstate, fun q => ?_⟩
    rw [hlive, (RegisterFile.claim?_eq_some hg).2.2, List.mem_cons]
    tauto

end Gen

namespace Lowering

open Gen

variable {cx : Context} {f : FunctionNode} {s s' : State} {code : List Line}

/-! ### Prologue -/

/-- Sets up the frame. -/
def frameCode (cx : Context) : List Line :=
  .push .rbp :: .move .rbp .rsp ::
    ((if cx.frame.size > 0 then
        [.instruction .sub [.reg .rsp, .imm (Int64.ofNat cx.frame.size)]] else []) ++
      (if cx.isEntry = true then [.instruction .and [.reg .rsp, .imm (-16)]] else []))

/-- Moves a register parameter into the frame. -/
def homeCode (p : HomedParameter) : Line :=
  .instruction .mov [.mem p.width p.address, .sized p.width p.register]

theorem emits_homeParameters {ps : List HomedParameter} {v : Unit} :
    Emits (ps.forM homeParameter) cx s v code s' ↔ code = ps.map homeCode ∧ s' = s := by
  induction ps generalizing code with
  | nil => exact emits_forM_nil
  | cons p ps ih =>
    simp only [emits_forM_cons, homeParameter, emits_emit]
    constructor
    · rintro ⟨_, _, _, ⟨rfl, rfl⟩, hrest, rfl⟩
      obtain ⟨rfl, rfl⟩ := ih.1 hrest
      exact ⟨rfl, rfl⟩
    · rintro ⟨rfl, rfl⟩
      exact ⟨_, _, _, ⟨rfl, rfl⟩, ih.2 ⟨rfl, rfl⟩, rfl⟩

/-- Where the address of a record that is passed by value comes in. -/
def incomingOperand? : Storage → Option Operand
  | .register r => some (.reg r)
  | .frame displacement => some (.mem .qword (.frame displacement))
  | .global _ => none

/-- Copies a record that is passed by value. -/
inductive CopyShape (cx : Context) (p : CopiedParameter) (s : State) : List Line → Prop
  | nothing (source : incomingOperand? p.source = none) : CopyShape cx p s []
  | copy {incoming : Operand} {t : State} {c : List Line}
      (source : incomingOperand? p.source = some incoming)
      (copied : Emits (copyRecord p.record (.register .r11) p.address .rax p.param) cx t () c t) :
      CopyShape cx p s (.instruction .mov [.reg .r11, incoming] :: c)

/-- Claiming two free registers and releasing them again changes nothing. -/
theorem registers_claim_release {r q : Register} {g₁ g₂ g₃ g₄ : RegisterFile} {g : RegisterFile}
    (h₁ : g.claim? r = some g₁) (h₂ : g₁.claim? q = some g₂) (h₃ : g₂.release q = .ok g₃)
    (h₄ : g₃.release r = .ok g₄) : g₄ = g := by
  obtain ⟨hr, hfree, hlive₁⟩ := RegisterFile.claim?_eq_some h₁
  obtain ⟨hq, hfree', hlive₂⟩ := RegisterFile.claim?_eq_some h₂
  refine RegisterFile.ext_of_mem fun x => ?_
  rcases RegisterFile.release_eq_ok h₃ with ⟨hno, -⟩ | ⟨-, hlive₃⟩
  · exact absurd hq hno
  rcases RegisterFile.release_eq_ok h₄ with ⟨hno, -⟩ | ⟨-, hlive₄⟩
  · exact absurd hr hno
  rw [hlive₄, hlive₃, hlive₂, hlive₁]
  rw [hlive₁] at hfree'
  grind

theorem copyShape {p : CopiedParameter} {v : Unit} (h : Emits (copyParameter p) cx s v code s') :
    CopyShape cx p s code ∧ s' = s := by
  have hcopy : ∀ {incoming}, incomingOperand? p.source = some incoming → Emits (do
      claim .r11
      claim .rax
      emit .mov [.reg .r11, incoming]
      copyRecord p.record (.register .r11) p.address .rax p.param
      release .rax
      release .r11) cx s v code s' → CopyShape cx p s code ∧ s' = s := by
    intro incoming hsource hemits
    obtain ⟨_, _, _, _, hr11, hrest₁, rfl⟩ := emits_bind.1 hemits
    obtain ⟨g₁, hg₁, rfl, rfl⟩ := emits_claim.1 hr11
    obtain ⟨_, _, _, _, hrax, hrest₂, rfl⟩ := emits_bind.1 hrest₁
    obtain ⟨g₂, hg₂, rfl, rfl⟩ := emits_claim.1 hrax
    obtain ⟨_, rfl, hrest₃⟩ := emits_emit_bind.1 hrest₂
    obtain ⟨_, c, t, _, hcopied, hrest₄, rfl⟩ := emits_bind.1 hrest₃
    obtain ⟨rfl, -⟩ := emits_copyFields (emits_context_bind.1 hcopied)
    obtain ⟨g₃, hg₃, hrelease⟩ := emits_release_bind.1 hrest₄
    obtain ⟨g₄, hg₄, rfl, rfl⟩ := emits_release.1 hrelease
    rw [List.append_nil]
    refine ⟨.copy hsource hcopied, ?_⟩
    obtain rfl := registers_claim_release hg₁ hg₂ hg₃ hg₄
    rfl
  unfold copyParameter at h
  cases hsource : p.source with
  | global symbol =>
    rw [hsource] at h
    obtain ⟨-, rfl, rfl⟩ := emits_pure.1 h
    exact ⟨.nothing (by simp [hsource, incomingOperand?]), rfl⟩
  | register r =>
    rw [hsource] at h
    exact hcopy (by simp [hsource, incomingOperand?]) h
  | frame displacement =>
    rw [hsource] at h
    exact hcopy (by simp [hsource, incomingOperand?]) h

/-- Copies of records, one behind the other. -/
inductive CopiesShape (cx : Context) (s : State) : List CopiedParameter → List Line → Prop
  | nil : CopiesShape cx s [] []
  | cons {p : CopiedParameter} {ps : List CopiedParameter} {c c' : List Line}
      (first : CopyShape cx p s c) (others : CopiesShape cx s ps c') :
      CopiesShape cx s (p :: ps) (c ++ c')

theorem copiesShape {ps : List CopiedParameter} {v : Unit}
    (h : Emits (ps.forM copyParameter) cx s v code s') : CopiesShape cx s ps code ∧ s' = s := by
  induction ps generalizing code with
  | nil =>
    obtain ⟨rfl, rfl⟩ := emits_forM_nil.1 h
    exact ⟨.nil, rfl⟩
  | cons p ps ih =>
    obtain ⟨c, t, c', hp, hps, rfl⟩ := emits_forM_cons.1 h
    obtain ⟨hfirst, rfl⟩ := copyShape hp
    obtain ⟨hothers, rfl⟩ := ih hps
    exact ⟨.cons hfirst hothers, rfl⟩

theorem emits_prologue {v : Unit} (h : Emits prologue cx s v code s') :
    ∃ copies, CopiesShape cx s cx.frame.copied copies ∧ s' = s ∧
      code = frameCode cx ++ (cx.frame.homed.map homeCode ++ copies) := by
  obtain ⟨_, rfl, h₁⟩ := emits_emit_bind.1 (emits_context_bind.1 h)
  obtain ⟨_, rfl, h₂⟩ := emits_emit_bind.1 h₁
  obtain ⟨_, rfl, h₃⟩ := emits_emit_if.1 h₂
  obtain ⟨_, rfl, h₄⟩ := emits_emit_if.1 h₃
  obtain ⟨_, _, _, copies, hhomes, hcopies, rfl⟩ := emits_bind.1 h₄
  obtain ⟨rfl, rfl⟩ := emits_homeParameters.1 hhomes
  obtain ⟨hshape, rfl⟩ := copiesShape hcopies
  refine ⟨copies, hshape, rfl, ?_⟩
  simp [frameCode, Line.push, Line.move]

/-! ### Functions -/

/-- What follows a body: it leaves the function unless the body ends with a `return`. -/
def tailCode (cx : Context) (returns : Bool) : List Line :=
  if returns = true then [] else if cx.isEntry = true then exitCode (.imm 0) else epilogueCode

/-- The code of a function. -/
inductive FunctionShape (label : String) (f : FunctionNode) (cx : Context) (s : State) :
    List Line → State → Prop
  | mk {t s' : State} {copies body : List Line} {returns : Bool}
      (claimed : Emits (cx.frame.parameterRegisters.forM claim) cx s () [] t)
      (copied : CopiesShape cx t cx.frame.copied copies)
      (lowered : Emits (f.body.forM (statement (ofArena cx.arena) cx.arena.depthLimit)) cx t () body
        s') (ends : Emits (endsWithReturn f.body) cx s' returns [] s') :
      FunctionShape label f cx s (.label label :: (frameCode cx ++
        (cx.frame.homed.map homeCode ++ (copies ++ (body ++ tailCode cx returns))))) s'

theorem emits_endsWithReturn {body : List NodeId} {returns : Bool}
    (h : Emits (endsWithReturn body) cx s returns code s') : code = [] ∧ s' = s := by
  unfold endsWithReturn at h
  split at h
  · obtain ⟨k, -, hdone⟩ := emits_kind_bind.1 h
    exact (emits_pure.1 hdone).2
  · exact (emits_pure.1 h).2

/-- The code of a function has this shape. -/
theorem functionShape {label : String} {v : Unit}
    (h : Emits (functionBody label f) cx s v code s') :
    FunctionShape label f cx s code s' := by
  obtain ⟨_, _, t, _, hclaim, h₁, rfl⟩ := emits_bind.1 (emits_context_bind.1 h)
  obtain ⟨rfl, -⟩ := emits_forM_claim hclaim
  obtain ⟨_, rfl, h₂⟩ := emits_placeLabel_bind.1 h₁
  obtain ⟨_, _, _, _, hprologue, h₃, rfl⟩ := emits_bind.1 h₂
  obtain ⟨copies, hcopies, rfl, rfl⟩ := emits_prologue hprologue
  obtain ⟨_, body, _, _, hbody, h₄, rfl⟩ := emits_bind.1 h₃
  obtain ⟨returns, _, t', tail, hends, htail, rfl⟩ := emits_bind.1 h₄
  obtain ⟨rfl, rfl⟩ := emits_endsWithReturn hends
  have htailed : tail = tailCode cx returns ∧ s' = t' := by
    cases returns with
    | true => exact (emits_pure.1 htail).2
    | false =>
      unfold tailCode
      cases hentry : cx.isEntry with
      | true =>
        rw [hentry] at htail
        exact emits_exit.1 htail
      | false =>
        rw [hentry] at htail
        exact emits_epilogue.1 htail
  obtain ⟨rfl, rfl⟩ := htailed
  have hshape := @FunctionShape.mk label f cx s _ _ _ _ _ hclaim hcopies hbody hends
  simpa using hshape

end Lowering

end MiniJ
