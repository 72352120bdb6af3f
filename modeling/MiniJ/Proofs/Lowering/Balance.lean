import MiniJ.Proofs.Lowering.Discipline
import MiniJ.Proofs.Lowering.StatementShape

/-!
# Statements give everything back

A statement leaves registers and stack as it found them: whatever its expressions take, it releases,
and whatever it puts on the stack, it takes off again.

## Main statements

* `Lowering.balanced_statement` — statements of any depth.
-/
namespace MiniJ

namespace Arena.Checked

variable {a : Arena} {u : UnitNode} {table : SymbolTable} {info : SemanticInfo} {ret : Ty}
  {id : Nat}

/-! ### Parts of checked statements -/

/-- A checked statement is a statement node. -/
theorem role (h : a.Checked u table info ret id) :
    ∃ k, a.kind id = .ok k ∧ k.role = .statement := by
  cases h <;> exact ⟨_, by assumption, rfl⟩

theorem block_parts {body : List NodeId} (h : a.Checked u table info ret id)
    (hk : a.kind id = .ok (.block body)) : ∀ x ∈ body, a.Checked u table info ret x := by
  cases h with
  | block kind parts =>
    cases kind.symm.trans hk
    exact parts
  | _ => simp_all

theorem assign_parts {target value : NodeId} (h : a.Checked u table info ret id)
    (hk : a.kind id = .ok (.assign target value)) :
    ∃ ty, a.Typed u table info target ty ∧ a.Typed u table info value ty := by
  cases h with
  | assign kind place typed =>
    cases kind.symm.trans hk
    exact ⟨_, place, typed⟩
  | _ => simp_all

theorem call_part {c : NodeId} (h : a.Checked u table info ret id)
    (hk : a.kind id = .ok (.callStatement c)) : ∃ ty, a.Typed u table info c ty := by
  cases h with
  | callStatement kind call =>
    cases kind.symm.trans hk
    exact ⟨_, call⟩
  | _ => simp_all

theorem branch_parts {condition onTrue : NodeId} {onFalse : Option NodeId}
    (h : a.Checked u table info ret id)
    (hk : a.kind id = .ok (.branch condition onTrue onFalse)) :
    a.Typed u table info condition .bool ∧ a.Checked u table info ret onTrue ∧
      ∀ x ∈ onFalse, a.Checked u table info ret x := by
  cases h with
  | branch kind test first second =>
    cases kind.symm.trans hk
    exact ⟨test, first, second⟩
  | _ => simp_all

theorem loop_parts {condition body : NodeId} (h : a.Checked u table info ret id)
    (hk : a.kind id = .ok (.loop condition body)) :
    a.Typed u table info condition .bool ∧ a.Checked u table info ret body := by
  cases h with
  | loop kind test inner =>
    cases kind.symm.trans hk
    exact ⟨test, inner⟩
  | _ => simp_all

theorem ret_part {value : Option NodeId} (h : a.Checked u table info ret id)
    (hk : a.kind id = .ok (.ret value)) : ∀ v ∈ value, a.Typed u table info v ret := by
  cases h with
  | ret kind typed =>
    cases kind.symm.trans hk
    exact typed
  | _ => simp_all

end Arena.Checked

namespace Gen

variable {cx : Context} {s s' t : State} {code : List Line}

/-- Registers and stack are as they were; labels and text constants may be new. -/
structure Balanced (s s' : State) : Prop where
  registers : s'.registers = s.registers
  depth : s'.stackDepth = s.stackDepth

theorem Balanced.refl (s : State) : Balanced s s := ⟨rfl, rfl⟩

theorem Balanced.trans (h : Balanced s t) (h' : Balanced t s') : Balanced s s' :=
  ⟨h'.registers.trans h.registers, h'.depth.trans h.depth⟩

theorem Balanced.labelled (h : Balanced s s') : Balanced s.labelled s'.labelled := ⟨h.1, h.2⟩

theorem Claims.balanced (h : Claims [] s s') : Balanced s s' := ⟨h.registers_eq, h.depth⟩

theorem balanced_forM {α : Type} {xs : List α} {g : α → Gen Unit} {v : Unit}
    (hg : ∀ x ∈ xs, ∀ {s c s'}, Emits (g x) cx s () c s' → Balanced s s')
    (h : Emits (xs.forM g) cx s v code s') : Balanced s s' := by
  induction xs generalizing s code with
  | nil =>
    obtain ⟨-, rfl⟩ := emits_forM_nil.1 h
    exact .refl s'
  | cons x xs ih =>
    obtain ⟨c, t, c', hx, hxs, rfl⟩ := emits_forM_cons.1 h
    exact (hg x (by simp) hx).trans (ih (fun y hy => hg y (by simp [hy])) hxs)

end Gen

namespace Lowering

open Gen

variable {lower : Lowering} {cx : Context} {u : UnitNode} {s s' : State} {code : List Line}
  {id : NodeId} {ty ret : Ty}

theorem Test.kind_of_comparison {op : BinaryOp} {condition : Condition} {left right : NodeId}
    {k : NodeKind} (h : Test.ofKind k = .comparison op condition left right) :
    k = .binary op left right := by
  unfold Test.ofKind at h
  split at h
  · cases h
  · split at h
    · cases h
      rfl
    · cases h
  · cases h

theorem TestShape.claims {k : NodeKind} {outcome : Condition} (hlower : Disciplined lower cx u)
    (hk : cx.arena.kind id = .ok k) (htyped : cx.arena.Typed u cx.table cx.info id ty)
    (h : TestShape lower cx id s (Test.ofKind k) outcome code s') : Claims [] s s' := by
  generalize hshape : Test.ofKind k = shape at h
  cases h with
  | comparison first second dropped dropped' =>
    obtain rfl := Test.kind_of_comparison hshape
    obtain ⟨_, hleft⟩ := htyped.child hk (.head _)
    obtain ⟨_, hright⟩ := htyped.child hk (.tail _ (.head _))
    have hboth := (hlower.expression hleft first).trans (hlower.expression hright second)
    have hfirst := hboth.releases (by simp) dropped
    rw [List.cons_append, List.erase_cons_head] at hfirst
    simpa using hfirst.releases (by simp) dropped'
  | value computed dropped =>
    simpa using (hlower.expression htyped computed).releases (by simp) dropped

/-- A call for its effect. -/
theorem claims_call (hprogram : CheckedProgram cx.arena u cx.table cx.info)
    (hlower : Disciplined lower cx u) (htyped : cx.arena.Typed u cx.table cx.info id ty) {v : Unit}
    (h : Emits (call lower id >>= fun r => releaseAll r.toList) cx s v code s') :
    Claims [] s s' := by
  rcases emits_call_release h with ⟨name, args, result, t, hk, hcall, hrelease⟩ | ⟨-, rfl⟩
  · have hclaims := (callShape hcall).claims hprogram hlower htyped hk
    rw [← List.append_nil result.toList] at hclaims
    exact (hclaims.releaseAll hrelease).2
  · exact .refl s'

theorem PutShape.claims {target : Register} (hlower : Disciplined lower cx u)
    (htyped : cx.arena.Typed u cx.table cx.info id ty)
    (h : PutShape lower cx s target id code s') : Claims [] s s' := by
  cases h with
  | constant => exact .refl s
  | moved computed released | there computed released =>
    simpa using (hlower.expression htyped computed).releases (by simp) released

theorem ReturnShape.claims {value : Option NodeId}
    (hprogram : CheckedProgram cx.arena u cx.table cx.info) (hlower : Disciplined lower cx u)
    (htyped : ∀ v ∈ value, cx.arena.Typed u cx.table cx.info v ty)
    (h : ReturnShape lower cx value s code s') : Claims [] s s' := by
  obtain ⟨returned, leaves⟩ := h
  have hleaves : ∀ {result t c s'}, (∀ v ∈ result, cx.arena.Typed u cx.table cx.info v ty) →
      LeaveShape lower cx t result c s' → Claims [] t s' := by
    intro result t c s' hresult h
    cases h with
    | exit | epilogue => exact .refl t
    | exitWith entry put | giveBack entry put => exact put.claims hlower (hresult _ rfl)
  cases returned with
  | none => exact hleaves htyped leaves
  | value => exact hleaves htyped leaves
  | void type called =>
    exact (claims_call hprogram hlower (htyped _ rfl) called).trans (hleaves (by simp) leaves)

theorem AssignShape.claims {target value : NodeId} (hlower : Disciplined lower cx u)
    (htarget : cx.arena.Typed u cx.table cx.info target ty)
    (hvalue : cx.arena.Typed u cx.table cx.info value ty)
    (h : AssignShape lower cx target value s code s') : Claims [] s s' := by
  cases h with
  | record type kind stored first second claimed copied released released' released'' =>
    have hboth := (hlower.place hvalue first).trans (hlower.place htarget second)
    have hall := (hboth.trans claimed).releases (by simp) released
    rw [List.cons_append, List.erase_cons_head, List.nil_append] at hall
    have hrest := (hall.releaseAll released').2
    rw [← List.append_nil (Option.toList _)] at hrest
    exact (hrest.releaseAll released'').2
  | scalar type plain first second stores released released' =>
    have hboth := (hlower.expression hvalue first).trans (hlower.place htarget second)
    simpa using (hboth.releaseAll released).2.releases (by simp) released'

/-- One level of a statement. -/
theorem StatementShape.balanced {statement : NodeId → Gen Unit}
    (hprogram : CheckedProgram cx.arena u cx.table cx.info) (hlower : Disciplined lower cx u)
    (hparts : ∀ {id s c s'}, cx.arena.Checked u cx.table cx.info ret id →
      Emits (statement id) cx s () c s' → Balanced s s')
    (hchecked : cx.arena.Checked u cx.table cx.info ret id)
    (h : StatementShape lower cx statement id s code s') : Balanced s s' := by
  have hlabel : Balanced s s.labelled := ⟨rfl, rfl⟩
  cases h with
  | block kind parts =>
    have hbody := hchecked.block_parts kind
    exact balanced_forM (fun x hx _ _ _ hemits => hparts (hbody x hx) hemits) parts
  | declare | never | empty => exact .refl s
  | assign kind shape =>
    obtain ⟨_, htarget, hvalue⟩ := hchecked.assign_parts kind
    exact (shape.claims hlower htarget hvalue).balanced
  | callStatement kind called =>
    obtain ⟨_, hcall⟩ := hchecked.call_part kind
    exact (claims_call hprogram hlower hcall called).balanced
  | taken kind literal part => exact hparts (hchecked.branch_parts kind).2.1 part
  | passed kind literal part =>
    have hsecond := (hchecked.branch_parts kind).2.2
    exact balanced_forM (fun x hx _ _ _ hemits => hparts (hsecond x (by simpa using hx)) hemits)
      part
  | choice kind tested test first =>
    obtain ⟨htest, hfirst, -⟩ := hchecked.branch_parts kind
    exact (hlabel.trans (test.claims hlower tested htest).balanced).trans (hparts hfirst first)
  | alternative kind tested test first second =>
    obtain ⟨htest, hfirst, hsecond⟩ := hchecked.branch_parts kind
    have hthen := (test.claims hlower tested htest).balanced.trans (hparts hfirst first)
    have hboth := hthen.labelled.trans (hparts (hsecond _ rfl) second)
    exact ⟨hboth.registers, hboth.depth⟩
  | forever kind literal part => exact hlabel.trans (hparts (hchecked.loop_parts kind).2 part)
  | loop kind tested part test =>
    obtain ⟨htest, hbody⟩ := hchecked.loop_parts kind
    have hlabels : Balanced s s.labelled.labelled := ⟨rfl, rfl⟩
    exact (hlabels.trans (hparts hbody part)).trans (test.claims hlower tested htest).balanced
  | ret kind shape => exact (shape.claims hprogram hlower (hchecked.ret_part kind)).balanced

/-- Statements of any depth leave registers and stack as they found them. -/
theorem balanced_statement {depth : Nat} (hprogram : CheckedProgram cx.arena u cx.table cx.info)
    (hlower : Disciplined lower cx u) (hchecked : cx.arena.Checked u cx.table cx.info ret id)
    {v : Unit} (h : Emits (statement lower depth id) cx s v code s') : Balanced s s' := by
  induction depth generalizing id s code s' with
  | zero => exact (emits_fail.1 h).elim
  | succ depth ih =>
    obtain ⟨k, hk, hrole⟩ := hchecked.role
    exact (statementShape hk hrole h).balanced hprogram hlower ih hchecked

/-- Anything in a checked function that is lowered as a statement. -/
theorem balanced_of_annotated {depth : Nat} (hprogram : CheckedProgram cx.arena u cx.table cx.info)
    (hlower : Disciplined lower cx u) (hid : cx.arena.Annotated u cx.table cx.info ret id)
    (h : Emits (statement lower depth id) cx s () code s') : Balanced s s' := by
  rcases hid with hchecked | ⟨ty, htyped⟩ | ⟨b, hb⟩
  · exact balanced_statement hprogram hlower hchecked h
  · cases depth with
    | zero => exact (emits_fail.1 h).elim
    | succ depth =>
      have hrelease : Emits (lower.expression id >>= release) cx s () code s' → Balanced s s' := by
        intro hcode
        obtain ⟨r, c, t, _, hr, hdrop, rfl⟩ := emits_bind.1 hcode
        have hclaims := (hlower.expression htyped hr).releases (by simp)
          (emits_release_iff.1 hdrop).2
        rw [List.erase_cons_head] at hclaims
        exact hclaims.balanced
      obtain ⟨k, hk, hcode⟩ := emits_kind_bind.1 h
      cases htyped with
      | int kind | text kind | bool kind | var kind | field kind | element kind | unary kind
      | binary kind | call kind =>
        cases kind.symm.trans hk
        exact hrelease hcode
  · cases depth with
    | zero => exact (emits_fail.1 h).elim
    | succ depth =>
      obtain ⟨k, hk, hcode⟩ := emits_kind_bind.1 h
      cases hb.symm.trans hk
      obtain ⟨-, -, rfl⟩ := emits_pure.1 hcode
      exact .refl s'

end Lowering

end MiniJ
