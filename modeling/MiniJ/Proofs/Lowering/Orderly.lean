import MiniJ.Proofs.Lowering.Balance
import MiniJ.Proofs.Lowering.Breach

/-!
# Registers are never claimed twice or released twice

Code generation may fail on an accepted program, but never because a register is claimed that is in
use, released while it is free, or because more words are taken from the stack than were put on it.

## Main statements

* `Lowering.orderly_atDepth` — expressions and places.
* `Lowering.orderly_statement` — statements.
* `Lowering.orderly_functionBody` — functions.
-/
namespace MiniJ

namespace Lowering

open Gen

variable {lower : Lowering} {cx : Context} {u : UnitNode} {s : State} {id : NodeId} {ty ret : Ty}

/-! ### Places -/

/-- Typed expressions and places do not break the discipline. -/
structure OrderlyParts (lower : Lowering) (cx : Context) (u : UnitNode) : Prop where
  program : CheckedProgram cx.arena u cx.table cx.info
  disciplined : Disciplined lower cx u
  expression : ∀ {id ty s}, cx.arena.Typed u cx.table cx.info id ty →
    Orderly (lower.expression id) cx s
  place : ∀ {id ty s}, cx.arena.Typed u cx.table cx.info id ty → Orderly (lower.place id) cx s

theorem orderly_load {location : Location} {target : Register} :
    Orderly (load location ty target id) cx s := by
  cases location with
  | register => exact orderly_emit
  | memory => exact orderly_sizeOf_bind fun _ => orderly_emit

theorem orderly_store {location : Location} {value : Register} :
    Orderly (store location ty value id) cx s := by
  cases location with
  | register => exact orderly_emit
  | memory => exact orderly_sizeOf_bind fun _ => orderly_emit

theorem orderly_targetOf {p : Place} : Orderly (targetOf p id) cx s := by
  unfold targetOf
  split
  · exact orderly_pure
  · exact orderly_scratch

theorem orderly_placeAt (hlower : OrderlyParts lower cx u)
    (htyped : cx.arena.Typed u cx.table cx.info id ty) : Orderly (placeAt lower id) cx s := by
  refine orderly_kind_bind fun k hk => ?_
  cases k with
  | var name =>
    refine orderly_seq orderly_slotOf fun slot s => ?_
    split
    · exact orderly_pure
    · exact orderly_pure
    · exact orderly_pure
    · exact orderly_pure
    · exact orderly_seq orderly_scratch fun _ _ => orderly_emit_bind orderly_pure
  | field base name =>
    obtain ⟨_, hbase⟩ := htyped.child hk (.head _)
    refine orderly_typeOf_bind fun ty => ?_
    split
    · refine orderly_context_bind (orderly_lift_seq (cx.table.avoids_field _ _) fun found => ?_)
      split
      · exact orderly_unsupported
      · refine orderly_seq (hlower.place hbase) fun outer s => ?_
        split
        · exact orderly_lift_seq (Address.avoids_offsetBy _ _) fun _ => orderly_pure
        · exact orderly_unsupported
    · exact orderly_unsupported
  | element base index =>
    obtain ⟨_, hbase⟩ := htyped.child hk (.head _)
    obtain ⟨_, hindex⟩ := htyped.child hk (.tail _ (.head _))
    refine orderly_typeOf_bind fun ty => orderly_sizeOf_bind fun n => ?_
    refine orderly_seq (hlower.expression hbase) fun pointer s => ?_
    refine orderly_bind (hlower.expression hindex) fun offset _ t ht => ?_
    have hlive := ((hlower.disciplined.expression hindex ht).live offset).2 (by simp)
    refine orderly_emit_bind (orderly_emit_bind (orderly_seq (orderly_release hlive) fun _ _ => ?_))
    exact orderly_pure
  | _ => exact orderly_unsupported

theorem orderly_address (hlower : OrderlyParts lower cx u)
    (htyped : cx.arena.Typed u cx.table cx.info id ty) : Orderly (address lower id) cx s := by
  refine orderly_seq (hlower.place htyped) fun p s => ?_
  split
  · exact orderly_unsupported
  · exact orderly_seq orderly_targetOf fun _ _ => orderly_emit_bind orderly_pure

/-! ### Operators -/

theorem orderly_step (hlower : OrderlyParts lower cx u) {op : UnaryOp} {operand : NodeId}
    (htyped : cx.arena.Typed u cx.table cx.info operand ty) :
    Orderly (step lower id op operand) cx s := by
  refine orderly_typeOf_bind fun ty => orderly_bind (hlower.place htyped) fun p _ t ht => ?_
  refine orderly_bind orderly_scratch fun value _ t₁ hvalue => ?_
  refine orderly_bind orderly_load fun _ _ t₂ hload => ?_
  obtain ⟨rfl, -⟩ := emits_load hload
  have hclaims := (hlower.disciplined.place htyped ht).trans (emits_scratch hvalue).2
  have hrelease : ∀ {t}, Claims [] t₂ t → Orderly (releasePlace p >>= fun _ => pure value)
      cx t := by
    intro t hquiet
    have hall := (hclaims.trans hquiet).perm (List.perm_append_singleton value p.temp.toList).symm
    exact orderly_seq (orderly_releaseAll hall) fun _ _ => orderly_pure
  have hbefore : ∀ {change}, Orderly (emit change [.reg value, .imm 1] >>= fun _ =>
      store p.location ty value operand >>= fun _ => releasePlace p >>= fun _ => pure value)
        cx t₂ := by
    intro change
    refine orderly_emit_bind (orderly_bind orderly_store fun _ _ t₃ hstore => ?_)
    obtain ⟨rfl, -⟩ := emits_store hstore
    exact hrelease (.refl _)
  have hafter : ∀ {change}, Orderly (scratch id >>= fun updated =>
      emit .mov [.reg updated, .reg value] >>= fun _ =>
      emit change [.reg updated, .imm 1] >>= fun _ =>
      store p.location ty updated operand >>= fun _ => release updated >>= fun _ =>
      releasePlace p >>= fun _ => pure value) cx t₂ := by
    intro change
    refine orderly_bind orderly_scratch fun updated _ t₃ hupdated => ?_
    have hclaimed := (emits_scratch hupdated).2
    refine orderly_emit_bind (orderly_emit_bind (orderly_bind orderly_store
      fun _ _ t₄ hstore => ?_))
    obtain ⟨rfl, -⟩ := emits_store hstore
    refine orderly_bind (orderly_release ((hclaimed.live updated).2 (by simp))) fun _ _ t₅ h₅ => ?_
    have hreleased := hclaimed.releases (by simp) (emits_release_iff.1 h₅).2
    rw [List.erase_cons_head] at hreleased
    exact hrelease hreleased
  cases op with
  | preIncrement | preDecrement => exact hbefore
  | _ => exact hafter

theorem orderly_rejectText {op : BinaryOp} {left : NodeId} :
    Orderly (rejectText id op left) cx s := by
  unfold rejectText
  split
  · exact orderly_pure
  · refine orderly_typeOf_bind fun ty => ?_
    split
    · exact orderly_unsupported
    · exact orderly_pure

theorem orderly_emit_if {β : Type} {c : Prop} [Decidable c] {mnemonic : Mnemonic}
    {operands : List Operand} {g : Unit → Gen β} (h : Orderly (g ()) cx s) :
    Orderly (if c then emit mnemonic operands >>= g else g ()) cx s := by
  split
  · exact orderly_emit_bind h
  · exact h

theorem orderly_divide {result dividend divisor : Register} (hlive : divisor ∈ s.registers.live) :
    Orderly (divide id result dividend divisor) cx s := by
  unfold divide
  extract_lets jp
  have hdivide : ∀ {d t}, d ∈ t.registers.live → Orderly (jp d) cx t := by
    intro d t hd
    refine orderly_state_bind (orderly_emit_if (orderly_emit_if (orderly_emit_if (orderly_emit_bind
      (orderly_emit_bind (orderly_emit_if (orderly_emit_if (orderly_emit_if ?_))))))))
    exact orderly_seq (orderly_release hd) fun _ _ => orderly_pure
  split
  · refine orderly_bind orderly_scratch fun moved _ t hmoved => orderly_emit_bind ?_
    have hclaims := (emits_scratch hmoved).2
    refine orderly_bind (orderly_release (hclaims.mono hlive)) fun _ _ t' ht' => ?_
    refine orderly_bind orderly_pure fun d _ t'' hd => ?_
    obtain ⟨rfl, -, rfl⟩ := emits_pure.1 hd
    obtain ⟨g, hg, -, rfl⟩ := emits_release.1 ht'
    refine hdivide ?_
    rcases RegisterFile.release_eq_ok hg with ⟨-, rfl⟩ | ⟨-, hrest⟩
    · exact (hclaims.live _).2 (by simp)
    · exact (hrest _).2 ⟨(hclaims.ne_of_live (.head _) hlive).symm, (hclaims.live _).2 (by simp)⟩
  · refine orderly_bind orderly_pure fun d _ t'' hd => ?_
    obtain ⟨rfl, -, rfl⟩ := emits_pure.1 hd
    exact hdivide hlive

theorem orderly_binary (hlower : OrderlyParts lower cx u) {op : BinaryOp} {left right : NodeId}
    (htyped : cx.arena.Typed u cx.table cx.info id ty)
    (hk : cx.arena.kind id = .ok (.binary op left right)) :
    Orderly (binary lower id op left right) cx s := by
  obtain ⟨_, hleft⟩ := htyped.child hk (.head _)
  obtain ⟨_, hright⟩ := htyped.child hk (.tail _ (.head _))
  refine orderly_seq orderly_rejectText fun _ s => ?_
  refine orderly_seq (hlower.expression hleft) fun lhs s => ?_
  refine orderly_bind (hlower.expression hright) fun rhs _ t ht => ?_
  have hlive := ((hlower.disciplined.expression hright ht).live rhs).2 (by simp)
  have hcombine : ∀ {mnemonic}, Orderly (combine mnemonic lhs rhs) cx t :=
    orderly_emit_bind (orderly_seq (orderly_release hlive) fun _ _ => orderly_pure)
  have hcompare : ∀ {condition}, Orderly (compareTo condition lhs rhs) cx t :=
    orderly_emit_bind (orderly_emit_bind (orderly_emit_bind
      (orderly_seq (orderly_release hlive) fun _ _ => orderly_pure)))
  cases op with
  | plus | minus | times | and | or => exact hcombine
  | div | mod => exact orderly_divide hlive
  | equal | unequal | lesser | lesserEq | greater | greaterEq => exact hcompare

/-! ### Calls -/

theorem orderly_calleeOf {name : String} {args : List NodeId} :
    Orderly (calleeOf id name args) cx s := by
  refine orderly_context_bind ?_
  split
  · exact orderly_unsupported
  · refine orderly_lift_seq (cx.arena.avoids_function? _) fun found => ?_
    split
    · exact orderly_unsupported
    · refine orderly_guard (orderly_lift_seq (.mapM cx.arena.avoids_binder?) fun params => ?_)
      split
      · exact orderly_unsupported
      · exact orderly_pure
  · split
    · exact orderly_unsupported
    · exact orderly_pure

theorem orderly_pushArgument (hlower : OrderlyParts lower cx u) {byAddress : Bool}
    (htyped : cx.arena.Typed u cx.table cx.info id ty) :
    Orderly (pushArgument lower id byAddress) cx s := by
  unfold pushArgument
  extract_lets jp
  have hpush : ∀ {r t}, r ∈ t.registers.live → Orderly (jp r) cx t := by
    intro r t hr
    refine orderly_bind orderly_push fun _ _ t' ht' => ?_
    obtain ⟨-, rfl⟩ := emits_push.1 ht'
    exact orderly_release hr
  cases byAddress with
  | false =>
    refine orderly_bind (hlower.expression htyped) fun r _ t ht => hpush ?_
    exact ((hlower.disciplined.expression htyped ht).live r).2 (by simp)
  | true =>
    refine orderly_kind_bind fun k hk => orderly_guard ?_
    refine orderly_bind (orderly_address hlower htyped) fun r _ t ht => hpush ?_
    obtain ⟨a, temp, c, t', hplace, htargets, -⟩ := emits_address ht
    exact ((htargets.claims (hlower.disciplined.place htyped hplace)).live r).2 (by simp)

theorem orderly_padding_bind {β : Type} {padding : Nat} (hp : padding < 2) {g : Unit → Gen β}
    (h : Orderly (g ()) cx (s.grown padding)) :
    Orderly (if padding = 1 then emit .sub [.reg .rsp, .imm 8] >>= fun _ => grow 1 >>= g
      else g ()) cx s := by
  by_cases hone : padding = 1
  · subst hone
    refine orderly_emit_bind (orderly_bind orderly_update fun _ _ t ht => ?_)
    obtain ⟨-, rfl⟩ := emits_update.1 ht
    exact h
  · obtain rfl : padding = 0 := by omega
    exact h

theorem orderly_drop_bind {β : Type} {words : Nat} {g : Unit → Gen β} (hle : words ≤ s.stackDepth)
    (h : Orderly (g ()) cx (s.shrunk words)) :
    Orderly (if words > 0 then emit .add [.reg .rsp, .imm (Int64.ofNat (8 * words))] >>= fun _ =>
      shrink words >>= g else g ()) cx s := by
  by_cases hpos : words > 0
  · rw [if_pos hpos]
    refine orderly_emit_bind (orderly_bind (orderly_shrink hle) fun _ _ t ht => ?_)
    obtain ⟨-, -, rfl⟩ := emits_shrink.1 ht
    exact h
  · obtain rfl : words = 0 := by omega
    exact h

theorem orderly_result {saved : List Register} {returns : Bool}
    (hle : saved.length ≤ s.stackDepth) :
    Orderly (if returns = true then takeResult id >>= fun r => pure (some r) >>= fun result =>
      saved.forM pop >>= fun _ => pure result
      else pure none >>= fun result => saved.forM pop >>= fun _ => pure result) cx s := by
  have hpops : ∀ {t : State} {result : Option Register}, t.stackDepth = s.stackDepth →
      Orderly (pure result >>= fun result => saved.forM pop >>= fun _ => pure result) cx t := by
    intro t result ht
    refine orderly_bind orderly_pure fun result _ t' ht' => ?_
    obtain ⟨-, -, rfl⟩ := emits_pure.1 ht'
    exact orderly_seq (orderly_forM_pop (ht ▸ hle)) fun _ _ => orderly_pure
  cases returns with
  | true =>
    have htake : Orderly (takeResult id) cx s :=
      orderly_seq orderly_scratch fun _ _ => orderly_emit_if orderly_pure
    exact orderly_bind htake fun r _ t hr => hpops (emits_takeResult hr).1.depth
  | false => exact hpops rfl

variable {name : String} {args : List NodeId}

theorem orderly_passArguments (hlower : OrderlyParts lower cx u) {callee : Callee}
    (htyped : cx.arena.Typed u cx.table cx.info id ty)
    (hk : cx.arena.kind id = .ok (.call name args)) (hcalls : Calls cx id args callee) :
    Orderly (passArguments lower callee args) cx s := by
  refine orderly_state_bind (orderly_bind orderly_forM_push fun _ _ t ht => ?_)
  obtain ⟨-, rfl⟩ := emits_forM_push.1 ht
  refine orderly_state_bind (orderly_padding_bind (Nat.mod_lt _ Nat.two_pos) ?_)
  refine orderly_bind (orderly_forM fun p hp s => ?_) fun _ _ t₂ hargs => ?_
  · obtain ⟨_, harg⟩ := htyped.child hk (List.of_mem_zip (List.mem_reverse.1 hp)).1
    exact orderly_pushArgument hlower harg
  · have hdepth := depth_passArguments hlower.program hlower.disciplined htyped hk hcalls
      (argumentsShape hargs)
    refine orderly_seq (orderly_forM_pop ?_) fun _ _ => orderly_pure
    rw [List.length_take, hdepth]
    omega

/-- A typed call. -/
theorem orderly_callNode (hlower : OrderlyParts lower cx u)
    (htyped : cx.arena.Typed u cx.table cx.info id ty)
    (hk : cx.arena.kind id = .ok (.call name args)) :
    Orderly (callNode lower id name args) cx s := by
  refine orderly_bind orderly_calleeOf fun callee _ t hcallee => ?_
  obtain ⟨hcalls, -, rfl⟩ := emits_calleeOf hcallee
  refine orderly_state_bind (orderly_bind (orderly_passArguments hlower htyped hk hcalls)
    fun dropped _ t₁ hpass => ?_)
  obtain ⟨rfl, argCode, t₂, harguments, -, rfl⟩ := emits_passArguments hpass
  have hdepth := depth_passArguments hlower.program hlower.disciplined htyped hk hcalls
    (argumentsShape harguments)
  have hsix : Register.arguments.length = 6 := rfl
  refine orderly_emit_bind (orderly_drop_bind ?_ (orderly_result ?_))
  · rw [State.stackDepth_shrunk, hdepth, stackWords]
    omega
  · rw [State.stackDepth_shrunk, State.stackDepth_shrunk, hdepth, List.length_reverse, stackWords]
    omega

/-! ### Expressions -/

theorem orderly_placeValue (hlower : OrderlyParts lower cx u)
    (htyped : cx.arena.Typed u cx.table cx.info id ty) : Orderly (placeValue lower id) cx s := by
  refine orderly_typeOf_bind fun ty => orderly_guard ?_
  refine orderly_seq (orderly_placeAt hlower htyped) fun p s => ?_
  exact orderly_seq orderly_targetOf fun r s => orderly_seq orderly_load fun _ _ => orderly_pure

theorem orderly_unary (hlower : OrderlyParts lower cx u) {op : UnaryOp} {operand : NodeId}
    (htyped : cx.arena.Typed u cx.table cx.info operand ty) :
    Orderly (unary lower id op operand) cx s := by
  cases op with
  | minus | not =>
    exact orderly_seq (hlower.expression htyped) fun _ _ => orderly_emit_bind orderly_pure
  | preIncrement | preDecrement | postIncrement | postDecrement =>
    unfold unary
    exact orderly_step hlower htyped

theorem orderly_expressionAt (hlower : OrderlyParts lower cx u)
    (htyped : cx.arena.Typed u cx.table cx.info id ty) : Orderly (expressionAt lower id) cx s := by
  have hconstant : ∀ value, Orderly (constant id value) cx s := fun value =>
    orderly_seq orderly_scratch fun _ _ => orderly_emit_bind orderly_pure
  refine orderly_kind_bind fun k hk => ?_
  cases k with
  | int | bool => exact hconstant _
  | text value =>
    refine orderly_seq (orderly_state_bind (orderly_seq orderly_update fun _ _ => orderly_pure))
      fun label s => ?_
    exact orderly_seq orderly_scratch fun _ _ => orderly_emit_bind orderly_pure
  | var | field | element => exact orderly_placeValue hlower htyped
  | unary op operand =>
    obtain ⟨_, hoperand⟩ := htyped.child hk (.head _)
    exact orderly_unary hlower hoperand
  | binary op left right => exact orderly_binary hlower htyped hk
  | call name args =>
    refine orderly_seq (orderly_callNode hlower htyped hk) fun result s => ?_
    split
    · exact orderly_pure
    · exact orderly_unsupported
  | _ => exact orderly_unsupported

/-- Expressions and places of any depth do not break the discipline. -/
theorem orderly_atDepth (hprogram : CheckedProgram cx.arena u cx.table cx.info) (depth : Nat) :
    OrderlyParts (atDepth depth) cx u := by
  have hdisciplined := disciplined_atDepth hprogram depth
  induction depth with
  | zero =>
    exact ⟨hprogram, hdisciplined, fun _ => orderly_fail (fun h => h),
      fun _ => orderly_fail (fun h => h)⟩
  | succ depth ih =>
    have hparts := ih (disciplined_atDepth hprogram depth)
    exact ⟨hprogram, hdisciplined, orderly_expressionAt hparts, orderly_placeAt hparts⟩

/-! ### Records and declarations -/

theorem orderly_copyFields {scratch : Register} {record : String} {source target : Address}
    {depth : Nat} : Orderly (copyFields scratch id depth record source target) cx s := by
  induction depth generalizing record source target s with
  | zero => exact orderly_unsupported
  | succ depth ih =>
    refine orderly_context_bind (orderly_lift_seq (cx.table.avoids_fields _) fun found => ?_)
    cases found with
    | none => exact orderly_unsupported
    | some fields =>
      refine orderly_forM fun p hp s => ?_
      refine orderly_lift_seq (Address.avoids_offsetBy _ _) fun a => ?_
      refine orderly_lift_seq (Address.avoids_offsetBy _ _) fun b => ?_
      obtain ⟨displacement, ty⟩ := p
      cases ty with
      | record inner => exact ih
      | _ => exact orderly_seq orderly_load fun _ _ => orderly_store

theorem orderly_zeroFill {depth : Nat} {a : Address} : Orderly (zeroFill id depth ty a) cx s := by
  have hscalar : ∀ {depth s ty a}, ty.isRecord = false → Orderly (zeroFill id depth ty a) cx s := by
    intro depth s ty a hplain
    rw [zeroFill_scalar hplain]
    exact orderly_sizeOf_bind fun _ => orderly_emit
  induction depth generalizing ty a s with
  | zero =>
    cases ty with
    | record record => exact orderly_unsupported
    | _ => exact hscalar rfl
  | succ depth ih =>
    cases ty with
    | record record =>
      refine orderly_context_bind (orderly_lift_seq (cx.table.avoids_fields _) fun found => ?_)
      cases found with
      | none => exact orderly_unsupported
      | some fields =>
        exact orderly_forM fun p _ s =>
          orderly_lift_seq (Address.avoids_offsetBy _ _) fun _ => ih
    | _ => exact hscalar rfl

theorem orderly_declareLocal : Orderly (declareLocal id) cx s := by
  refine orderly_context_bind ?_
  split
  · exact orderly_zeroFill
  · exact orderly_pure

/-! ### Assignments -/

variable {target value : NodeId}

theorem orderly_assignRecord (hlower : OrderlyParts lower cx u) {record : String}
    (htarget : cx.arena.Typed u cx.table cx.info target ty)
    (hvalue : cx.arena.Typed u cx.table cx.info value ty) :
    Orderly (assignRecord lower record target value) cx s := by
  refine orderly_kind_bind fun k hk => orderly_guard ?_
  refine orderly_bind (hlower.place hvalue) fun p _ t ht => ?_
  refine orderly_bind (hlower.place htarget) fun q _ t₁ ht₁ => ?_
  have hboth := (hlower.disciplined.place hvalue ht).trans (hlower.disciplined.place htarget ht₁)
  split
  · refine orderly_bind orderly_scratch fun r _ t₂ hr => ?_
    have hclaims := hboth.trans (emits_scratch hr).2
    refine orderly_bind (orderly_context_bind orderly_copyFields) fun _ _ t₃ hcopy => ?_
    obtain ⟨rfl, -⟩ := emits_copyFields (emits_context_bind.1 hcopy)
    have hlive := (hclaims.live r).2 (by simp)
    refine orderly_bind (orderly_release hlive) fun _ _ t₄ h₄ => ?_
    have hrest := hclaims.releases (by simp) (emits_release_iff.1 h₄).2
    rw [List.cons_append, List.erase_cons_head, List.nil_append] at hrest
    refine orderly_bind (orderly_releaseAll hrest) fun _ _ t₅ h₅ => ?_
    exact orderly_releaseAll_self (hrest.releaseAll h₅).2
  · exact orderly_unsupported

theorem orderly_assign (hlower : OrderlyParts lower cx u)
    (htarget : cx.arena.Typed u cx.table cx.info target ty)
    (hvalue : cx.arena.Typed u cx.table cx.info value ty) :
    Orderly (assign lower target value) cx s := by
  have hscalar : ∀ {ty'}, Orderly (lower.expression value >>= fun r =>
      lower.place target >>= fun p => store p.location ty' r target >>= fun _ =>
      releasePlace p >>= fun _ => release r) cx s := by
    intro ty'
    refine orderly_bind (hlower.expression hvalue) fun r _ t ht => ?_
    refine orderly_bind (hlower.place htarget) fun p _ t₁ ht₁ => ?_
    have hboth := (hlower.disciplined.expression hvalue ht).trans
      (hlower.disciplined.place htarget ht₁)
    refine orderly_bind orderly_store fun _ _ t₂ hstore => ?_
    obtain ⟨rfl, -⟩ := emits_store hstore
    refine orderly_bind (orderly_releaseAll hboth) fun _ _ t₃ h₃ => ?_
    exact orderly_release (((hboth.releaseAll h₃).2.live r).2 (by simp))
  refine orderly_typeOf_bind fun ty' => ?_
  cases ty' with
  | record record => exact orderly_assignRecord hlower htarget hvalue
  | _ => exact hscalar

/-! ### Returning -/

theorem orderly_call (hlower : OrderlyParts lower cx u)
    (htyped : cx.arena.Typed u cx.table cx.info id ty) : Orderly (call lower id) cx s := by
  refine orderly_kind_bind fun k hk => ?_
  cases k with
  | call name args => exact orderly_callNode hlower htyped hk
  | _ => exact orderly_pure

/-- The result of a call is released. -/
theorem orderly_release_call (hlower : OrderlyParts lower cx u)
    (htyped : cx.arena.Typed u cx.table cx.info id ty) {result : Option Register} {c : List Line}
    {t : State} (h : Emits (call lower id) cx s result c t) :
    Orderly (releaseAll result.toList) cx t := by
  obtain ⟨k, hk, hcode⟩ := emits_kind_bind.1 h
  cases k with
  | call name args =>
    exact orderly_releaseAll_self ((callShape hcode).claims hlower.program hlower.disciplined
      htyped hk)
  | _ =>
    obtain ⟨rfl, -, -⟩ := emits_pure.1 hcode
    exact orderly_pure

theorem orderly_immediate_bind {β : Type} {g : Option Int64 → Gen β}
    (hg : ∀ found, Orderly (g found) cx s) : Orderly (immediate id >>= g) cx s := by
  refine orderly_bind ?_ fun found c t hfound => ?_
  · refine orderly_kind_bind fun k _ => ?_
    cases k <;> exact orderly_pure
  · obtain ⟨k, -, hvalue⟩ := emits_kind_bind.1 hfound
    have hstate : t = s := by
      cases k <;> exact (emits_pure.1 hvalue).2.2
    rw [hstate]
    exact hg found

theorem orderly_exit {status : Operand} : Orderly (exit status) cx s :=
  orderly_emit_bind orderly_emit

theorem orderly_epilogue : Orderly epilogue cx s :=
  orderly_emit_bind (orderly_emit_bind orderly_emit)

theorem orderly_exitWith (hlower : OrderlyParts lower cx u) {value : Option NodeId}
    (htyped : ∀ v ∈ value, cx.arena.Typed u cx.table cx.info v ty) :
    Orderly (exitWith lower value) cx s := by
  cases value with
  | none => exact orderly_exit
  | some v =>
    refine orderly_immediate_bind fun found => ?_
    cases found with
    | some constant => exact orderly_exit
    | none =>
      refine orderly_bind (hlower.expression (htyped v rfl)) fun r _ t ht => ?_
      have hlive := ((hlower.disciplined.expression (htyped v rfl) ht).live r).2 (by simp)
      refine orderly_bind orderly_exit fun _ _ t' ht' => ?_
      obtain ⟨-, rfl⟩ := emits_exit.1 ht'
      exact orderly_release hlive

theorem orderly_giveBack (hlower : OrderlyParts lower cx u)
    (htyped : cx.arena.Typed u cx.table cx.info id ty) : Orderly (giveBack lower id) cx s := by
  refine orderly_typeOf_bind fun _ => orderly_guard (orderly_immediate_bind fun found => ?_)
  cases found with
  | some constant => exact orderly_emit
  | none =>
    refine orderly_bind (hlower.expression htyped) fun r _ t ht => ?_
    have hlive := ((hlower.disciplined.expression htyped ht).live r).2 (by simp)
    exact orderly_emit_if (orderly_release hlive)

theorem orderly_returnStatement (hlower : OrderlyParts lower cx u) {value : Option NodeId}
    (htyped : ∀ v ∈ value, cx.arena.Typed u cx.table cx.info v ty) :
    Orderly (returnStatement lower value) cx s := by
  have hleave : ∀ {result s}, (∀ v ∈ result, cx.arena.Typed u cx.table cx.info v ty) →
      Orderly (context >>= fun cx => if cx.isEntry = true then exitWith lower result
        else result.toList.forM (giveBack lower) >>= fun _ => epilogue) cx s := by
    intro result s hresult
    refine orderly_context_bind ?_
    split
    · exact orderly_exitWith hlower hresult
    · refine orderly_seq (orderly_forM fun v hv s => ?_) fun _ _ => orderly_epilogue
      exact orderly_giveBack hlower (hresult v (by simpa using hv))
  refine orderly_bind ?_ fun result _ t hresult => hleave ?_
  · cases value with
    | none => exact orderly_pure
    | some v =>
      refine orderly_typeOf_bind fun ty => ?_
      split
      · refine orderly_bind (orderly_call hlower (htyped v rfl)) fun _ _ _ hcall => ?_
        exact orderly_seq (orderly_release_call hlower (htyped v rfl) hcall) fun _ _ => orderly_pure
      · exact orderly_pure
  · intro v hv
    cases returnedShape hresult with
    | value => exact htyped v hv
    | _ => cases hv

/-! ### Conditions and statements -/

theorem orderly_test (hlower : OrderlyParts lower cx u) {k : NodeKind}
    (hk : cx.arena.kind id = .ok k) (htyped : cx.arena.Typed u cx.table cx.info id ty) :
    Orderly (test lower id (Test.ofKind k)) cx s := by
  have hvalue : Orderly (lower.expression id >>= fun r => emit .cmp [.reg r, .imm 1] >>= fun _ =>
      release r >>= fun _ => pure Condition.equal) cx s := by
    refine orderly_bind (hlower.expression htyped) fun r _ t ht => ?_
    have hlive := ((hlower.disciplined.expression htyped ht).live r).2 (by simp)
    exact orderly_emit_bind (orderly_seq (orderly_release hlive) fun _ _ => orderly_pure)
  cases hshape : Test.ofKind k with
  | comparison op condition left right =>
    obtain rfl := Test.kind_of_comparison hshape
    obtain ⟨_, hleft⟩ := htyped.child hk (.head _)
    obtain ⟨_, hright⟩ := htyped.child hk (.tail _ (.head _))
    refine orderly_seq orderly_rejectText fun _ s => ?_
    refine orderly_bind (hlower.expression hleft) fun lhs _ t ht => ?_
    refine orderly_bind (hlower.expression hright) fun rhs _ t₁ ht₁ => ?_
    have hboth := (hlower.disciplined.expression hleft ht).trans
      (hlower.disciplined.expression hright ht₁)
    refine orderly_emit_bind ?_
    refine orderly_bind (orderly_release ((hboth.live rhs).2 (by simp))) fun _ _ t₂ h₂ => ?_
    have hfirst := hboth.releases (by simp) (emits_release_iff.1 h₂).2
    rw [List.cons_append, List.erase_cons_head, List.nil_append] at hfirst
    exact orderly_seq (orderly_release ((hfirst.live lhs).2 (by simp))) fun _ _ => orderly_pure
  | _ => exact hvalue

theorem orderly_branch (hlower : OrderlyParts lower cx u) {statement : NodeId → Gen Unit}
    {condition onTrue : NodeId} {onFalse : Option NodeId}
    (htyped : cx.arena.Typed u cx.table cx.info condition .bool)
    (htrue : ∀ s, Orderly (statement onTrue) cx s)
    (hfalse : ∀ x ∈ onFalse, ∀ s, Orderly (statement x) cx s) :
    Orderly (branch lower statement condition onTrue onFalse) cx s := by
  refine orderly_kind_bind fun k hk => ?_
  have hbranch : Orderly (branchOn lower statement condition (Test.ofKind k) onTrue onFalse)
      cx s := by
    refine orderly_seq orderly_newLabel fun _ s => ?_
    refine orderly_seq (orderly_seq (orderly_test hlower hk htyped) fun _ _ => orderly_emit)
      fun _ s => orderly_seq (htrue s) fun _ s => ?_
    cases onFalse with
    | none => exact orderly_placeLabel
    | some other =>
      refine orderly_seq orderly_newLabel fun _ s => orderly_emit_bind ?_
      refine orderly_seq orderly_placeLabel fun _ s => ?_
      exact orderly_seq (hfalse other rfl s) fun _ _ => orderly_placeLabel
  cases hshape : Test.ofKind k with
  | constant b =>
    cases b with
    | true => exact htrue s
    | false => exact orderly_forM fun x hx => hfalse x (by simpa using hx)
  | _ =>
    rw [hshape] at hbranch
    exact hbranch

theorem orderly_loop (hlower : OrderlyParts lower cx u) {statement : NodeId → Gen Unit}
    {condition body : NodeId} (htyped : cx.arena.Typed u cx.table cx.info condition .bool)
    (hbody : ∀ s, Orderly (statement body) cx s) :
    Orderly (loop lower statement condition body) cx s := by
  refine orderly_kind_bind fun k hk => ?_
  have hloop : Orderly (loopOn lower statement condition (Test.ofKind k) body) cx s := by
    refine orderly_seq orderly_newLabel fun _ s => orderly_seq orderly_newLabel fun _ s => ?_
    refine orderly_emit_bind (orderly_seq orderly_placeLabel fun _ s => ?_)
    refine orderly_seq (hbody s) fun _ s => orderly_seq orderly_placeLabel fun _ s => ?_
    exact orderly_seq (orderly_test hlower hk htyped) fun _ _ => orderly_emit
  cases hshape : Test.ofKind k with
  | constant b =>
    cases b with
    | false => exact orderly_pure
    | true =>
      refine orderly_seq orderly_newLabel fun _ s => orderly_seq orderly_placeLabel fun _ s => ?_
      exact orderly_seq (hbody s) fun _ _ => orderly_emit
  | _ =>
    rw [hshape] at hloop
    exact hloop

/-- Statements of any depth do not break the discipline. -/
theorem orderly_statement (hlower : OrderlyParts lower cx u) {depth : Nat}
    (hchecked : cx.arena.Checked u cx.table cx.info ret id) :
    Orderly (statement lower depth id) cx s := by
  induction depth generalizing id s with
  | zero => exact orderly_fail (fun h => h)
  | succ depth ih =>
    obtain ⟨k, hk, hrole⟩ := hchecked.role
    refine orderly_kind_bind fun k' hk' => ?_
    cases hk.symm.trans hk'
    cases k with
    | block body => exact orderly_forM fun x hx s => ih (hchecked.block_parts hk x hx)
    | declare d => exact orderly_declareLocal
    | assign target value =>
      obtain ⟨_, htarget, hvalue⟩ := hchecked.assign_parts hk
      exact orderly_assign hlower htarget hvalue
    | callStatement c =>
      obtain ⟨_, hcall⟩ := hchecked.call_part hk
      exact orderly_bind (orderly_call hlower hcall) fun _ _ _ => orderly_release_call hlower hcall
    | branch condition onTrue onFalse =>
      obtain ⟨htest, hfirst, hsecond⟩ := hchecked.branch_parts hk
      exact orderly_branch hlower htest (fun _ => ih hfirst) fun x hx _ => ih (hsecond x hx)
    | loop condition body =>
      obtain ⟨htest, hbody⟩ := hchecked.loop_parts hk
      exact orderly_loop hlower htest fun _ => ih hbody
    | ret value => exact orderly_returnStatement hlower (hchecked.ret_part hk)
    | empty => exact orderly_pure
    | _ => cases hrole

/-! ### Functions -/

theorem orderly_copyParameter {p : CopiedParameter}
    (hlive : ∀ r ∈ s.registers.live, r ∈ Register.arguments) :
    Orderly (copyParameter p) cx s := by
  have hfree : ∀ {r}, r ∉ Register.arguments → r ∉ s.registers.live := fun hr hmem =>
    hr (hlive _ hmem)
  -- the two registers a copy works with are free while only parameters are live
  obtain ⟨t, ht, htlive⟩ := exists_claim cx (r := .r11) (s := s) (by decide) (hfree (by decide))
  obtain ⟨t', ht', htlive'⟩ := exists_claim cx (r := .rax) (s := t) (by decide) (by
    rw [htlive]
    rintro (heq | hmem)
    · cases heq
    · exact hfree (by decide) hmem)
  have hcode : ∀ source : Operand, Orderly (do
      claim .r11
      claim .rax
      emit .mov [.reg .r11, source]
      copyRecord p.record (.register .r11) p.address .rax p.param
      release .rax
      release .r11) cx s := by
    intro source
    refine orderly_bind (orderly_of_emits ht) fun _ _ _ h => ?_
    cases ht.symm.trans h
    refine orderly_bind (orderly_of_emits ht') fun _ _ _ h' => orderly_emit_bind ?_
    cases ht'.symm.trans h'
    refine orderly_bind (orderly_context_bind orderly_copyFields) fun _ _ t₁ ht₁ => ?_
    obtain rfl := (emits_copyFields (emits_context_bind.1 ht₁)).1
    refine orderly_bind (orderly_release ((htlive' _).2 (.inl rfl))) fun _ _ t₂ ht₂ =>
      orderly_release ?_
    obtain ⟨g, hg, -, rfl⟩ := emits_release.1 ht₂
    rcases RegisterFile.release_eq_ok hg with ⟨-, rfl⟩ | ⟨-, hrest⟩
    · exact (htlive' _).2 (.inr ((htlive _).2 (.inl rfl)))
    · exact (hrest _).2 ⟨by simp, (htlive' _).2 (.inr ((htlive _).2 (.inl rfl)))⟩
  unfold copyParameter
  cases p.source with
  | global => exact orderly_pure
  | _ => exact hcode _

theorem orderly_prologue (hlive : ∀ r ∈ s.registers.live, r ∈ Register.arguments) :
    Orderly prologue cx s := by
  have hcopies : ∀ ps : List CopiedParameter, Orderly (ps.forM copyParameter) cx s := by
    intro ps
    induction ps with
    | nil => exact orderly_pure
    | cons p ps ih =>
      refine orderly_bind (orderly_copyParameter hlive) fun _ _ t ht => ?_
      obtain ⟨-, rfl⟩ := copyShape ht
      exact ih
  refine orderly_context_bind (orderly_emit_bind (orderly_emit_bind (orderly_emit_if
    (orderly_emit_if ?_))))
  refine orderly_bind (orderly_forM fun p _ s => orderly_emit) fun _ _ t ht => ?_
  obtain ⟨-, rfl⟩ := emits_homeParameters.1 ht
  exact hcopies _

/-- Lowering a function of a checked program does not break the discipline. -/
theorem orderly_functionBody {f : FunctionNode} (hlowers : cx.Lowers u f) (label : String)
    (hfree : s.registers.live = []) : Orderly (functionBody label f) cx s := by
  obtain ⟨taken, -, hsound, -⟩ := hlowers.frame_sound
  obtain ⟨fid, hfid, hf⟩ := hlowers.member
  obtain ⟨hnodup, harguments⟩ := hsound.parameterRegisters
  obtain ⟨t, ht, hlive⟩ := exists_forM_claim cx (s := s) hnodup
    (fun r hr => Register.mem_tracked_of_arguments (harguments r hr)) (by simp [hfree])
  refine orderly_context_bind (orderly_bind (orderly_of_emits ht) fun _ _ _ h => ?_)
  cases ht.symm.trans h
  refine orderly_bind orderly_placeLabel fun _ _ t₁ ht₁ => ?_
  obtain ⟨-, rfl⟩ := emits_placeLabel.1 ht₁
  have hparameters : ∀ r ∈ t₁.registers.live, r ∈ Register.arguments := by
    intro r hr
    rcases (hlive r).1 hr with hr | hr
    · exact harguments r hr
    · rw [hfree] at hr
      cases hr
  refine orderly_seq (orderly_prologue hparameters) fun _ _ => ?_
  refine orderly_seq (orderly_forM fun r hr s => ?_) fun _ s => orderly_seq ?_ fun returns s => ?_
  · exact orderly_statement (orderly_atDepth hlowers.program _)
      ((hlowers.program.typed.functions fid hfid f hf).body r hr)
  · unfold endsWithReturn
    split
    · exact orderly_kind_bind fun _ _ => orderly_pure
    · exact orderly_pure
  · split
    · split
      · exact orderly_exit
      · exact orderly_epilogue
    · exact orderly_pure

end Lowering

end MiniJ
