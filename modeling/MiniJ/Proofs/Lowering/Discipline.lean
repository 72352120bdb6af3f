import MiniJ.Proofs.Lowering.Context

/-!
# Lowered expressions hold one register

The code of an expression takes one free scratch register for its value, the code of a place at
most one for its address, and everything else they take is given back; the words they put on the
stack are taken off again.

## Main statements

* `Lowering.disciplined_atDepth` — expressions and places of any depth.
* `Lowering.CallShape.claims` — calls.
-/
namespace MiniJ

namespace Lowering

open Gen

variable {lower : Lowering} {cx : Context} {u : UnitNode} {s s' t : State} {code : List Line}
  {id : NodeId} {ty : Ty}

/-- Typed expressions and places take one register at most. -/
structure Disciplined (lower : Lowering) (cx : Context) (u : UnitNode) : Prop where
  expression : ∀ {id ty s r code s'}, cx.arena.Typed u cx.table cx.info id ty →
    Emits (lower.expression id) cx s r code s' → Claims [r] s s'
  place : ∀ {id ty s p code s'}, cx.arena.Typed u cx.table cx.info id ty →
    Emits (lower.place id) cx s p code s' → Claims p.temp.toList s s'

/-- The target of a read takes the place of the address. -/
theorem Targets.claims {temp : Option Register} {r : Register} (h : Targets t r temp s')
    (hclaims : Claims temp.toList s t) : Claims [r] s s' := by
  cases h with
  | reused => exact hclaims
  | fresh claimed => simpa using hclaims.trans claimed

theorem PlaceShape.claims {p : Place} (hlower : Disciplined lower cx u)
    (htyped : cx.arena.Typed u cx.table cx.info id ty) (h : PlaceShape lower cx id s p code s') :
    Claims p.temp.toList s s' := by
  cases h with
  | global | register | registerReference | frame => exact .refl s
  | frameReference kind stored claimed => exact claimed
  | field kind type field outer =>
    obtain ⟨_, hbase⟩ := htyped.child kind (.head _)
    exact (hlower.place hbase outer :)
  | element kind type size array position released =>
    obtain ⟨_, hbase⟩ := htyped.child kind (.head _)
    obtain ⟨_, hindex⟩ := htyped.child kind (.tail _ (.head _))
    have hboth := (hlower.expression hbase array).trans (hlower.expression hindex position)
    simpa using hboth.releases (by simp) released

/-- Releasing the address of a place leaves the value that was read. -/
theorem Reads.claims_releasePlace {operand : NodeId} {p : Place} {r : Register} {line : Line}
    {t' : State} (hlower : Disciplined lower cx u)
    (htyped : cx.arena.Typed u cx.table cx.info operand ty) {ty' : Ty}
    (h : Reads lower cx operand s ty' p r code t line) (ht : Claims [] t t')
    (hrelease : Emits (releasePlace p) cx t' () [] s') : Claims [r] s s' := by
  obtain ⟨-, ⟨v, hplace, hvalue⟩, -⟩ := h
  have hboth := ((hlower.place htyped hplace).trans hvalue).trans ht
  exact ((hboth.perm (List.perm_append_singleton r p.temp.toList).symm).releaseAll hrelease).2

theorem StepShape.claims {op : UnaryOp} {operand : NodeId} {r : Register}
    (hlower : Disciplined lower cx u) (htyped : cx.arena.Typed u cx.table cx.info operand ty)
    (h : StepShape lower cx op operand s r code s') : Claims [r] s s' := by
  cases h with
  | before order reads stores released =>
    exact reads.claims_releasePlace hlower htyped (.refl _) released
  | after order reads claimed stores dropped released =>
    refine reads.claims_releasePlace hlower htyped ?_ released
    simpa using claimed.releases (by simp) dropped

theorem Clears.claims {divisor d : Register} (h : Clears t divisor d code s')
    {rs : List Register} (hclaims : Claims (divisor :: rs) s t) : Claims (d :: rs) s s' := by
  cases h with
  | stays => exact hclaims
  | @moved d t' _ inRax claimed released =>
    have hboth : Claims (d :: divisor :: rs) s t' := hclaims.trans claimed
    have hne : d ≠ divisor := by
      have hnodup := hboth.nodup
      simp only [List.nodup_cons, List.mem_cons, not_or] at hnodup
      exact hnodup.1.1
    simpa [hne] using hboth.releases (r := divisor) (by simp) released

theorem OperatorShape.claims {op : BinaryOp} {lhs rhs : Register}
    (h : OperatorShape op lhs rhs t code s') (hclaims : Claims [rhs, lhs] s t) :
    Claims [lhs] s s' := by
  cases h with
  | combine operator released => simpa using hclaims.releases (by simp) released
  | compare operator released => simpa using hclaims.releases (by simp) released
  | divide operator cleared released =>
    simpa using (cleared.claims hclaims).releases (by simp) released

theorem ArgumentShape.claims {byAddress : Bool} {r : Register} (hlower : Disciplined lower cx u)
    (htyped : cx.arena.Typed u cx.table cx.info id ty)
    (h : ArgumentShape lower cx id s r byAddress code s') : Claims [r] s s' := by
  cases h with
  | value computed => exact hlower.expression htyped computed
  | address placed target => exact target.claims (hlower.place htyped placed)

/-- Pushing arguments leaves one word for each of them. -/
theorem ArgumentsShape.claims {args : List (NodeId × Bool)} (hlower : Disciplined lower cx u)
    (htyped : ∀ p ∈ args, ∃ ty, cx.arena.Typed u cx.table cx.info p.1 ty)
    (h : ArgumentsShape lower cx s args code s') : Claims [] (s.grown args.length) s' := by
  induction h with
  | nil s => exact .refl s
  | @cons arg byAddress rest r _ _ s t t' s' first released others ih =>
    obtain ⟨ty, hty⟩ := htyped _ (.head _)
    have hfirst := ((first.claims hlower hty).grown 1).releases (by simp) released
    rw [List.erase_cons_head] at hfirst
    have hrest := ih fun p hp => htyped p (.tail _ hp)
    have hboth := (hfirst.grown rest.length).trans hrest
    rwa [State.grown_grown, Nat.add_comm 1] at hboth

/-- The stack at a call holds the saved registers, the padding and the arguments without a
register. -/
theorem depth_passArguments (hprogram : CheckedProgram cx.arena u cx.table cx.info)
    (hdisciplined : Disciplined lower cx u) (htyped : cx.arena.Typed u cx.table cx.info id ty)
    {name : String} {args : List NodeId} (hk : cx.arena.kind id = .ok (.call name args))
    {callee : Callee} (hcalls : Calls cx id args callee) {argCode : List Line} {n : Nat} {t : State}
    (h : ArgumentsShape lower cx (s.grown n) (args.zip callee.byAddress).reverse argCode t) :
    t.stackDepth = s.stackDepth + n + args.length := by
  have hdepth := (h.claims hdisciplined fun p hp => by
    have hmem := (List.of_mem_zip (List.mem_reverse.1 hp)).1
    exact htyped.child hk hmem).depth
  have hlength : (args.zip callee.byAddress).reverse.length = args.length := by
    simp [hcalls.length_byAddress hprogram htyped hk]
  rwa [hlength] at hdepth

/-- A call takes a register for its result only. -/
theorem CallShape.claims {name : String} {args : List NodeId} {result : Option Register}
    (hprogram : CheckedProgram cx.arena u cx.table cx.info) (hlower : Disciplined lower cx u)
    (htyped : cx.arena.Typed u cx.table cx.info id ty)
    (hk : cx.arena.kind id = .ok (.call name args))
    (h : CallShape lower cx id args s result code s') : Claims result.toList s s' := by
  obtain @⟨callee, argCode, t, t', _, calls, arguments, returns, claimed⟩ := h
  have hlength : (args.zip callee.byAddress).reverse.length = args.length := by
    simp [calls.length_byAddress hprogram htyped hk]
  have hpushed := arguments.claims hlower fun p hp => by
    rw [List.mem_reverse] at hp
    exact htyped.child hk (List.of_mem_zip hp).1
  rw [hlength, State.grown_grown] at hpushed
  have hregisters : t.registers = s.registers := hpushed.registers_eq
  have hdepth := hpushed.depth
  have hdepth' := claimed.depth
  simp only [State.stackDepth_grown, State.stackDepth_shrunk, stackWords, List.length_cons,
    Register.arguments, List.length_nil] at hdepth hdepth'
  refine ⟨fun r hr => ?_, claimed.nodup, fun q => ?_, ?_, ?_⟩
  · have hfree := claimed.free r hr
    rwa [State.registers_shrunk, hregisters] at hfree
  · rw [State.registers_shrunk, claimed.live, State.registers_shrunk, hregisters]
  · rw [State.stackDepth_shrunk]
    omega
  · exact claimed.labels.trans hpushed.labels

theorem ExpressionShape.claims {r : Register}
    (hprogram : CheckedProgram cx.arena u cx.table cx.info) (hlower : Disciplined lower cx u)
    (htyped : cx.arena.Typed u cx.table cx.info id ty)
    (h : ExpressionShape lower cx id s r code s') : Claims [r] s s' := by
  cases h with
  | constant kind claimed => exact claimed
  | text kind claimed => exact claimed
  | read kind place type scalar shape target => exact target.claims (shape.claims hlower htyped)
  | sign kind part | invert kind part =>
    obtain ⟨_, hpart⟩ := htyped.child kind (.head _)
    exact hlower.expression hpart part
  | step kind isStep shape =>
    obtain ⟨_, hpart⟩ := htyped.child kind (.head _)
    exact shape.claims hlower hpart
  | binary kind first second shape =>
    obtain ⟨_, hleft⟩ := htyped.child kind (.head _)
    obtain ⟨_, hright⟩ := htyped.child kind (.tail _ (.head _))
    exact shape.claims ((hlower.expression hleft first).trans (hlower.expression hright second))
  | call kind shape => exact shape.claims hprogram hlower htyped kind

/-- Expressions and places of any depth take one register at most. -/
theorem disciplined_atDepth (hprogram : CheckedProgram cx.arena u cx.table cx.info)
    (depth : Nat) : Disciplined (atDepth depth) cx u := by
  induction depth with
  | zero => exact ⟨fun _ h => (emits_fail.1 h).elim, fun _ h => (emits_fail.1 h).elim⟩
  | succ depth ih =>
    exact ⟨fun htyped h => (expressionShape h).claims hprogram ih htyped,
      fun htyped h => (placeShape h).claims ih htyped⟩

end Lowering

end MiniJ
