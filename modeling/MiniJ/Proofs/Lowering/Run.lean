import MiniJ.Lowering.Program
import MiniJ.Proofs.Arena.Tree

/-!
# Successful code generation

How a part of code generation that succeeds came about: the code it emits is the code of its steps
behind each other.
-/
namespace MiniJ

namespace Gen

variable {α β : Type} {cx : Context} {s s' : State} {code : List Line}

/-- A part of code generation gives `v`, emits `code` and takes the state from `s` to `s'`. -/
def Emits (x : Gen α) (cx : Context) (s : State) (v : α) (code : List Line) (s' : State) : Prop :=
  x cx s = .ok ⟨v, code, s'⟩

theorem emits_pure {v w : α} : Emits (pure v) cx s w code s' ↔ w = v ∧ code = [] ∧ s' = s := by
  have h : (pure v : Gen α) cx s = .ok ⟨v, [], s⟩ := rfl
  simp [Emits, h, eq_comm]

theorem emits_bind {x : Gen α} {f : α → Gen β} {w : β} :
    Emits (x >>= f) cx s w code s' ↔ ∃ v c t c', Emits x cx s v c t ∧ Emits (f v) cx t w c' s' ∧
      code = c ++ c' := by
  have h : (x >>= f) cx s = Gen.bind x f cx s := rfl
  unfold Emits
  rw [h, Gen.bind]
  rcases hx : x cx s with e | ⟨v, c, t⟩
  · simp
  · dsimp only
    rcases hf : f v cx t with e | ⟨w', c', t'⟩
    · simp [hf]
    · simp only [Except.ok.injEq, Output.mk.injEq]
      constructor
      · rintro ⟨rfl, rfl, rfl⟩
        exact ⟨v, c, t, c', ⟨rfl, rfl, rfl⟩, hf, rfl⟩
      · rintro ⟨_, _, _, c'', ⟨rfl, rfl, rfl⟩, hf', rfl⟩
        rw [hf] at hf'
        cases hf'
        exact ⟨rfl, rfl, rfl⟩

/-! ### First steps

A first step that emits nothing, or one line, leaves the code of the other steps. -/

variable {f : α → Gen β} {w : β}

/-- A step that emits nothing and keeps the state. -/
theorem emits_quiet_bind {x : Gen α} {P : α → Prop}
    (hx : ∀ v c t, Emits x cx s v c t ↔ P v ∧ c = [] ∧ t = s) :
    Emits (x >>= f) cx s w code s' ↔ ∃ v, P v ∧ Emits (f v) cx s w code s' := by
  rw [emits_bind]
  constructor
  · rintro ⟨v, _, _, _, h, h', rfl⟩
    obtain ⟨hv, rfl, rfl⟩ := (hx _ _ _).1 h
    exact ⟨v, hv, h'⟩
  · rintro ⟨v, hv, h⟩
    exact ⟨v, [], s, code, (hx _ _ _).2 ⟨hv, rfl, rfl⟩, h, rfl⟩

theorem emits_pure_bind {v : α} :
    Emits (pure v >>= f) cx s w code s' ↔ Emits (f v) cx s w code s' := by
  rw [emits_quiet_bind fun _ _ _ => emits_pure]
  simp

theorem emits_context_bind {f : Context → Gen β} :
    Emits (context >>= f) cx s w code s' ↔ Emits (f cx) cx s w code s' :=
  emits_pure_bind (v := cx)

theorem emits_state_bind {f : State → Gen β} :
    Emits (state >>= f) cx s w code s' ↔ Emits (f s) cx s w code s' :=
  emits_pure_bind (v := s)

theorem emits_update {f : State → State} {v : Unit} :
    Emits (update f) cx s v code s' ↔ code = [] ∧ s' = f s := by
  have h : update f cx s = .ok ⟨(), [], f s⟩ := rfl
  simp [Emits, h, eq_comm]

theorem emits_update_bind {g : State → State} {f : Unit → Gen β} :
    Emits (update g >>= f) cx s w code s' ↔ Emits (f ()) cx (g s) w code s' := by
  rw [emits_bind]
  constructor
  · rintro ⟨_, _, _, _, h, h', rfl⟩
    obtain ⟨rfl, rfl⟩ := emits_update.1 h
    exact h'
  · intro h
    exact ⟨(), [], g s, code, emits_update.2 ⟨rfl, rfl⟩, h, rfl⟩

theorem emits_fail {failure : Failure CodegenError} {v : α} :
    Emits (fail failure) cx s v code s' ↔ False := by
  have h : (fail failure : Gen α) cx s = .error failure := rfl
  simp [Emits, h]

theorem emits_lift {x : Except Fault α} {v : α} :
    Emits (liftM x) cx s v code s' ↔ x = .ok v ∧ code = [] ∧ s' = s := by
  cases x with
  | error f =>
    have h : (liftM (Except.error f : Except Fault α) : Gen α) cx s = .error (.fault f) := rfl
    simp [Emits, h]
  | ok w =>
    have h : (liftM (Except.ok w : Except Fault α) : Gen α) cx s = .ok ⟨w, [], s⟩ := rfl
    simp [Emits, h, eq_comm]

theorem emits_lift_bind {x : Except Fault α} : Emits (liftM x >>= f) cx s w code s' ↔
    ∃ v, x = .ok v ∧ Emits (f v) cx s w code s' := emits_quiet_bind fun _ _ _ => emits_lift

theorem emits_emit {mnemonic : Mnemonic} {operands : List Operand} {v : Unit} :
    Emits (emit mnemonic operands) cx s v code s' ↔
      code = [.instruction mnemonic operands] ∧ s' = s := by
  have h : emit mnemonic operands cx s = .ok ⟨(), [.instruction mnemonic operands], s⟩ := rfl
  simp [Emits, h, eq_comm]

theorem emits_emit_bind {mnemonic : Mnemonic} {operands : List Operand} {f : Unit → Gen β} :
    Emits (emit mnemonic operands >>= f) cx s w code s' ↔
      ∃ rest, code = .instruction mnemonic operands :: rest ∧ Emits (f ()) cx s w rest s' := by
  rw [emits_bind]
  constructor
  · rintro ⟨_, _, _, rest, h, h', rfl⟩
    obtain ⟨rfl, rfl⟩ := emits_emit.1 h
    exact ⟨rest, rfl, h'⟩
  · rintro ⟨rest, rfl, h⟩
    exact ⟨(), [.instruction mnemonic operands], s, rest, emits_emit.2 ⟨rfl, rfl⟩, h, rfl⟩

theorem emits_placeLabel {name : String} {v : Unit} :
    Emits (placeLabel name) cx s v code s' ↔ code = [.label name] ∧ s' = s := by
  have h : placeLabel name cx s = .ok ⟨(), [.label name], s⟩ := rfl
  simp [Emits, h, eq_comm]

/-! ### Failing steps -/

theorem emits_unsupported {what : Unsupported} {id : NodeId} {v : α} :
    Emits (unsupported what id) cx s v code s' ↔ False := by
  simp [unsupported, emits_bind, emits_fail]

/-- A check that ends code generation when it fails. -/
theorem emits_guard {c : Prop} [Decidable c] {what : Unsupported} {id : NodeId} {k : α → Gen β}
    {x : Gen β} :
    Emits (if c then unsupported what id >>= k else x) cx s w code s' ↔
      ¬c ∧ Emits x cx s w code s' := by
  by_cases h : c <;> simp [h, emits_bind, emits_unsupported]

/-! ### Optional and repeated steps -/

/-- An instruction that is left out unless it is needed. -/
theorem emits_emit_if {c : Prop} [Decidable c] {mnemonic : Mnemonic} {operands : List Operand}
    {f : Unit → Gen β} :
    Emits (if c then emit mnemonic operands >>= f else f ()) cx s w code s' ↔
      ∃ rest, code = (if c then [.instruction mnemonic operands] else []) ++ rest ∧
        Emits (f ()) cx s w rest s' := by
  by_cases h : c <;> simp [h, emits_emit_bind]

theorem emits_forM_nil {f : α → Gen Unit} {v : Unit} :
    Emits (([] : List α).forM f) cx s v code s' ↔ code = [] ∧ s' = s := by
  have h : Emits (pure ()) cx s v code s' ↔ _ := emits_pure
  simpa using h

theorem emits_forM_cons {f : α → Gen Unit} {x : α} {xs : List α} {v : Unit} :
    Emits ((x :: xs).forM f) cx s v code s' ↔ ∃ c t c', Emits (f x) cx s () c t ∧
      Emits (xs.forM f) cx t () c' s' ∧ code = c ++ c' := by
  have h : Emits (f x >>= fun _ => xs.forM f) cx s v code s' ↔ _ := emits_bind
  exact h.trans ⟨fun ⟨_, c, t, c', hx, hxs, heq⟩ => ⟨c, t, c', hx, hxs, heq⟩,
    fun ⟨c, t, c', hx, hxs, heq⟩ => ⟨(), c, t, c', hx, hxs, heq⟩⟩

/-! ### Looking things up -/

theorem emits_node {id : NodeId} {n : Node} :
    Emits (node id) cx s n code s' ↔ cx.arena.node id = .ok n ∧ code = [] ∧ s' = s := by
  rw [node, emits_context_bind, emits_lift]

theorem emits_node_bind {id : NodeId} {f : Node → Gen β} :
    Emits (node id >>= f) cx s w code s' ↔
      ∃ n, cx.arena.node id = .ok n ∧ Emits (f n) cx s w code s' :=
  emits_quiet_bind fun _ _ _ => emits_node

theorem emits_kind {id : NodeId} {k : NodeKind} :
    Emits (kind id) cx s k code s' ↔ cx.arena.kind id = .ok k ∧ code = [] ∧ s' = s := by
  simp only [kind, emits_node_bind, emits_pure, Arena.kind_eq_ok_iff]
  constructor
  · rintro ⟨⟨k', span⟩, h, rfl, rfl, rfl⟩
    exact ⟨⟨span, h⟩, rfl, rfl⟩
  · rintro ⟨⟨span, h⟩, rfl, rfl⟩
    exact ⟨_, h, rfl, rfl, rfl⟩

theorem emits_kind_bind {id : NodeId} {f : NodeKind → Gen β} :
    Emits (kind id >>= f) cx s w code s' ↔
      ∃ k, cx.arena.kind id = .ok k ∧ Emits (f k) cx s w code s' :=
  emits_quiet_bind fun _ _ _ => emits_kind

theorem emits_typeOf {id : NodeId} {ty : Ty} :
    Emits (typeOf id) cx s ty code s' ↔ cx.info.typeOf id = some ty ∧ code = [] ∧ s' = s := by
  rw [typeOf, emits_context_bind]
  cases h : cx.info.typeOf id with
  | none => simp [emits_unsupported]
  | some ty' => simp [emits_pure, eq_comm]

theorem emits_typeOf_bind {id : NodeId} {f : Ty → Gen β} :
    Emits (typeOf id >>= f) cx s w code s' ↔
      ∃ ty, cx.info.typeOf id = some ty ∧ Emits (f ty) cx s w code s' :=
  emits_quiet_bind fun _ _ _ => emits_typeOf

theorem emits_sizeOf {ty : Ty} {id : NodeId} {n : Nat} :
    Emits (Gen.sizeOf ty id) cx s n code s' ↔
      cx.table.sizeOf ty = .ok (some n) ∧ code = [] ∧ s' = s := by
  rw [Gen.sizeOf, emits_context_bind, emits_lift_bind]
  constructor
  · rintro ⟨_ | n', ho, h⟩
    · exact (emits_unsupported.1 h).elim
    · obtain ⟨rfl, rfl, rfl⟩ := emits_pure.1 h
      exact ⟨ho, rfl, rfl⟩
  · rintro ⟨h, rfl, rfl⟩
    exact ⟨some n, h, emits_pure.2 ⟨rfl, rfl, rfl⟩⟩

theorem emits_sizeOf_bind {ty : Ty} {id : NodeId} {f : Nat → Gen β} :
    Emits (Gen.sizeOf ty id >>= f) cx s w code s' ↔
      ∃ n, cx.table.sizeOf ty = .ok (some n) ∧ Emits (f n) cx s w code s' :=
  emits_quiet_bind fun _ _ _ => emits_sizeOf

end Gen

end MiniJ
