import MiniJ.Proofs.Semantics.Activation
import MiniJ.Proofs.Semantics.Evaluation

/-!
# Expressions have values

In a store whose values have the types of their regions, a pure expression that has code has a value
of its type, or its evaluation reaches a division without a quotient; and the store behind it has
values of the right types again.

## Main definitions

* `Activation.Carries` — the storage of a variable that stands for a region.
* `Activation.Holds` — a region is in memory or in the register of a parameter.
* `Activation.Typed` — the values of a store have the types of their regions.

## Main statements

* `Lowering.meaningful_atDepth` — expressions and places of any depth.
-/
namespace MiniJ

namespace Activation

open Gen

variable {A : Activation} {f : FunctionNode} {σ : Store} {r : Region} {ty ty' : Ty} {q : Register}
  {v : Value}

/-! ### Variables -/

/-- The register holds a parameter that is no reference. -/
def Resident (A : Activation) (q : Register) : Prop :=
  ∃ d ty, A.context.frame.slot? d = some ⟨.register q, ty, false⟩

/-- The storage of a variable that stands for a region. -/
inductive Carries (A : Activation) : Slot → Region → Prop
  | global {d : NodeId} {b : Binder} (mem : d ∈ A.unit.globals)
      (kind : A.context.arena.kind d = .ok (.declaration b)) :
      Carries A ⟨.global (userSymbol b.name), b.ty, false⟩ (.whole (.global d))
  | value {d : NodeId} {storage : Storage} {ty : Ty}
      (slot : A.context.frame.slot? d = some ⟨storage, ty, false⟩) :
      Carries A ⟨storage, ty, false⟩ (.whole (.inner d))
  | reference {d : NodeId} {storage : Storage} {ty : Ty}
      (slot : A.context.frame.slot? d = some ⟨storage, ty, true⟩) :
      Carries A ⟨storage, ty, true⟩ (A.refers d)

theorem Of.carries (hA : A.Of f) {id : NodeId} {slot : Slot} {name : String}
    (h : Stored A.context id slot)
    (htyped : A.context.arena.Typed A.unit A.context.table A.context.info id ty)
    (hk : A.context.arena.kind id = .ok (.var name)) (hr : A.scene.Denotes id r) :
    slot.ty = ty ∧ A.Carries slot r := by
  obtain ⟨taken, -, hsound, -⟩ := hA.lowers.frame_sound
  cases htyped with
  | @var _ _ e x ty ref cls d kind resolved entry meaning noted =>
    have hdescribes := hA.lowers.program.bound.sound.meanings e x entry
    rw [meaning] at hdescribes
    -- the entry of the node decides which rule applies, on both sides
    have hentry : ∀ {e' x' ty' ref' cls' d'}, A.context.info.resolvedEntry id = some e' →
        A.context.table.entry e' = .ok x' → x'.meaning = .var ty' ref' cls' d' →
        x' = x ∧ ty' = ty ∧ ref' = ref ∧ cls' = cls ∧ d' = d := by
      intro e' x' ty' ref' cls' d' hresolved hx' hmeaning
      cases resolved.symm.trans hresolved
      cases entry.symm.trans hx'
      cases meaning.symm.trans hmeaning
      exact ⟨rfl, rfl, rfl, rfl, rfl⟩
    cases h with
    | global resolved' entry' meaning' =>
      obtain ⟨rfl, rfl, rfl, rfl, rfl⟩ := hentry resolved' entry' meaning'
      refine ⟨rfl, ?_⟩
      cases hr with
      | global kind' resolved' entry' meaning' =>
        obtain ⟨rfl, rfl, rfl, -, rfl⟩ := hentry resolved' entry' meaning'
        exact .global (hdescribes.2 rfl) hdescribes.1
      | inner kind' resolved' entry' meaning' own | reference kind' resolved' entry' meaning' own =>
        exact absurd (hentry resolved' entry' meaning').2.2.2.1 own
      | field kind' => cases hk.symm.trans kind'
    | @framed _ _ _ _ _ _ slot resolved' entry' meaning' inner found =>
      obtain ⟨rfl, rfl, rfl, rfl, rfl⟩ := hentry resolved' entry' meaning'
      obtain ⟨b, hb, hty, href⟩ := hsound.declared _ (Frame.mem_of_slot? found)
      cases hb.symm.trans hdescribes.1
      obtain ⟨storage, ty', ref'⟩ := slot
      cases hty
      cases href
      refine ⟨rfl, ?_⟩
      cases hr with
      | global kind' resolved' entry' meaning' =>
        exact absurd (hentry resolved' entry' meaning').2.2.2.1.symm inner
      | inner kind' resolved' entry' meaning' own =>
        obtain ⟨-, -, rfl, -, rfl⟩ := hentry resolved' entry' meaning'
        exact .value found
      | reference kind' resolved' entry' meaning' own =>
        obtain ⟨-, -, rfl, -, rfl⟩ := hentry resolved' entry' meaning'
        exact .reference found
      | field kind' => cases hk.symm.trans kind'
  | _ => simp_all

/-- Variables of the function are not in a data section. -/
theorem Of.slot_ne_global (hA : A.Of f) {d : NodeId} {symbol : String} {ref : Bool} :
    A.context.frame.slot? d ≠ some ⟨.global symbol, ty, ref⟩ := by
  intro hd
  obtain ⟨taken, -, hsound, -⟩ := hA.lowers.frame_sound
  cases hsound.placed _ (Frame.mem_of_slot? hd) with
  | register storage | above storage | below storage => cases storage

/-- The register of a reference holds no value. -/
theorem Of.not_resident (hA : A.Of f) {d : NodeId}
    (hd : A.context.frame.slot? d = some ⟨.register q, ty, true⟩) : ¬A.Resident q := by
  rintro ⟨d', ty', hd'⟩
  obtain ⟨taken, -, hsound, -⟩ := hA.lowers.frame_sound
  have hne : d ≠ d' := by
    rintro rfl
    cases hd.symm.trans hd'
  exact hsound.register_ne hd hd' hne rfl rfl

/-! ### Typed stores -/

/-- A region is in memory or in the register of a parameter. -/
inductive Holds (A : Activation) : Region → Ty → Prop
  | memory {r : Region} {ty : Ty} {a : Word} (located : A.Located r ty a) : Holds A r ty
  | register {d : NodeId} {q : Register} {ty : Ty}
      (slot : A.context.frame.slot? d = some ⟨.register q, ty, false⟩) :
      Holds A (.whole (.inner d)) ty

/-- The values of a store have the types of their regions. -/
def Typed (A : Activation) (σ : Store) : Prop :=
  ∀ {r ty}, A.Holds r ty → ty.isRecord = false → (σ r).HasType ty

theorem Holds.unique (h : A.Holds r ty) (h' : A.Holds r ty') : ty = ty' := by
  cases h with
  | memory located =>
    cases h' with
    | memory located' => exact (located.unique located').1
    | register slot => exact absurd rfl (located.ne_of_register slot)
  | register slot =>
    cases h' with
    | memory located => exact absurd rfl (located.ne_of_register slot)
    | register slot' =>
      cases slot.symm.trans slot'
      rfl

theorem Typed.set (hσ : A.Typed σ) (hr : A.Holds r ty) (hv : v.HasType ty) :
    A.Typed (σ.set r v) := by
  intro q ty' hq hscalar
  by_cases heq : q = r
  · subst heq
    rw [Store.set_self, hq.unique hr]
    exact hv
  · rw [Store.set_of_ne σ v heq]
    exact hσ hq hscalar

theorem Of.holds_of_carries (hA : A.Of f) {slot : Slot} (h : A.Carries slot r) :
    A.Holds r slot.ty := by
  cases h with
  | global mem kind => exact .memory (.mk (.global mem kind) (.here _))
  | @value d storage ty slot =>
    cases storage with
    | global => exact absurd slot hA.slot_ne_global
    | register => exact .register slot
    | frame => exact .memory (.mk (.inner slot) (.here _))
  | reference slot =>
    obtain ⟨a, ha⟩ := hA.referred slot rfl
    exact .memory ha

/-- Records are in memory. -/
theorem Of.located_of_record (hA : A.Of f) {record : String} (h : A.Holds r (.record record)) :
    ∃ a, A.Located r (.record record) a := by
  cases h with
  | memory located => exact ⟨_, located⟩
  | register slot =>
    obtain ⟨taken, -, hsound, -⟩ := hA.lowers.frame_sound
    cases hsound.placed _ (Frame.mem_of_slot? slot) with
    | register storage argument earlier word => rcases word with hword | hword <;> cases hword
    | above storage | below storage => cases storage

end Activation

namespace Lowering

open Gen Activation

variable {A : Activation} {f : FunctionNode} {lower : Lowering} {s s' : State} {σ : Store}
  {id : NodeId} {ty : Ty} {q : Register} {code : List Line}

/-- Pure expressions and places that have code mean something. -/
structure Meaningful (lower : Lowering) (A : Activation) : Prop where
  expression : ∀ {id ty s q code s' σ},
    A.context.arena.Typed A.unit A.context.table A.context.info id ty →
    Emits (lower.expression id) A.context s q code s' → A.context.arena.Pure A.context.info id →
    A.Typed σ → A.scene.Traps σ id ∨
      ∃ v σ', A.scene.Evaluates σ id v σ' ∧ v.HasType ty ∧ A.Typed σ'
  place : ∀ {id ty s p code s'},
    A.context.arena.Typed A.unit A.context.table A.context.info id ty →
    Emits (lower.place id) A.context s p code s' → A.context.arena.Pure A.context.info id →
    ∃ r, A.scene.Denotes id r ∧ A.Holds r ty

theorem exists_denotes (hA : A.Of f) {name : String} {slot : Slot}
    (htyped : A.context.arena.Typed A.unit A.context.table A.context.info id ty)
    (hk : A.context.arena.kind id = .ok (.var name)) (h : Stored A.context id slot) :
    ∃ r, A.scene.Denotes id r ∧ A.Holds r ty := by
  obtain ⟨r, hr⟩ : ∃ r, A.scene.Denotes id r := by
    cases h with
    | global resolved entry meaning => exact ⟨_, .global hk resolved entry meaning⟩
    | @framed e x ty ref cls d slot resolved entry meaning inner found =>
      cases ref with
      | false => exact ⟨_, .inner hk resolved entry meaning inner⟩
      | true => exact ⟨_, .reference hk resolved entry meaning inner⟩
  obtain ⟨rfl, hcarries⟩ := hA.carries h htyped hk hr
  exact ⟨r, hr, hA.holds_of_carries hcarries⟩

theorem PlaceShape.meaningful (hA : A.Of f) (hlower : Meaningful lower A)
    (htyped : A.context.arena.Typed A.unit A.context.table A.context.info id ty) {p : Place}
    (h : PlaceShape lower A.context id s p code s')
    (hpure : A.context.arena.Pure A.context.info id) :
    ∃ r, A.scene.Denotes id r ∧ A.Holds r ty := by
  cases h with
  | global kind stored | register kind stored | registerReference kind stored
  | frame kind stored | frameReference kind stored => exact exists_denotes hA htyped kind stored
  | field kind type field outer =>
    obtain ⟨hpart, rfl, -⟩ := htyped.of_field kind type field
    obtain ⟨r, hr, hholds⟩ := hlower.place hpart outer (hpure.child kind (.head _))
    obtain ⟨a, ha⟩ := hA.located_of_record hholds
    exact ⟨_, .field kind hr, .memory (ha.field field)⟩
  | element kind => cases hpure.self kind

theorem StepShape.meaningful (hlower : Meaningful lower A) {op : UnaryOp} {operand : NodeId}
    (hk : A.context.arena.kind id = .ok (.unary op operand)) (hop : op.isStep = true)
    (htyped : A.context.arena.Typed A.unit A.context.table A.context.info operand .int)
    (h : StepShape lower A.context op operand s q code s')
    (hpure : A.context.arena.Pure A.context.info operand) (hσ : A.Typed σ) :
    ∃ v σ', A.scene.Evaluates σ id v σ' ∧ v.HasType .int ∧ A.Typed σ' := by
  obtain ⟨r, hr, hholds⟩ : ∃ r, A.scene.Denotes operand r ∧ A.Holds r .int := by
    cases h with
    | before order reads | after order reads =>
      obtain ⟨-, ⟨u, hplace, -⟩, -⟩ := reads
      exact hlower.place htyped hplace hpure
  obtain ⟨n, hn⟩ := (hσ hholds rfl).exists_int
  exact ⟨_, _, .step hk hop hr hn, .int _, hσ.set hholds (.int _)⟩

theorem ExpressionShape.meaningful (hA : A.Of f) (hlower : Meaningful lower A)
    (htyped : A.context.arena.Typed A.unit A.context.table A.context.info id ty)
    (h : ExpressionShape lower A.context id s q code s')
    (hpure : A.context.arena.Pure A.context.info id) (hσ : A.Typed σ) :
    A.scene.Traps σ id ∨ ∃ v σ', A.scene.Evaluates σ id v σ' ∧ v.HasType ty ∧ A.Typed σ' := by
  cases h with
  | constant kind =>
    right
    rcases kind with hk | ⟨b, hk, -⟩
    · exact ⟨_, σ, .int hk, htyped.of_int hk ▸ .int _, hσ⟩
    · exact ⟨_, σ, .bool hk, htyped.of_bool hk ▸ .bool _, hσ⟩
  | text kind => cases hpure.self kind
  | read kind place type scalar shape =>
    cases type.symm.trans htyped.noted
    obtain ⟨r, hr, hholds⟩ := shape.meaningful hA hlower htyped hpure
    exact .inr ⟨_, σ, .read type scalar hr, hσ hholds scalar, hσ⟩
  | sign kind part =>
    obtain ⟨inner, hinner, hresult⟩ := htyped.of_unary kind
    cases inner <;> cases hresult
    rcases hlower.expression hinner part (hpure.child kind (.head _)) hσ with
      htraps | ⟨v, σ', hv, htype, hσ'⟩
    · exact .inl (.operand kind htraps)
    · obtain ⟨n, rfl⟩ := htype.exists_int
      exact .inr ⟨_, σ', .minus kind hv, .int _, hσ'⟩
  | invert kind part =>
    obtain ⟨inner, hinner, hresult⟩ := htyped.of_unary kind
    cases inner <;> cases hresult
    rcases hlower.expression hinner part (hpure.child kind (.head _)) hσ with
      htraps | ⟨v, σ', hv, htype, hσ'⟩
    · exact .inl (.operand kind htraps)
    · obtain ⟨b, rfl⟩ := htype.exists_bool
      exact .inr ⟨_, σ', .not kind hv, .bool _, hσ'⟩
  | step kind isStep shape =>
    obtain ⟨inner, hinner, hresult⟩ := htyped.of_unary kind
    obtain ⟨rfl, rfl⟩ := UnaryOp.types_of_step isStep hresult
    exact .inr (shape.meaningful hlower kind isStep hinner (hpure.child kind (.head _)) hσ)
  | binary kind first second shape =>
    obtain ⟨l, hleft, hright, hresult⟩ := htyped.of_binary kind
    have hpureLeft := hpure.child kind (.head _)
    have htext : l ≠ .text := by
      rintro rfl
      exact (hpureLeft _ (.self _)).1 hleft.noted
    rcases hlower.expression hleft first hpureLeft hσ with htraps | ⟨x, σ₁, hx, hxtype, hσ₁⟩
    · exact .inl (.left kind htraps)
    rcases hlower.expression hright second (hpure.child kind (.tail _ (.head _))) hσ₁ with
      htraps | ⟨y, σ', hy, hytype, hσ'⟩
    · exact .inl (.right kind hx htraps)
    rcases BinaryOp.value_cases hresult htext hxtype hytype with
      ⟨v, hv⟩ | ⟨a, b, hop, rfl, rfl, hnone⟩
    · exact .inr ⟨v, σ', .binary kind hx hy hv,
        BinaryOp.hasType_of_value hresult hv hxtype hytype, hσ'⟩
    · exact .inl (.divide kind hop hx hy hnone)
  | call kind => cases hpure.self kind

/-- Pure expressions and places of any depth mean something. -/
theorem meaningful_atDepth (hA : A.Of f) (depth : Nat) : Meaningful (atDepth depth) A := by
  induction depth with
  | zero => exact ⟨fun _ h => (emits_fail.1 h).elim, fun _ h => (emits_fail.1 h).elim⟩
  | succ depth ih =>
    exact ⟨fun htyped h => (expressionShape h).meaningful hA ih htyped,
      fun htyped h => (placeShape h).meaningful hA ih htyped⟩

end Lowering

end MiniJ
