import MiniJ.Proofs.Lowering.Place
import MiniJ.Proofs.Lowering.Room
import MiniJ.Proofs.Lowering.Safe

/-!
# Expressions of a checked program have code

Lowering an expression of a checked program is safe, as long as its storage can be addressed.

## Main definitions

* `Gen.Context.Fits` — the storage of the program can be addressed.
* `Lowering.Roomy` — the fields of a place can be addressed.

## Main statements

* `Lowering.roomy_atDepth` — typed places are roomy.
* `Lowering.prepared_atDepth` — expressions and places of any depth are safe.
-/
namespace MiniJ

open Outcome

/-- Code is generated for a function of a checked program whose storage can be addressed. -/
structure Gen.Context.Fits (cx : Gen.Context) (u : UnitNode) (f : FunctionNode) : Prop
    extends cx.Lowers u f where
  compact : cx.table.Compact
  small : cx.frame.size < 2147483648
  labels : ∀ d ∈ u.functions, ∃ label, cx.labels.lookup d = some label
  entry : cx.isEntry = true → f.returnType = .int

theorem Ty.ne_void_of_isRecord {ty : Ty} (h : ty.isRecord = true) : ty ≠ .void := by
  rintro rfl
  cases h

/-- Storage in a frame that can be addressed. -/
theorem Frame.Placed.writable {table : SymbolTable} {index size : Nat} {slot : Slot} {δ : Int}
    (h : Placed table index size slot) (hsmall : size < 2147483648)
    (hslot : slot.storage = .frame δ) : -2147483648 < δ := by
  cases h with
  | register storage => rw [hslot] at storage; cases storage
  | above storage =>
    cases hslot.symm.trans storage
    omega
  | below storage takes fits inside =>
    cases hslot.symm.trans storage
    rw [SymbolTable.displacement_of_lt (by omega)]
    omega

/-- A record with bytes of its own lies below the frame pointer. -/
theorem Frame.Placed.below_zero {table : SymbolTable} {index size n : Nat} {slot : Slot} {δ : Int}
    (h : Placed table index size slot) (hsmall : size < 2147483648)
    (hslot : slot.storage = .frame δ) (hword : ¬slot.FitsWord) (hn : slot.Takes table n) :
    δ + n ≤ 0 := by
  cases h with
  | register _ _ _ word => exact absurd word hword
  | above _ _ word => exact absurd word hword
  | below storage takes fits inside =>
    cases hslot.symm.trans storage
    obtain rfl := hn.unique takes
    rw [SymbolTable.displacement_of_lt (by omega)]
    omega

namespace Lowering

open Gen

variable {lower : Lowering} {cx : Context} {u : UnitNode} {f : FunctionNode} {s s' : State}
  {code : List Line} {id : NodeId} {ty : Ty} {depth : Nat}

/-! ### Places -/

/-- A place is a variable in a register, or its fields can be addressed. -/
inductive Roomy (cx : Context) (id : NodeId) (ty : Ty) : Location → Prop
  | register {name : String} {r : Register} (kind : cx.arena.kind id = .ok (.var name))
      (stored : Stored cx id ⟨.register r, ty, false⟩) (plain : ty.isRecord = false) :
      Roomy cx id ty (.register r)
  | memory {a : Address} (writable : a.Writable)
      (upper : ty.isRecord = true → a.displacement + cx.table.bytes ty < 2147483648) :
      Roomy cx id ty (.memory a)

def RoomyPlaces (lower : Lowering) (cx : Context) (u : UnitNode) (f : FunctionNode) : Prop :=
  ∀ {id ty s p code s'}, cx.InBody f id → cx.arena.Typed u cx.table cx.info id ty →
    Emits (lower.place id) cx s p code s' → Roomy cx id ty p.location

theorem writable_zero {base : Address.Base} : Address.Writable ⟨base, 0⟩ := by
  simp [Address.Writable]

/-- A place whose address is a symbol or a register. -/
theorem Roomy.of_zero (hfits : cx.Fits u f) (hin : cx.InBody f id)
    (htyped : cx.arena.Typed u cx.table cx.info id ty) {base : Address.Base} :
    Roomy cx id ty (.memory ⟨base, 0⟩) := by
  refine .memory writable_zero fun hrecord => ?_
  have hsize := hfits.compact.bytes_lt (hfits.storable hin htyped (Ty.ne_void_of_isRecord hrecord))
  show (0 : Int) + _ < _
  omega

theorem PlaceShape.roomy (hfits : cx.Fits u f) (hlower : RoomyPlaces lower cx u f)
    (hin : cx.InBody f id) (htyped : cx.arena.Typed u cx.table cx.info id ty) {p : Place}
    (h : PlaceShape lower cx id s p code s') : Roomy cx id ty p.location := by
  obtain ⟨taken, -, hsound, -⟩ := hfits.frame_sound
  cases h with
  | global | registerReference | frameReference | element => exact .of_zero hfits hin htyped
  | register kind stored =>
    obtain ⟨rfl, ⟨x, hglobal, -⟩ | ⟨d, hd⟩⟩ := stored.slot_cases hfits.toLowers htyped kind
    · cases hglobal
    · cases hsound.placed _ (Frame.mem_of_slot? hd) with
      | register _ _ _ word => exact .register kind stored (word.resolve_left (by simp))
      | above storage => cases storage
      | below storage => cases storage
  | frame kind stored =>
    obtain ⟨rfl, ⟨x, hglobal, -⟩ | ⟨d, hd⟩⟩ := stored.slot_cases hfits.toLowers htyped kind
    · cases hglobal
    · have hplaced := hsound.placed _ (Frame.mem_of_slot? hd)
      refine .memory (hplaced.writable hfits.small rfl) fun hrecord => ?_
      have hstorable := hfits.storable hin htyped (Ty.ne_void_of_isRecord hrecord)
      have hzero := hplaced.below_zero hfits.small rfl (by simpa [Slot.FitsWord] using hrecord)
        (hfits.compact.sizeOf_eq hstorable)
      exact Int.lt_of_le_of_lt hzero (by decide)
  | @field base name record δ ty' address temp c s' kind type field outer range =>
    have hstorable := hfits.storable hin htyped
    obtain ⟨hpart, rfl, fields, lookup⟩ := htyped.of_field kind type field
    cases hlower (hin.child kind (.head _)) hpart outer with
    | memory writable upper =>
      have hrecord : cx.table.Storable (.record record) :=
        ⟨by simp [Ty.Declarable, Ty.base], fun r hr => by cases hr; exact ⟨_, lookup⟩⟩
      have hsize := hfits.compact.bytes_lt hrecord
      obtain ⟨before, k, rfl, hk, hle⟩ :=
        SymbolTable.field_inside (hfits.compact.sizeOf_eq hrecord) field
      have hupper := upper rfl
      rw [SymbolTable.displacement_of_lt (by omega)]
      refine .memory (writable.offsetBy (by omega)).2 ?_
      intro hinner
      cases hk.symm.trans (hfits.compact.sizeOf_eq
        (hstorable (Ty.ne_void_of_isRecord hinner)))
      show address.displacement + (before : Int) + _ < _
      omega

/-- Typed places of any depth are roomy. -/
theorem roomy_atDepth (hfits : cx.Fits u f) (depth : Nat) :
    RoomyPlaces (atDepth depth) cx u f := by
  induction depth with
  | zero =>
    intro _ _ _ _ _ _ _ _ h
    exact (emits_fail.1 h).elim
  | succ depth ih =>
    intro _ _ _ _ _ _ hin htyped h
    exact (placeShape h).roomy hfits ih hin htyped

/-- Typed expressions with a plain value and typed places are safe to lower. -/
structure Progresses (lower : Lowering) (cx : Context) (u : UnitNode) (f : FunctionNode)
    (depth : Nat) : Prop where
  expression : ∀ {id ty s}, cx.InBody f id → cx.arena.Within depth id →
    cx.arena.Typed u cx.table cx.info id ty → ty ≠ .void → ty.isRecord = false →
    Safe (lower.expression id) cx s
  place : ∀ {id ty s}, cx.InBody f id → cx.arena.Within depth id → cx.arena.IsPlace id →
    cx.arena.Typed u cx.table cx.info id ty → Safe (lower.place id) cx s

/-- What is known about the parts of an expression. -/
structure Prepared (lower : Lowering) (cx : Context) (u : UnitNode) (f : FunctionNode)
    (depth : Nat) : Prop where
  fits : cx.Fits u f
  disciplined : Disciplined lower cx u
  roomy : RoomyPlaces lower cx u f
  progresses : Progresses lower cx u f depth

theorem exists_slotOf (hlowers : cx.Lowers u f) (hin : cx.InBody f id) {name : String}
    (hk : cx.arena.kind id = .ok (.var name)) : ∃ slot, Emits (slotOf id) cx s slot [] s := by
  obtain ⟨taken, -, -, hslots⟩ := hlowers.frame_sound
  obtain ⟨e, x, ty, ref, cls, d, hresolved, hentry, hmeaning, -, hscope⟩ := hlowers.declared hin hk
  simp only [slotOf, emits_context_bind, hresolved, emits_lift_bind]
  rcases hscope with ⟨rfl, -⟩ | ⟨hcls, hdeclared⟩
  · exact ⟨_, x, hentry, by rw [hmeaning]; exact emits_pure.2 ⟨rfl, rfl, rfl⟩⟩
  · obtain ⟨slot, hslot⟩ := hslots d hdeclared
    refine ⟨slot, x, hentry, ?_⟩
    rw [hmeaning]
    cases cls with
    | global => exact absurd rfl hcls
    | _ =>
      simp only [hslot]
      exact emits_pure.2 ⟨rfl, rfl, rfl⟩

theorem safe_variablePlace (hfits : cx.Fits u f) (hin : cx.InBody f id)
    (htyped : cx.arena.Typed u cx.table cx.info id ty) {name : String}
    (hk : cx.arena.kind id = .ok (.var name)) : Safe (variablePlace id) cx s := by
  obtain ⟨taken, -, hsound, -⟩ := hfits.frame_sound
  obtain ⟨slot, hslot⟩ := exists_slotOf (s := s) hfits.toLowers hin hk
  refine safe_bind_of_emits hslot (by simp) ?_
  obtain ⟨hstored, -, -⟩ := emits_slotOf hslot
  obtain ⟨storage, slotTy, isReference⟩ := slot
  cases storage with
  | global symbol => exact safe_pure
  | register r => cases isReference <;> exact safe_pure
  | frame δ =>
    cases isReference with
    | false => exact safe_pure
    | true =>
      refine safe_bind (safe_scratch hk) fun pointer _ _ _ => safe_emit_bind ?_ safe_pure
      obtain ⟨-, ⟨x, hglobal, -⟩ | ⟨d, hd⟩⟩ := hstored.slot_cases hfits.toLowers htyped hk
      · cases hglobal
      · have hlower := (hsound.placed _ (Frame.mem_of_slot? hd)).writable hfits.small rfl
        simpa [Operand.Writable, Address.Writable, Address.frame] using hlower

theorem safe_fieldPlace (hlower : Prepared lower cx u f depth) (hin : cx.InBody f id)
    (hwithin : cx.arena.Within (depth + 1) id)
    (htyped : cx.arena.Typed u cx.table cx.info id ty) {base : NodeId} {name : String}
    (hk : cx.arena.kind id = .ok (.field base name)) :
    Safe (fieldPlace lower id base name) cx s := by
  cases htyped with
  | @field _ _ _ record _ _ kind part lookup found noted =>
    cases kind.symm.trans hk
    have hin' := hin.child hk (.head _)
    obtain ⟨δ, hδ⟩ := hlower.fits.compact.exists_field lookup found
    refine safe_typeOf_bind part.noted (safe_context_bind (safe_lift_bind hδ ?_))
    refine safe_bind (hlower.progresses.place hin' (hwithin.child hk (.head _)) (hwithin.shaped hk)
      part) fun p c t hp => ?_
    obtain ⟨location, temp⟩ := p
    cases hlower.roomy hin' part hp with
    | register kind stored plain => cases plain
    | @memory a writable upper =>
      have hrecord : cx.table.Storable (.record record) :=
        ⟨by simp [Ty.Declarable, Ty.base], fun r hr => by cases hr; exact ⟨_, lookup⟩⟩
      have hsize := hlower.fits.compact.bytes_lt hrecord
      obtain ⟨before, n, rfl, -, hle⟩ :=
        SymbolTable.field_inside (hlower.fits.compact.sizeOf_eq hrecord) hδ
      have hupper := upper rfl
      rw [SymbolTable.displacement_of_lt (by omega)]
      exact safe_lift_bind (writable.offsetBy (by omega)).1 safe_pure
  | _ => simp_all

theorem safe_elementPlace (hlower : Prepared lower cx u f depth) (hin : cx.InBody f id)
    (hwithin : cx.arena.Within (depth + 1) id)
    (htyped : cx.arena.Typed u cx.table cx.info id ty) {base index : NodeId}
    (hk : cx.arena.kind id = .ok (.element base index)) :
    Safe (elementPlace lower id base index) cx s := by
  cases htyped with
  | element kind array position noted =>
    cases kind.symm.trans hk
    have hin₁ := hin.child hk (.head _)
    have hin₂ := hin.child hk (.tail _ (.head _))
    have harray : cx.table.Storable ty := (hlower.fits.storable hin₁ array (by simp)).element
    refine safe_typeOf_bind noted (safe_sizeOf_bind (hlower.fits.compact.sizeOf_eq harray) ?_)
    refine safe_bind (hlower.progresses.expression hin₁ (hwithin.child hk (.head _)) array
      (by simp) rfl) fun pointer _ t _ => ?_
    refine safe_bind (hlower.progresses.expression hin₂ (hwithin.child hk (.tail _ (.head _)))
      position (by simp) rfl) fun offset _ t' hoffset => ?_
    refine safe_emit_bind (by simp [Operand.Writable])
      (safe_emit_bind (by simp [Operand.Writable]) ?_)
    have hlive : offset ∈ t'.registers.live :=
      ((hlower.disciplined.expression position hoffset).live offset).2 (by simp)
    exact safe_bind (safe_release hlive) fun _ _ _ _ => safe_pure
  | _ => simp_all

theorem safe_placeAt (hlower : Prepared lower cx u f depth) (hin : cx.InBody f id)
    (hwithin : cx.arena.Within (depth + 1) id) (hplace : cx.arena.IsPlace id)
    (htyped : cx.arena.Typed u cx.table cx.info id ty) : Safe (placeAt lower id) cx s := by
  obtain ⟨k, hk, hisPlace⟩ := hplace
  refine safe_kind_bind hk ?_
  cases k with
  | var name => exact safe_variablePlace hlower.fits hin htyped hk
  | field base name => exact safe_fieldPlace hlower hin hwithin htyped hk
  | element base index => exact safe_elementPlace hlower hin hwithin htyped hk
  | _ => cases hisPlace

/-! ### Loads and stores -/

variable {k : NodeKind}

theorem safe_targetOf {p : Place} (hk : cx.arena.kind id = .ok k) : Safe (targetOf p id) cx s := by
  unfold targetOf
  split
  · exact safe_pure
  · exact safe_scratch hk

/-- A plain value can be moved to and from a location. -/
theorem safe_move {location : Location} {n : Nat} {r : Register} (hloc : Roomy cx id ty location)
    (hn : cx.table.sizeOf ty = .ok (some n)) :
    Safe (load location ty r id) cx s ∧ Safe (store location ty r id) cx s := by
  cases hloc with
  | register plain =>
    exact ⟨safe_emit (by simp [Operand.Writable]), safe_emit (by simp [Operand.Writable])⟩
  | memory writable upper =>
    have hsized : (Operand.sized (.ofSize n) r).Writable := by
      cases Width.ofSize n <;> trivial
    refine ⟨safe_sizeOf_bind hn (safe_emit ?_), safe_sizeOf_bind hn (safe_emit ?_)⟩
    · exact List.forall_mem_cons.2 ⟨hsized, List.forall_mem_singleton.2 writable⟩
    · exact List.forall_mem_cons.2 ⟨writable, List.forall_mem_singleton.2 hsized⟩

/-- The address of a place that is not in a register. -/
theorem safe_address (hlower : Prepared lower cx u f depth) (hin : cx.InBody f id)
    (hwithin : cx.arena.Within depth id) (hplace : cx.arena.IsPlace id)
    (htyped : cx.arena.Typed u cx.table cx.info id ty)
    (hmemory : ∀ r, ¬Roomy cx id ty (.register r)) : Safe (address lower id) cx s := by
  have hkind := hplace
  obtain ⟨k, hk, -⟩ := hkind
  refine safe_bind (hlower.progresses.place hin hwithin hplace htyped) fun p c t hp => ?_
  obtain ⟨location, temp⟩ := p
  have hroomy := hlower.roomy hin htyped hp
  cases location with
  | register r => exact absurd hroomy (hmemory r)
  | memory a =>
    cases hroomy with
    | memory writable upper =>
      refine safe_bind (safe_targetOf hk) fun target _ _ _ => safe_emit_bind ?_ safe_pure
      simpa [Operand.Writable] using writable

/-- Reading a place. -/
theorem safe_placeValue (hlower : Prepared lower cx u f depth) (hin : cx.InBody f id)
    (hwithin : cx.arena.Within (depth + 1) id) (hplace : cx.arena.IsPlace id)
    (htyped : cx.arena.Typed u cx.table cx.info id ty) (hplain : ty.isRecord = false) :
    Safe (placeValue lower id) cx s := by
  have hkind := hplace
  obtain ⟨k, hk, -⟩ := hkind
  have hn := hlower.fits.compact.sizeOf_eq (hlower.fits.storable_place hin htyped hplace)
  refine safe_typeOf_bind htyped.noted ?_
  rw [hplain, if_neg Bool.false_ne_true]
  refine safe_bind (safe_placeAt hlower hin hwithin hplace htyped) fun p c t hp => ?_
  have hroomy := (placeShape hp).roomy hlower.fits hlower.roomy hin htyped
  refine safe_bind (safe_targetOf hk) fun target _ _ _ => ?_
  exact safe_bind (safe_move hroomy hn).1 fun _ _ _ _ => safe_pure

/-! ### Operators -/

theorem safe_step (hlower : Prepared lower cx u f depth) (hin : cx.InBody f id)
    (hwithin : cx.arena.Within (depth + 1) id) {op : UnaryOp} {operand : NodeId}
    (hk : cx.arena.kind id = .ok (.unary op operand))
    (htyped : cx.arena.Typed u cx.table cx.info operand ty) (hplace : cx.arena.IsPlace operand) :
    Safe (step lower id op operand) cx s := by
  have hin' := hin.child hk (.head _)
  have hn := hlower.fits.compact.sizeOf_eq (hlower.fits.storable_place hin' htyped hplace)
  refine safe_typeOf_bind htyped.noted ?_
  refine safe_bind (hlower.progresses.place hin' (hwithin.child hk (.head _)) hplace htyped)
    fun p c t hp => ?_
  have hroomy := hlower.roomy hin' htyped hp
  have htemp := hlower.disciplined.place htyped hp
  refine safe_bind (safe_scratch hk) fun value _ t₁ hvalue => ?_
  have hboth := htemp.trans (emits_scratch hvalue).2
  refine safe_bind (safe_move hroomy hn).1 fun _ _ t₂ hload => ?_
  obtain ⟨rfl, -⟩ := emits_load hload
  have hdone : ∀ {t₃}, Claims ([value] ++ p.temp.toList) s t₃ →
      Safe (releasePlace p >>= fun _ => pure value) cx t₃ := fun hclaims =>
    safe_bind (safe_releaseAll (hclaims.perm (List.perm_append_singleton _ _).symm))
      fun _ _ _ _ => safe_pure
  have hbefore : ∀ change : Mnemonic, Safe (emit change [.reg value, .imm 1] >>= fun _ =>
      store p.location ty value operand >>= fun _ => releasePlace p >>= fun _ => pure value)
      cx t₂ := fun change =>
    safe_emit_bind (by simp [Operand.Writable]) (safe_bind (safe_move hroomy hn).2
      fun _ _ t₃ hstore => by
        obtain ⟨rfl, -⟩ := emits_store hstore
        exact hdone hboth)
  have hafter : ∀ change : Mnemonic, Safe (scratch id >>= fun updated =>
      emit .mov [.reg updated, .reg value] >>= fun _ =>
      emit change [.reg updated, .imm 1] >>= fun _ =>
      store p.location ty updated operand >>= fun _ => release updated >>= fun _ =>
      releasePlace p >>= fun _ => pure value) cx t₂ := by
    intro change
    refine safe_bind (safe_scratch hk) fun updated _ t₃ hupdated => ?_
    have hclaims := (emits_scratch hupdated).2
    refine safe_emit_bind (by simp [Operand.Writable])
      (safe_emit_bind (by simp [Operand.Writable]) ?_)
    refine safe_bind (safe_move hroomy hn).2 fun _ _ t₄ hstore => ?_
    obtain ⟨rfl, -⟩ := emits_store hstore
    refine safe_bind (safe_release ((hclaims.live updated).2 (by simp))) fun _ _ t₅ hrelease => ?_
    have hreleased := hclaims.releases (by simp) (emits_release_iff.1 hrelease).2
    rw [List.erase_cons_head] at hreleased
    exact hdone (hboth.trans hreleased)
  cases op with
  | preIncrement | preDecrement => exact hbefore _
  | postIncrement | postDecrement | minus | not => exact hafter _

theorem safe_unary (hlower : Prepared lower cx u f depth) (hin : cx.InBody f id)
    (hwithin : cx.arena.Within (depth + 1) id) (htyped : cx.arena.Typed u cx.table cx.info id ty)
    {op : UnaryOp} {operand : NodeId} (hk : cx.arena.kind id = .ok (.unary op operand)) :
    Safe (unary lower id op operand) cx s := by
  cases htyped with
  | unary kind part result place =>
    cases kind.symm.trans hk
    obtain ⟨rfl, hplain⟩ := UnaryOp.result_cases result
    have hoperand : Safe (lower.expression operand) cx s :=
      hlower.progresses.expression (hin.child hk (.head _)) (hwithin.child hk (.head _)) part
        (by rcases hplain with rfl | rfl <;> simp) (by rcases hplain with rfl | rfl <;> rfl)
    cases op with
    | minus | not =>
      exact safe_bind hoperand fun _ _ _ _ =>
        safe_emit_bind (by simp [Operand.Writable]) safe_pure
    | _ =>
      have hstep := safe_step (s := s) hlower hin hwithin hk part (place rfl)
      exact hstep
  | _ => simp_all

/-- Only some operators on texts are rejected. -/
theorem safe_rejectText {op : BinaryOp} {left : NodeId} {k : NodeKind} {r : Ty}
    (hk : cx.arena.kind id = .ok k) (hleft : cx.arena.Typed u cx.table cx.info left ty)
    (hop : (op.result? ty r).isSome) : Safe (rejectText id op left) cx s := by
  unfold rejectText
  split
  · exact safe_pure
  · next hequality =>
    refine safe_typeOf_bind hleft.noted ?_
    split
    · next htext =>
      subst htext
      refine safe_unsupported hk fun span => ?_
      show op ∈ _
      cases op <;> cases r <;> simp_all [BinaryOp.result?, BinaryOp.resultOn?, BinaryOp.isEquality]
    · exact safe_pure

/-- A division releases its divisor. -/
theorem safe_divide {k : NodeKind} {result dividend divisor : Register}
    (hk : cx.arena.kind id = .ok k) (hlive : divisor ∈ s.registers.live) :
    Safe (divide id result dividend divisor) cx s := by
  unfold divide
  extract_lets jp
  have hemit : ∀ {c : Prop} [Decidable c] {mnemonic : Mnemonic} {r q : Register}
      {g : Unit → Gen Register} {t : State}, Safe (g ()) cx t →
      Safe (if c then emit mnemonic [.reg r] >>= g else g ()) cx t ∧
      Safe (if c then emit mnemonic [.reg r, .reg q] >>= g else g ()) cx t := by
    intro c _ mnemonic r q g t hg
    constructor <;> split <;>
      first | exact hg | exact safe_emit_bind (by simp [Operand.Writable]) hg
  have hdivide : ∀ {d t}, d ∈ t.registers.live → Safe (jp d) cx t := by
    intro d t hd
    refine safe_state_bind ((hemit (q := d) ((hemit (q := d) ((hemit ?_).2)).1)).1)
    refine safe_emit_bind (by simp) (safe_emit_bind (by simp [Operand.Writable]) ?_)
    refine (hemit ((hemit (q := d) ((hemit (q := d) ?_).1)).1)).2
    exact safe_bind (safe_release hd) fun _ _ _ _ => safe_pure
  split
  · next hrax =>
    refine safe_bind (safe_scratch hk) fun moved _ t hmoved => ?_
    have hclaims := (emits_scratch hmoved).2
    refine safe_emit_bind (by simp [Operand.Writable]) ?_
    refine safe_bind (safe_release (hclaims.mono hlive)) fun _ _ t' hreleased => ?_
    refine safe_bind safe_pure fun d _ t'' hd => ?_
    obtain ⟨rfl, -, rfl⟩ := emits_pure.1 hd
    obtain ⟨g, hg, -, rfl⟩ := emits_release.1 hreleased
    refine hdivide ?_
    rcases RegisterFile.release_eq_ok hg with ⟨-, rfl⟩ | ⟨-, hrest⟩
    · exact (hclaims.live d).2 (by simp)
    · exact (hrest d).2 ⟨(hclaims.ne_of_live (.head _) hlive).symm, (hclaims.live d).2 (by simp)⟩
  · refine safe_bind safe_pure fun d _ t hd => ?_
    obtain ⟨rfl, -, rfl⟩ := emits_pure.1 hd
    exact hdivide hlive

theorem safe_binary (hlower : Prepared lower cx u f depth) (hin : cx.InBody f id)
    (hwithin : cx.arena.Within (depth + 1) id) (htyped : cx.arena.Typed u cx.table cx.info id ty)
    {op : BinaryOp} {left right : NodeId} (hk : cx.arena.kind id = .ok (.binary op left right)) :
    Safe (binary lower id op left right) cx s := by
  obtain ⟨inner, first, second, hvoid, hplain, result⟩ := htyped.binary_cases hk
  refine safe_bind (safe_rejectText hk first (by rw [result]; rfl)) fun _ _ _ _ => ?_
  refine safe_bind (hlower.progresses.expression (hin.child hk (.head _))
    (hwithin.child hk (.head _)) first hvoid hplain) fun lhs _ t hleft => ?_
  refine safe_bind (hlower.progresses.expression (hin.child hk (.tail _ (.head _)))
    (hwithin.child hk (.tail _ (.head _))) second hvoid hplain) fun rhs _ t' hright => ?_
  have hlive : rhs ∈ t'.registers.live :=
    ((hlower.disciplined.expression second hright).live rhs).2 (by simp)
  have hcombine : ∀ mnemonic, Safe (combine mnemonic lhs rhs) cx t' := fun mnemonic =>
    safe_emit_bind (by simp [Operand.Writable])
      (safe_bind (safe_release hlive) fun _ _ _ _ => safe_pure)
  have hcompare : ∀ condition, Safe (compareTo condition lhs rhs) cx t' := fun condition =>
    safe_emit_bind (by simp [Operand.Writable]) (safe_emit_bind (by simp [Operand.Writable])
      (safe_emit_bind (by simp [Operand.Writable])
        (safe_bind (safe_release hlive) fun _ _ _ _ => safe_pure)))
  cases op with
  | plus | minus | times | and | or => exact hcombine _
  | div | mod => exact safe_divide hk hlive
  | equal | unequal | lesser | lesserEq | greater | greaterEq => exact hcompare _

/-! ### Calls -/

variable {name : String} {args : List NodeId} {sig : Signature}

/-- The callee of a typed call is known; only records it gives back have no code. -/
theorem safe_calleeOf (hfits : cx.Fits u f) (hk : cx.arena.kind id = .ok (.call name args))
    (hsig : sig.Describes cx.arena u name)
    (htarget : cx.info.callTarget id = some (Typing.target name sig)) :
    Safe (calleeOf id name args) cx s := by
  refine safe_context_bind ?_
  rw [htarget, Typing.target]
  cases hd : sig.definition with
  | some d =>
    obtain ⟨hmem, g, hg, -, -, hbinders⟩ := hsig.function hd
    obtain ⟨label, hlabel⟩ := hfits.labels d hmem
    refine safe_lift_bind (Arena.function?_eq_ok hg) ?_
    dsimp only
    split
    · exact safe_bind (safe_unsupported hk fun _ => trivial) fun _ _ _ h =>
        (emits_unsupported.1 h).elim
    · refine safe_lift_bind (hfits.program.declares_params hmem hg hbinders).mapM ?_
      rw [hlabel]
      exact safe_pure
  | none =>
    obtain ⟨b, hb, -⟩ := hsig.builtin hd
    dsimp only
    rw [hb]
    exact safe_pure

/-- Parameters of a callee are storable. -/
theorem param_ne_void (hfits : cx.Fits u f) (hsig : sig.Describes cx.arena u name) {b : Binder}
    (hb : b ∈ sig.params) : b.ty ≠ .void := by
  cases hd : sig.definition with
  | some d =>
    obtain ⟨hmem, g, hg, -, -, hbinders⟩ := hsig.function hd
    obtain ⟨p, hp, hkind⟩ :=
      exists_of_forall₂_right (hfits.program.declares_params hmem hg hbinders) hb
    exact (hfits.program.storable_param hmem hg hp hkind).ne_void
  | none =>
    obtain ⟨builtin, hbuiltin, rfl⟩ := hsig.builtin hd
    have hall : ∀ builtin ∈ Builtin.all, ∀ p ∈ builtin.signature.params, p.ty ≠ .void := by decide
    exact hall builtin (List.mem_of_find?_eq_some hbuiltin) b hb

theorem exists_mem_zip {α β γ : Type} {R : β → γ → Prop} {xs : List α} {ys : List β} {zs : List γ}
    (h : List.Forall₂ R ys zs) {x : α} {z : γ} (hz : (x, z) ∈ xs.zip zs) :
    ∃ y, (x, y) ∈ xs.zip ys ∧ R y z := by
  induction h generalizing xs with
  | nil => simp at hz
  | @cons y z' ys zs hy _ ih =>
    cases xs with
    | nil => simp at hz
    | cons x' xs =>
      rw [List.zip_cons_cons, List.mem_cons] at hz
      rcases hz with heq | hz
      · cases heq
        exact ⟨y, by simp, hy⟩
      · obtain ⟨y', hmem, hR⟩ := ih hz
        exact ⟨y', by simp [hmem], hR⟩

/-- A variable that is passed by reference is not in a register. -/
theorem not_register_of_reference (hfits : cx.Fits u f) (hin : cx.InBody f id)
    (hk : cx.arena.kind id = .ok (.call name args)) (hsig : sig.Describes cx.arena u name)
    (htarget : cx.info.callTarget id = some (Typing.target name sig)) {arg : NodeId} {b : Binder}
    (hb : (arg, b) ∈ args.zip sig.params) (href : b.isReference = true) (r : Register) :
    ¬Roomy cx arg ty (.register r) := by
  rintro ⟨hvar, hstored, -⟩
  obtain ⟨taken, htaken, hsound, -⟩ := hfits.frame_sound
  obtain ⟨root, hroot, hbelow⟩ := hin
  cases hd : sig.definition with
  | none =>
    obtain ⟨builtin, hbuiltin, rfl⟩ := hsig.builtin hd
    have hvalue := Builtin.byAddress_params builtin (List.mem_of_find?_eq_some hbuiltin) b
      (List.of_mem_zip hb).2
    rw [Binder.byAddress, href] at hvalue
    cases hvalue
  | some callee =>
    rw [Typing.target, hd] at htarget
    obtain ⟨hmem, g, hg, -, -, hbinders⟩ := hsig.function hd
    have hdeclares := hfits.program.declares_params hmem hg hbinders
    obtain ⟨param, hparam, hkind⟩ : ∃ param, (arg, param) ∈ args.zip g.params ∧
        cx.arena.kind param = .ok (.declaration b) := exists_mem_zip hdeclares hb
    cases hstored with
    | framed resolved entry meaning inner found =>
      obtain ⟨ids, hids, hroots⟩ := exists_of_forall₂_left (mapM_eq_ok.1 htaken) hroot
      have hmemtaken := Frame.mem_takenIn hbelow (fun ids hids => Frame.mem_takenAt hk htarget
        (Arena.function?_eq_ok hg) hparam (Frame.takenBy_eq hkind href hvar resolved entry meaning)
        hids) hroots
      exact hsound.homed _ (Frame.mem_of_slot? found) (List.mem_flatten.2 ⟨ids, hids, hmemtaken⟩) r
        rfl

/-- A typed record is a place or the result of a call. -/
theorem isPlace_of_record {record : String} (hk : cx.arena.kind id = .ok k)
    (htyped : cx.arena.Typed u cx.table cx.info id (.record record)) (hcall : k.isCall = false) :
    cx.arena.IsPlace id := by
  generalize hty : Ty.record record = ty at htyped
  cases htyped with
  | int | text | bool => cases hty
  | var kind | field kind | element kind => exact ⟨_, kind, rfl⟩
  | unary kind part result =>
    obtain ⟨rfl, hplain⟩ := UnaryOp.result_cases result
    rcases hplain with rfl | rfl <;> cases hty
  | binary kind first second result =>
    obtain ⟨-, -, hplain⟩ := BinaryOp.result_cases result
    rcases hplain with rfl | rfl | rfl <;> cases hty
  | call kind =>
    cases kind.symm.trans hk
    cases hcall

/-- An argument of a typed call. -/
theorem safe_pushArgument (hlower : Prepared lower cx u f depth) (hin : cx.InBody f id)
    (hwithin : cx.arena.Within (depth + 1) id) (hk : cx.arena.kind id = .ok (.call name args))
    (hsig : sig.Describes cx.arena u name)
    (htarget : cx.info.callTarget id = some (Typing.target name sig)) {arg : NodeId} {b : Binder}
    (hb : (arg, b) ∈ args.zip sig.params) (htyped : cx.arena.Typed u cx.table cx.info arg b.ty)
    (hplace : b.isReference = true → cx.arena.IsPlace arg) :
    Safe (pushArgument lower arg b.byAddress) cx s := by
  have hmem : arg ∈ NodeKind.children (.call name args) := (List.of_mem_zip hb).1
  have hin' := hin.child hk hmem
  have hwithin' := hwithin.child hk hmem
  have hpush : ∀ {x : Gen Register}, Safe x cx s →
      (∀ {r c t}, Emits x cx s r c t → r ∈ t.registers.live) →
      Safe (x >>= fun value => push value >>= fun _ => release value) cx s := by
    intro x hx hlive
    refine safe_bind hx fun r c t hr => safe_bind safe_push fun _ _ t' ht' => safe_release ?_
    obtain ⟨-, rfl⟩ := emits_push.1 ht'
    exact (hlive hr :)
  cases hby : b.byAddress with
  | false =>
    simp only [Binder.byAddress, Bool.or_eq_false_iff] at hby
    refine hpush (hlower.progresses.expression hin' hwithin' htyped
      (param_ne_void hlower.fits hsig (List.of_mem_zip hb).2) hby.2) fun hr => ?_
    exact ((hlower.disciplined.expression htyped hr).live _).2 (by simp)
  | true =>
    obtain ⟨k, hkind⟩ := hwithin'.kind
    refine safe_kind_bind hkind ?_
    split
    · exact safe_bind (safe_unsupported hkind fun _ => trivial) fun _ _ _ h =>
        (emits_unsupported.1 h).elim
    · next hcall =>
      have hsafe : Safe (address lower arg) cx s := by
        cases href : b.isReference with
        | true =>
          exact safe_address hlower hin' hwithin' (hplace href) htyped
            (not_register_of_reference hlower.fits hin hk hsig htarget hb href)
        | false =>
          rw [Binder.byAddress, href, Bool.false_or] at hby
          obtain ⟨record, hrecord⟩ := Ty.exists_of_isRecord hby
          rw [hrecord] at htyped
          refine safe_address hlower hin' hwithin'
            (isPlace_of_record hkind htyped (by simpa using hcall)) htyped fun r hroomy => ?_
          cases hroomy with
          | register kind stored plain => cases plain
      refine hpush hsafe fun hr => ?_
      obtain ⟨a, temp, c, t, hp, htargets, -⟩ := emits_address hr
      exact ((htargets.claims (hlower.disciplined.place htyped hp)).live _).2 (by simp)

theorem safe_padding_bind {β : Type} {padding : Nat} (hp : padding < 2) {g : Unit → Gen β}
    (h : Safe (g ()) cx (s.grown padding)) :
    Safe (if padding = 1 then emit .sub [.reg .rsp, .imm 8] >>= fun _ => grow 1 >>= g
      else g ()) cx s := by
  by_cases hone : padding = 1
  · subst hone
    exact safe_emit_bind (by simp [Operand.Writable])
      (safe_bind_of_emits (v := ()) (emits_update.2 ⟨rfl, rfl⟩) (by simp) h)
  · obtain rfl : padding = 0 := by omega
    exact h

theorem safe_drop_bind {β : Type} {words : Nat} {g : Unit → Gen β} (hle : words ≤ s.stackDepth)
    (h : Safe (g ()) cx (s.shrunk words)) :
    Safe (if words > 0 then emit .add [.reg .rsp, .imm (Int64.ofNat (8 * words))] >>= fun _ =>
      shrink words >>= g else g ()) cx s := by
  by_cases hpos : words > 0
  · rw [if_pos hpos]
    exact safe_emit_bind (by simp [Operand.Writable])
      (safe_bind_of_emits (v := ()) (emits_shrink.2 ⟨hle, rfl, rfl⟩) (by simp) h)
  · obtain rfl : words = 0 := by omega
    exact h

theorem safe_result {saved : List Register} {returns : Bool} (hk : cx.arena.kind id = .ok k)
    (hle : saved.length ≤ s.stackDepth) :
    Safe (if returns = true then takeResult id >>= fun r => pure (some r) >>= fun result =>
      saved.forM pop >>= fun _ => pure result
      else pure none >>= fun result => saved.forM pop >>= fun _ => pure result) cx s := by
  have hpops : ∀ {t : State} {result : Option Register}, saved.length ≤ t.stackDepth →
      Safe (saved.forM pop >>= fun _ => pure result) cx t := fun ht =>
    safe_bind (safe_forM_pop ht) fun _ _ _ _ => safe_pure
  cases returns with
  | true =>
    have htake : Safe (takeResult id) cx s := by
      refine safe_bind (safe_scratch hk) fun r _ t _ => ?_
      split
      · exact safe_emit_bind (by simp [Operand.Writable]) safe_pure
      · exact safe_pure
    refine safe_bind htake fun r _ t hr => safe_bind safe_pure fun result _ t' ht' => ?_
    obtain ⟨-, -, rfl⟩ := emits_pure.1 ht'
    exact hpops ((emits_takeResult hr).1.depth ▸ hle)
  | false =>
    refine safe_bind safe_pure fun result _ t' ht' => ?_
    obtain ⟨-, -, rfl⟩ := emits_pure.1 ht'
    exact hpops hle

theorem safe_passArguments (hlower : Prepared lower cx u f depth) (hin : cx.InBody f id)
    (hwithin : cx.arena.Within (depth + 1) id) (hk : cx.arena.kind id = .ok (.call name args))
    (htyped : cx.arena.Typed u cx.table cx.info id ty) {callee : Callee}
    (hcalls : Calls cx id args callee) : Safe (passArguments lower callee args) cx s := by
  obtain ⟨sig, hsig, harity, htarget, htypes, hplaces, -⟩ := htyped.call_cases hk
  have hby := (hcalls.of_signature hlower.fits.program hsig harity htarget).1
  refine safe_state_bind (safe_bind safe_forM_push fun _ _ t₁ hpush => ?_)
  obtain ⟨-, rfl⟩ := emits_forM_push.1 hpush
  refine safe_state_bind (safe_padding_bind (Nat.mod_lt _ Nat.two_pos) ?_)
  refine safe_bind (safe_forM fun p hp s => ?_) fun _ _ t₂ hargs => ?_
  · rw [List.mem_reverse, hby, List.zip_map_right, List.mem_map] at hp
    obtain ⟨⟨arg, b⟩, hb, rfl⟩ := hp
    exact safe_pushArgument hlower hin hwithin hk hsig htarget hb (htypes _ hb) (hplaces _ hb)
  · have hdepth := depth_passArguments hlower.fits.program hlower.disciplined htyped hk hcalls
      (argumentsShape hargs)
    refine safe_bind (safe_forM_pop ?_) fun _ _ _ _ => safe_pure
    rw [List.length_take, hdepth]
    omega

/-- A typed call. -/
theorem safe_callNode (hlower : Prepared lower cx u f depth) (hin : cx.InBody f id)
    (hwithin : cx.arena.Within (depth + 1) id) (hk : cx.arena.kind id = .ok (.call name args))
    (htyped : cx.arena.Typed u cx.table cx.info id ty) :
    Safe (callNode lower id name args) cx s := by
  obtain ⟨sig, hsig, harity, htarget, -⟩ := htyped.call_cases hk
  refine safe_bind (safe_calleeOf hlower.fits hk hsig htarget) fun callee _ t hcallee => ?_
  obtain ⟨hcalls, -, rfl⟩ := emits_calleeOf hcallee
  refine safe_state_bind (safe_bind (safe_passArguments hlower hin hwithin hk htyped hcalls)
    fun dropped _ t₁ hpass => ?_)
  obtain ⟨rfl, argCode, t₂, harguments, -, rfl⟩ := emits_passArguments hpass
  have hdepth := depth_passArguments hlower.fits.program hlower.disciplined htyped hk hcalls
    (argumentsShape harguments)
  have hsix : Register.arguments.length = 6 := rfl
  refine safe_emit_bind (by simp [Operand.Writable]) (safe_drop_bind ?_ (safe_result hk ?_))
  · rw [State.stackDepth_shrunk, hdepth, stackWords]
    omega
  · rw [State.stackDepth_shrunk, State.stackDepth_shrunk, hdepth, List.length_reverse, stackWords]
    omega

/-! ### Expressions -/

/-- One level of an expression. -/
theorem safe_expressionAt (hlower : Prepared lower cx u f depth) (hin : cx.InBody f id)
    (hwithin : cx.arena.Within (depth + 1) id) (htyped : cx.arena.Typed u cx.table cx.info id ty)
    (hvoid : ty ≠ .void) (hplain : ty.isRecord = false) : Safe (expressionAt lower id) cx s := by
  obtain ⟨k, hk⟩ := hwithin.kind
  refine safe_kind_bind hk ?_
  have hconstant : ∀ value, Safe (constant id value) cx s := fun value =>
    safe_bind (safe_scratch hk) fun _ _ _ _ => safe_emit_bind (by simp [Operand.Writable]) safe_pure
  cases k with
  | int | bool => exact hconstant _
  | text value =>
    refine safe_bind (safe_state_bind (safe_bind safe_update fun _ _ _ _ => safe_pure))
      fun label _ _ _ => ?_
    refine safe_bind (safe_scratch hk) fun _ _ _ _ => safe_emit_bind ?_ safe_pure
    simp [Operand.Writable, Address.symbol, writable_zero]
  | var | field | element => exact safe_placeValue hlower hin hwithin ⟨_, hk, rfl⟩ htyped hplain
  | unary op operand => exact safe_unary hlower hin hwithin htyped hk
  | binary op left right => exact safe_binary hlower hin hwithin htyped hk
  | call name args =>
    refine safe_bind (safe_callNode hlower hin hwithin hk htyped) fun result c t hresult => ?_
    obtain ⟨sig, hsig, harity, htarget, -, -, rfl⟩ := htyped.call_cases hk
    obtain ⟨calls, -, returns, -⟩ := callShape hresult
    rw [(calls.of_signature hlower.fits.program hsig harity htarget).2] at returns
    cases result with
    | some r => exact safe_pure
    | none => simp [hvoid] at returns
  | _ => cases htyped <;> simp_all

/-- Expressions and places of a checked function are safe to lower. -/
theorem prepared_atDepth (hfits : cx.Fits u f) (depth : Nat) :
    Prepared (atDepth depth) cx u f depth := by
  induction depth with
  | zero =>
    exact ⟨hfits, disciplined_atDepth hfits.program 0, roomy_atDepth hfits 0,
      fun _ hwithin => absurd hwithin Arena.not_within_zero,
      fun _ hwithin => absurd hwithin Arena.not_within_zero⟩
  | succ depth ih =>
    refine ⟨hfits, disciplined_atDepth hfits.program _, roomy_atDepth hfits _, ?_, ?_⟩
    · intro id ty s hin hwithin htyped hvoid hplain
      exact safe_expressionAt ih hin hwithin htyped hvoid hplain
    · intro id ty s hin hwithin hplace htyped
      exact safe_placeAt ih hin hwithin hplace htyped

end Lowering

end MiniJ
