import MiniJ.Proofs.Lowering.Discipline
import MiniJ.Proofs.Lowering.Frame

/-!
# Typed places

What is known about the location of a typed place: the storage of a variable has the type of the
variable, and a place that is addressed from the frame pointer lies in the frame or among the
parameters above it.

## Main statements

* `Gen.Stored.slot_cases` — the storage of a typed variable.
* `Lowering.sited_atDepth` — where typed places are.
-/
namespace MiniJ

open Outcome

/-- A typed field access has the type of the field, and the record is a known one. -/
theorem Arena.Typed.of_field {a : Arena} {u : UnitNode} {table : SymbolTable} {info : SemanticInfo}
    {id base : NodeId} {name record : String} {ty ty' : Ty} {δ : Int}
    (h : a.Typed u table info id ty) (hk : a.kind id = .ok (.field base name))
    (htype : info.typeOf base = some (.record record))
    (hfield : table.field record name = .ok (some (δ, ty'))) :
    a.Typed u table info base (.record record) ∧ ty' = ty ∧
      ∃ fields, table.lookupRecord record = .ok (some fields) := by
  cases h with
  | field kind part lookup found noted =>
    cases hk.symm.trans kind
    cases htype.symm.trans part.noted
    obtain ⟨g, hg, rfl⟩ := SymbolTable.field_find lookup hfield
    cases found.symm.trans hg
    exact ⟨part, rfl, _, lookup⟩
  | int kind | text kind | bool kind | var kind | element kind | unary kind | binary kind
  | call kind => cases hk.symm.trans kind

namespace Gen

variable {cx : Context} {u : UnitNode} {f : FunctionNode} {id : NodeId} {ty : Ty} {slot : Slot}

/-- The storage of a typed variable: a global, or a variable of the function. -/
theorem Stored.slot_cases (hlowers : cx.Lowers u f) (h : Stored cx id slot)
    (htyped : cx.arena.Typed u cx.table cx.info id ty) {name : String}
    (hk : cx.arena.kind id = .ok (.var name)) :
    slot.ty = ty ∧ ((∃ x, slot.storage = .global (userSymbol x) ∧ slot.isReference = false) ∨
      ∃ d, cx.frame.slot? d = some slot) := by
  obtain ⟨taken, -, hsound, -⟩ := hlowers.frame_sound
  cases htyped with
  | @var _ _ e x ty ref cls d kind resolved entry meaning noted =>
    cases h with
    | global resolved' entry' meaning' =>
      cases resolved.symm.trans resolved'
      cases entry.symm.trans entry'
      cases meaning.symm.trans meaning'
      exact ⟨rfl, .inl ⟨_, rfl, rfl⟩⟩
    | framed resolved' entry' meaning' inner found =>
      cases resolved.symm.trans resolved'
      cases entry.symm.trans entry'
      cases meaning.symm.trans meaning'
      refine ⟨?_, .inr ⟨d, found⟩⟩
      obtain ⟨b, hb, hty, -⟩ := hsound.declared _ (Frame.mem_of_slot? found)
      have hdescribes := hlowers.program.bound.sound.meanings e x entry
      rw [meaning] at hdescribes
      cases hb.symm.trans hdescribes.1
      exact hty
  | _ => simp_all

end Gen

namespace Lowering

open Gen

variable {lower : Lowering} {cx : Context} {u : UnitNode} {f : FunctionNode} {s s' : State}
  {code : List Line} {id : NodeId} {ty : Ty}

/-- A value of type `ty` lies at a displacement from the frame pointer. -/
structure Grounded (cx : Context) (f : FunctionNode) (ty : Ty) (δ : Int) : Prop where
  lower : -(cx.frame.size : Int) ≤ δ
  upper : δ < 2147483648 + 8 * f.params.length
  /-- Records lie below the frame pointer, unless the frame is too large to address. -/
  inside : cx.frame.size < 2147483648 → ty.isRecord = true →
    ∃ n, cx.table.sizeOf ty = .ok (some n) ∧ δ + n ≤ 0

theorem Grounded.of_placed {slot : Slot} {δ : Int}
    (hplaced : Frame.Placed cx.table f.params.length cx.frame.size slot)
    (hslot : slot.storage = .frame δ) (hvalue : slot.isReference = false) :
    Grounded cx f slot.ty δ := by
  cases hplaced with
  | register storage => rw [hslot] at storage; cases storage
  | above storage earlier word =>
    cases hslot.symm.trans storage
    refine ⟨by omega, by omega, fun _ hrecord => ?_⟩
    simp [Slot.FitsWord, hvalue, hrecord] at word
  | @below used n storage takes fits inside range =>
    cases hslot.symm.trans storage
    simp only [Address.inRange, Bool.and_eq_true, decide_eq_true_eq] at range
    refine ⟨?_, by omega, fun hsmall _ => ⟨n, by simpa [Slot.Takes, hvalue] using takes, ?_⟩⟩
    · by_cases hsmall : cx.frame.size < 2147483648
      · rw [SymbolTable.displacement_of_lt (by omega)]
        omega
      · omega
    · rw [SymbolTable.displacement_of_lt (by omega)]
      omega

theorem Grounded.field {record name : String} {δ δ' : Int} (h : Grounded cx f (.record record) δ)
    (hfield : cx.table.field record name = .ok (some (δ', ty)))
    (hrange : Address.inRange (δ + δ') = true) : Grounded cx f ty (δ + δ') := by
  have hlower := h.lower
  simp only [Address.inRange, Bool.and_eq_true, decide_eq_true_eq] at hrange
  by_cases hsmall : cx.frame.size < 2147483648
  · obtain ⟨N, hN, hle⟩ := h.inside hsmall rfl
    obtain ⟨before, k, rfl, hk, hbefore⟩ := SymbolTable.field_inside hN hfield
    rw [SymbolTable.displacement_of_lt (by omega)] at hrange ⊢
    exact ⟨by omega, by omega, fun _ _ => ⟨k, hk, by omega⟩⟩
  · exact ⟨by omega, by omega, fun h => absurd h hsmall⟩

/-- A value of type `ty` is in the register of a parameter, or in memory; if it is addressed from
the frame pointer, it lies in the frame or above it. -/
inductive Sited (cx : Context) (f : FunctionNode) (ty : Ty) : Location → Prop
  | register {r : Register} (argument : r ∈ Register.arguments) : Sited cx f ty (.register r)
  | memory {a : Address} (grounded : a.base = .register .rbp → Grounded cx f ty a.displacement) :
      Sited cx f ty (.memory a)

/-- The typed places of a lowering are where their type allows them to be. -/
def SitedPlaces (lower : Lowering) (cx : Context) (u : UnitNode) (f : FunctionNode) : Prop :=
  ∀ {id ty s p code s'}, cx.arena.Typed u cx.table cx.info id ty →
    Emits (lower.place id) cx s p code s' → Sited cx f ty p.location

theorem PlaceShape.sited (hlowers : cx.Lowers u f) (hlower : SitedPlaces lower cx u f)
    (hdiscipline : Disciplined lower cx u) (htyped : cx.arena.Typed u cx.table cx.info id ty)
    {p : Place} (h : PlaceShape lower cx id s p code s') : Sited cx f ty p.location := by
  obtain ⟨taken, -, hsound, -⟩ := hlowers.frame_sound
  -- the register of a parameter is an argument register
  have hargument : ∀ {r ty' ref name}, cx.arena.kind id = .ok (.var name) →
      Stored cx id ⟨.register r, ty', ref⟩ → r ∈ Register.arguments := by
    intro r ty' ref name hk hstored
    obtain ⟨-, ⟨x, hglobal, -⟩ | ⟨d, hd⟩⟩ := hstored.slot_cases hlowers htyped hk
    · cases hglobal
    · cases hsound.placed _ (Frame.mem_of_slot? hd) with
      | register storage argument =>
        cases storage
        exact List.mem_of_getElem? argument
      | above storage => cases storage
      | below storage => cases storage
  cases h with
  | global => exact .memory nofun
  | register kind stored => exact .register (hargument kind stored)
  | registerReference kind stored =>
    refine .memory fun hbase => ?_
    cases hbase
    exact absurd (hargument kind stored) (by decide)
  | frame kind stored =>
    obtain ⟨rfl, ⟨x, hglobal, -⟩ | ⟨d, hd⟩⟩ := stored.slot_cases hlowers htyped kind
    · cases hglobal
    · exact .memory fun _ => .of_placed (hsound.placed _ (Frame.mem_of_slot? hd)) rfl rfl
  | frameReference kind stored claimed =>
    refine .memory fun hbase => ?_
    cases hbase
    exact absurd (claimed.free .rbp (by simp)).1 (by decide)
  | field kind type field outer range =>
    obtain ⟨hpart, rfl, -⟩ := htyped.of_field kind type field
    cases hlower hpart outer with
    | memory grounded => exact .memory fun hbase => (grounded hbase).field field range
  | element kind type size array position released =>
    refine .memory fun hbase => ?_
    cases hbase
    obtain ⟨_, hpart⟩ := htyped.child kind (.head _)
    exact absurd ((hdiscipline.expression hpart array).free .rbp (by simp)).1 (by decide)

theorem sited_atDepth (hlowers : cx.Lowers u f) (depth : Nat) :
    SitedPlaces (atDepth depth) cx u f := by
  induction depth with
  | zero =>
    intro _ _ _ _ _ _ _ h
    exact (emits_fail.1 h).elim
  | succ depth ih =>
    intro _ _ _ _ _ _ htyped h
    exact (placeShape h).sited hlowers ih (disciplined_atDepth hlowers.program depth) htyped

end Lowering

end MiniJ
