import MiniJ.Proofs.Lowering.Registers

/-!
# Shape of the code for expressions

What one level of lowering emits, by the kind of the node: the code of the parts, the instructions
around it, and what becomes of the registers. Everything that is proved about the code of
expressions goes through these shapes.

## Main definitions

* `Lowering.PlaceShape`, `Lowering.ExpressionShape` — one level of a place or an expression.
* `Lowering.CallShape` — a call with its arguments.

## Main statements

* `Lowering.placeShape`, `Lowering.expressionShape` — lowering emits these shapes only.
-/
namespace MiniJ

namespace Gen

variable {α β : Type} {cx : Context} {s s' : State} {code : List Line}

/-! ### Stack -/

namespace State

/-- More words on the stack. -/
def grown (s : State) (words : Nat) : State := { s with stackDepth := s.stackDepth + words }

/-- Fewer words on the stack. -/
def shrunk (s : State) (words : Nat) : State := { s with stackDepth := s.stackDepth - words }

theorem grown_grown (s : State) (n k : Nat) : (s.grown n).grown k = s.grown (n + k) := by
  simp [grown, Nat.add_assoc]

theorem shrunk_shrunk (s : State) (n k : Nat) : (s.shrunk n).shrunk k = s.shrunk (n + k) := by
  simp [shrunk, Nat.sub_sub]

@[simp] theorem registers_grown (s : State) (n : Nat) : (s.grown n).registers = s.registers := rfl

@[simp] theorem registers_shrunk (s : State) (n : Nat) : (s.shrunk n).registers = s.registers := rfl

@[simp] theorem stackDepth_grown (s : State) (n : Nat) :
    (s.grown n).stackDepth = s.stackDepth + n := rfl

@[simp] theorem stackDepth_shrunk (s : State) (n : Nat) :
    (s.shrunk n).stackDepth = s.stackDepth - n := rfl

@[simp] theorem labelCount_grown (s : State) (n : Nat) : (s.grown n).labelCount = s.labelCount :=
  rfl

@[simp] theorem labelCount_shrunk (s : State) (n : Nat) :
    (s.shrunk n).labelCount = s.labelCount := rfl

end State

theorem emits_grow_bind {n : Nat} {f : Unit → Gen β} {w : β} :
    Emits (grow n >>= f) cx s w code s' ↔ Emits (f ()) cx (s.grown n) w code s' :=
  emits_update_bind

theorem emits_shrink {n : Nat} {v : Unit} :
    Emits (shrink n) cx s v code s' ↔ n ≤ s.stackDepth ∧ code = [] ∧ s' = s.shrunk n := by
  rw [shrink, emits_state_bind]
  by_cases h : n ≤ s.stackDepth
  · simp [h, emits_update, State.shrunk]
  · simp [h, emits_fail]

theorem emits_push {r : Register} {v : Unit} :
    Emits (push r) cx s v code s' ↔ code = [.push r] ∧ s' = s.grown 1 := by
  rw [push, emits_emit_bind]
  simp [grow, emits_update, State.grown, Line.push]

theorem emits_pop {r : Register} {v : Unit} :
    Emits (pop r) cx s v code s' ↔ 1 ≤ s.stackDepth ∧ code = [.pop r] ∧ s' = s.shrunk 1 := by
  rw [pop, emits_emit_bind]
  constructor
  · rintro ⟨rest, rfl, h⟩
    obtain ⟨hle, rfl, rfl⟩ := emits_shrink.1 h
    exact ⟨hle, rfl, rfl⟩
  · rintro ⟨hle, rfl, rfl⟩
    exact ⟨[], rfl, emits_shrink.2 ⟨hle, rfl, rfl⟩⟩

theorem emits_forM_push {rs : List Register} {v : Unit} :
    Emits (rs.forM push) cx s v code s' ↔ code = rs.map .push ∧ s' = s.grown rs.length := by
  induction rs generalizing s code with
  | nil => exact emits_forM_nil
  | cons r rs ih =>
    simp only [emits_forM_cons, emits_push, ih]
    constructor
    · rintro ⟨_, _, _, ⟨rfl, rfl⟩, ⟨rfl, rfl⟩, rfl⟩
      exact ⟨rfl, by rw [State.grown_grown, List.length_cons, Nat.add_comm]⟩
    · rintro ⟨rfl, rfl⟩
      exact ⟨_, _, _, ⟨rfl, rfl⟩, ⟨rfl, by rw [State.grown_grown, List.length_cons, Nat.add_comm]⟩,
        rfl⟩

theorem emits_forM_pop {rs : List Register} {v : Unit} : Emits (rs.forM pop) cx s v code s' ↔
    rs.length ≤ s.stackDepth ∧ code = rs.map .pop ∧ s' = s.shrunk rs.length := by
  induction rs generalizing s code with
  | nil =>
    rw [emits_forM_nil]
    simp [State.shrunk]
  | cons r rs ih =>
    simp only [emits_forM_cons, emits_pop, ih]
    constructor
    · rintro ⟨_, _, _, ⟨hone, rfl, rfl⟩, ⟨hrest, rfl, rfl⟩, rfl⟩
      rw [State.stackDepth_shrunk] at hrest
      refine ⟨by rw [List.length_cons]; omega, rfl, ?_⟩
      rw [State.shrunk_shrunk, List.length_cons, Nat.add_comm]
    · rintro ⟨hle, rfl, rfl⟩
      rw [List.length_cons] at hle
      refine ⟨_, _, _, ⟨by omega, rfl, rfl⟩, ⟨?_, rfl, ?_⟩, rfl⟩
      · rw [State.stackDepth_shrunk]
        omega
      · rw [State.shrunk_shrunk, List.length_cons, Nat.add_comm]

theorem Claims.grown {rs : List Register} (h : Claims rs s s') (n : Nat) :
    Claims rs (s.grown n) (s'.grown n) :=
  ⟨h.free, h.nodup, h.live, by simp [h.depth], h.labels⟩

/-- Only the register `r` is released. -/
def Releases (r : Register) (s s' : State) : Prop :=
  ∃ g, s.registers.release r = .ok g ∧ s' = { s with registers := g }

theorem emits_release_iff {r : Register} {v : Unit} :
    Emits (release r) cx s v code s' ↔ code = [] ∧ Releases r s s' := by
  rw [emits_release]
  constructor
  · rintro ⟨g, hg, rfl, rfl⟩
    exact ⟨rfl, g, hg, rfl⟩
  · rintro ⟨rfl, g, hg, rfl⟩
    exact ⟨g, hg, rfl, rfl⟩

theorem Claims.releases {rs : List Register} {r : Register} {t : State} (h : Claims rs s t)
    (hr : r ∈ rs) (hrel : Releases r t s') : Claims (rs.erase r) s s' := by
  obtain ⟨g, hg, rfl⟩ := hrel
  exact h.release hr hg

/-! ### Variables -/

/-- The storage of the variable a node refers to. -/
inductive Stored (cx : Context) (id : NodeId) : Slot → Prop
  | global {e : EntryId} {x : Entry} {ty : Ty} {ref : Bool} {d : NodeId}
      (resolved : cx.info.resolvedEntry id = some e) (entry : cx.table.entry e = .ok x)
      (meaning : x.meaning = .var ty ref .global d) :
      Stored cx id ⟨.global (userSymbol x.name), ty, false⟩
  | framed {e : EntryId} {x : Entry} {ty : Ty} {ref : Bool} {cls : VariableClass} {d : NodeId}
      {slot : Slot} (resolved : cx.info.resolvedEntry id = some e)
      (entry : cx.table.entry e = .ok x) (meaning : x.meaning = .var ty ref cls d)
      (inner : cls ≠ .global) (found : cx.frame.slot? d = some slot) : Stored cx id slot

theorem emits_slotOf {id : NodeId} {slot : Slot} (h : Emits (slotOf id) cx s slot code s') :
    Stored cx id slot ∧ code = [] ∧ s' = s := by
  rw [slotOf, emits_context_bind] at h
  split at h
  · exact (emits_unsupported.1 h).elim
  · next e he =>
    obtain ⟨x, hx, h⟩ := emits_lift_bind.1 h
    split at h
    · next ty ref d hm =>
      obtain ⟨rfl, rfl, rfl⟩ := emits_pure.1 h
      exact ⟨.global he hx hm, rfl, rfl⟩
    · next ty ref cls d hcls hm =>
      split at h
      · next slot' hslot =>
        obtain ⟨rfl, rfl, rfl⟩ := emits_pure.1 h
        refine ⟨.framed he hx hm (fun heq => ?_) hslot, rfl, rfl⟩
        exact hcls heq
      · exact (emits_unsupported.1 h).elim
    · exact (emits_unsupported.1 h).elim

end Gen

namespace Lowering

open Gen

variable {lower : Lowering} {cx : Context} {s s' : State} {code : List Line} {id : NodeId}

/-! ### Loads and stores -/

/-- The instruction that reads a location. -/
inductive Loads (cx : Context) (ty : Ty) (target : Register) : Location → Line → Prop
  | register (source : Register) : Loads cx ty target (.register source) (.move target source)
  | memory (address : Address) {n : Nat} (size : cx.table.sizeOf ty = .ok (some n)) :
      Loads cx ty target (.memory address)
        (.instruction .mov [.sized (.ofSize n) target, .mem (.ofSize n) address])

/-- The instruction that writes a location. -/
inductive Stores (cx : Context) (ty : Ty) (value : Register) : Location → Line → Prop
  | register (target : Register) : Stores cx ty value (.register target) (.move target value)
  | memory (address : Address) {n : Nat} (size : cx.table.sizeOf ty = .ok (some n)) :
      Stores cx ty value (.memory address)
        (.instruction .mov [.mem (.ofSize n) address, .sized (.ofSize n) value])

theorem emits_load {location : Location} {ty : Ty} {target : Register} {v : Unit}
    (h : Emits (load location ty target id) cx s v code s') :
    s' = s ∧ ∃ line, Loads cx ty target location line ∧ code = [line] := by
  cases location with
  | register source =>
    obtain ⟨rfl, rfl⟩ := emits_emit.1 h
    exact ⟨rfl, _, .register source, rfl⟩
  | memory address =>
    obtain ⟨n, hn, h⟩ := emits_sizeOf_bind.1 h
    obtain ⟨rfl, rfl⟩ := emits_emit.1 h
    exact ⟨rfl, _, .memory address hn, rfl⟩

theorem emits_store {location : Location} {ty : Ty} {value : Register} {v : Unit}
    (h : Emits (store location ty value id) cx s v code s') :
    s' = s ∧ ∃ line, Stores cx ty value location line ∧ code = [line] := by
  cases location with
  | register target =>
    obtain ⟨rfl, rfl⟩ := emits_emit.1 h
    exact ⟨rfl, _, .register target, rfl⟩
  | memory address =>
    obtain ⟨n, hn, h⟩ := emits_sizeOf_bind.1 h
    obtain ⟨rfl, rfl⟩ := emits_emit.1 h
    exact ⟨rfl, _, .memory address hn, rfl⟩

/-- The register a place is read into. -/
inductive Targets (s : State) (r : Register) : Option Register → State → Prop
  | reused : Targets s r (some r) s
  | fresh {s' : State} (claimed : Claims [r] s s') : Targets s r none s'

theorem emits_targetOf {place : Place} {r : Register}
    (h : Emits (targetOf place id) cx s r code s') : code = [] ∧ Targets s r place.temp s' := by
  unfold targetOf at h
  split at h
  · next temp htemp =>
    obtain ⟨rfl, rfl, rfl⟩ := emits_pure.1 h
    exact ⟨rfl, htemp ▸ .reused⟩
  · next htemp =>
    obtain ⟨rfl, hclaims⟩ := emits_scratch h
    exact ⟨rfl, htemp ▸ .fresh hclaims⟩

/-! ### Places -/

/-- One level of a place. -/
inductive PlaceShape (lower : Lowering) (cx : Context) (id : NodeId) (s : State) :
    Place → List Line → State → Prop
  | global {name symbol : String} {ty : Ty} {ref : Bool} (kind : cx.arena.kind id = .ok (.var name))
      (stored : Stored cx id ⟨.global symbol, ty, ref⟩) :
      PlaceShape lower cx id s ⟨.memory (.symbol symbol), none⟩ [] s
  | register {name : String} {r : Register} {ty : Ty} (kind : cx.arena.kind id = .ok (.var name))
      (stored : Stored cx id ⟨.register r, ty, false⟩) :
      PlaceShape lower cx id s ⟨.register r, none⟩ [] s
  | registerReference {name : String} {r : Register} {ty : Ty}
      (kind : cx.arena.kind id = .ok (.var name))
      (stored : Stored cx id ⟨.register r, ty, true⟩) :
      PlaceShape lower cx id s ⟨.memory (.register r), none⟩ [] s
  | frame {name : String} {displacement : Int} {ty : Ty} (kind : cx.arena.kind id = .ok (.var name))
      (stored : Stored cx id ⟨.frame displacement, ty, false⟩) :
      PlaceShape lower cx id s ⟨.memory (.frame displacement), none⟩ [] s
  | frameReference {name : String} {displacement : Int} {ty : Ty} {pointer : Register} {s' : State}
      (kind : cx.arena.kind id = .ok (.var name))
      (stored : Stored cx id ⟨.frame displacement, ty, true⟩) (claimed : Claims [pointer] s s') :
      PlaceShape lower cx id s ⟨.memory (.register pointer), some pointer⟩
        [.instruction .mov [.reg pointer, .mem .qword (.frame displacement)]] s'
  | field {base : NodeId} {name record : String} {displacement : Int} {ty : Ty} {address : Address}
      {temp : Option Register} {code : List Line} {s' : State}
      (kind : cx.arena.kind id = .ok (.field base name))
      (type : cx.info.typeOf base = some (.record record))
      (field : cx.table.field record name = .ok (some (displacement, ty)))
      (outer : Emits (lower.place base) cx s ⟨.memory address, temp⟩ code s')
      (range : Address.inRange (address.displacement + displacement) = true) :
      PlaceShape lower cx id s
        ⟨.memory { address with displacement := address.displacement + displacement }, temp⟩ code s'
  | element {base index : NodeId} {ty : Ty} {n : Nat} {pointer offset : Register}
      {code code' : List Line} {t t' s' : State}
      (kind : cx.arena.kind id = .ok (.element base index)) (type : cx.info.typeOf id = some ty)
      (size : cx.table.sizeOf ty = .ok (some n))
      (array : Emits (lower.expression base) cx s pointer code t)
      (position : Emits (lower.expression index) cx t offset code' t')
      (released : Releases offset t' s') :
      PlaceShape lower cx id s ⟨.memory (.register pointer), some pointer⟩
        (code ++ (code' ++ [.instruction .imul [.reg offset, .imm (Int64.ofNat n)],
          .instruction .add [.reg pointer, .reg offset]])) s'

theorem placeShape_var {name : String} {p : Place} (hk : cx.arena.kind id = .ok (.var name))
    (h : Emits (variablePlace id) cx s p code s') : PlaceShape lower cx id s p code s' := by
  obtain ⟨⟨storage, ty, ref⟩, _, _, _, hslot, hplace, rfl⟩ := emits_bind.1 h
  obtain ⟨hstored, rfl, rfl⟩ := emits_slotOf hslot
  split at hplace
  · next heq =>
    cases heq
    obtain ⟨rfl, rfl, rfl⟩ := emits_pure.1 hplace
    exact .global hk hstored
  · next heq href =>
    cases heq
    cases href
    obtain ⟨rfl, rfl, rfl⟩ := emits_pure.1 hplace
    exact .register hk hstored
  · next heq href =>
    cases heq
    cases href
    obtain ⟨rfl, rfl, rfl⟩ := emits_pure.1 hplace
    exact .registerReference hk hstored
  · next heq href =>
    cases heq
    cases href
    obtain ⟨rfl, rfl, rfl⟩ := emits_pure.1 hplace
    exact .frame hk hstored
  · next heq href =>
    cases heq
    cases href
    obtain ⟨pointer, t, hclaims, hmov⟩ := emits_scratch_bind hplace
    obtain ⟨rest, rfl, hdone⟩ := emits_emit_bind.1 hmov
    obtain ⟨rfl, rfl, rfl⟩ := emits_pure.1 hdone
    exact .frameReference hk hstored hclaims

theorem placeShape_field {base : NodeId} {name : String} {p : Place}
    (hk : cx.arena.kind id = .ok (.field base name))
    (h : Emits (fieldPlace lower id base name) cx s p code s') :
    PlaceShape lower cx id s p code s' := by
  obtain ⟨ty, hty, hmatch⟩ := emits_typeOf_bind.1 h
  split at hmatch
  · next record =>
    obtain ⟨found, hfield, hfound⟩ := emits_lift_bind.1 (emits_context_bind.1 hmatch)
    split at hfound
    · exact (emits_unsupported.1 hfound).elim
    · next displacement fieldTy =>
      obtain ⟨⟨location, temp⟩, c, t, c', houter, hplace, rfl⟩ := emits_bind.1 hfound
      cases location with
      | memory address =>
        obtain ⟨target, htarget, hdone⟩ := emits_lift_bind.1 hplace
        obtain ⟨rfl, rfl, rfl⟩ := emits_pure.1 hdone
        unfold Address.offsetBy at htarget
        split at htarget
        · next hrange =>
          cases htarget
          rw [List.append_nil]
          exact .field hk hty hfield houter hrange
        · cases htarget
      | register r => exact (emits_unsupported.1 hplace).elim
  · exact (emits_unsupported.1 hmatch).elim

theorem placeShape_element {base index : NodeId} {p : Place}
    (hk : cx.arena.kind id = .ok (.element base index))
    (h : Emits (elementPlace lower id base index) cx s p code s') :
    PlaceShape lower cx id s p code s' := by
  obtain ⟨ty, hty, hsize⟩ := emits_typeOf_bind.1 h
  obtain ⟨n, hn, hparts⟩ := emits_sizeOf_bind.1 hsize
  obtain ⟨pointer, c, t, _, harray, hrest, rfl⟩ := emits_bind.1 hparts
  obtain ⟨offset, c', t', _, hindex, hmul, rfl⟩ := emits_bind.1 hrest
  obtain ⟨_, rfl, hadd⟩ := emits_emit_bind.1 hmul
  obtain ⟨_, rfl, hrelease⟩ := emits_emit_bind.1 hadd
  obtain ⟨g, hg, hdone⟩ := emits_release_bind.1 hrelease
  obtain ⟨rfl, rfl, rfl⟩ := emits_pure.1 hdone
  exact .element hk hty hn harray hindex ⟨g, hg, rfl⟩

/-- The code of a place has one of the shapes. -/
theorem placeShape {p : Place} (h : Emits (placeAt lower id) cx s p code s') :
    PlaceShape lower cx id s p code s' := by
  obtain ⟨k, hk, hplace⟩ := emits_kind_bind.1 h
  split at hplace
  · exact placeShape_var hk hplace
  · exact placeShape_field hk hplace
  · exact placeShape_element hk hplace
  · exact (emits_unsupported.1 hplace).elim

/-- The address of a place in a register. -/
theorem emits_address {r : Register} (h : Emits (address lower id) cx s r code s') :
    ∃ a temp c t, Emits (lower.place id) cx s ⟨.memory a, temp⟩ c t ∧ Targets t r temp s' ∧
      code = c ++ [.instruction .lea [.reg r, .addr a]] := by
  obtain ⟨⟨location, temp⟩, c, t, _, hplace, hrest, rfl⟩ := emits_bind.1 h
  cases location with
  | register q => exact (emits_unsupported.1 hrest).elim
  | memory a =>
    obtain ⟨target, _, t', _, htarget, hlea, rfl⟩ := emits_bind.1 hrest
    obtain ⟨rfl, htargets⟩ := emits_targetOf htarget
    obtain ⟨_, rfl, hdone⟩ := emits_emit_bind.1 hlea
    obtain ⟨rfl, rfl, rfl⟩ := emits_pure.1 hdone
    exact ⟨a, temp, c, t, hplace, htargets, rfl⟩

/-! ### Operators -/

/-- How `++` and `--` change a number. -/
def change : UnaryOp → Mnemonic
  | .preIncrement | .postIncrement => .add
  | _ => .sub

/-- Whether the value of the operator is the one after the change. -/
def stepsFirst : UnaryOp → Bool
  | .preIncrement | .preDecrement => true
  | _ => false

/-- The place of a step, read into a register. -/
structure Reads (lower : Lowering) (cx : Context) (operand : NodeId) (s : State) (ty : Ty)
    (p : Place) (value : Register) (code : List Line) (t : State) (line : Line) : Prop where
  type : cx.info.typeOf operand = some ty
  place : ∃ u, Emits (lower.place operand) cx s p code u ∧ Claims [value] u t
  load : Loads cx ty value p.location line

/-- Code of a step: the value is either the changed one or the one before. -/
inductive StepShape (lower : Lowering) (cx : Context) (op : UnaryOp) (operand : NodeId)
    (s : State) (value : Register) : List Line → State → Prop
  | before {ty : Ty} {p : Place} {c : List Line} {t s' : State} {load store : Line}
      (order : stepsFirst op = true) (reads : Reads lower cx operand s ty p value c t load)
      (stores : Stores cx ty value p.location store)
      (released : Emits (releasePlace p) cx t () [] s') :
      StepShape lower cx op operand s value
        (c ++ [load, .instruction (change op) [.reg value, .imm 1], store]) s'
  | after {ty : Ty} {p : Place} {c : List Line} {t t₁ t₂ s' : State} {load store : Line}
      {updated : Register} (order : stepsFirst op = false)
      (reads : Reads lower cx operand s ty p value c t load) (claimed : Claims [updated] t t₁)
      (stores : Stores cx ty updated p.location store) (dropped : Releases updated t₁ t₂)
      (released : Emits (releasePlace p) cx t₂ () [] s') :
      StepShape lower cx op operand s value
        (c ++ [load, .move updated value, .instruction (change op) [.reg updated, .imm 1], store])
        s'

theorem emits_releaseAll_code {rs : List Register} {v : Unit}
    (h : Emits (releaseAll rs) cx s v code s') : code = [] := by
  induction rs generalizing s code with
  | nil => exact (emits_forM_nil.1 h).1
  | cons r rs ih =>
    obtain ⟨c, t, c', hr, hrs, rfl⟩ := emits_forM_cons.1 h
    rw [(emits_release_iff.1 hr).1, ih hrs]
    rfl

theorem emits_releasePlace_bind {β : Type} {p : Place} {f : Unit → Gen β} {w : β}
    (h : Emits (releasePlace p >>= f) cx s w code s') :
    ∃ t, Emits (releasePlace p) cx s () [] t ∧ Emits (f ()) cx t w code s' := by
  obtain ⟨_, _, t, _, hrelease, hf, rfl⟩ := emits_bind.1 h
  obtain rfl := emits_releaseAll_code hrelease
  exact ⟨t, hrelease, hf⟩

theorem emits_load_bind {β : Type} {location : Location} {ty : Ty} {target : Register}
    {f : Unit → Gen β} {w : β} (h : Emits (load location ty target id >>= f) cx s w code s') :
    ∃ line rest, Loads cx ty target location line ∧ code = line :: rest ∧
      Emits (f ()) cx s w rest s' := by
  obtain ⟨_, _, t, rest, hload, hf, rfl⟩ := emits_bind.1 h
  obtain ⟨rfl, line, hline, rfl⟩ := emits_load hload
  exact ⟨line, rest, hline, rfl, hf⟩

theorem emits_store_bind {β : Type} {location : Location} {ty : Ty} {value : Register}
    {f : Unit → Gen β} {w : β} (h : Emits (store location ty value id >>= f) cx s w code s') :
    ∃ line rest, Stores cx ty value location line ∧ code = line :: rest ∧
      Emits (f ()) cx s w rest s' := by
  obtain ⟨_, _, t, rest, hstore, hf, rfl⟩ := emits_bind.1 h
  obtain ⟨rfl, line, hline, rfl⟩ := emits_store hstore
  exact ⟨line, rest, hline, rfl, hf⟩

theorem stepShape {op : UnaryOp} {operand : NodeId} {r : Register}
    (h : Emits (step lower id op operand) cx s r code s') :
    StepShape lower cx op operand s r code s' := by
  obtain ⟨ty, hty, hplace⟩ := emits_typeOf_bind.1 h
  obtain ⟨p, c, u, _, hp, hscratch, rfl⟩ := emits_bind.1 hplace
  obtain ⟨value, t, hclaims, hload⟩ := emits_scratch_bind hscratch
  obtain ⟨line, c', hloads, rfl, hrest⟩ := emits_load_bind hload
  have hreads : Reads lower cx operand s ty p value c t line := ⟨hty, ⟨u, hp, hclaims⟩, hloads⟩
  cases hop : stepsFirst op with
  | true =>
    have hchange : Emits (emit (change op) [.reg value, .imm 1] >>= fun _ =>
        store p.location ty value operand >>= fun _ => releasePlace p >>= fun _ => pure value)
        cx t r c' s' := by
      cases op <;> first | exact hrest | cases hop
    obtain ⟨_, rfl, hstore⟩ := emits_emit_bind.1 hchange
    obtain ⟨line', _, hstores, rfl, hrelease⟩ := emits_store_bind hstore
    obtain ⟨t', hreleased, hdone⟩ := emits_releasePlace_bind hrelease
    obtain ⟨rfl, rfl, rfl⟩ := emits_pure.1 hdone
    exact .before hop hreads hstores hreleased
  | false =>
    have hchange : Emits (scratch id >>= fun updated =>
        emit .mov [.reg updated, .reg value] >>= fun _ =>
        emit (change op) [.reg updated, .imm 1] >>= fun _ =>
        store p.location ty updated operand >>= fun _ => release updated >>= fun _ =>
        releasePlace p >>= fun _ => pure value) cx t r c' s' := by
      cases op <;> first | exact hrest | cases hop
    obtain ⟨updated, t₁, hclaims', hmove⟩ := emits_scratch_bind hchange
    obtain ⟨_, rfl, hadd⟩ := emits_emit_bind.1 hmove
    obtain ⟨_, rfl, hstore⟩ := emits_emit_bind.1 hadd
    obtain ⟨line', _, hstores, rfl, hdrop⟩ := emits_store_bind hstore
    obtain ⟨g, hg, hrelease⟩ := emits_release_bind.1 hdrop
    obtain ⟨t', hreleased, hdone⟩ := emits_releasePlace_bind hrelease
    obtain ⟨rfl, rfl, rfl⟩ := emits_pure.1 hdone
    exact .after hop hreads hclaims' hstores ⟨g, hg, rfl⟩ hreleased

/-- The divisor, moved out of the way if it is in `rax`. -/
inductive Clears (s : State) (divisor : Register) : Register → List Line → State → Prop
  | stays (elsewhere : divisor ≠ .rax) : Clears s divisor divisor [] s
  | moved {d : Register} {t s' : State} (inRax : divisor = .rax) (claimed : Claims [d] s t)
      (released : Releases divisor t s') : Clears s divisor d [.move d divisor] s'

/-- A division, with `rax` and `rdx` saved as needed. -/
def divideCode (saveRax saveRdx : Bool) (result dividend divisor : Register) : List Line :=
  (if saveRax then [.push .rax] else [] : List Line) ++
    ((if saveRdx then [.push .rdx] else [] : List Line) ++
      ((if dividend ≠ .rax then [.move .rax dividend] else [] : List Line) ++
        (.instruction .cqo [] :: .instruction .idiv [.reg divisor] ::
          ((if dividend ≠ result then [.move dividend result] else [] : List Line) ++
            ((if saveRdx then [.pop .rdx] else [] : List Line) ++
              (if saveRax then [.pop .rax] else [] : List Line))))))

theorem emits_divide {result dividend divisor r : Register}
    (h : Emits (divide id result dividend divisor) cx s r code s') :
    r = dividend ∧ ∃ d c t, Clears s divisor d c t ∧ Releases d t s' ∧
      code = c ++ divideCode (decide (dividend ≠ .rax) && t.registers.isLive .rax)
        (t.registers.isLive .rdx) result dividend d := by
  unfold divide at h
  extract_lets jp at h
  have hdivide : ∀ {d t c}, Emits (jp d) cx t r c s' → r = dividend ∧ Releases d t s' ∧
      c = divideCode (decide (dividend ≠ .rax) && t.registers.isLive .rax)
        (t.registers.isLive .rdx) result dividend d := by
    intro d t c hjp
    obtain ⟨c₁, rfl, h₁⟩ := emits_emit_if.1 (emits_state_bind.1 hjp)
    obtain ⟨c₂, rfl, h₂⟩ := emits_emit_if.1 h₁
    obtain ⟨c₃, rfl, h₃⟩ := emits_emit_if.1 h₂
    obtain ⟨c₄, rfl, h₄⟩ := emits_emit_bind.1 h₃
    obtain ⟨c₅, rfl, h₅⟩ := emits_emit_bind.1 h₄
    obtain ⟨c₆, rfl, h₆⟩ := emits_emit_if.1 h₅
    obtain ⟨c₇, rfl, h₇⟩ := emits_emit_if.1 h₆
    obtain ⟨c₈, rfl, h₈⟩ := emits_emit_if.1 h₇
    obtain ⟨g, hg, hdone⟩ := emits_release_bind.1 h₈
    obtain ⟨rfl, rfl, rfl⟩ := emits_pure.1 hdone
    refine ⟨rfl, ⟨g, hg, rfl⟩, ?_⟩
    simp only [divideCode, Line.push, Line.pop, Line.move, List.append_nil]
  by_cases hrax : divisor = .rax
  · rw [if_pos hrax] at h
    obtain ⟨moved, t, hclaims, hmove⟩ := emits_scratch_bind h
    obtain ⟨c, rfl, hrelease⟩ := emits_emit_bind.1 hmove
    obtain ⟨g, hg, hrest⟩ := emits_release_bind.1 hrelease
    obtain ⟨rfl, hreleases, rfl⟩ := hdivide (emits_pure_bind.1 hrest)
    exact ⟨rfl, moved, _, _, .moved hrax hclaims ⟨g, hg, rfl⟩, hreleases, rfl⟩
  · rw [if_neg hrax] at h
    obtain ⟨rfl, hreleases, rfl⟩ := hdivide (emits_pure_bind.1 h)
    exact ⟨rfl, divisor, [], s, .stays hrax, hreleases, rfl⟩

/-- The instruction of an operator that works on two registers. -/
def combines? : BinaryOp → Option Mnemonic
  | .plus => some .add
  | .minus => some .sub
  | .times => some .imul
  | .and => some .and
  | .or => some .or
  | _ => none

/-- The register in which a division leaves the value of an operator. -/
def quotient? : BinaryOp → Option Register
  | .div => some .rax
  | .mod => some .rdx
  | _ => none

/-- What follows the operands of an operator. -/
inductive OperatorShape (op : BinaryOp) (lhs rhs : Register) (s : State) : List Line → State → Prop
  | combine {mnemonic : Mnemonic} {s' : State} (operator : combines? op = some mnemonic)
      (released : Releases rhs s s') :
      OperatorShape op lhs rhs s [.instruction mnemonic [.reg lhs, .reg rhs]] s'
  | compare {condition : Condition} {s' : State}
      (operator : Condition.ofOperator? op = some condition) (released : Releases rhs s s') :
      OperatorShape op lhs rhs s [.instruction .cmp [.reg lhs, .reg rhs],
        .instruction (.set condition) [.reg8 lhs], .instruction .movzx [.reg lhs, .reg8 lhs]] s'
  | divide {result divisor : Register} {c : List Line} {t s' : State}
      (operator : quotient? op = some result) (cleared : Clears s rhs divisor c t)
      (released : Releases divisor t s') :
      OperatorShape op lhs rhs s (c ++ divideCode
        (decide (lhs ≠ .rax) && t.registers.isLive .rax) (t.registers.isLive .rdx)
        result lhs divisor) s'

theorem emits_rejectText_bind {β : Type} {op : BinaryOp} {left : NodeId} {f : Unit → Gen β} {w : β}
    (h : Emits (rejectText id op left >>= f) cx s w code s') : Emits (f ()) cx s w code s' := by
  obtain ⟨_, c, t, c', hreject, hf, rfl⟩ := emits_bind.1 h
  have hquiet : c = [] ∧ t = s := by
    unfold rejectText at hreject
    split at hreject
    · exact (emits_pure.1 hreject).2
    · obtain ⟨ty, hty, hrest⟩ := emits_typeOf_bind.1 hreject
      split at hrest
      · exact (emits_unsupported.1 hrest).elim
      · exact (emits_pure.1 hrest).2
  obtain ⟨rfl, rfl⟩ := hquiet
  exact hf

theorem emits_combine {op : BinaryOp} {mnemonic : Mnemonic} {lhs rhs r : Register}
    (hop : combines? op = some mnemonic) (h : Emits (combine mnemonic lhs rhs) cx s r code s') :
    r = lhs ∧ OperatorShape op lhs rhs s code s' := by
  obtain ⟨_, rfl, hrelease⟩ := emits_emit_bind.1 h
  obtain ⟨g, hg, hdone⟩ := emits_release_bind.1 hrelease
  obtain ⟨rfl, rfl, rfl⟩ := emits_pure.1 hdone
  exact ⟨rfl, .combine hop ⟨g, hg, rfl⟩⟩

theorem emits_compareTo {op : BinaryOp} {condition : Condition} {lhs rhs r : Register}
    (hop : Condition.ofOperator? op = some condition)
    (h : Emits (compareTo condition lhs rhs) cx s r code s') :
    r = lhs ∧ OperatorShape op lhs rhs s code s' := by
  obtain ⟨_, rfl, hset⟩ := emits_emit_bind.1 h
  obtain ⟨_, rfl, hextend⟩ := emits_emit_bind.1 hset
  obtain ⟨_, rfl, hrelease⟩ := emits_emit_bind.1 hextend
  obtain ⟨g, hg, hdone⟩ := emits_release_bind.1 hrelease
  obtain ⟨rfl, rfl, rfl⟩ := emits_pure.1 hdone
  exact ⟨rfl, .compare hop ⟨g, hg, rfl⟩⟩

theorem emits_divide_operator {op : BinaryOp} {result lhs rhs r : Register}
    (hop : quotient? op = some result) (h : Emits (divide id result lhs rhs) cx s r code s') :
    r = lhs ∧ OperatorShape op lhs rhs s code s' := by
  obtain ⟨rfl, d, c, t, hclears, hreleases, rfl⟩ := emits_divide h
  exact ⟨rfl, .divide hop hclears hreleases⟩

theorem emits_binary {op : BinaryOp} {left right : NodeId} {r : Register}
    (h : Emits (binary lower id op left right) cx s r code s') :
    ∃ rhs c t c' t' c'', Emits (lower.expression left) cx s r c t ∧
      Emits (lower.expression right) cx t rhs c' t' ∧ OperatorShape op r rhs t' c'' s' ∧
      code = c ++ (c' ++ c'') := by
  obtain ⟨lhs, c, t, _, hleft, hrest, rfl⟩ := emits_bind.1 (emits_rejectText_bind h)
  obtain ⟨rhs, c', t', c'', hright, hop, rfl⟩ := emits_bind.1 hrest
  have hshape : r = lhs ∧ OperatorShape op lhs rhs t' c'' s' := by
    cases op with
    | plus | minus | times | and | or => exact emits_combine rfl hop
    | div | mod => exact emits_divide_operator rfl hop
    | equal | unequal | lesser | lesserEq | greater | greaterEq => exact emits_compareTo rfl hop
  obtain ⟨rfl, hshape⟩ := hshape
  exact ⟨rhs, c, t, c', t', c'', hleft, hright, hshape, rfl⟩

/-! ### Calls -/

/-- The callee of a call node. -/
inductive Calls (cx : Context) (id : NodeId) (args : List NodeId) : Callee → Prop
  | function {definition : NodeId} {f : FunctionNode} {params : List (Option Binder)}
      {label : String} (target : cx.info.callTarget id = some (.function definition))
      (found : cx.arena.function? definition = .ok (some f))
      (scalar : f.returnType.isRecord = false)
      (binders : f.params.mapM cx.arena.binder? = .ok params)
      (labelled : cx.labels.lookup definition = some label) :
      Calls cx id args ⟨label, params.map (·.any fun b => b.isReference || b.ty.isRecord),
        f.returnType ≠ .void⟩
  | builtin {name : String} {b : Builtin} (target : cx.info.callTarget id = some (.builtin name))
      (found : Builtin.named? name = some b) :
      Calls cx id args ⟨b.name, args.map fun _ => false, b.returnType ≠ .void⟩

theorem emits_calleeOf {name : String} {args : List NodeId} {callee : Callee}
    (h : Emits (calleeOf id name args) cx s callee code s') :
    Calls cx id args callee ∧ code = [] ∧ s' = s := by
  rw [calleeOf, emits_context_bind] at h
  split at h
  · exact (emits_unsupported.1 h).elim
  · next definition htarget =>
    obtain ⟨found, hfound, hrest⟩ := emits_lift_bind.1 h
    split at hrest
    · exact (emits_unsupported.1 hrest).elim
    · next f =>
      obtain ⟨hscalar, hparams⟩ := emits_guard.1 hrest
      obtain ⟨params, hmap, hlabel⟩ := emits_lift_bind.1 hparams
      split at hlabel
      · exact (emits_unsupported.1 hlabel).elim
      · next label hlookup =>
        obtain ⟨rfl, rfl, rfl⟩ := emits_pure.1 hlabel
        exact ⟨.function htarget hfound (by simpa using hscalar) hmap hlookup, rfl, rfl⟩
  · next name' htarget =>
    split at h
    · exact (emits_unsupported.1 h).elim
    · next b hb =>
      obtain ⟨rfl, rfl, rfl⟩ := emits_pure.1 h
      exact ⟨.builtin htarget hb, rfl, rfl⟩

/-- An argument is computed into a register. -/
inductive ArgumentShape (lower : Lowering) (cx : Context) (arg : NodeId) (s : State)
    (r : Register) : Bool → List Line → State → Prop
  | value {code : List Line} {s' : State} (computed : Emits (lower.expression arg) cx s r code s') :
      ArgumentShape lower cx arg s r false code s'
  | address {a : Address} {temp : Option Register} {code : List Line} {t s' : State}
      (placed : Emits (lower.place arg) cx s ⟨.memory a, temp⟩ code t)
      (target : Targets t r temp s') :
      ArgumentShape lower cx arg s r true (code ++ [.instruction .lea [.reg r, .addr a]]) s'

/-- Arguments are computed and pushed one after the other. -/
inductive ArgumentsShape (lower : Lowering) (cx : Context) :
    State → List (NodeId × Bool) → List Line → State → Prop
  | nil (s : State) : ArgumentsShape lower cx s [] [] s
  | cons {arg : NodeId} {byAddress : Bool} {rest : List (NodeId × Bool)} {r : Register}
      {code code' : List Line} {s t t' s' : State}
      (first : ArgumentShape lower cx arg s r byAddress code t)
      (released : Releases r (t.grown 1) t')
      (others : ArgumentsShape lower cx t' rest code' s') :
      ArgumentsShape lower cx s ((arg, byAddress) :: rest) (code ++ .push r :: code') s'

theorem emits_pushArgument {arg : NodeId} {byAddress : Bool} {v : Unit}
    (h : Emits (pushArgument lower arg byAddress) cx s v code s') :
    ∃ r c t, ArgumentShape lower cx arg s r byAddress c t ∧ Releases r (t.grown 1) s' ∧
      code = c ++ [.push r] := by
  unfold pushArgument at h
  extract_lets jp at h
  have hpush : ∀ {r t c}, Emits (jp r) cx t v c s' → Releases r (t.grown 1) s' ∧ c = [.push r] := by
    intro r t c hjp
    obtain ⟨_, _, _, _, hpush, hrelease, rfl⟩ := emits_bind.1 hjp
    obtain ⟨rfl, rfl⟩ := emits_push.1 hpush
    obtain ⟨rfl, hreleases⟩ := emits_release_iff.1 hrelease
    exact ⟨hreleases, rfl⟩
  cases byAddress with
  | false =>
    obtain ⟨r, c, t, _, hvalue, hjp, rfl⟩ := emits_bind.1 h
    obtain ⟨hreleases, rfl⟩ := hpush hjp
    exact ⟨r, c, t, .value hvalue, hreleases, rfl⟩
  | true =>
    obtain ⟨k, hk, hrest⟩ := emits_kind_bind.1 h
    obtain ⟨-, haddress⟩ := emits_guard.1 hrest
    obtain ⟨r, c, t, _, hvalue, hjp, rfl⟩ := emits_bind.1 haddress
    obtain ⟨hreleases, rfl⟩ := hpush hjp
    obtain ⟨a, temp, c', t', hplace, htargets, rfl⟩ := emits_address hvalue
    exact ⟨r, _, t, .address hplace htargets, hreleases, rfl⟩

theorem argumentsShape {args : List (NodeId × Bool)} {v : Unit}
    (h : Emits (args.forM fun (arg, byAddress) => pushArgument lower arg byAddress) cx s v
      code s') :
    ArgumentsShape lower cx s args code s' := by
  induction args generalizing s code with
  | nil =>
    obtain ⟨rfl, rfl⟩ := emits_forM_nil.1 h
    exact .nil s'
  | cons p args ih =>
    obtain ⟨arg, byAddress⟩ := p
    obtain ⟨_, t, c', hfirst, hothers, rfl⟩ := emits_forM_cons.1 h
    obtain ⟨r, c, t', hshape, hreleases, rfl⟩ := emits_pushArgument hfirst
    rw [List.append_assoc]
    exact .cons hshape hreleases (ih hothers)

/-- Takes the result out of `rax`. -/
def resultCode : Option Register → List Line
  | some r => if r ≠ .rax then [.move r .rax] else []
  | none => []

/-- The word that makes the number of words at a call even. -/
def paddingCode (padding : Nat) : List Line :=
  if padding = 1 then [.instruction .sub [.reg .rsp, .imm 8]] else []

/-- Drops words from the stack. -/
def dropCode (words : Nat) : List Line :=
  if words > 0 then [.instruction .add [.reg .rsp, .imm (Int64.ofNat (8 * words))]] else []

/-- Words of the arguments that stay on the stack. -/
def stackWords (n : Nat) : Nat := n - Register.arguments.length

/-- Whether a word is needed to make the number of words at a call with `n` arguments even. -/
def paddingOf (s : State) (n : Nat) : Nat :=
  (s.stackDepth + s.registers.live.length + stackWords n) % 2

/-- What comes before the call itself: live registers, padding and arguments are put on the stack,
and the first arguments go to their registers. -/
def beforeCall (s : State) (n : Nat) (argCode : List Line) : List Line :=
  s.registers.live.map .push ++ (paddingCode (paddingOf s n) ++ (argCode ++
    (Register.arguments.take n).map .pop))

/-- What comes behind the call: arguments and padding are dropped, and the registers that were live
get their values back. -/
def afterCall (s : State) (n : Nat) (result : Option Register) : List Line :=
  dropCode (stackWords n + paddingOf s n) ++ (resultCode result ++
    s.registers.live.reverse.map .pop)

/-- Code of a call. -/
inductive CallShape (lower : Lowering) (cx : Context) (id : NodeId) (args : List NodeId)
    (s : State) : Option Register → List Line → State → Prop
  | mk {callee : Callee} {argCode : List Line} {t t' : State} {result : Option Register}
      (calls : Calls cx id args callee)
      (arguments : ArgumentsShape lower cx
        (s.grown (s.registers.live.length + paddingOf s args.length))
        (args.zip callee.byAddress).reverse argCode t)
      (returns : result.isSome = callee.returnsValue)
      (claimed : Claims result.toList
        (t.shrunk (min args.length 6 + (stackWords args.length + paddingOf s args.length))) t') :
      CallShape lower cx id args s result
        (beforeCall s args.length argCode ++
          .instruction .call [.label callee.label] :: afterCall s args.length result)
        (t'.shrunk s.registers.live.length)

theorem emits_takeResult {r : Register} (h : Emits (takeResult id) cx s r code s') :
    Claims [r] s s' ∧ code = resultCode (some r) := by
  obtain ⟨result, t, hclaims, hmove⟩ := emits_scratch_bind h
  obtain ⟨_, rfl, hdone⟩ := emits_emit_if.1 hmove
  obtain ⟨rfl, rfl, rfl⟩ := emits_pure.1 hdone
  exact ⟨hclaims, by simp [resultCode, Line.move]⟩

theorem emits_padding_bind {β : Type} {padding : Nat} (hp : padding < 2) {f : Unit → Gen β} {w : β}
    (h : Emits (if padding = 1 then emit .sub [.reg .rsp, .imm 8] >>= fun _ => grow 1 >>= f
      else f ()) cx s w code s') :
    ∃ rest, code = paddingCode padding ++ rest ∧ Emits (f ()) cx (s.grown padding) w rest s' := by
  by_cases hone : padding = 1
  · subst hone
    obtain ⟨rest, rfl, hgrow⟩ := emits_emit_bind.1 h
    exact ⟨rest, rfl, emits_grow_bind.1 hgrow⟩
  · rw [if_neg hone] at h
    obtain rfl : padding = 0 := by omega
    exact ⟨code, rfl, h⟩

theorem emits_drop_bind {β : Type} {words : Nat} {f : Unit → Gen β} {w : β}
    (h : Emits (if words > 0 then emit .add [.reg .rsp, .imm (Int64.ofNat (8 * words))] >>= fun _ =>
      shrink words >>= f else f ()) cx s w code s') :
    ∃ rest, code = dropCode words ++ rest ∧ Emits (f ()) cx (s.shrunk words) w rest s' := by
  by_cases hpos : words > 0
  · rw [if_pos hpos] at h
    obtain ⟨_, rfl, hshrink⟩ := emits_emit_bind.1 h
    obtain ⟨_, _, _, rest, hs, hf, rfl⟩ := emits_bind.1 hshrink
    obtain ⟨-, rfl, rfl⟩ := emits_shrink.1 hs
    exact ⟨rest, by simp [dropCode, hpos], hf⟩
  · rw [if_neg hpos] at h
    obtain rfl : words = 0 := by omega
    exact ⟨code, rfl, h⟩

theorem emits_result {returns : Bool} {saved : List Register} {result : Option Register}
    (h : Emits (if returns = true then takeResult id >>= fun r => pure (some r) >>= fun result =>
      saved.forM pop >>= fun _ => pure result
      else pure none >>= fun result => saved.forM pop >>= fun _ => pure result)
      cx s result code s') :
    ∃ t, result.isSome = returns ∧ Claims result.toList s t ∧ s' = t.shrunk saved.length ∧
      code = resultCode result ++ saved.map .pop := by
  cases returns with
  | true =>
    obtain ⟨r, _, t', _, htake, hrest, rfl⟩ := emits_bind.1 h
    obtain ⟨hclaims, rfl⟩ := emits_takeResult htake
    obtain ⟨_, _, _, _, hrestore, hdone, rfl⟩ := emits_bind.1 (emits_pure_bind.1 hrest)
    obtain ⟨-, rfl, rfl⟩ := emits_forM_pop.1 hrestore
    obtain ⟨rfl, rfl, rfl⟩ := emits_pure.1 hdone
    exact ⟨t', rfl, hclaims, rfl, by rw [List.append_nil]⟩
  | false =>
    obtain ⟨_, _, _, _, hrestore, hdone, rfl⟩ := emits_bind.1 (emits_pure_bind.1 h)
    obtain ⟨-, rfl, rfl⟩ := emits_forM_pop.1 hrestore
    obtain ⟨rfl, rfl, rfl⟩ := emits_pure.1 hdone
    exact ⟨_, rfl, .refl _, rfl, by rw [List.append_nil]; rfl⟩

theorem emits_passArguments {callee : Callee} {args : List NodeId} {dropped : Nat}
    (h : Emits (passArguments lower callee args) cx s dropped code s') :
    dropped = stackWords args.length + paddingOf s args.length ∧ ∃ argCode t,
      Emits ((args.zip callee.byAddress).reverse.forM fun (arg, byAddress) =>
          pushArgument lower arg byAddress)
        cx (s.grown (s.registers.live.length + paddingOf s args.length)) () argCode t ∧
      code = beforeCall s args.length argCode ∧ s' = t.shrunk (min args.length 6) := by
  obtain ⟨_, _, _, c₁, hsave, h₁, rfl⟩ := emits_bind.1 (emits_state_bind.1 h)
  obtain ⟨rfl, rfl⟩ := emits_forM_push.1 hsave
  obtain ⟨c₂, rfl, h₂⟩ := emits_padding_bind (Nat.mod_lt _ Nat.two_pos) (emits_state_bind.1 h₁)
  obtain ⟨_, argCode, t, c₃, hargs, h₃, rfl⟩ := emits_bind.1 h₂
  obtain ⟨_, _, _, c₄, hpop, h₄, rfl⟩ := emits_bind.1 h₃
  obtain ⟨-, rfl, rfl⟩ := emits_forM_pop.1 hpop
  obtain ⟨rfl, rfl, rfl⟩ := emits_pure.1 h₄
  rw [State.grown_grown] at hargs
  refine ⟨rfl, argCode, t, hargs, ?_, ?_⟩
  · simp only [beforeCall, List.append_nil]
    rfl
  · rw [List.length_take]
    rfl

theorem callShape {name : String} {args : List NodeId} {result : Option Register}
    (h : Emits (callNode lower id name args) cx s result code s') :
    CallShape lower cx id args s result code s' := by
  obtain ⟨callee, _, _, c₁, hcallee, h₁, rfl⟩ := emits_bind.1 h
  obtain ⟨hcalls, rfl, rfl⟩ := emits_calleeOf hcallee
  obtain ⟨dropped, _, _, c₂, hpass, h₂, rfl⟩ := emits_bind.1 (emits_state_bind.1 h₁)
  obtain ⟨rfl, argCode, t, harguments, rfl, rfl⟩ := emits_passArguments hpass
  obtain ⟨c₃, rfl, h₃⟩ := emits_emit_bind.1 h₂
  obtain ⟨c₄, rfl, h₄⟩ := emits_drop_bind h₃
  obtain ⟨t', hreturns, hclaims, rfl, rfl⟩ := emits_result h₄
  rw [State.shrunk_shrunk] at hclaims
  rw [List.length_reverse]
  exact .mk hcalls (argumentsShape harguments) hreturns hclaims

/-! ### Expressions -/

/-- One level of an expression. -/
inductive ExpressionShape (lower : Lowering) (cx : Context) (id : NodeId) (s : State) :
    Register → List Line → State → Prop
  | constant {value : Int64} {r : Register} {s' : State}
      (kind : cx.arena.kind id = .ok (.int value) ∨
        ∃ b, cx.arena.kind id = .ok (.bool b) ∧ value = if b then 1 else 0)
      (claimed : Claims [r] s s') :
      ExpressionShape lower cx id s r [.instruction .mov [.reg r, .imm value]] s'
  | text {value label : String} {r : Register} {s' : State}
      (kind : cx.arena.kind id = .ok (.text value)) (claimed : Claims [r] s s') :
      ExpressionShape lower cx id s r [.instruction .lea [.reg r, .addr (.symbol label)]] s'
  | read {k : NodeKind} {ty : Ty} {p : Place} {r : Register} {c : List Line} {line : Line}
      {t s' : State} (kind : cx.arena.kind id = .ok k) (place : k.isPlace = true)
      (type : cx.info.typeOf id = some ty) (scalar : ty.isRecord = false)
      (shape : PlaceShape lower cx id s p c t) (target : Targets t r p.temp s')
      (load : Loads cx ty r p.location line) : ExpressionShape lower cx id s r (c ++ [line]) s'
  | sign {operand : NodeId} {r : Register} {c : List Line} {s' : State}
      (kind : cx.arena.kind id = .ok (.unary .minus operand))
      (part : Emits (lower.expression operand) cx s r c s') :
      ExpressionShape lower cx id s r (c ++ [.instruction .neg [.reg r]]) s'
  | invert {operand : NodeId} {r : Register} {c : List Line} {s' : State}
      (kind : cx.arena.kind id = .ok (.unary .not operand))
      (part : Emits (lower.expression operand) cx s r c s') :
      ExpressionShape lower cx id s r (c ++ [.instruction .xor [.reg r, .imm 1]]) s'
  | step {op : UnaryOp} {operand : NodeId} {r : Register} {c : List Line} {s' : State}
      (kind : cx.arena.kind id = .ok (.unary op operand)) (isStep : op.isStep = true)
      (shape : StepShape lower cx op operand s r c s') : ExpressionShape lower cx id s r c s'
  | binary {op : BinaryOp} {left right : NodeId} {r rhs : Register} {c c' c'' : List Line}
      {t t' s' : State} (kind : cx.arena.kind id = .ok (.binary op left right))
      (first : Emits (lower.expression left) cx s r c t)
      (second : Emits (lower.expression right) cx t rhs c' t')
      (shape : OperatorShape op r rhs t' c'' s') :
      ExpressionShape lower cx id s r (c ++ (c' ++ c'')) s'
  | call {name : String} {args : List NodeId} {r : Register} {c : List Line} {s' : State}
      (kind : cx.arena.kind id = .ok (.call name args))
      (shape : CallShape lower cx id args s (some r) c s') : ExpressionShape lower cx id s r c s'

theorem claims_textConstant {value label : String}
    (h : Emits (textConstant value) cx s label code s') : code = [] ∧ Claims [] s s' := by
  rw [textConstant, emits_state_bind, emits_update_bind, emits_pure] at h
  obtain ⟨rfl, rfl, rfl⟩ := h
  exact ⟨rfl, .of_eq rfl rfl rfl⟩

theorem emits_constant {value : Int64} {r : Register}
    (h : Emits (constant id value) cx s r code s') :
    Claims [r] s s' ∧ code = [.instruction .mov [.reg r, .imm value]] := by
  obtain ⟨q, t, hclaims, hmove⟩ := emits_scratch_bind h
  obtain ⟨_, rfl, hdone⟩ := emits_emit_bind.1 hmove
  obtain ⟨rfl, rfl, rfl⟩ := emits_pure.1 hdone
  exact ⟨hclaims, rfl⟩

theorem expressionShape_place {k : NodeKind} {r : Register} (hk : cx.arena.kind id = .ok k)
    (hplace : k.isPlace = true) (h : Emits (placeValue lower id) cx s r code s') :
    ExpressionShape lower cx id s r code s' := by
  obtain ⟨ty, hty, hguard⟩ := emits_typeOf_bind.1 h
  obtain ⟨hscalar, hrest⟩ := emits_guard.1 hguard
  obtain ⟨p, c, t, _, hp, htarget, rfl⟩ := emits_bind.1 hrest
  obtain ⟨target, _, t', _, ht, hload, rfl⟩ := emits_bind.1 htarget
  obtain ⟨rfl, htargets⟩ := emits_targetOf ht
  obtain ⟨line, _, hloads, rfl, hdone⟩ := emits_load_bind hload
  obtain ⟨rfl, rfl, rfl⟩ := emits_pure.1 hdone
  exact .read hk hplace hty (by simpa using hscalar) (placeShape hp) htargets hloads

theorem expressionShape_unary {op : UnaryOp} {operand : NodeId} {r : Register}
    (hk : cx.arena.kind id = .ok (.unary op operand))
    (h : Emits (unary lower id op operand) cx s r code s') :
    ExpressionShape lower cx id s r code s' := by
  cases op with
  | minus =>
    obtain ⟨value, c, t, _, hvalue, hneg, rfl⟩ := emits_bind.1 h
    obtain ⟨_, rfl, hdone⟩ := emits_emit_bind.1 hneg
    obtain ⟨rfl, rfl, rfl⟩ := emits_pure.1 hdone
    exact .sign hk hvalue
  | not =>
    obtain ⟨value, c, t, _, hvalue, hxor, rfl⟩ := emits_bind.1 h
    obtain ⟨_, rfl, hdone⟩ := emits_emit_bind.1 hxor
    obtain ⟨rfl, rfl, rfl⟩ := emits_pure.1 hdone
    exact .invert hk hvalue
  | preIncrement | preDecrement | postIncrement | postDecrement =>
    exact .step hk rfl (stepShape h)

/-- A call whose result is used. -/
theorem emits_call_of_expression {name : String} {args : List NodeId} {r : Register}
    (hk : cx.arena.kind id = .ok (.call name args))
    (h : Emits (expressionAt lower id) cx s r code s') :
    Emits (callNode lower id name args) cx s (some r) code s' := by
  obtain ⟨k, hk', hcode⟩ := emits_kind_bind.1 h
  cases hk.symm.trans hk'
  obtain ⟨result, c, t, _, hcall, hresult, rfl⟩ := emits_bind.1 hcode
  cases result with
  | none => exact (emits_unsupported.1 hresult).elim
  | some q =>
    obtain ⟨rfl, rfl, rfl⟩ := emits_pure.1 hresult
    rwa [List.append_nil]

/-- The code of an expression has one of the shapes. -/
theorem expressionShape {r : Register} (h : Emits (expressionAt lower id) cx s r code s') :
    ExpressionShape lower cx id s r code s' := by
  obtain ⟨k, hk, hcode⟩ := emits_kind_bind.1 h
  cases k with
  | int value =>
    obtain ⟨hclaims, rfl⟩ := emits_constant hcode
    exact .constant (.inl hk) hclaims
  | bool value =>
    obtain ⟨hclaims, rfl⟩ := emits_constant hcode
    exact .constant (.inr ⟨value, hk, rfl⟩) hclaims
  | text value =>
    obtain ⟨label, _, t, _, hlabel, hscratch, rfl⟩ := emits_bind.1 hcode
    obtain ⟨rfl, hquiet⟩ := claims_textConstant hlabel
    obtain ⟨q, t', hclaims, hlea⟩ := emits_scratch_bind hscratch
    obtain ⟨_, rfl, hdone⟩ := emits_emit_bind.1 hlea
    obtain ⟨rfl, rfl, rfl⟩ := emits_pure.1 hdone
    exact .text hk (hquiet.trans hclaims)
  | var | field | element => exact expressionShape_place hk rfl hcode
  | unary op operand => exact expressionShape_unary hk hcode
  | binary op left right =>
    obtain ⟨rhs, c, t, c', t', c'', hleft, hright, hshape, rfl⟩ := emits_binary hcode
    exact .binary hk hleft hright hshape
  | call name args => exact .call hk (callShape (emits_call_of_expression hk h))
  | _ => exact (emits_unsupported.1 hcode).elim

end Lowering

end MiniJ
