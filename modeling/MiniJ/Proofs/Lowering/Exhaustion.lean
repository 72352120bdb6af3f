import MiniJ.Proofs.Lowering.Progress

/-!
# Register exhaustion is exact

An operator computes its left operand first and keeps the result in a register while it computes the
right one, so a number of registers can be read off an expression. With as many free scratch
registers lowering succeeds, and its result is in the first of them; with fewer it runs out.

Division never asks for one more register: the result of the left operand is in the first free
register, so that of the right one is not in `rax`. A reference in the frame is followed through the
register that the value is read into.

## Main definitions

* `RegisterFile.free` — the free scratch registers.
* `Gen.Context.Needs` — an expression of constants, variables and their fields needs so many
  registers.
* `Gen.Context.At` — a field of a variable has an address.

## Main statements

* `Lowering.registers_exact` — lowering succeeds exactly when there are enough registers.
-/
namespace MiniJ

namespace RegisterFile

variable {f g : RegisterFile} {r : Register} {rest : List Register}

/-- The free scratch registers, in the order in which they are handed out. -/
def free (f : RegisterFile) : List Register := Register.scratch.filter fun r => !f.isLive r

theorem mem_free : r ∈ f.free ↔ r ∈ Register.scratch ∧ r ∉ f.live := by
  simp [free, isLive]

theorem nodup_free : f.free.Nodup :=
  List.filter_sublist.nodup (by decide)

/-- The first free register is handed out. -/
theorem claimScratch?_of_free (h : f.free = r :: rest) : ∃ g, f.claimScratch? = some (r, g) := by
  have hfind : Register.scratch.find? (fun r => !f.isLive r) = some r := by
    rw [← List.head?_filter, ← free, h, List.head?_cons]
  obtain ⟨hscratch, hfree⟩ := mem_free.1 (h ▸ List.mem_cons_self)
  obtain ⟨g, hg⟩ := claim?_isSome (Register.mem_tracked_of_scratch hscratch) hfree
  exact ⟨g, by simp [claimScratch?, hfind, hg]⟩

theorem claimScratch?_eq_none (h : f.free = []) : f.claimScratch? = none := by
  have hfind : Register.scratch.find? (fun r => !f.isLive r) = none := by
    rw [← List.head?_filter, ← free, h, List.head?_nil]
  simp [claimScratch?, hfind]

/-- `rax` is handed out before the other registers. -/
theorem ne_rax_of_mem_rest (h : f.free = r :: rest) {q : Register} (hq : q ∈ rest) : q ≠ .rax := by
  rintro rfl
  have hsub : (r :: rest).Sublist (.rax :: [.rbx, .r10, .r11, .r12]) := h ▸ List.filter_sublist
  have hothers : rest.Sublist [.rbx, .r10, .r11, .r12] := by
    rcases List.sublist_cons_iff.1 hsub with hsub | ⟨_, heq, hsub⟩
    · exact (List.sublist_cons_self r rest).trans hsub
    · cases heq
      exact hsub
  exact absurd (hothers.subset hq) (by decide)

end RegisterFile

/-- Numbers and truth values give numbers and truth values. -/
theorem BinaryOp.value_of_result? {op : BinaryOp} {l r ty : Ty} (h : op.result? l r = some ty)
    (hl : l = .int ∨ l = .bool) : ty = .int ∨ ty = .bool := by
  obtain ⟨rfl, -⟩ := result_cases h
  rw [result?, if_pos rfl] at h
  rcases hl with rfl | rfl <;> cases op <;> simp_all [resultOn?]

/-- A variable, or a field of one. -/
inductive Arena.Chain (a : Arena) : NodeId → Prop
  | var {id name} (kind : a.kind id = .ok (.var name)) : Chain a id
  | field {id base name} (kind : a.kind id = .ok (.field base name)) (part : Chain a base) :
    Chain a id

/-- Where the address of a variable starts: references and globals have a base of their own. -/
def Slot.start (slot : Slot) : Int :=
  match slot.storage, slot.isReference with
  | .frame displacement, false => displacement
  | _, _ => 0

namespace Gen

variable {α β : Type} {cx : Context} {s t : State} {r : Register} {rest : List Register}
  {id : NodeId} {k : NodeKind}

/-! ### Running out of registers -/

/-- A part of code generation runs out of registers. -/
def Exhausts (x : Gen α) (cx : Context) (s : State) : Prop :=
  ∃ span, x cx s = .error (.reported (.outOfRegisters span))

theorem Exhausts.bind {x : Gen α} {f : α → Gen β} (h : Exhausts x cx s) :
    Exhausts (x >>= f) cx s := by
  obtain ⟨span, hspan⟩ := h
  refine ⟨span, ?_⟩
  change Gen.bind x f cx s = _
  rw [Gen.bind, hspan]

theorem exhausts_bind_of_emits {x : Gen α} {f : α → Gen β} {v : α} {c : List Line}
    (hx : Emits x cx s v c t) (h : Exhausts (f v) cx t) : Exhausts (x >>= f) cx s := by
  obtain ⟨span, hspan⟩ := h
  refine ⟨span, ?_⟩
  change Gen.bind x f cx s = _
  rw [Gen.bind, hx]
  dsimp only
  rw [hspan]

theorem exhausts_scratch (hk : cx.arena.kind id = .ok k) (h : s.registers.free = []) :
    Exhausts (scratch id) cx s := by
  obtain ⟨span, hnode⟩ := Arena.kind_eq_ok_iff.1 hk
  refine exhausts_bind_of_emits (v := s) (t := s) (c := []) rfl ?_
  rw [RegisterFile.claimScratch?_eq_none h]
  exact exhausts_bind_of_emits (emits_node.2 ⟨hnode, rfl, rfl⟩) ⟨span, rfl⟩

theorem emits_scratch_of_free (id : NodeId) (h : s.registers.free = r :: rest) :
    ∃ t, Emits (scratch id) cx s r [] t := by
  obtain ⟨g, hg⟩ := RegisterFile.claimScratch?_of_free h
  refine ⟨{ s with registers := g }, ?_⟩
  rw [scratch, emits_state_bind, hg]
  exact emits_update_bind.2 (emits_pure.2 ⟨rfl, rfl, rfl⟩)

/-- What is left when the first free register is claimed. -/
theorem Claims.free_eq (h : Claims [r] s t) (hfree : s.registers.free = r :: rest) :
    t.registers.free = rest := by
  have hnot : r ∉ rest := (List.nodup_cons.1 (hfree ▸ s.registers.nodup_free)).1
  have hfilter : t.registers.free = s.registers.free.filter (· ≠ r) := by
    rw [RegisterFile.free, RegisterFile.free, List.filter_filter]
    refine List.filter_congr fun q _ => ?_
    have hlive := h.live q
    rw [List.mem_singleton] at hlive
    simp [RegisterFile.isLive, hlive]
  rw [hfilter, hfree, List.filter_cons_of_neg (by simp), List.filter_eq_self]
  intro q hq
  simpa using fun heq : q = r => hnot (heq ▸ hq)

/-- A part of code generation succeeds with this value. -/
def Gives (x : Gen α) (cx : Context) (s : State) (v : α) : Prop := ∃ code t, Emits x cx s v code t

theorem gives_emit_bind {mnemonic : Mnemonic} {operands : List Operand} {f : Unit → Gen α} {v : α}
    (h : Gives (f ()) cx s v) : Gives (emit mnemonic operands >>= f) cx s v := by
  obtain ⟨code, t, h⟩ := h
  exact ⟨_, t, emits_emit_bind.2 ⟨code, rfl, h⟩⟩

theorem gives_emit_if {c : Prop} [Decidable c] {mnemonic : Mnemonic} {operands : List Operand}
    {f : Unit → Gen α} {v : α} (h : Gives (f ()) cx s v) :
    Gives (if c then emit mnemonic operands >>= f else f ()) cx s v := by
  split
  · exact gives_emit_bind h
  · exact h

theorem gives_state_bind {f : State → Gen α} {v : α} (h : Gives (f s) cx s v) :
    Gives (state >>= f) cx s v := by
  obtain ⟨code, t, h⟩ := h
  exact ⟨code, t, emits_state_bind.2 h⟩

theorem gives_pure {v : α} : Gives (pure v) cx s v := ⟨[], s, emits_pure.2 ⟨rfl, rfl, rfl⟩⟩

/-- A part of code generation needs `n` registers: with as many it gives the first free one, with
fewer it runs out. -/
structure Takes (x : Gen Register) (cx : Context) (s : State) (n : Nat) : Prop where
  enough : n ≤ s.registers.free.length → ∃ r rest, s.registers.free = r :: rest ∧ Gives x cx s r
  short : s.registers.free.length < n → Exhausts x cx s

/-- One register, and code that needs no other. -/
theorem takes_scratch_bind {f : Register → Gen Register} (hk : cx.arena.kind id = .ok k)
    (hf : ∀ r t, Gives (f r) cx t r) : Takes (scratch id >>= f) cx s 1 := by
  refine ⟨fun hle => ?_, fun hlt => ?_⟩
  · obtain ⟨r, rest, hfree⟩ := List.exists_cons_of_length_pos hle
    obtain ⟨t, ht⟩ : ∃ t, Emits (scratch id) cx s r [] t := emits_scratch_of_free id hfree
    obtain ⟨code, t', hcode⟩ := hf r t
    exact ⟨r, rest, hfree, _, t', emits_bind.2 ⟨r, [], t, code, ht, hcode, rfl⟩⟩
  · exact (exhausts_scratch hk (List.eq_nil_of_length_eq_zero (by omega))).bind

theorem takes_bind_of_emits {x : Gen α} {f : α → Gen Register} {v : α} {c : List Line} {n : Nat}
    (hx : Emits x cx s v c s) (h : Takes (f v) cx s n) : Takes (x >>= f) cx s n := by
  refine ⟨fun hle => ?_, fun hlt => exhausts_bind_of_emits hx (h.short hlt)⟩
  obtain ⟨r, rest, hfree, code, t, hcode⟩ := h.enough hle
  exact ⟨r, rest, hfree, _, t, emits_bind.2 ⟨v, c, s, code, hx, hcode, rfl⟩⟩

/-! ### Plain expressions -/

/-- The number of scratch registers that an expression needs. -/
inductive Context.Needs (cx : Context) : NodeId → Nat → Prop
  | int {id v} (kind : cx.arena.kind id = .ok (.int v)) : Needs cx id 1
  | bool {id v} (kind : cx.arena.kind id = .ok (.bool v)) : Needs cx id 1
  | place {id ty} (chain : cx.arena.Chain id) (noted : cx.info.typeOf id = some ty)
      (value : ty = .int ∨ ty = .bool) : Needs cx id 1
  | unary {id op operand n} (kind : cx.arena.kind id = .ok (.unary op operand))
      (plain : op = .minus ∨ op = .not) (part : Needs cx operand n) : Needs cx id n
  | binary {id op left right m n} (kind : cx.arena.kind id = .ok (.binary op left right))
      (first : Needs cx left m) (second : Needs cx right n) : Needs cx id (max m (1 + n))

/-- A variable, or a field of one: a field of a record has a displacement in it, and that of the
address stays in range. -/
inductive Context.At (cx : Context) : NodeId → Int → Prop
  | var {id name slot} (kind : cx.arena.kind id = .ok (.var name)) (stored : Stored cx id slot) :
      At cx id slot.start
  | field {id base name record δ ty o} (kind : cx.arena.kind id = .ok (.field base name))
      (type : cx.info.typeOf base = some (.record record))
      (field : cx.table.field record name = .ok (some (δ, ty))) (outer : At cx base o)
      (range : Address.inRange (o + δ) = true) : At cx id (o + δ)

theorem Stored.emits {slot : Slot} (h : Stored cx id slot) : Emits (slotOf id) cx s slot [] s := by
  cases h with
  | global resolved entry meaning =>
    rw [slotOf, emits_context_bind, resolved, emits_lift_bind]
    refine ⟨_, entry, ?_⟩
    rw [meaning]
    exact emits_pure.2 ⟨rfl, rfl, rfl⟩
  | @framed e x ty ref cls d _ resolved entry meaning inner found =>
    rw [slotOf, emits_context_bind, resolved, emits_lift_bind]
    refine ⟨_, entry, ?_⟩
    rw [meaning]
    cases cls with
    | global => exact absurd rfl inner
    | _ =>
      simp only [found]
      exact emits_pure.2 ⟨rfl, rfl, rfl⟩

end Gen

namespace Lowering

open Gen

variable {lower : Lowering} {cx : Context} {u : UnitNode} {f : FunctionNode} {s t : State}
  {id : NodeId} {k : NodeKind} {ty : Ty} {o : Int} {depth m n : Nat}

/-! ### Places -/

/-- The place of a variable or a field: in a register, at an address that is there, or behind a
pointer for which one register is taken. -/
inductive Locates (x : Gen Place) (cx : Context) (s : State) (ty : Ty) (o : Int) : Prop
  | register {r : Register} (plain : ty.isRecord = false)
      (emits : Emits x cx s ⟨.register r, none⟩ [] s)
  | memory {base : Address.Base} (emits : Emits x cx s ⟨.memory ⟨base, o⟩, none⟩ [] s)
  | pointer (enough : ∀ r rest, s.registers.free = r :: rest →
        ∃ code t, Emits x cx s ⟨.memory ⟨.register r, o⟩, some r⟩ code t)
      (short : s.registers.free = [] → Exhausts x cx s)

/-- The code of a variable, once its slot is known. -/
theorem emits_variablePlace {slot : Slot} (hslot : Emits (slotOf id) cx s slot [] s) {p : Place}
    {code : List Line} {t : State} (h : Emits (match slot.storage, slot.isReference with
      | .global symbol, _ => pure ⟨.memory (.symbol symbol), none⟩
      | .register r, false => pure ⟨.register r, none⟩
      | .register r, true => pure ⟨.memory (.register r), none⟩
      | .frame displacement, false => pure ⟨.memory (.frame displacement), none⟩
      | .frame displacement, true => do
        let pointer ← scratch id
        emit .mov [.reg pointer, .mem .qword (.frame displacement)]
        return ⟨.memory (.register pointer), some pointer⟩ : Gen Place) cx s p code t) :
    Emits (variablePlace id) cx s p code t := emits_bind.2 ⟨slot, [], s, _, hslot, h, rfl⟩

theorem locates_variablePlace (hlowers : cx.Lowers u f) {name : String}
    (hk : cx.arena.kind id = .ok (.var name)) (htyped : cx.arena.Typed u cx.table cx.info id ty)
    {slot : Slot} (hstored : Stored cx id slot) :
    Locates (variablePlace id) cx s ty slot.start := by
  obtain ⟨taken, -, hsound, -⟩ := hlowers.frame_sound
  have hslot : Emits (slotOf id) cx s slot [] s := hstored.emits
  obtain ⟨storage, slotTy, isReference⟩ := slot
  cases storage with
  | global symbol => exact .memory (emits_variablePlace hslot (emits_pure.2 ⟨rfl, rfl, rfl⟩))
  | register r =>
    cases isReference with
    | false =>
      obtain ⟨rfl, ⟨x, hglobal, -⟩ | ⟨d, hd⟩⟩ := hstored.slot_cases hlowers htyped hk
      · cases hglobal
      · cases hsound.placed _ (Frame.mem_of_slot? hd) with
        | register _ _ _ word =>
          exact .register (word.resolve_left (by simp)) (emits_variablePlace hslot
            (emits_pure.2 ⟨rfl, rfl, rfl⟩))
        | above storage => cases storage
        | below storage => cases storage
    | true => exact .memory (emits_variablePlace hslot (emits_pure.2 ⟨rfl, rfl, rfl⟩))
  | frame δ =>
    cases isReference with
    | false => exact .memory (emits_variablePlace hslot (emits_pure.2 ⟨rfl, rfl, rfl⟩))
    | true =>
      refine .pointer (fun r rest hfree => ?_) fun hfree => ?_
      · obtain ⟨t, ht⟩ : ∃ t, Emits (scratch id) cx s r [] t := emits_scratch_of_free id hfree
        refine ⟨_, t, emits_variablePlace hslot (emits_bind.2 ⟨r, [], t, _, ht,
          emits_emit_bind.2 ⟨[], rfl, ?_⟩, rfl⟩)⟩
        exact emits_pure.2 ⟨rfl, rfl, rfl⟩
      · exact exhausts_bind_of_emits hslot (exhausts_scratch hk hfree).bind

theorem locates_fieldPlace {base : NodeId} {name record : String} {δ : Int} {ty' : Ty}
    (htype : cx.info.typeOf base = some (.record record))
    (hfield : cx.table.field record name = .ok (some (δ, ty')))
    (hrange : Address.inRange (o + δ) = true)
    (h : Locates (lower.place base) cx s (.record record) o) :
    Locates (fieldPlace lower id base name) cx s ty (o + δ) := by
  have hfirst : ∀ {b temp code t}, Emits (lower.place base) cx s ⟨.memory ⟨b, o⟩, temp⟩ code t →
      Emits (fieldPlace lower id base name) cx s ⟨.memory ⟨b, o + δ⟩, temp⟩ code t := by
    intro b temp code t h
    refine emits_typeOf_bind.2 ⟨_, htype, emits_context_bind.2 (emits_lift_bind.2 ⟨_, hfield, ?_⟩)⟩
    refine emits_bind.2 ⟨_, code, t, [], h, emits_lift_bind.2 ⟨⟨b, o + δ⟩, ?_, ?_⟩,
      (List.append_nil _).symm⟩
    · exact if_pos hrange
    · exact emits_pure.2 ⟨rfl, rfl, rfl⟩
  cases h with
  | register plain => cases plain
  | memory emits => exact .memory (hfirst emits)
  | pointer enough short =>
    refine .pointer (fun r rest hfree => ?_) fun hfree => ?_
    · obtain ⟨code, t, h⟩ := enough r rest hfree
      exact ⟨code, t, hfirst h⟩
    · refine exhausts_bind_of_emits (emits_typeOf.2 ⟨htype, rfl, rfl⟩) ?_
      refine exhausts_bind_of_emits (v := cx) (c := []) (t := s) rfl ?_
      exact exhausts_bind_of_emits (emits_lift.2 ⟨hfield, rfl, rfl⟩) (short hfree).bind

theorem locates_kind_bind {g : NodeKind → Gen Place} (hk : cx.arena.kind id = .ok k)
    (h : Locates (g k) cx s ty o) : Locates (kind id >>= g) cx s ty o := by
  have hfirst : ∀ {p code t}, Emits (g k) cx s p code t → Emits (kind id >>= g) cx s p code t :=
    fun h => emits_kind_bind.2 ⟨k, hk, h⟩
  cases h with
  | register plain emits => exact .register plain (hfirst emits)
  | memory emits => exact .memory (hfirst emits)
  | pointer enough short =>
    refine .pointer (fun r rest hfree => ?_) fun hfree =>
      exhausts_bind_of_emits (emits_kind.2 ⟨hk, rfl, rfl⟩) (short hfree)
    obtain ⟨code, t, h⟩ := enough r rest hfree
    exact ⟨code, t, hfirst h⟩

/-- Fields of variables are reached at their address. -/
theorem locates_placeAt (hlowers : cx.Lowers u f) (hin : cx.InBody f id)
    (hwithin : cx.arena.Within (depth + 1) id) (htyped : cx.arena.Typed u cx.table cx.info id ty)
    (h : cx.At id o) : Locates (placeAt (atDepth depth) id) cx s ty o := by
  induction h generalizing depth ty with
  | var kind stored =>
    exact locates_kind_bind kind (locates_variablePlace hlowers kind htyped stored)
  | @field id base name record δ ty' o kind type field outer range ih =>
    cases htyped with
    | field kind' part =>
      cases kind.symm.trans kind'
      cases type.symm.trans part.noted
      have hinner : cx.arena.Within depth base := hwithin.child kind (.head _)
      cases depth with
      | zero => exact absurd hinner Arena.not_within_zero
      | succ depth =>
        exact locates_kind_bind kind (locates_fieldPlace type field range
          (ih (hin.child kind (.head _)) hinner part))
    | _ => simp_all

/-! ### Expressions -/

theorem takes_constant (hk : cx.arena.kind id = .ok k) (v : Int64) :
    Takes (constant id v) cx s 1 :=
  takes_scratch_bind hk fun _ _ => gives_emit_bind gives_pure

theorem gives_load {location : Location} {r : Register} (hty : ty = .int ∨ ty = .bool) :
    Gives (load location ty r id >>= fun _ => pure r) cx s r := by
  have hload : ∃ code, Emits (load location ty r id) cx s () code s := by
    cases location with
    | register q => exact ⟨_, emits_emit.2 ⟨rfl, rfl⟩⟩
    | memory a =>
      obtain ⟨n, hn⟩ : ∃ n, cx.table.sizeOf ty = .ok (some n) := by
        rcases hty with rfl | rfl
        · exact ⟨8, SymbolTable.sizeOf_int⟩
        · exact ⟨4, SymbolTable.sizeOf_bool⟩
      exact ⟨_, emits_sizeOf_bind.2 ⟨n, hn, emits_emit.2 ⟨rfl, rfl⟩⟩⟩
  obtain ⟨code, hcode⟩ := hload
  exact ⟨_, s, emits_bind.2 ⟨(), code, s, [], hcode, emits_pure.2 ⟨rfl, rfl, rfl⟩, rfl⟩⟩

/-- A place is read into its pointer, or into a register that is taken for the value. -/
theorem takes_placeValue (hk : cx.arena.kind id = .ok k) (hnoted : cx.info.typeOf id = some ty)
    (hty : ty = .int ∨ ty = .bool) (h : Locates (placeAt lower id) cx s ty o) :
    Takes (placeValue lower id) cx s 1 := by
  have hplain : ty.isRecord = false := by rcases hty with rfl | rfl <;> rfl
  refine takes_bind_of_emits (emits_typeOf.2 ⟨hnoted, rfl, rfl⟩) ?_
  rw [hplain, if_neg Bool.false_ne_true]
  cases h with
  | register _ emits =>
    exact takes_bind_of_emits emits (takes_scratch_bind hk fun _ _ => gives_load hty)
  | memory emits =>
    exact takes_bind_of_emits emits (takes_scratch_bind hk fun _ _ => gives_load hty)
  | pointer enough short =>
    refine ⟨fun hle => ?_, fun hlt => (short (List.eq_nil_of_length_eq_zero (by omega))).bind⟩
    obtain ⟨r, rest, hfree⟩ := List.exists_cons_of_length_pos hle
    obtain ⟨code, t, hplace⟩ := enough r rest hfree
    obtain ⟨code', t', hread⟩ : Gives (load (.memory ⟨.register r, o⟩) ty r id >>= fun _ => pure r)
      cx t r := gives_load hty
    exact ⟨r, rest, hfree, _, t', emits_bind.2 ⟨_, code, t, code', hplace,
      emits_pure_bind.2 hread, rfl⟩⟩

theorem takes_unary {op : UnaryOp} {operand : NodeId} (hop : op = .minus ∨ op = .not)
    (h : Takes (lower.expression operand) cx s n) : Takes (unary lower id op operand) cx s n := by
  rcases hop with rfl | rfl <;>
  · refine ⟨fun hle => ?_, fun hlt => (h.short hlt).bind⟩
    obtain ⟨r, rest, hfree, code, t, hcode⟩ := h.enough hle
    exact ⟨r, rest, hfree, _, t, emits_bind.2 ⟨r, code, t, _, hcode,
      emits_emit_bind.2 ⟨[], rfl, emits_pure.2 ⟨rfl, rfl, rfl⟩⟩, rfl⟩⟩

theorem gives_divide {result lhs rhs : Register} (hrax : rhs ≠ .rax)
    (hrelease : Gives (release rhs >>= fun _ => pure lhs) cx s lhs) :
    Gives (divide id result lhs rhs) cx s lhs := by
  unfold divide
  extract_lets jp
  have hjp : Gives (jp rhs) cx s lhs := by
    refine gives_state_bind (gives_emit_if (gives_emit_if (gives_emit_if ?_)))
    refine gives_emit_bind (gives_emit_bind ?_)
    exact gives_emit_if (gives_emit_if (gives_emit_if hrelease))
  rw [if_neg hrax]
  obtain ⟨code, t, h⟩ := hjp
  exact ⟨code, t, emits_pure_bind.2 h⟩

/-- The right operand is computed while the left one takes a register. The two are then combined
into the register of the left one. -/
theorem takes_binary (hdisciplined : Disciplined lower cx u) {op : BinaryOp} {left right : NodeId}
    {l r : Ty} (hleft : cx.arena.Typed u cx.table cx.info left l)
    (hright : cx.arena.Typed u cx.table cx.info right r) (htext : l ≠ .text)
    (hfirst : Takes (lower.expression left) cx s m)
    (hsecond : ∀ t, Takes (lower.expression right) cx t n) :
    Takes (binary lower id op left right) cx s (max m (1 + n)) := by
  have hreject : Emits (rejectText id op left) cx s () [] s := by
    unfold rejectText
    split
    · exact emits_pure.2 ⟨rfl, rfl, rfl⟩
    · refine emits_typeOf_bind.2 ⟨l, hleft.noted, ?_⟩
      rw [if_neg htext]
      exact emits_pure.2 ⟨rfl, rfl, rfl⟩
  refine takes_bind_of_emits hreject ⟨fun hle => ?_, fun hlt => ?_⟩
  · obtain ⟨lhs, rest, hfree, c, t, hlhs⟩ := hfirst.enough (by omega)
    have hrest := (hdisciplined.expression hleft hlhs).free_eq hfree
    have hlength : n ≤ t.registers.free.length := by
      rw [hfree, List.length_cons] at hle
      rw [hrest]
      omega
    obtain ⟨rhs, others, hfree', c', t', hrhs⟩ := (hsecond t).enough hlength
    -- the divisor is never moved out of `rax`
    have hrax : rhs ≠ .rax :=
      RegisterFile.ne_rax_of_mem_rest hfree (hrest ▸ hfree' ▸ List.mem_cons_self)
    obtain ⟨g, hg⟩ := RegisterFile.exists_release
      (((hdisciplined.expression hright hrhs).live rhs).2 (by simp))
    have hrelease : Gives (release rhs >>= fun _ => pure lhs) cx t' lhs :=
      ⟨[], _, emits_release_bind.2 ⟨g, hg, emits_pure.2 ⟨rfl, rfl, rfl⟩⟩⟩
    refine ⟨lhs, rest, hfree, ?_⟩
    suffices hop : Gives _ cx t' lhs by
      obtain ⟨c'', t'', hop⟩ := hop
      exact ⟨_, t'', emits_bind.2 ⟨lhs, c, t, _, hlhs, emits_bind.2 ⟨rhs, c', t', c'', hrhs, hop,
        rfl⟩, rfl⟩⟩
    cases op with
    | plus | minus | times | and | or => exact gives_emit_bind hrelease
    | div | mod => exact gives_divide hrax hrelease
    | equal | unequal | lesser | lesserEq | greater | greaterEq =>
      exact gives_emit_bind (gives_emit_bind (gives_emit_bind hrelease))
  · by_cases hm : s.registers.free.length < m
    · exact (hfirst.short hm).bind
    · obtain ⟨lhs, rest, hfree, c, t, hlhs⟩ := hfirst.enough (by omega)
      have hrest := (hdisciplined.expression hleft hlhs).free_eq hfree
      refine exhausts_bind_of_emits hlhs ((hsecond t).short ?_).bind
      rw [hfree, List.length_cons] at hlt hm
      rw [hrest]
      omega

/-- What needs a number of registers is a number or a truth value. -/
theorem value_of_needs (h : cx.Needs id n) (htyped : cx.arena.Typed u cx.table cx.info id ty) :
    ty = .int ∨ ty = .bool := by
  induction h generalizing ty with
  | int kind | bool kind => cases htyped <;> simp_all
  | place chain noted value =>
    cases noted.symm.trans htyped.noted
    exact value
  | unary kind plain part ih =>
    cases htyped with
    | unary kind' part' result =>
      cases kind.symm.trans kind'
      obtain ⟨rfl, hvalue⟩ := UnaryOp.result_cases result
      exact hvalue
    | _ => simp_all
  | binary kind first second ih =>
    cases htyped with
    | binary kind' first' second' result =>
      cases kind.symm.trans kind'
      exact BinaryOp.value_of_result? result (ih first')
    | _ => simp_all

/-- Expressions of any depth. -/
theorem takes_expressionAt (hlowers : cx.Lowers u f) (hneeds : cx.Needs id n)
    (hin : cx.InBody f id) (hwithin : cx.arena.Within (depth + 1) id)
    (htyped : cx.arena.Typed u cx.table cx.info id ty)
    (haddressed : ∀ x base name, cx.arena.Below id x → cx.arena.kind x = .ok (.field base name) →
      ∃ o, cx.At x o) : Takes (expressionAt (atDepth depth) id) cx s n := by
  induction hneeds generalizing depth s ty with
  | int kind =>
    exact takes_bind_of_emits (emits_kind.2 ⟨kind, rfl, rfl⟩) (takes_constant kind _)
  | bool kind =>
    exact takes_bind_of_emits (emits_kind.2 ⟨kind, rfl, rfl⟩) (takes_constant kind _)
  | @place id ty' chain noted value =>
    cases chain with
    | var kind =>
      obtain ⟨slot, hslot⟩ := exists_slotOf (s := s) hlowers hin kind
      have hlocates := locates_placeAt (s := s) hlowers hin hwithin htyped
        (.var kind (emits_slotOf hslot).1)
      exact takes_bind_of_emits (emits_kind.2 ⟨kind, rfl, rfl⟩)
        (takes_placeValue kind htyped.noted (by cases noted.symm.trans htyped.noted; exact value)
          hlocates)
    | field kind =>
      obtain ⟨o, hat⟩ := haddressed id _ _ (.self id) kind
      have hlocates := locates_placeAt (s := s) hlowers hin hwithin htyped hat
      exact takes_bind_of_emits (emits_kind.2 ⟨kind, rfl, rfl⟩)
        (takes_placeValue kind htyped.noted (by cases noted.symm.trans htyped.noted; exact value)
          hlocates)
  | @unary id op operand n kind plain part ih =>
    have hmem : operand ∈ NodeKind.children (.unary op operand) := .head _
    obtain ⟨ty', htyped'⟩ := htyped.child kind hmem
    have hinner := hwithin.child kind hmem
    cases depth with
    | zero => exact absurd hinner Arena.not_within_zero
    | succ depth =>
      exact takes_bind_of_emits (emits_kind.2 ⟨kind, rfl, rfl⟩) (takes_unary plain
        (ih (hin.child kind hmem) hinner htyped' fun x base name hx =>
          haddressed x base name (.child kind hmem hx)))
  | @binary id op left right m n kind first second ih ih' =>
    have hmem : left ∈ NodeKind.children (.binary op left right) := .head _
    have hmem' : right ∈ NodeKind.children (.binary op left right) := .tail _ (.head _)
    obtain ⟨l, hleft⟩ := htyped.child kind hmem
    obtain ⟨r, hright⟩ := htyped.child kind hmem'
    have hinner := hwithin.child kind hmem
    have hinner' := hwithin.child kind hmem'
    cases depth with
    | zero => exact absurd hinner Arena.not_within_zero
    | succ depth =>
      refine takes_bind_of_emits (emits_kind.2 ⟨kind, rfl, rfl⟩) (takes_binary
        (disciplined_atDepth hlowers.program _) hleft hright ?_ ?_ fun t => ?_)
      · rcases value_of_needs first hleft with rfl | rfl <;> simp
      · exact ih (hin.child kind hmem) hinner hleft fun x base name hx =>
          haddressed x base name (.child kind hmem hx)
      · exact ih' (hin.child kind hmem') hinner' hright fun x base name hx =>
          haddressed x base name (.child kind hmem' hx)

/-- Lowering an expression of constants, variables and fields that have an address succeeds exactly
when as many scratch registers are free as it needs. The result is in the first of them; with fewer,
lowering runs out of registers. -/
theorem registers_exact (hlowers : cx.Lowers u f) (hin : cx.InBody f id)
    (htyped : cx.arena.Typed u cx.table cx.info id ty) (hneeds : cx.Needs id n)
    (haddressed : ∀ x base name, cx.arena.Below id x → cx.arena.kind x = .ok (.field base name) →
      ∃ o, cx.At x o) (s : State) :
    ((∃ r code s', Emits ((ofArena cx.arena).expression id) cx s r code s') ↔
      n ≤ s.registers.free.length) ∧
    (∀ r code s', Emits ((ofArena cx.arena).expression id) cx s r code s' →
      s.registers.free.head? = some r) ∧
    (s.registers.free.length < n → ∃ span,
      (ofArena cx.arena).expression id cx s = .error (.reported (.outOfRegisters span))) := by
  obtain ⟨start, htree⟩ := hlowers.tree hin
  have hwithin := htree.within
  have htakes : Takes ((ofArena cx.arena).expression id) cx s n := by
    rw [ofArena]
    cases hdepth : cx.arena.depthLimit with
    | zero => exact absurd (hdepth ▸ hwithin) Arena.not_within_zero
    | succ depth => exact takes_expressionAt hlowers hneeds hin (hdepth ▸ hwithin) htyped haddressed
  have hshort : s.registers.free.length < n → ∀ r code s',
      ¬Emits ((ofArena cx.arena).expression id) cx s r code s' := by
    intro hlt r code s' h
    obtain ⟨span, hspan⟩ := htakes.short hlt
    cases h.symm.trans hspan
  refine ⟨⟨fun ⟨r, code, s', h⟩ => ?_, fun hle => ?_⟩, fun r code s' h => ?_, htakes.short⟩
  · exact Nat.le_of_not_lt fun hlt => hshort hlt r code s' h
  · obtain ⟨r, rest, -, code, s', h⟩ := htakes.enough hle
    exact ⟨r, code, s', h⟩
  · obtain ⟨q, rest, hfree, code', t, h'⟩ :=
      htakes.enough (Nat.le_of_not_lt fun hlt => hshort hlt r code s' h)
    cases h.symm.trans h'
    rw [hfree, List.head?_cons]

end Lowering

/-! ### A program -/

namespace Endless

open Gen Lowering

/-- A record that contains itself, one that does not, and sums of their fields. -/
def words : List String :=
  ["record", "R", "\x7b", "R", "r", ";", "int", "x", ";", "\x7d",
    "record", "P", "\x7b", "int", "y", ";", "\x7d",
    "int", "f", "(", "R", "&", "r", ",", "P", "p", ")", "\x7b",
    "p", ".", "y", "=", "p", ".", "y", "/", "2", ";",
    "return", "r", ".", "x", "+", "(", "1", "+", "(", "1", "+", "(", "1", "+", "(", "1", "+", "1",
    ")", ")", ")", ")", ";", "\x7d"]

def bytes : List UInt8 := words.flatMap fun w => w.toList.map (fun c => UInt8.ofNat c.toNat) ++ [32]

def program : Arena × SymbolTable × SemanticInfo := (accept? 2 bytes).get (by decide +kernel)

theorem accept?_bytes : accept? 2 bytes = some program := by
  rw [program, Option.some_get]

def function : FunctionNode := ⟨"f", .int, [7, 8], [15, 28]⟩

def context : Context :=
  ⟨program.1, program.2.2, program.2.1, [],
    (Frame.layout program.1 program.2.2 program.2.1 function).toOption.get (by decide +kernel),
    false⟩

theorem toOption_layout :
    (Frame.layout context.arena context.info context.table function).toOption =
    some context.frame := by
  rw [context, Option.some_get]

attribute [irreducible] program

theorem accepted : Accepted program.1 program.2.1 program.2.2 :=
  accepted_of_accept? accept?_bytes

/-- What the program says about the function, the quotient of a field and a constant, and the sum of
a field without an address and constants. -/
theorem facts : (context.arena.unit?.map UnitNode.functions = some [29] ∧
      context.arena.kind 29 = .ok (.function function)) ∧
    ((context.arena.kind 14 = .ok (.binary .div 12 13) ∧
        context.arena.kind 12 = .ok (.field 11 "y") ∧ context.arena.kind 11 = .ok (.var "p") ∧
        context.arena.kind 13 = .ok (.int 2)) ∧
      context.arena.walk 15 = .ok [15, 10, 9, 14, 12, 11, 13] ∧
      context.arena.walk 14 = .ok [14, 12, 11, 13] ∧
      context.info.typeOf 12 = some .int ∧ context.info.typeOf 11 = some (.record "P") ∧
      context.table.field "P" "y" = .ok (some (0, .int)) ∧
      ∀ e ∈ context.frame.slots, Address.inRange (e.2.start + 0) = true) ∧
    (context.arena.kind 27 = .ok (.binary .plus 17 26) ∧
        context.arena.kind 17 = .ok (.field 16 "x") ∧ context.arena.kind 16 = .ok (.var "r") ∧
        context.arena.kind 26 = .ok (.binary .plus 18 25) ∧ context.arena.kind 18 = .ok (.int 1) ∧
        context.arena.kind 25 = .ok (.binary .plus 19 24) ∧ context.arena.kind 19 = .ok (.int 1) ∧
        context.arena.kind 24 = .ok (.binary .plus 20 23) ∧ context.arena.kind 20 = .ok (.int 1) ∧
        context.arena.kind 23 = .ok (.binary .plus 21 22) ∧ context.arena.kind 21 = .ok (.int 1) ∧
        context.arena.kind 22 = .ok (.int 1)) ∧ context.info.typeOf 17 = some .int ∧
      context.arena.walk 28 = .ok [28, 27, 17, 16, 26, 18, 25, 19, 24, 20, 23, 21, 22] ∧
      (match (ofArena context.arena).expression 27 context {} with
        | .error (.reported (.unsupported what _)) => some what
        | _ => none) = some .place := by decide +kernel

theorem exists_lowers : ∃ u, context.Lowers u function := by
  obtain ⟨u, hu, hfunctions⟩ := Option.map_eq_some_iff.1 facts.1.1
  exact ⟨u, accepted.checked_of_unit hu, ⟨29, by simp [hfunctions], facts.1.2⟩,
    Outcome.eq_ok_of_toOption toOption_layout⟩

theorem inBody {r x : Nat} (hr : r ∈ function.body) {ids : List NodeId}
    (h : context.arena.walk r = .ok ids) (hx : x ∈ ids) : context.InBody function x :=
  ⟨r, hr, (Arena.mem_walk h x).1 hx⟩

/-! The quotient. -/

theorem needs_quotient : context.Needs 14 2 := by
  obtain ⟨⟨h14, h12, h11, h13⟩, -, -, hint, -⟩ := facts.2.1
  exact .binary h14 (.place (.field h12 (.var h11)) hint (.inl rfl)) (.int h13)

theorem at_field : ∃ o, context.At 12 o := by
  obtain ⟨⟨-, h12, h11, -⟩, hwalk, -, -, hrecord, hfield, hrange⟩ := facts.2.1
  obtain ⟨u, hlowers⟩ := exists_lowers
  obtain ⟨slot, hslot⟩ := exists_slotOf (s := {}) hlowers (inBody (by decide) hwalk (by decide)) h11
  have hstored := (emits_slotOf hslot).1
  refine ⟨_, .field h12 hrecord hfield (.var h11 hstored) ?_⟩
  cases hstored with
  | global => rfl
  | framed _ _ _ _ found => exact hrange _ (Frame.mem_of_slot? found)

/-- All scratch registers but one are taken. -/
def crowded : State := { registers := ⟨[.rax, .rbx, .r10, .r11], by decide⟩ }

/-- A quotient has room in the free registers, and no room in one. -/
theorem quotient_exact :
    (∃ code s', Emits ((ofArena context.arena).expression 14) context {} .rax code s') ∧
      ∃ span, (ofArena context.arena).expression 14 context crowded =
        .error (.reported (.outOfRegisters span)) := by
  obtain ⟨⟨h14, h12, h11, h13⟩, hbody, hwalk, -⟩ := facts.2.1
  obtain ⟨u, hlowers⟩ := exists_lowers
  have hin : context.InBody function 14 := inBody (by decide) hbody (by decide)
  obtain ⟨ty, htyped⟩ := hlowers.typed_inBody hin h14 rfl
  have haddressed : ∀ x base name, context.arena.Below 14 x →
      context.arena.kind x = .ok (.field base name) → ∃ o, context.At x o := by
    intro x base name hx hk
    have hmem := (Arena.mem_walk hwalk x).2 hx
    simp only [List.mem_cons, List.not_mem_nil, or_false] at hmem
    rcases hmem with rfl | rfl | rfl | rfl
    · cases h14.symm.trans hk
    · exact at_field
    · cases h11.symm.trans hk
    · cases h13.symm.trans hk
  obtain ⟨hiff, hfirst, -⟩ := registers_exact hlowers hin htyped needs_quotient haddressed {}
  obtain ⟨-, -, hshort⟩ := registers_exact hlowers hin htyped needs_quotient haddressed crowded
  obtain ⟨r, code, s', h⟩ := hiff.2 (by decide)
  cases hfirst r code s' h
  exact ⟨⟨code, s', h⟩, hshort (by decide)⟩

/-! The sum. -/

theorem needs_sum : context.Needs 27 6 := by
  obtain ⟨⟨h27, h17, h16, h26, h18, h25, h19, h24, h20, h23, h21, h22⟩, hint, -⟩ := facts.2.2
  exact .binary h27 (.place (.field h17 (.var h16)) hint (.inl rfl))
    (.binary h26 (.int h18) (.binary h25 (.int h19) (.binary h24 (.int h20)
      (.binary h23 (.int h21) (.int h22)))))

/-- With fewer registers than it needs a sum still does not run out of them: the field that it
starts with lies behind a record without a size. -/
theorem sum_not_exhausted : ∃ u, context.Lowers u function ∧ context.InBody function 27 ∧
    (∃ ty, context.arena.Typed u context.table context.info 27 ty) ∧ context.Needs 27 6 ∧
    ({} : State).registers.free.length < 6 ∧
    ¬∃ span, (ofArena context.arena).expression 27 context {} =
      .error (.reported (.outOfRegisters span)) := by
  obtain ⟨⟨h27, -⟩, -, hwalk, hfailure⟩ := facts.2.2
  obtain ⟨u, hlowers⟩ := exists_lowers
  have hin : context.InBody function 27 := inBody (by decide) hwalk (by decide)
  refine ⟨u, hlowers, hin, hlowers.typed_inBody hin h27 rfl, needs_sum, by decide, ?_⟩
  rintro ⟨span, hspan⟩
  rw [hspan] at hfailure
  cases hfailure

end Endless

end MiniJ
