import MiniJ.Proofs.Layout.Path
import MiniJ.Proofs.Lowering.Frame
import MiniJ.Proofs.Lowering.Place
import MiniJ.Proofs.Machine.Arithmetic
import MiniJ.Proofs.Semantics.Execution

/-!
# Activations

A function while its code runs on a machine: where its variables, the globals and the objects of its
callers are kept, and when a machine represents a store. Scalars in memory take the bytes of their
type, parameters that stay in registers take all of them, and a reference is kept as the address of
what it refers to.

## Main definitions

* `Activation.Located` — where a region is in memory.
* `Activation.Of` — an activation of a function: nothing shares its bytes with anything else.
* `Activation.Represents` — a machine holds the values of a store.

## Main statements

* `Activation.Of.apart` — different parts of a store have no byte in common.
* `Activation.Represents.quiet` — code that spares the variables keeps the store.
* `Activation.Represents.write` — a value is written to memory.
-/
namespace MiniJ

theorem Ty.scalarBytes_cases {ty : Ty} {n : Nat} (h : ty.scalarBytes = some n) : n = 4 ∨ n = 8 := by
  cases ty <;> cases h <;> decide

/-- The object is a variable of the function at hand. -/
def Object.isInner : Object → Bool
  | inner _ => true
  | _ => false

/-- The value fits into the bytes of its type. -/
def Value.Fits (v : Value) (ty : Ty) : Prop :=
  ∀ n, ty.scalarBytes = some n → v.word.toNat < Memory.capacity n

theorem Value.HasType.fits {v : Value} {ty : Ty} (h : v.HasType ty) : v.Fits ty :=
  fun _ hn => h.word_lt hn

/-- A function of a program while it runs: its frame and stack pointer, and what surrounds it. -/
structure Activation where
  context : Gen.Context
  unit : UnitNode
  env : Environment
  /-- The frame pointer. -/
  base : Word
  /-- The stack pointer between statements. -/
  top : Word
  /-- What the parameters that are references refer to. -/
  refers : NodeId → Region
  /-- Types and addresses of the objects of callers. -/
  outer : Nat → Option (Ty × Word)

namespace Activation

variable (A : Activation)

/-- The program while the function runs. -/
def scene : Scene := ⟨A.context.arena, A.context.info, A.context.table, A.refers⟩

/-- An object is kept in memory, with this type and at this address. -/
inductive Placed : Object → Ty → Word → Prop
  | global {d : NodeId} {b : Binder} (mem : d ∈ A.unit.globals)
      (kind : A.context.arena.kind d = .ok (.declaration b)) :
      Placed (.global d) b.ty (A.env.symbols (userSymbol b.name))
  | inner {d : NodeId} {δ : Int} {ty : Ty}
      (slot : A.context.frame.slot? d = some ⟨.frame δ, ty, false⟩) :
      Placed (.inner d) ty (A.base + BitVec.ofInt 64 δ)
  | outer {n : Nat} {ty : Ty} {a : Word} (given : A.outer n = some (ty, a)) : Placed (.outer n) ty a

/-- A region is in memory, with this type and at this address. -/
inductive Located : Region → Ty → Word → Prop
  | mk {o : Object} {whole ty : Ty} {path : List String} {a : Word} {δ : Int}
      (placed : A.Placed o whole a) (leads : A.context.table.Leads whole path δ ty) :
      Located ⟨o, path⟩ ty (a + BitVec.ofInt 64 δ)

/-- The bytes that a part of the store takes: a scalar, or the address in a reference. -/
inductive Occupies : Region → Word → Nat → Prop
  | scalar {r : Region} {ty : Ty} {a : Word} {n : Nat} (located : A.Located r ty a)
      (size : ty.scalarBytes = some n) : Occupies r a n
  | pointer {d : NodeId} {δ : Int} {ty : Ty}
      (slot : A.context.frame.slot? d = some ⟨.frame δ, ty, true⟩) :
      Occupies (.whole (.inner d)) (A.base + BitVec.ofInt 64 δ) 8

/-- The layout of the frame decides where the region is, as long as displacements can address all of
it. -/
def Native (r : Region) : Prop := r.object.isInner = true ∧ A.context.frame.size < 2147483648

/-- An activation of the function. The layout of its frame keeps its own variables apart; the
surroundings keep everything else apart, and out of the stack area below the frame. -/
structure Of (f : FunctionNode) : Prop where
  lowers : A.context.Lowers A.unit f
  room : A.env.stackLimit + 16 ≤ A.top.toNat
  frame : A.top.toNat + A.context.frame.size ≤ A.base.toNat
  high : A.base.toNat + 16 + 8 * f.params.length ≤ 18446744073709551616
  referred : ∀ {d slot}, A.context.frame.slot? d = some slot → slot.isReference = true →
    ∃ a, A.Located (A.refers d) slot.ty a
  sized : ∀ {o ty a}, A.Placed o ty a → o.isInner = false →
    ∃ n, A.context.table.sizeOf ty = .ok (some n)
  others : ∀ {r r' a a' n n'}, A.Occupies r a n → A.Occupies r' a' n' → r.object ≠ r'.object →
    ¬(A.Native r ∧ A.Native r') → Memory.Apart a n a' n'
  outside : ∀ {r a n}, A.Occupies r a n → ¬A.Native r →
    Memory.Apart a n (BitVec.ofNat 64 A.env.stackLimit) (A.top.toNat - A.env.stackLimit)

/-! ### Where regions are -/

variable {A} {f : FunctionNode} {o : Object} {r r' : Region} {ty ty' : Ty} {a a' : Word}
  {n n' : Nat}

theorem Placed.unique (h : A.Placed o ty a) (h' : A.Placed o ty' a') : ty = ty' ∧ a = a' := by
  cases h with
  | global mem kind =>
    cases h' with
    | global mem' kind' =>
      cases kind.symm.trans kind'
      exact ⟨rfl, rfl⟩
  | inner slot =>
    cases h' with
    | inner slot' =>
      cases slot.symm.trans slot'
      exact ⟨rfl, rfl⟩
  | outer given =>
    cases h' with
    | outer given' =>
      cases given.symm.trans given'
      exact ⟨rfl, rfl⟩

theorem Located.unique (h : A.Located r ty a) (h' : A.Located r ty' a') : ty = ty' ∧ a = a' := by
  cases h with
  | mk placed leads =>
    cases h' with
    | mk placed' leads' =>
      obtain ⟨rfl, rfl⟩ := placed.unique placed'
      obtain ⟨rfl, rfl⟩ := leads.unique leads'
      exact ⟨rfl, rfl⟩

/-- A field of a located record. -/
theorem Located.field {record name : String} {δ : Int} (h : A.Located r (.record record) a)
    (found : A.context.table.field record name = .ok (some (δ, ty))) :
    A.Located (r.field name) ty (a + BitVec.ofInt 64 δ) := by
  cases h with
  | mk placed leads =>
    rw [BitVec.add_assoc, ← BitVec.ofInt_add]
    exact .mk placed (leads.snoc found)

/-- A variable that is no reference is not kept as an address. -/
theorem Located.not_pointer {d : NodeId} {δ : Int} (h : A.Located r ty a)
    (hobject : r.object = .inner d) :
    A.context.frame.slot? d ≠ some ⟨.frame δ, ty', true⟩ := by
  intro hslot
  cases h with
  | mk placed leads =>
    cases hobject
    cases placed with
    | inner slot => cases slot.symm.trans hslot

/-- A variable in a register is not in memory. -/
theorem Located.ne_of_register {d : NodeId} {q : Register} {ref : Bool} (h : A.Located r ty a)
    (hd : A.context.frame.slot? d = some ⟨.register q, ty', ref⟩) : r ≠ .whole (.inner d) := by
  rintro rfl
  cases h with
  | mk placed leads =>
    cases placed with
    | inner slot => cases slot.symm.trans hd

theorem Occupies.unique (h : A.Occupies r a n) (h' : A.Occupies r a' n') : a = a' ∧ n = n' := by
  cases h with
  | scalar located size =>
    cases h' with
    | scalar located' size' =>
      obtain ⟨rfl, rfl⟩ := located.unique located'
      cases size.symm.trans size'
      exact ⟨rfl, rfl⟩
    | pointer slot' => exact absurd slot' (located.not_pointer rfl)
  | pointer slot =>
    cases h' with
    | scalar located' size' => exact absurd slot (located'.not_pointer rfl)
    | pointer slot' =>
      cases slot.symm.trans slot'
      exact ⟨rfl, rfl⟩

theorem Occupies.le (h : A.Occupies r a n) : n ≤ 8 := by
  cases h with
  | scalar located size => rcases Ty.scalarBytes_cases size with rfl | rfl <;> decide
  | pointer => exact Nat.le_refl 8

/-- Bytes of a variable of the function, for which its frame has room. -/
structure Framed (A : Activation) (f : FunctionNode) (d : NodeId) (slot : Slot) (δ : Int)
    (N : Nat) :
    Prop where
  found : A.context.frame.slot? d = some slot
  storage : slot.storage = .frame δ
  takes : slot.Takes A.context.table N
  lower : -(A.context.frame.size : Int) ≤ δ
  upper : δ + N ≤ 8 * f.params.length
  small : N < 2147483648

theorem Framed.of_slot {d : NodeId} {slot : Slot} {δ : Int} {N : Nat} (hA : A.Of f)
    (hsmall : A.context.frame.size < 2147483648) (hslot : A.context.frame.slot? d = some slot)
    (hstorage : slot.storage = .frame δ) (htakes : slot.Takes A.context.table N) :
    Framed A f d slot δ N := by
  obtain ⟨taken, -, hsound, -⟩ := hA.lowers.frame_sound
  refine ⟨hslot, hstorage, htakes, ?_, ?_, ?_⟩ <;>
    cases hsound.placed _ (Frame.mem_of_slot? hslot) with
    | register storage => cases hstorage.symm.trans storage
    | above storage earlier word =>
      cases hstorage.symm.trans storage
      have hle := word.le htakes
      omega
    | below storage takes fits inside range =>
      cases hstorage.symm.trans storage
      obtain rfl := htakes.unique takes
      have hused := SymbolTable.displacement_of_lt (Nat.lt_of_le_of_lt inside hsmall)
      omega

/-- A variable that holds a scalar somewhere has a size. -/
theorem exists_takes {d : NodeId} {δ δ' : Int} {whole : Ty} {path : List String} (hA : A.Of f)
    (hslot : A.context.frame.slot? d = some ⟨.frame δ, whole, false⟩)
    (hleads : A.context.table.Leads whole path δ' ty) (hn : ty.scalarBytes = some n) :
    ∃ N, A.context.table.sizeOf whole = .ok (some N) := by
  obtain ⟨taken, -, hsound, -⟩ := hA.lowers.frame_sound
  cases hsound.placed _ (Frame.mem_of_slot? hslot) with
  | register storage => cases storage
  | above storage earlier word =>
    have hscalar : whole.isRecord = false := word.resolve_left Bool.false_ne_true
    obtain rfl := hleads.eq_nil hscalar
    cases hleads
    exact ⟨n, (SymbolTable.scalarBytes_iff.1 hn).1⟩
  | below storage takes => exact ⟨_, by simpa [Slot.Takes] using takes⟩

theorem Placed.sized {path : List String} {δ : Int} (hA : A.Of f) (h : A.Placed o ty a)
    (hleads : A.context.table.Leads ty path δ ty') (hn : ty'.scalarBytes = some n) :
    ∃ N, A.context.table.sizeOf ty = .ok (some N) := by
  cases h with
  | global mem kind => exact hA.sized (.global mem kind) rfl
  | inner slot => exact exists_takes hA slot hleads hn
  | outer given => exact hA.sized (.outer given) rfl

theorem Occupies.framed (hA : A.Of f) (h : A.Occupies r a n) (hnative : A.Native r) :
    ∃ d slot δ N, ∃ offset : Nat, r.object = .inner d ∧ A.Framed f d slot δ N ∧
      a = A.base + BitVec.ofInt 64 (δ + offset) ∧ offset + n ≤ N := by
  obtain ⟨hinner, hsmall⟩ := hnative
  cases h with
  | @pointer d δ ty slot =>
    exact ⟨d, _, δ, 8, 0, rfl, .of_slot hA hsmall slot rfl rfl, by simp, by simp⟩
  | scalar located size =>
    cases located with
    | @mk _ _ _ path _ δ' placed leads =>
      cases placed with
      | global | outer => cases hinner
      | @inner d δ whole slot =>
        obtain ⟨N, hN⟩ := exists_takes hA slot leads size
        have hframed : A.Framed f d _ δ N :=
          .of_slot hA hsmall slot rfl (by simpa [Slot.Takes] using hN)
        obtain ⟨before, k, hdisplaced, hk, hle⟩ := leads.inside hN
        cases (SymbolTable.scalarBytes_iff.1 size).1.symm.trans hk
        have hsmall := hframed.small
        obtain rfl : δ' = before := by
          unfold SymbolTable.Displaced at hdisplaced
          omega
        exact ⟨d, _, δ, N, before, rfl, hframed,
          by rw [BitVec.add_assoc, ← BitVec.ofInt_add], hle⟩

/-! ### Bytes apart -/

/-- Ranges behind each other that do not reach around all of memory. -/
theorem apart_of_behind {b : Word} {x y : Int} {n k : Nat} (h : x + n ≤ y)
    (hspan : y + k - x ≤ 18446744073709551616) :
    Memory.Apart (b + BitVec.ofInt 64 x) n (b + BitVec.ofInt 64 y) k := by
  intro z hz hz'
  have hxn : (BitVec.ofInt 64 x).toNat = (x % 18446744073709551616).toNat := BitVec.toNat_ofInt x
  have hyn : (BitVec.ofInt 64 y).toNat = (y % 18446744073709551616).toNat := BitVec.toNat_ofInt y
  bv_omega

/-- Different scalars of one object. -/
theorem Of.apart_within (hA : A.Of f) {k k' : Nat} (h : A.Located r ty a) (h' : A.Located r' ty' a')
    (hk : ty.scalarBytes = some k) (hk' : ty'.scalarBytes = some k')
    (hobject : r.object = r'.object) (hne : r ≠ r') : Memory.Apart a k a' k' := by
  cases h with
  | @mk o whole _ path b δ placed leads =>
    cases h' with
    | @mk _ _ _ path' _ δ' placed' leads' =>
      cases hobject
      obtain ⟨rfl, rfl⟩ := placed.unique placed'
      obtain ⟨N, hN⟩ := placed.sized hA leads hk
      have hpath : path ≠ path' := fun heq => hne (by rw [heq])
      have hbounds := leads.bounds hN hk
      have hbounds' := leads'.bounds hN hk'
      rcases leads.apart leads' hN hk hk' hpath with hle | hle
      · exact apart_of_behind hle (by omega)
      · exact (apart_of_behind hle (by omega)).symm

/-- Different variables of the function. -/
theorem Of.apart_native (hA : A.Of f) (h : A.Occupies r a n) (h' : A.Occupies r' a' n')
    (hnative : A.Native r) (hnative' : A.Native r') (hobject : r.object ≠ r'.object) :
    Memory.Apart a n a' n' := by
  obtain ⟨taken, -, hsound, -⟩ := hA.lowers.frame_sound
  obtain ⟨d, slot, δ, N, offset, hd, hslot, rfl, hle⟩ := h.framed hA hnative
  obtain ⟨d', slot', δ', N', offset', hd', hslot', rfl, hle'⟩ := h'.framed hA hnative'
  have hne : d ≠ d' := by
    rintro rfl
    exact hobject (hd.trans hd'.symm)
  have hseparate := hsound.separate hnative.2 hslot.found hslot'.found hne
  unfold Frame.Separate at hseparate
  rw [hslot.storage, hslot'.storage] at hseparate
  have hlower := hslot.lower
  have hlower' := hslot'.lower
  have hupper := hslot.upper
  have hupper' := hslot'.upper
  have hframe := hA.frame
  have hhigh := hA.high
  rcases hseparate N N' hslot.takes hslot'.takes with hbehind | hbehind
  · exact apart_of_behind (by omega) (by omega)
  · exact (apart_of_behind (by omega) (by omega)).symm

/-- Different parts of a store have no byte in common. -/
theorem Of.apart (hA : A.Of f) (h : A.Occupies r a n) (h' : A.Occupies r' a' n') (hne : r ≠ r') :
    Memory.Apart a n a' n' := by
  by_cases hobject : r.object = r'.object
  · cases h with
    | scalar located size =>
      cases h' with
      | scalar located' size' => exact hA.apart_within located located' size size' hobject hne
      | pointer slot' => exact absurd slot' (located.not_pointer hobject)
    | pointer slot =>
      cases h' with
      | scalar located' size' => exact absurd slot (located'.not_pointer hobject.symm)
      | pointer slot' =>
        cases hobject
        exact absurd rfl hne
  · by_cases hnative : A.Native r ∧ A.Native r'
    · exact hA.apart_native h h' hnative.1 hnative.2 hobject
    · exact hA.others h h' hobject hnative

/-- No part of a store lies in the stack area. -/
theorem Of.below (hA : A.Of f) (h : A.Occupies r a n) :
    Memory.Apart a n (A.top - 16#64) 16 := by
  have hroom := hA.room
  by_cases hnative : A.Native r
  · obtain ⟨d, slot, δ, N, offset, -, hslot, rfl, hle⟩ := h.framed hA hnative
    have hlower := hslot.lower
    have hupper := hslot.upper
    have hframe := hA.frame
    have hhigh := hA.high
    intro x hx hx'
    have hδ : (BitVec.ofInt 64 (δ + offset)).toNat = ((δ + offset) % 18446744073709551616).toNat :=
      BitVec.toNat_ofInt _
    bv_omega
  · intro x hx hx'
    refine hA.outside h hnative x hx ?_
    bv_omega

/-! ### Machines that hold a store -/

/-- The machine holds the values of a store: in memory, in the registers of parameters, and behind
the addresses that references hold. -/
structure Represents (A : Activation) (σ : Store) (m : Machine) : Prop where
  rbp : m.regs .rbp = A.base
  rsp : m.regs .rsp = A.top
  scalar : ∀ {r ty a n}, A.Located r ty a → ty.scalarBytes = some n →
    m.mem.read a n = (σ r).word.toNat
  register : ∀ {d q ty}, A.context.frame.slot? d = some ⟨.register q, ty, false⟩ →
    m.regs q = (σ (.whole (.inner d))).word ∧ (σ (.whole (.inner d))).Fits ty
  pointer : ∀ {d δ ty a}, A.context.frame.slot? d = some ⟨.frame δ, ty, true⟩ →
    A.Located (A.refers d) ty a → m.mem.read (A.base + BitVec.ofInt 64 δ) 8 = a.toNat
  handle : ∀ {d q ty a}, A.context.frame.slot? d = some ⟨.register q, ty, true⟩ →
    A.Located (A.refers d) ty a → m.regs q = a

/-- Nothing that belongs to a variable changes. -/
structure Quiet (A : Activation) (m m' : Machine) : Prop where
  regs : ∀ q, q ∈ A.context.frame.parameterRegisters ∨ q = .rbp ∨ q = .rsp → m'.regs q = m.regs q
  mem : ∀ x : Word, ¬(x - (A.top - 16#64)).toNat < 16 → m'.mem x = m.mem x

theorem mem_parameterRegisters {d : NodeId} {q : Register} {ref : Bool}
    (h : A.context.frame.slot? d = some ⟨.register q, ty, ref⟩) :
    q ∈ A.context.frame.parameterRegisters :=
  Frame.mem_parameterRegisters.2 ⟨_, Frame.mem_of_slot? h, rfl⟩

namespace Represents

open Machine

variable {σ σ' : Store} {m m' : Machine} {v : Value}

/-- Code that spares the variables keeps the store. -/
theorem quiet (hA : A.Of f) (h : A.Represents σ m) (hquiet : A.Quiet m m') : A.Represents σ m' := by
  have hread : ∀ {r a n}, A.Occupies r a n → m'.mem.read a n = m.mem.read a n := by
    intro r a n hr
    have hle := hr.le
    exact Memory.read_congr (by omega) fun x hx => hquiet.mem x (hA.below hr x hx)
  refine ⟨(hquiet.regs _ (.inr (.inl rfl))).trans h.rbp, (hquiet.regs _ (.inr (.inr rfl))).trans
    h.rsp, ?_, ?_, ?_, ?_⟩
  · intro r ty a n hr hn
    rw [hread (.scalar hr hn), h.scalar hr hn]
  · intro d q ty hd
    rw [hquiet.regs q (.inl (mem_parameterRegisters hd))]
    exact h.register hd
  · intro d δ ty a hd ha
    rw [hread (.pointer hd), h.pointer hd ha]
  · intro d q ty a hd ha
    rw [hquiet.regs q (.inl (mem_parameterRegisters hd)), h.handle hd ha]

/-- Stores that agree on all scalars. -/
theorem congr (h : A.Represents σ m)
    (hlocated : ∀ {r ty a n}, A.Located r ty a → ty.scalarBytes = some n → σ' r = σ r)
    (hregister : ∀ {d q ty}, A.context.frame.slot? d = some ⟨.register q, ty, false⟩ →
      σ' (.whole (.inner d)) = σ (.whole (.inner d))) : A.Represents σ' m := by
  refine ⟨h.rbp, h.rsp, ?_, ?_, h.pointer, h.handle⟩
  · intro r ty a n hr hn
    rw [hlocated hr hn, h.scalar hr hn]
  · intro d q ty hd
    rw [hregister hd]
    exact h.register hd

/-- A value is written to memory. -/
theorem write (hA : A.Of f) (h : A.Represents σ m) (hr : A.Located r ty a)
    (hn : ty.scalarBytes = some n) (hv : v.Fits ty) :
    A.Represents (σ.set r v) { m with mem := m.mem.write a n v.word.toNat } := by
  have hoccupies : A.Occupies r a n := .scalar hr hn
  have hle := hoccupies.le
  refine ⟨h.rbp, h.rsp, ?_, ?_, ?_, h.handle⟩
  · intro q ty' b k hq hk
    have hq' : A.Occupies q b k := .scalar hq hk
    by_cases heq : q = r
    · subst heq
      obtain ⟨rfl, rfl⟩ := hoccupies.unique hq'
      rw [Store.set_self, Memory.read_write (by omega) (hv n hn)]
    · have hle' := hq'.le
      rw [Store.set_of_ne σ v heq,
        Memory.read_write_of_apart (by omega) (hA.apart hoccupies hq' (Ne.symm heq)),
        h.scalar hq hk]
  · intro d q ty' hd
    rw [Store.set_of_ne σ v (hr.ne_of_register hd).symm]
    exact h.register hd
  · intro d δ ty' b hd hb
    have hne : r ≠ .whole (.inner d) := by
      rintro rfl
      exact hr.not_pointer rfl hd
    rw [Memory.read_write_of_apart (by decide) (hA.apart hoccupies (.pointer hd) hne),
      h.pointer hd hb]

/-- A value is put into the register of a parameter. -/
theorem assign (hA : A.Of f) (h : A.Represents σ m) {d : NodeId} {q : Register}
    (hd : A.context.frame.slot? d = some ⟨.register q, ty, false⟩) (hv : v.Fits ty) :
    A.Represents (σ.set (.whole (.inner d)) v) (m.set q v.word) := by
  obtain ⟨taken, -, hsound, -⟩ := hA.lowers.frame_sound
  have htracked := Register.mem_tracked_of_arguments
    (hsound.parameterRegisters.2 q (mem_parameterRegisters hd))
  refine ⟨?_, ?_, ?_, ?_, h.pointer, ?_⟩
  · rw [regs_set_of_ne _ _ (Register.ne_rbp_of_tracked htracked).symm, h.rbp]
  · rw [regs_set_of_ne _ _ (Register.ne_rsp_of_tracked htracked).symm, h.rsp]
  · intro r ty' a n hr hn
    rw [mem_set, Store.set_of_ne σ v (hr.ne_of_register hd), h.scalar hr hn]
  · intro d' q' ty' hd'
    by_cases heq : d' = d
    · subst heq
      cases hd.symm.trans hd'
      rw [regs_set_self, Store.set_self]
      exact ⟨rfl, hv⟩
    · have hq : q' ≠ q := by
        rintro rfl
        exact hsound.register_ne hd' hd heq rfl rfl
      have hne : Region.whole (.inner d') ≠ .whole (.inner d) := fun h => heq (by cases h; rfl)
      rw [regs_set_of_ne _ _ hq, Store.set_of_ne σ v hne]
      exact h.register hd'
  · intro d' q' ty' a hd' ha
    have hne : d' ≠ d := by
      rintro rfl
      cases hd.symm.trans hd'
    have hq : q' ≠ q := by
      rintro rfl
      exact hsound.register_ne hd' hd hne rfl rfl
    rw [regs_set_of_ne _ _ hq, h.handle hd' ha]

end Represents

end Activation

end MiniJ
