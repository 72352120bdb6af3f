import MiniJ.Proofs.Layout.Size
import MiniJ.Proofs.Lowering.Context
import Mathlib.Data.List.Nodup
import Mathlib.Data.List.Pairwise

/-!
# Frames

The storage that a frame gives to the parameters and locals of a function: register parameters have
registers of their own, the others lie above the frame pointer, and everything else has bytes of its
own below it.

## Main definitions

* `Frame.Placed` — where a variable can be.
* `Frame.Separate` — two variables have no storage in common.

## Main statements

* `Frame.sound_layout` — all variables of a function have storage, and no two share any.
-/
namespace MiniJ

open Outcome

/-- Bytes that a variable takes. -/
def Slot.Takes (table : SymbolTable) (slot : Slot) (n : Nat) : Prop :=
  if slot.isReference then n = handleSize else table.sizeOf slot.ty = .ok (some n)

/-- A variable that fits into a word: references and everything but records. -/
def Slot.FitsWord (slot : Slot) : Prop := slot.isReference = true ∨ slot.ty.isRecord = false

theorem Slot.Takes.unique {table : SymbolTable} {slot : Slot} {n n' : Nat}
    (h : slot.Takes table n) (h' : slot.Takes table n') : n = n' := by
  unfold Takes at h h'
  split at h
  · next href =>
    rw [if_pos href] at h'
    exact h.trans h'.symm
  · next href =>
    rw [if_neg href] at h'
    cases h.symm.trans h'
    rfl

theorem Slot.FitsWord.le {table : SymbolTable} {slot : Slot} {n : Nat} (h : slot.FitsWord)
    (hn : slot.Takes table n) : n ≤ 8 := by
  unfold Takes at hn
  split at hn
  · exact Nat.le_of_eq hn
  · next href =>
    rcases SymbolTable.sizeOf_scalar hn (h.resolve_left href) with ⟨rfl, -⟩ | ⟨rfl, -⟩ <;> decide

namespace Frame

variable {a : Arena} {table : SymbolTable} {info : SemanticInfo} {f g : Frame} {b : Binder}
  {d index : Nat} {taken : List NodeId}

/-- The variable of a binder with its storage. -/
def slotOf (b : Binder) (storage : Storage) : Slot := ⟨storage, b.ty, b.isReference⟩

/-! ### Allocation -/

theorem roundUp_eq_ok {n unit m : Nat} (h : roundUp n unit = .ok m) (hunit : 0 < unit) :
    n ≤ m ∧ m < sizeLimit := by
  unfold roundUp at h
  dsimp only at h
  split at h
  · next hlt =>
    cases h
    have hdiv := Nat.div_add_mod (n + unit - 1) unit
    have hmod := Nat.mod_lt (n + unit - 1) hunit
    rw [Nat.mul_comm] at hdiv
    exact ⟨by omega, hlt⟩
  · cases h

theorem dvd_of_roundUp {n unit m : Nat} (h : roundUp n unit = .ok m) : unit ∣ m := by
  unfold roundUp at h
  dsimp only at h
  split at h
  · cases h
    exact Nat.dvd_mul_left _ _
  · cases h

/-- What the displacements of a type are multiples of. -/
def alignment (ty : Ty) : Nat := if ty = .bool then 4 else 8

theorem alignment_cases (ty : Ty) : alignment ty = 4 ∨ alignment ty = 8 := by
  unfold alignment
  split
  · exact .inl rfl
  · exact .inr rfl

theorem alignment_dvd_displacement {ty : Ty} {used : Nat} (h : alignment ty ∣ used) :
    (alignment ty : Int) ∣ -SymbolTable.displacement used := by
  unfold SymbolTable.displacement sizeLimit
  rcases alignment_cases ty with hty | hty <;> rw [hty] at h ⊢ <;> split <;> omega

/-- Storage below the bytes in use. -/
structure Allocates (table : SymbolTable) (d : Nat) (b : Binder) (f g : Frame) (used n : Nat) :
    Prop where
  takes : (slotOf b (.frame (-SymbolTable.displacement used))).Takes table n
  fits : f.size + n ≤ used
  limit : used < sizeLimit
  range : Address.inRange (-SymbolTable.displacement used) = true
  size : g.size = used
  slots : g.slots = (d, slotOf b (.frame (-SymbolTable.displacement used))) ::
    f.slots.filter (·.1 != d)
  aligned : alignment b.ty ∣ used

theorem slotSize_eq_ok {span : Span} {n : Nat} {storage : Storage}
    (h : slotSize table b span = .ok n) : (slotOf b storage).Takes table n := by
  unfold slotSize at h
  unfold Slot.Takes slotOf
  split at h
  · next href =>
    rw [if_pos href]
    exact (pure_eq_ok.1 h).symm
  · next href =>
    rw [if_neg href]
    obtain ⟨size, hsize, hrest⟩ := bind_eq_ok.1 h
    cases size with
    | none => exact (throw_ne_ok hrest).elim
    | some k =>
      cases pure_eq_ok.1 hrest
      exact lift_eq_ok.1 hsize

theorem allocate_eq_ok {size : Nat} {ty : Ty} {δ : Int} (h : f.allocate size ty = .ok (δ, g)) :
    ∃ used, f.size + size ≤ used ∧ used < sizeLimit ∧ δ = -SymbolTable.displacement used ∧
      Address.inRange δ = true ∧ alignment ty ∣ used ∧ g = { f with size := used } := by
  obtain ⟨sum, hsum, hround⟩ := bind_eq_ok.1 h
  obtain ⟨used, hused, hrest⟩ := bind_eq_ok.1 hround
  obtain ⟨-, rfl⟩ := addSize_eq_ok.1 hsum
  obtain ⟨hle, hlt⟩ := roundUp_eq_ok hused (by split <;> decide)
  dsimp only at hrest
  split at hrest
  · exact (throw_ne_ok (bind_eq_ok.1 hrest).choose_spec.1).elim
  · next hrange =>
    cases pure_eq_ok.1 hrest
    exact ⟨used, hle, hlt, rfl, by simpa using hrange, dvd_of_roundUp hused, rfl⟩

/-- What giving a variable storage below the others comes to. -/
theorem allocates_of_eq_ok {span : Span} {n : Nat} {δ : Int} {f' : Frame}
    (hn : slotSize table b span = .ok n) (h : f.allocate n b.ty = .ok (δ, f'))
    (hsize : g.size = f'.size) (hslots : g.slots = (f'.insert d b (.frame δ)).slots) :
    ∃ used, δ = -SymbolTable.displacement used ∧ f'.copied = f.copied ∧ f'.homed = f.homed ∧
      Allocates table d b f g used n := by
  obtain ⟨used, hfits, hlimit, rfl, hrange, haligned, rfl⟩ := allocate_eq_ok h
  exact ⟨used, rfl, rfl, rfl, slotSize_eq_ok hn, hfits, hlimit, hrange, hsize, hslots, haligned⟩

/-! ### Variables -/

/-- The parameter with an index gets storage: where it comes in, or bytes of its own. -/
inductive AddsParameter (table : SymbolTable) (taken : List NodeId) (index d : Nat) (b : Binder)
    (f g : Frame) : Prop
  | stays (word : (slotOf b (incoming index)).FitsWord) (free : ∀ r, incoming index = .register r →
      d ∉ taken) (size : g.size = f.size)
      (slots : g.slots = (d, slotOf b (incoming index)) :: f.slots.filter (·.1 != d))
      (copied : g.copied = f.copied) (homed : g.homed = f.homed)
  | homed {used n : Nat} {r : Register} (allocates : Allocates table d b f g used n)
      (copied : g.copied = f.copied) (homed : g.homed = f.homed ++
        [⟨r, .frame (-SymbolTable.displacement used), .ofSize n⟩])
      (source : incoming index = .register r) (passed : d ∈ taken)
      (word : (slotOf b (incoming index)).FitsWord)
  | copied {used n : Nat} {record : String} (type : b.ty = .record record)
      (value : b.isReference = false) (allocates : Allocates table d b f g used n)
      (copied : g.copied = f.copied ++
        [⟨d, incoming index, .frame (-SymbolTable.displacement used), record⟩])
      (homed : g.homed = f.homed)

theorem fitsWord_of_not_record {storage : Storage}
    (h : ∀ record, b.ty = .record record → b.isReference = false → False) :
    (slotOf b storage).FitsWord := by
  cases href : b.isReference with
  | true => exact .inl href
  | false =>
    refine .inr ?_
    cases hty : b.ty with
    | record record => exact (h record hty href).elim
    | _ => simp [slotOf, hty, Ty.isRecord]

theorem addParameter_eq_ok (hd : a.kind d = .ok (.declaration b))
    (h : addParameter a table taken f index d = .ok g) :
    AddsParameter table taken index d b f g := by
  obtain ⟨span, hnode⟩ := Arena.kind_eq_ok_iff.1 hd
  simp only [addParameter, bind_eq_ok, lift_eq_ok] at h
  obtain ⟨n, hn, hmatch⟩ := h
  cases hnode.symm.trans hn
  simp only [NodeKind.binder?] at hmatch
  split at hmatch
  · next record hty href =>
    obtain ⟨size, hsize, hrest⟩ := bind_eq_ok.1 hmatch
    obtain ⟨⟨δ, f'⟩, halloc, hdone⟩ := bind_eq_ok.1 hrest
    have hg := pure_eq_ok.1 hdone
    obtain ⟨used, rfl, hcopied, hhomed, hallocates⟩ := allocates_of_eq_ok (d := d) (g := g) hsize
      (lift_eq_ok.1 halloc) (by rw [← hg]; rfl) (by rw [← hg])
    exact .copied hty href hallocates (by rw [← hg, ← hcopied]) (by rw [← hg, ← hhomed]; rfl)
  · next r hsource hrecord =>
    split at hmatch
    · next hpassed =>
      obtain ⟨size, hsize, hrest⟩ := bind_eq_ok.1 hmatch
      obtain ⟨⟨δ, f'⟩, halloc, hdone⟩ := bind_eq_ok.1 hrest
      have hg := pure_eq_ok.1 hdone
      obtain ⟨used, rfl, hcopied, hhomed, hallocates⟩ := allocates_of_eq_ok (d := d) (g := g) hsize
        (lift_eq_ok.1 halloc) (by rw [← hg]; rfl) (by rw [← hg])
      exact .homed hallocates (by rw [← hg, ← hcopied]; rfl) (by rw [← hg, ← hhomed]) hsource
        (by simpa using hpassed) (fitsWord_of_not_record hrecord)
    · next hfree =>
      obtain rfl := pure_eq_ok.1 hmatch
      refine .stays (fitsWord_of_not_record hrecord) (fun _ _ => by simpa using hfree)
        rfl ?_ rfl rfl
      rw [hsource]
      rfl
  · next hrecord hregister =>
    obtain rfl := pure_eq_ok.1 hmatch
    exact .stays (fitsWord_of_not_record hrecord) (fun r hr => (hregister r hr).elim) rfl rfl rfl
      rfl

theorem addLocal_eq_ok (hd : a.kind d = .ok (.declaration b)) (h : addLocal a table f d = .ok g) :
    g.copied = f.copied ∧ g.homed = f.homed ∧ ∃ used n, Allocates table d b f g used n := by
  obtain ⟨span, hnode⟩ := Arena.kind_eq_ok_iff.1 hd
  simp only [addLocal, bind_eq_ok, lift_eq_ok] at h
  obtain ⟨n, hn, hmatch⟩ := h
  cases hnode.symm.trans hn
  obtain ⟨size, hsize, hrest⟩ := bind_eq_ok.1 hmatch
  obtain ⟨⟨δ, f'⟩, halloc, hdone⟩ := bind_eq_ok.1 hrest
  have hg := pure_eq_ok.1 hdone
  obtain ⟨used, rfl, hcopied, hhomed, hallocates⟩ := allocates_of_eq_ok (d := d) (g := g) hsize
    (lift_eq_ok.1 halloc) (by rw [← hg]; rfl) (by rw [← hg])
  exact ⟨by rw [← hg, ← hcopied]; rfl, by rw [← hg, ← hhomed]; rfl, used, size, hallocates⟩

/-! ### Storage -/

/-- Where a variable can be, after the parameters before `index`: in the register of a parameter,
with the parameters on the stack, or among the `size` bytes below the frame pointer. -/
inductive Placed (table : SymbolTable) (index size : Nat) (slot : Slot) : Prop
  | register {r : Register} {i : Nat} (storage : slot.storage = .register r)
      (argument : Register.arguments[i]? = some r) (earlier : i < index) (word : slot.FitsWord)
  | above {i : Nat} (storage : slot.storage = .frame (16 + 8 * (i : Int)))
      (earlier : i + 6 < index) (word : slot.FitsWord)
  | below {used n : Nat} (storage : slot.storage = .frame (-SymbolTable.displacement used))
      (takes : slot.Takes table n) (fits : n ≤ used) (inside : used ≤ size)
      (range : Address.inRange (-SymbolTable.displacement used) = true)

theorem Placed.mono {index index' size size' : Nat} {slot : Slot}
    (h : Placed table index size slot) (hindex : index ≤ index') (hsize : size ≤ size') :
    Placed table index' size' slot := by
  cases h with
  | register storage argument earlier word => exact .register storage argument (by omega) word
  | above storage earlier word => exact .above storage (by omega) word
  | below storage takes fits inside range => exact .below storage takes fits (by omega) range

/-- Two variables have no storage in common. -/
def Separate (table : SymbolTable) (slot slot' : Slot) : Prop :=
  match slot.storage, slot'.storage with
  | .register r, .register r' => r ≠ r'
  | .frame δ, .frame δ' => ∀ n n' : Nat, slot.Takes table n → slot'.Takes table n' →
      δ + n ≤ δ' ∨ δ' + n' ≤ δ
  | _, _ => True

theorem Separate.symm {slot slot' : Slot} (h : Separate table slot slot') :
    Separate table slot' slot := by
  unfold Separate at h ⊢
  cases hs : slot.storage <;> cases hs' : slot'.storage <;> simp only [hs, hs'] at h ⊢
  · exact h.symm
  · intro n n' hn hn'
    exact (h n' n hn' hn).symm

/-- Storage below everything else. -/
theorem separate_below {index used n : Nat} {slot slot' : Slot}
    (hslot : slot.storage = .frame (-SymbolTable.displacement used)) (htakes : slot.Takes table n)
    (hfits : f.size + n ≤ used) (hsmall : used < 2147483648)
    (h : Placed table index f.size slot') : Separate table slot slot' := by
  have hused : SymbolTable.displacement used = used := if_pos hsmall
  unfold Separate
  rw [hslot]
  cases h with
  | register storage => simp [storage]
  | above storage earlier word =>
    rw [storage]
    intro k k' hk hk'
    obtain rfl := hk.unique htakes
    omega
  | @below used' n' storage takes fits inside =>
    rw [storage]
    intro k k' hk hk'
    obtain rfl := hk.unique htakes
    have hused' : SymbolTable.displacement used' = used' := if_pos (by omega)
    omega

theorem incoming_cases (index : Nat) :
    (∃ r, Register.arguments[index]? = some r ∧ incoming index = .register r) ∨
      6 ≤ index ∧ incoming index = .frame (16 + 8 * ((index - 6 : Nat) : Int)) := by
  unfold incoming
  split
  · next r hr => exact .inl ⟨r, hr, rfl⟩
  · next hnone =>
    rw [List.getElem?_eq_none_iff] at hnone
    have hlength : Register.arguments.length = 6 := rfl
    refine .inr ⟨by omega, ?_⟩
    rw [hlength]
    congr 2
    omega

/-- Words that the caller pushes are aligned. -/
theorem alignment_dvd_incoming {ty : Ty} {δ : Int} (h : incoming index = .frame δ) :
    (alignment ty : Int) ∣ δ := by
  rcases incoming_cases index with ⟨r, -, hin⟩ | ⟨-, hin⟩
  · cases h.symm.trans hin
  · cases h.symm.trans hin
    rcases alignment_cases ty with hty | hty <;> rw [hty] <;> omega

theorem placed_incoming {index size : Nat} {slot : Slot} (hslot : slot.storage = incoming index)
    (hword : slot.FitsWord) : Placed table (index + 1) size slot := by
  rcases incoming_cases index with ⟨r, hr, hin⟩ | ⟨hindex, hin⟩
  · exact .register (hslot.trans hin) hr (Nat.lt_succ_self index) hword
  · exact .above (hslot.trans hin) (by omega) hword

/-- The registers of earlier parameters are others. -/
theorem register_of_placed {index size : Nat} {slot : Slot} {r : Register}
    (hr : incoming index = .register r) (h : Placed table index size slot) :
    slot.storage ≠ .register r := by
  intro hslot
  rcases incoming_cases index with ⟨q, hq, hin⟩ | ⟨-, hin⟩
  · cases hr.symm.trans hin
    cases h with
    | @register r' i storage argument earlier word =>
      cases hslot.symm.trans storage
      have hnodup : Register.arguments.Nodup := by decide
      have hlt : i < Register.arguments.length := (List.getElem?_eq_some_iff.1 argument).1
      have heq := (List.getElem?_inj hlt hnodup).1 (argument.trans hq.symm)
      omega
    | above storage => cases hslot.symm.trans storage
    | below storage => cases hslot.symm.trans storage
  · cases hr.symm.trans hin

/-- A parameter that stays where it comes in. -/
theorem separate_incoming {index : Nat} {slot slot' : Slot} (hslot : slot.storage = incoming index)
    (hsmall : f.size < 2147483648)
    (h : Placed table index f.size slot') : Separate table slot slot' := by
  unfold Separate
  rw [hslot]
  rcases incoming_cases index with ⟨r, hr, hin⟩ | ⟨hindex, hin⟩
  · have hother := register_of_placed hin h
    rw [hin]
    cases h with
    | register storage =>
      rw [storage] at hother ⊢
      rintro rfl
      exact hother rfl
    | above storage => simp [storage]
    | below storage => simp [storage]
  · rw [hin]
    cases h with
    | register storage => simp [storage]
    | above storage earlier word =>
      rw [storage]
      intro k k' hk hk'
      have := word.le hk'
      omega
    | @below used n storage takes fits inside =>
      rw [storage]
      intro k k' hk hk'
      obtain rfl := hk'.unique takes
      have hused : SymbolTable.displacement used = used := if_pos (by omega)
      omega

/-! ### Frames -/

/-- A record parameter that is copied on entry. -/
structure CopiesTo (table : SymbolTable) (size : Nat) (c : CopiedParameter) : Prop where
  source : ∃ index, c.source = incoming index
  target : ∃ used n, c.address = .frame (-SymbolTable.displacement used) ∧
    table.sizeOf (.record c.record) = .ok (some n) ∧ n ≤ used ∧ used ≤ size ∧
    Address.inRange (-SymbolTable.displacement used) = true

/-- A register parameter that is moved into the frame on entry. -/
def HomesTo (size : Nat) (p : HomedParameter) : Prop :=
  ∃ used, used ≤ size ∧ p.address = .frame (-SymbolTable.displacement used)

/-- What holds of a frame after the parameters before `index`. -/
structure Sound (a : Arena) (table : SymbolTable) (taken : List NodeId) (index : Nat)
    (f : Frame) : Prop where
  placed : ∀ e ∈ f.slots, Placed table index f.size e.2
  declared : ∀ e ∈ f.slots, ∃ b, a.kind e.1 = .ok (.declaration b) ∧ e.2.ty = b.ty ∧
    e.2.isReference = b.isReference
  distinct : (f.slots.map Prod.fst).Nodup
  registers : f.slots.Pairwise fun e e' => ∀ r, e.2.storage = .register r →
    e'.2.storage ≠ .register r
  apart : f.size < 2147483648 → f.slots.Pairwise fun e e' => Separate table e.2 e'.2
  homed : ∀ e ∈ f.slots, e.1 ∈ taken → ∀ r, e.2.storage ≠ .register r
  copied : ∀ c ∈ f.copied, CopiesTo table f.size c
  moved : ∀ p ∈ f.homed, HomesTo f.size p
  aligned : ∀ e ∈ f.slots, ∀ δ, e.2.storage = .frame δ → (alignment e.2.ty : Int) ∣ δ

theorem HomesTo.mono {size size' : Nat} {p : HomedParameter} (h : HomesTo size p)
    (hsize : size ≤ size') : HomesTo size' p := by
  obtain ⟨used, hused, haddress⟩ := h
  exact ⟨used, by omega, haddress⟩

theorem CopiesTo.mono {size size' : Nat} {c : CopiedParameter} (h : CopiesTo table size c)
    (hsize : size ≤ size') : CopiesTo table size' c := by
  obtain ⟨hsource, used, n, haddress, hn, hle, hused, hrange⟩ := h
  exact ⟨hsource, used, n, haddress, hn, hle, by omega, hrange⟩

/-- A new variable. -/
theorem Sound.insert {index index' : Nat} {slot : Slot} (h : Sound a table taken index f)
    (hb : a.kind d = .ok (.declaration b) ∧ slot.ty = b.ty ∧ slot.isReference = b.isReference)
    (hindex : index ≤ index') (hsize : f.size ≤ g.size)
    (hslots : g.slots = (d, slot) :: f.slots.filter (·.1 != d))
    (hplaced : Placed table index' g.size slot)
    (hregisters : ∀ r, slot.storage = .register r → ∀ e ∈ f.slots, e.2.storage ≠ .register r)
    (hapart : g.size < 2147483648 → ∀ e ∈ f.slots, Separate table slot e.2)
    (hhomed : d ∈ taken → ∀ r, slot.storage ≠ .register r)
    (hcopied : ∀ c ∈ g.copied, c ∈ f.copied ∨ CopiesTo table g.size c)
    (hmoved : ∀ p ∈ g.homed, p ∈ f.homed ∨ HomesTo g.size p)
    (haligned : ∀ δ, slot.storage = .frame δ → (alignment slot.ty : Int) ∣ δ) :
    Sound a table taken index' g := by
  have hmem : ∀ e ∈ g.slots, e = (d, slot) ∨ e ∈ f.slots := by
    intro e he
    rw [hslots, List.mem_cons] at he
    exact he.imp_right fun he => (List.mem_filter.1 he).1
  refine ⟨?_, ?_, ?_, ?_, ?_, ?_, ?_, ?_, ?_⟩
  · intro e he
    rcases hmem e he with rfl | he
    · exact hplaced
    · exact (h.placed e he).mono hindex hsize
  · intro e he
    rcases hmem e he with rfl | he
    · exact ⟨b, hb⟩
    · exact h.declared e he
  · rw [hslots, List.map_cons, List.nodup_cons]
    refine ⟨by simp, ?_⟩
    exact h.distinct.sublist ((List.filter_sublist).map _)
  · rw [hslots, List.pairwise_cons]
    refine ⟨fun e he r hr => hregisters r hr e (List.mem_filter.1 he).1, ?_⟩
    exact h.registers.sublist List.filter_sublist
  · intro hsmall
    rw [hslots, List.pairwise_cons]
    refine ⟨fun e he => hapart hsmall e (List.mem_filter.1 he).1, ?_⟩
    exact (h.apart (by omega)).sublist List.filter_sublist
  · intro e he htaken
    rcases hmem e he with rfl | he
    · exact hhomed htaken
    · exact h.homed e he htaken
  · intro c hc
    rcases hcopied c hc with hc | hc
    · exact (h.copied c hc).mono hsize
    · exact hc
  · intro p hp
    rcases hmoved p hp with hp | hp
    · exact (h.moved p hp).mono hsize
    · exact hp
  · intro e he
    rcases hmem e he with rfl | he
    · exact haligned
    · exact h.aligned e he

/-- A variable below the others. -/
theorem Sound.allocate {index index' used n : Nat} (h : Sound a table taken index f)
    (hd : a.kind d = .ok (.declaration b)) (hindex : index ≤ index')
    (halloc : Allocates table d b f g used n)
    (hcopied : ∀ c ∈ g.copied, c ∈ f.copied ∨ CopiesTo table g.size c)
    (hmoved : ∀ p ∈ g.homed, p ∈ f.homed ∨ HomesTo g.size p) :
    Sound a table taken index' g := by
  have hle := halloc.fits
  refine h.insert ⟨hd, rfl, rfl⟩ hindex (by rw [halloc.size]; omega) halloc.slots ?_ nofun ?_ ?_
    hcopied hmoved ?_
  · refine .below rfl halloc.takes (by omega) (Nat.le_of_eq halloc.size.symm) halloc.range
  · intro hsmall e he
    exact separate_below rfl halloc.takes hle (halloc.size ▸ hsmall) (h.placed e he)
  · intro _ r
    simp [slotOf]
  · rintro δ hδ
    cases hδ
    exact alignment_dvd_displacement halloc.aligned

theorem Sound.addParameter {index : Nat} (h : Sound a table taken index f)
    (hd : a.IsDeclaration d) (hadd : addParameter a table taken f index d = .ok g) :
    Sound a table taken (index + 1) g := by
  obtain ⟨b, hb⟩ := hd
  cases addParameter_eq_ok hb hadd with
  | stays word free size slots copied homed =>
    refine h.insert ⟨hb, rfl, rfl⟩ (Nat.le_succ _) (Nat.le_of_eq size.symm) slots
      (placed_incoming rfl word) ?_ ?_ ?_ (fun c hc => .inl (copied ▸ hc))
      (fun p hp => .inl (homed ▸ hp)) fun δ hδ => alignment_dvd_incoming hδ
    · intro r hr e he
      exact register_of_placed hr (h.placed e he)
    · intro hsmall e he
      exact separate_incoming rfl (size ▸ hsmall) (h.placed e he)
    · intro htaken r hr
      exact free r hr htaken
  | homed allocates copied homed =>
    refine h.allocate hb (Nat.le_succ _) allocates (fun c hc => .inl (copied ▸ hc)) fun p hp => ?_
    rw [homed, List.mem_append, List.mem_singleton] at hp
    refine hp.imp_right fun hp => ?_
    subst hp
    exact ⟨_, Nat.le_of_eq allocates.size.symm, rfl⟩
  | @copied used n record type value allocates copied homed =>
    refine h.allocate hb (Nat.le_succ _) allocates (fun c hc => ?_) fun p hp => .inl (homed ▸ hp)
    rw [copied, List.mem_append, List.mem_singleton] at hc
    refine hc.imp_right fun hc => ?_
    subst hc
    have htakes := allocates.takes
    have hle := allocates.fits
    simp only [Slot.Takes, slotOf, value, type] at htakes
    exact ⟨⟨index, rfl⟩, used, n, rfl, htakes, by omega, Nat.le_of_eq allocates.size.symm,
      allocates.range⟩

theorem Sound.addParameters {index : Nat} {params : List NodeId}
    (h : Sound a table taken index f) (hparams : ∀ p ∈ params, a.IsDeclaration p)
    (hadd : addParameters a table taken index params f = .ok g) :
    Sound a table taken (index + params.length) g := by
  induction params generalizing index f with
  | nil =>
    cases pure_eq_ok.1 hadd
    exact h
  | cons p params ih =>
    obtain ⟨f', hp, hrest⟩ := bind_eq_ok.1 hadd
    have hsound := ih (h.addParameter (hparams p (by simp)) hp)
      (fun q hq => hparams q (by simp [hq])) hrest
    rwa [Nat.add_assoc, Nat.add_comm 1] at hsound

theorem Sound.addLocal {index : Nat} (h : Sound a table taken index f)
    (hd : a.IsDeclaration d) (hadd : addLocal a table f d = .ok g) :
    Sound a table taken index g := by
  obtain ⟨b, hb⟩ := hd
  obtain ⟨hcopied, hhomed, used, n, halloc⟩ := addLocal_eq_ok hb hadd
  exact h.allocate hb (Nat.le_refl _) halloc (fun c hc => .inl (hcopied ▸ hc))
    fun p hp => .inl (hhomed ▸ hp)

/-- An invariant of adding locals holds after all of them. -/
theorem addLocals_induction {P : Frame → Prop} {ids : List NodeId}
    (hstep : ∀ d ∈ ids, ∀ f g, P f → Frame.addLocal a table f d = .ok g → P g) (hf : P f)
    (h : ids.foldlM (Frame.addLocal a table) f = .ok g) : P g := by
  induction ids generalizing f with
  | nil =>
    cases pure_eq_ok.1 h
    exact hf
  | cons d ids ih =>
    obtain ⟨f', hd, hrest⟩ := foldlM_cons_eq_ok.1 h
    exact ih (fun q hq => hstep q (by simp [hq])) (hstep d (by simp) f f' hf hd) hrest

/-- The locals of a statement are the declarations that run in it. -/
theorem mem_localsOf {statement : Nat} {ids : List NodeId} (h : localsOf a statement = .ok ids) :
    d ∈ ids ↔ ∃ x, a.Below statement x ∧ a.kind x = .ok (.declare d) := by
  simp only [localsOf, bind_eq_ok, mapM_eq_ok, pure_eq_ok] at h
  obtain ⟨nodes, hnodes, kinds, hkinds, rfl⟩ := h
  rw [List.mem_filterMap]
  constructor
  · rintro ⟨k, hk, hd⟩
    obtain ⟨x, hx, hxk⟩ := exists_of_forall₂_right hkinds hk
    cases k with
    | declare d' =>
      cases hd
      exact ⟨x, (Arena.mem_walk hnodes x).1 hx, hxk⟩
    | _ => cases hd
  · rintro ⟨x, hx, hxk⟩
    obtain ⟨k, hk, hxk'⟩ := exists_of_forall₂_left hkinds ((Arena.mem_walk hnodes x).2 hx)
    cases hxk.symm.trans hxk'
    exact ⟨_, hk, rfl⟩

/-! ### Variables passed by reference -/

/-- A variable that is passed by reference. -/
theorem takenBy_eq {arg param e : Nat} {name : String} {x : Entry} {ty : Ty} {ref : Bool}
    {cls : VariableClass} (hb : a.kind param = .ok (.declaration b)) (href : b.isReference = true)
    (hk : a.kind arg = .ok (.var name)) (hresolved : info.resolvedEntry arg = some e)
    (hentry : table.entry e = .ok x) (hmeaning : x.meaning = .var ty ref cls d) :
    takenBy a info table arg param = .ok (some d) := by
  simp only [takenBy, Arena.binder?_eq_ok hb, ok_bind, Option.any_some, href, Bool.not_true,
    Bool.false_eq_true, if_false, hk, hresolved, hentry, hmeaning]
  rfl

theorem mem_takenAt {id callee arg param : Nat} {name : String} {args : List NodeId}
    {function : FunctionNode} {found : List NodeId} (hk : a.kind id = .ok (.call name args))
    (htarget : info.callTarget id = some (.function callee))
    (hfunction : a.function? callee = .ok (some function))
    (hmem : (arg, param) ∈ args.zip function.params)
    (htaken : takenBy a info table arg param = .ok (some d))
    (h : takenAt a info table id = .ok found) : d ∈ found := by
  simp only [takenAt, hk, htarget, hfunction, ok_bind, bind_eq_ok, mapM_eq_ok, pure_eq_ok] at h
  obtain ⟨lists, hlists, rfl⟩ := h
  obtain ⟨o, ho, heq⟩ := exists_of_forall₂_left hlists hmem
  cases htaken.symm.trans heq
  exact List.mem_filterMap.2 ⟨_, ho, rfl⟩

/-- What a part of a statement passes by reference. -/
theorem mem_takenIn {statement id : Nat} {found : List NodeId} (hbelow : a.Below statement id)
    (hd : ∀ ids, takenAt a info table id = .ok ids → d ∈ ids)
    (h : takenIn a info table statement = .ok found) : d ∈ found := by
  simp only [takenIn, bind_eq_ok, mapM_eq_ok, pure_eq_ok] at h
  obtain ⟨nodes, hnodes, lists, hlists, rfl⟩ := h
  obtain ⟨ids, hids, heq⟩ := exists_of_forall₂_left hlists ((Arena.mem_walk hnodes id).2 hbelow)
  exact List.mem_flatten.2 ⟨ids, hids, hd ids heq⟩

/-! ### Declarations with storage -/

/-- The declarations that have storage. -/
def keys (f : Frame) : List NodeId := f.slots.map Prod.fst

theorem mem_keys_insert {slot : Slot} {x : Nat}
    (hslots : g.slots = (d, slot) :: f.slots.filter (·.1 != d)) (hx : x = d ∨ x ∈ f.keys) :
    x ∈ g.keys := by
  rw [keys, hslots, List.map_cons, List.mem_cons]
  by_cases heq : x = d
  · exact .inl heq
  · obtain ⟨e, he, rfl⟩ := List.mem_map.1 (hx.resolve_left heq)
    exact .inr (List.mem_map_of_mem (List.mem_filter.2 ⟨he, by simpa using heq⟩))

theorem AddsParameter.mem_keys {x : Nat} (h : AddsParameter table taken index d b f g)
    (hx : x = d ∨ x ∈ f.keys) : x ∈ g.keys := by
  cases h with
  | stays word free size slots => exact mem_keys_insert slots hx
  | homed allocates => exact mem_keys_insert allocates.slots hx
  | copied type value allocates => exact mem_keys_insert allocates.slots hx

theorem mem_keys_addParameters {params : List NodeId} {x : Nat}
    (hparams : ∀ p ∈ params, a.IsDeclaration p)
    (h : Frame.addParameters a table taken index params f = .ok g)
    (hx : x ∈ params ∨ x ∈ f.keys) : x ∈ g.keys := by
  induction params generalizing index f with
  | nil =>
    cases pure_eq_ok.1 h
    simpa using hx
  | cons p params ih =>
    obtain ⟨f', hp, hrest⟩ := bind_eq_ok.1 h
    obtain ⟨b, hb⟩ := hparams p (by simp)
    apply ih (fun q hq => hparams q (by simp [hq])) hrest
    rw [List.mem_cons] at hx
    have hadds := addParameter_eq_ok hb hp
    rcases hx with (hx | hx) | hx
    · exact .inr (hadds.mem_keys (.inl hx))
    · exact .inl hx
    · exact .inr (hadds.mem_keys (.inr hx))

theorem mem_keys_foldlM {ids : List NodeId} {x : Nat} (hids : ∀ d ∈ ids, a.IsDeclaration d)
    (h : ids.foldlM (Frame.addLocal a table) f = .ok g) (hx : x ∈ ids ∨ x ∈ f.keys) :
    x ∈ g.keys := by
  induction ids generalizing f with
  | nil =>
    cases pure_eq_ok.1 h
    simpa using hx
  | cons d ids ih =>
    obtain ⟨f', hd, hrest⟩ := foldlM_cons_eq_ok.1 h
    obtain ⟨b, hb⟩ := hids d (by simp)
    obtain ⟨-, -, used, n, halloc⟩ := addLocal_eq_ok hb hd
    apply ih (fun q hq => hids q (by simp [hq])) hrest
    rw [List.mem_cons] at hx
    rcases hx with (hx | hx) | hx
    · exact .inr (mem_keys_insert halloc.slots (.inl hx))
    · exact .inl hx
    · exact .inr (mem_keys_insert halloc.slots (.inr hx))

/-- The variables of a statement have declarations. -/
def LocalsDeclared (a : Arena) (statement : Nat) : Prop :=
  ∀ x d, a.Below statement x → a.kind x = .ok (.declare d) → a.IsDeclaration d

/-- The variables in the body of a function are declarations. -/
theorem localsDeclared_of_tree {function : FunctionNode} {lo id : Nat} (htree : a.Tree lo id)
    (hf : a.kind id = .ok (.function function)) : ∀ r ∈ function.body, LocalsDeclared a r := by
  intro r hr x d hx hk
  obtain ⟨start, hsub, -, -⟩ :=
    htree.sub ((Arena.Below.child hf (List.mem_append_right _ hr) (.self r)).trans hx)
  have hroles := hsub.roles hk
  simp only [NodeKind.partRoles, NodeKind.children, List.forall₂_cons] at hroles
  exact hroles.1.isDeclaration

theorem Sound.addLocals {statement : Nat} (h : Sound a table taken index f)
    (hdecl : LocalsDeclared a statement) (hadd : addLocals a table f statement = .ok g) :
    Sound a table taken index g ∧ (∀ x ∈ f.keys, x ∈ g.keys) ∧
      ∀ x d, a.Below statement x → a.kind x = .ok (.declare d) → d ∈ g.keys := by
  obtain ⟨ids, hids, hfold⟩ := bind_eq_ok.1 hadd
  have hids' := lift_eq_ok.1 hids
  have hall : ∀ d ∈ ids, a.IsDeclaration d := by
    intro d hd
    obtain ⟨x, hx, hk⟩ := (mem_localsOf hids').1 hd
    exact hdecl x d hx hk
  refine ⟨addLocals_induction (P := Sound a table taken index)
    (fun d hd _ _ hf hg => hf.addLocal (hall d hd) hg) h hfold, ?_, ?_⟩
  · exact fun x hx => mem_keys_foldlM hall hfold (.inr hx)
  · exact fun x d hx hk => mem_keys_foldlM hall hfold (.inl ((mem_localsOf hids').2 ⟨x, hx, hk⟩))

theorem Sound.foldlM {body : List NodeId} (h : Sound a table taken index f)
    (hdecl : ∀ r ∈ body, LocalsDeclared a r)
    (hadd : body.foldlM (Frame.addLocals a table) f = .ok g) :
    Sound a table taken index g ∧ (∀ x ∈ f.keys, x ∈ g.keys) ∧
      ∀ r ∈ body, ∀ x d, a.Below r x → a.kind x = .ok (.declare d) → d ∈ g.keys := by
  induction body generalizing f with
  | nil =>
    cases pure_eq_ok.1 hadd
    exact ⟨h, fun _ hx => hx, by simp⟩
  | cons r body ih =>
    obtain ⟨f', hr, hrest⟩ := foldlM_cons_eq_ok.1 hadd
    obtain ⟨hsound, hkeys, hlocals⟩ := h.addLocals (hdecl r (by simp)) hr
    obtain ⟨hsound', hkeys', hlocals'⟩ := ih hsound (fun q hq => hdecl q (by simp [hq])) hrest
    refine ⟨hsound', fun x hx => hkeys' x (hkeys x hx), fun q hq x d hx hk => ?_⟩
    rcases List.mem_cons.1 hq with rfl | hq
    · exact hkeys' d (hlocals x d hx hk)
    · exact hlocals' q hq x d hx hk

theorem lookup_of_mem_keys {x : Nat} (h : x ∈ f.keys) : ∃ slot, f.slot? x = some slot := by
  obtain ⟨⟨y, slot⟩, he, rfl⟩ := List.mem_map.1 h
  unfold slot?
  cases hl : f.slots.lookup y with
  | some slot' => exact ⟨slot', rfl⟩
  | none => exact absurd he (by simpa using List.lookup_eq_none_iff.1 hl (y, slot))

theorem mem_of_slot? {x : Nat} {slot : Slot} (h : f.slot? x = some slot) : (x, slot) ∈ f.slots := by
  obtain ⟨l₁, l₂, heq, -⟩ := List.lookup_eq_some_iff.1 h
  simp [heq]

theorem Sound.enlarge {size : Nat} (h : Sound a table taken index f) (hsize : f.size ≤ size) :
    Sound a table taken index { f with size := size } :=
  ⟨fun e he => (h.placed e he).mono (Nat.le_refl _) hsize, h.declared, h.distinct, h.registers,
    fun hsmall => h.apart (Nat.lt_of_le_of_lt hsize hsmall), h.homed,
    fun c hc => (h.copied c hc).mono hsize, fun p hp => (h.moved p hp).mono hsize, h.aligned⟩

/-- All variables of a function have storage, and no two share any. -/
theorem sound_layout {function : FunctionNode} (hparams : ∀ p ∈ function.params, a.IsDeclaration p)
    (hdecl : ∀ r ∈ function.body, LocalsDeclared a r)
    (h : layout a info table function = .ok g) :
    ∃ taken, function.body.mapM (takenIn a info table) = .ok taken ∧
      Sound a table taken.flatten function.params.length g ∧
      ∀ d, Binding.DeclaredIn a function d → ∃ slot, g.slot? d = some slot := by
  simp only [layout, bind_eq_ok, lift_eq_ok, pure_eq_ok] at h
  obtain ⟨taken, htaken, f₁, hadd, f₂, hlocals, size, hsize, rfl⟩ := h
  have hempty : Sound a table taken.flatten 0 {} :=
    ⟨by simp, by simp, by simp, by simp, by simp, by simp, by simp, by simp, by simp⟩
  have hsound := hempty.addParameters hparams hadd
  rw [Nat.zero_add] at hsound
  obtain ⟨hsound', hkeys, hdeclared⟩ := hsound.foldlM hdecl hlocals
  refine ⟨taken, htaken, hsound'.enlarge (roundUp_eq_ok hsize (by decide)).1, ?_⟩
  rintro d (hd | ⟨r, hr, x, hx, hk⟩)
  · exact lookup_of_mem_keys (f := f₂) (hkeys d (mem_keys_addParameters hparams hadd (.inl hd)))
  · exact lookup_of_mem_keys (f := f₂) (hdeclared r hr x d hx hk)

/-- Different variables have different storage. -/
theorem Sound.separate {d' : Nat} {slot slot' : Slot} (h : Sound a table taken index f)
    (hsmall : f.size < 2147483648) (hd : f.slot? d = some slot) (hd' : f.slot? d' = some slot')
    (hne : d ≠ d') : Separate table slot slot' := by
  have hsymm : Std.Symm fun e e' : NodeId × Slot => Separate table e.2 e'.2 := ⟨fun _ _ h => h.symm⟩
  exact (h.apart hsmall).forall (mem_of_slot? hd) (mem_of_slot? hd') fun heq =>
    hne (congrArg Prod.fst heq)

/-- Different variables are in different registers. -/
theorem Sound.register_ne {d' : Nat} {slot slot' : Slot} {r : Register}
    (h : Sound a table taken index f) (hd : f.slot? d = some slot) (hd' : f.slot? d' = some slot')
    (hne : d ≠ d') (hr : slot.storage = .register r) : slot'.storage ≠ .register r := by
  have hsymm : Std.Symm fun e e' : NodeId × Slot =>
      ∀ r, e.2.storage = .register r → e'.2.storage ≠ .register r :=
    ⟨fun _ _ h r hr hr' => h r hr' hr⟩
  exact h.registers.forall (mem_of_slot? hd) (mem_of_slot? hd')
    (fun heq => hne (congrArg Prod.fst heq)) r hr

theorem mem_parameterRegisters {r : Register} :
    r ∈ f.parameterRegisters ↔ ∃ e ∈ f.slots, e.2.storage = .register r := by
  simp only [parameterRegisters, List.mem_filterMap, List.mem_reverse]
  constructor
  · rintro ⟨⟨d, slot⟩, he, hr⟩
    cases hs : slot.storage with
    | register q =>
      simp only [hs, Option.some.injEq] at hr
      exact ⟨_, he, hr ▸ hs⟩
    | _ => simp [hs] at hr
  · rintro ⟨e, he, hr⟩
    exact ⟨e, he, by simp [hr]⟩

/-- Parameters stay in registers for arguments, each in its own. -/
theorem Sound.parameterRegisters (h : Sound a table taken index f) :
    f.parameterRegisters.Nodup ∧ ∀ r ∈ f.parameterRegisters, r ∈ Register.arguments := by
  constructor
  · unfold Frame.parameterRegisters
    rw [List.filterMap_reverse, List.nodup_reverse]
    refine List.Pairwise.filterMap _ (fun e e' hne q hq q' hq' heq => ?_) h.registers
    subst heq
    cases hs : e.2.storage <;> cases hs' : e'.2.storage <;> simp_all
  · intro r hr
    obtain ⟨e, he, hstorage⟩ := mem_parameterRegisters.1 hr
    cases h.placed e he with
    | register storage argument =>
      cases hstorage.symm.trans storage
      exact List.mem_of_getElem? argument
    | above storage => cases hstorage.symm.trans storage
    | below storage => cases hstorage.symm.trans storage

end Frame

namespace Gen.Context.Lowers

variable {cx : Context} {u : UnitNode} {f : FunctionNode}

theorem locals_declared (h : cx.Lowers u f) : ∀ r ∈ f.body, Frame.LocalsDeclared cx.arena r := by
  obtain ⟨id, hid, hf⟩ := h.member
  obtain ⟨-, start, htree⟩ := h.program.layout.function_tree hid
  exact Frame.localsDeclared_of_tree htree hf

/-- The storage of the function that is lowered. -/
theorem frame_sound (h : cx.Lowers u f) :
    ∃ taken, f.body.mapM (Frame.takenIn cx.arena cx.info cx.table) = .ok taken ∧
      Frame.Sound cx.arena cx.table taken.flatten f.params.length cx.frame ∧
      ∀ d, Binding.DeclaredIn cx.arena f d → ∃ slot, cx.frame.slot? d = some slot := by
  obtain ⟨id, hid, hf⟩ := h.member
  exact Frame.sound_layout (fun p hp => h.program.params_declared hid hf hp) h.locals_declared
    h.frame

end Gen.Context.Lowers

end MiniJ
