import MiniJ.Proofs.Layout.Cells
import MiniJ.Proofs.Lowering.StatementShape
import MiniJ.Proofs.Machine.Execution

/-!
# Code for records

Copying a record reads and writes its cells one by one, through one register; clearing a value
writes zeros over its cells. Each cell is accessed with its own width, so that every byte of a
record is read once and written once.

## Main definitions

* `Address.Room` — an address with bytes behind it that can be addressed.
* `Lowering.copies`, `Lowering.clears` — the code for some cells.

## Main statements

* `Lowering.emits_copyRecord_of_room`, `Lowering.emits_zeroFill_of_room` — records that can be
  addressed have such code.
* `Lowering.copies_of_emits`, `Lowering.clears_of_emits` — there is no other code for them.
* `Lowering.record_tiled` — the scalars of a record tile it, for copies, clearing and field access.
-/
namespace MiniJ

open Outcome

/-- The address some bytes further. -/
def Address.plus (a : Address) (δ : Int) : Address := { a with displacement := a.displacement + δ }

/-- Everything up to the end of `n` bytes behind an address can be addressed. -/
def Address.Room (a : Address) (n : Nat) : Prop :=
  -2147483648 ≤ a.displacement ∧ a.displacement + n < 2147483648

instance {a : Address} {n : Nat} : Decidable (a.Room n) := inferInstanceAs (Decidable (_ ∧ _))

namespace Address

@[simp] theorem plus_zero (a : Address) : a.plus 0 = a := by simp [plus]

@[simp] theorem plus_plus (a : Address) (δ δ' : Int) : (a.plus δ).plus δ' = a.plus (δ + δ') := by
  simp [plus, Int.add_assoc]

theorem offsetBy_eq_ok {a b : Address} {δ : Int} :
    a.offsetBy δ = .ok b ↔ inRange (a.displacement + δ) = true ∧ b = a.plus δ := by
  unfold offsetBy plus
  split
  · next h => simp [h, eq_comm]
  · next h => simp [h]

theorem Room.offsetBy {a : Address} {n before : Nat} (h : a.Room n) (hle : before ≤ n) :
    a.offsetBy before = .ok (a.plus before) := by
  obtain ⟨hlow, hhigh⟩ := h
  refine offsetBy_eq_ok.2 ⟨?_, rfl⟩
  simp only [inRange, Bool.and_eq_true, decide_eq_true_eq]
  omega

end Address

namespace Lowering

open Gen SymbolTable

variable {cx : Context} {s s' : State} {code : List Line} {id : NodeId} {ty : Ty} {depth n o : Nat}
  {within : List String} {leaves : List Ty} {r : Register}

/-- The width a cell is accessed with. -/
def cellWidth (ty : Ty) : Width := .ofSize ty.cellBytes

/-- Copies some cells through a register. -/
def copies (r : Register) (source target : Address) (cells : List (Nat × Ty)) : List Line :=
  cells.flatMap fun c => [.instruction .mov [.sized (cellWidth c.2) r, .mem (cellWidth c.2)
    (source.plus c.1)],
    .instruction .mov [.mem (cellWidth c.2) (target.plus c.1), .sized (cellWidth c.2) r]]

/-- Writes zeros over some cells. -/
def clears (a : Address) (cells : List (Nat × Ty)) : List Line :=
  cells.map fun c => .instruction .mov [.mem (cellWidth c.2) (a.plus c.1), .imm 0]

/-! ### Walks -/

/-- A step has no other code than `code`, and it has this code if `ready` holds. -/
structure Fixed (cx : Context) (ready : Prop) (g : Gen Unit) (code : List Line) : Prop where
  eq : ∀ {s s' code'}, Emits g cx s () code' s' → s' = s ∧ code' = code
  emits : ready → ∀ s, Emits g cx s () code s

section Fixed

variable {α : Type} {f : α → Gen Unit} {x : α} {xs : List α} {ready : Prop} {code' : List Line}

theorem Fixed.nil : Fixed cx ready (([] : List α).forM f) [] := by
  refine ⟨fun h => ?_, fun _ _ => emits_forM_nil.2 ⟨rfl, rfl⟩⟩
  obtain ⟨rfl, rfl⟩ := emits_forM_nil.1 h
  exact ⟨rfl, rfl⟩

theorem Fixed.cons (h : Fixed cx ready (f x) code) (h' : Fixed cx ready (xs.forM f) code') :
    Fixed cx ready ((x :: xs).forM f) (code ++ code') := by
  refine ⟨fun hemits => ?_, fun hready s =>
    emits_forM_cons.2 ⟨_, s, _, h.emits hready s, h'.emits hready s, rfl⟩⟩
  obtain ⟨c, t, c', hfirst, hothers, rfl⟩ := emits_forM_cons.1 hemits
  obtain ⟨rfl, rfl⟩ := h.eq hfirst
  obtain ⟨rfl, rfl⟩ := h'.eq hothers
  exact ⟨rfl, rfl⟩

end Fixed

/-- Lowering that goes through the cells of a value at a position, records field by field. -/
structure Traverses {α : Type} (cx : Context) (visit : Nat → Ty → α → Gen Unit)
    (shift : α → Int → α) (reachable : α → Int → Prop) (lines : Width → α → List Line) : Prop where
  shift_zero : ∀ a, shift a 0 = a
  shift_shift : ∀ a δ δ', shift (shift a δ) δ' = shift a (δ + δ')
  reachable_shift : ∀ a δ δ', reachable (shift a δ) δ' ↔ reachable a (δ + δ')
  scalar : ∀ {depth ty n a s code s'}, ty.isRecord = false → cx.table.sizeOf ty = .ok (some n) →
    (Emits (visit depth ty a) cx s () code s' ↔ code = lines (.ofSize n) a ∧ s' = s)
  limit : ∀ {name a s code s'}, ¬Emits (visit 0 (.record name) a) cx s () code s'
  record : ∀ {d name found a}, cx.table.fields name = .ok (some found) →
    ∃ step : Int × Ty → Gen Unit,
      (∀ {s code s'}, Emits (visit (d + 1) (.record name) a) cx s () code s' ↔
        Emits (found.forM step) cx s () code s') ∧
      ∀ {p s code s'}, Emits (step p) cx s () code s' ↔
        reachable a p.1 ∧ Emits (visit d p.2 (shift a p.1)) cx s () code s'

namespace Traverses

variable {α : Type} {visit : Nat → Ty → α → Gen Unit} {shift : α → Int → α}
  {reachable : α → Int → Prop} {lines : Width → α → List Line} {a : α}

/-- The lines for some cells. -/
def walked (shift : α → Int → α) (lines : Width → α → List Line) (a : α)
    (cells : List (Nat × Ty)) : List Line :=
  cells.flatMap fun c => lines (cellWidth c.2) (shift a c.1)

/-- A walk from a later position. -/
theorem walked_shift (h : Traverses cx visit shift reachable lines) :
    walked shift lines (shift a o) (cells 0 leaves) = walked shift lines a (cells o leaves) := by
  have hcells : cells o leaves = (cells 0 leaves).map fun c => (o + c.1, c.2) := cells_add (k := 0)
  rw [walked, walked, hcells, List.flatMap_map]
  simp [h.shift_shift]

theorem fixed_scalar {ready : Prop} (h : Traverses cx visit shift reachable lines)
    (hplain : ty.isRecord = false) (hn : cx.table.sizeOf ty = .ok (some n))
    (hleaves : cx.table.Expands [ty] leaves) :
    Fixed cx ready (visit depth ty a) (walked shift lines a (cells 0 leaves)) := by
  obtain rfl : leaves = [ty] := hleaves.unique (.leaf hplain .nil)
  have hcell : ty.cellBytes = n := by
    have hsize := hn
    rw [SymbolTable.sizeOf, storageSize, sizeWithin_scalar hplain, Except.ok.injEq] at hsize
    simp [Ty.cellBytes, hsize]
  have hwalked : walked shift lines a (cells 0 [ty]) = lines (.ofSize n) a := by
    simp [walked, cells, cellWidth, hcell, h.shift_zero]
  rw [hwalked]
  exact ⟨fun hemits => ((h.scalar hplain hn).1 hemits).symm,
    fun _ _ => (h.scalar hplain hn).2 ⟨rfl, rfl⟩⟩

/-- The fields from some position on are walked through one after the other. -/
theorem fixed_fields {step : Int × Ty → Gen Unit} {fields : List Field} {sizes : List Nat}
    (h : Traverses cx visit shift reachable lines) (hsmall : n < 2147483648)
    (hstep : ∀ {p s code s'}, Emits (step p) cx s () code s' ↔
      reachable a p.1 ∧ Emits (visit depth p.2 (shift a p.1)) cx s () code s')
    (hfixed : ∀ {ty k leaves a}, cx.table.sizeWithin (some handleSize) depth within ty =
      .ok (some k) → k < 2147483648 → cx.table.Expands [ty] leaves →
      Fixed cx (∀ before : Nat, before ≤ k → reachable a before) (visit depth ty a)
        (walked shift lines a (cells 0 leaves)))
    (hsizes : Sizes (cx.table.sizeWithin (some handleSize) depth within) fields sizes)
    (hleaves : cx.table.Expands (fields.map Field.ty) leaves) (hle : o + sizes.sum ≤ n) :
    Fixed cx (∀ before : Nat, before ≤ n → reachable a before) ((placed o fields sizes).forM step)
      (walked shift lines a (cells o leaves)) := by
  induction hsizes generalizing o leaves with
  | nil =>
    cases hleaves
    exact .nil
  | @cons f k rest sizes hk _ ih =>
    rw [List.sum_cons] at hle
    have hparts : cx.table.Expands ([f.ty] ++ rest.map Field.ty) leaves := hleaves
    obtain ⟨front, back, hfront, hback, rfl⟩ := hparts.split
    obtain ⟨front', hfront', hbytes⟩ := exists_leaves hk
    obtain rfl := hfront.unique hfront'
    have hdisplacement : displacement o = o := displacement_of_lt (by omega)
    have hcells : walked shift lines a (cells o (front ++ back)) =
        walked shift lines a (cells o front) ++ walked shift lines a (cells (o + k) back) := by
      rw [cells_append, hbytes, walked, List.flatMap_append]
      rfl
    have hvalue := hfixed (a := shift a o) hk (by omega) hfront
    rw [h.walked_shift] at hvalue
    rw [hcells, placed, hdisplacement]
    refine .cons ⟨fun hemits => hvalue.eq (hstep.1 hemits).2, fun hreachable s => ?_⟩
      (ih hback (by omega))
    refine hstep.2 ⟨hreachable o (by omega), hvalue.emits (fun before hbefore => ?_) s⟩
    rw [h.reachable_shift]
    exact_mod_cast hreachable (o + before) (by omega)

/-- A walk emits lines for exactly the cells of the value, and it succeeds as long as everything can
be reached. -/
theorem fixed (h : Traverses cx visit shift reachable lines)
    (hn : cx.table.sizeWithin (some handleSize) depth within ty = .ok (some n))
    (hdepth : depth ≤ cx.table.recordDepth) (hsmall : n < 2147483648)
    (hleaves : cx.table.Expands [ty] leaves) :
    Fixed cx (∀ before : Nat, before ≤ n → reachable a before) (visit depth ty a)
      (walked shift lines a (cells 0 leaves)) := by
  induction depth generalizing ty within n leaves a with
  | zero =>
    cases hrecord : ty.isRecord with
    | true =>
      obtain ⟨name, rfl⟩ := Ty.exists_of_isRecord hrecord
      cases hn
    | false =>
      exact h.fixed_scalar hrecord (sizeWithin_mono hn hdepth (List.nil_subset _)) hleaves
  | succ depth ih =>
    cases hrecord : ty.isRecord with
    | false =>
      exact h.fixed_scalar hrecord (sizeWithin_mono hn hdepth (List.nil_subset _)) hleaves
    | true =>
      obtain ⟨name, rfl⟩ := Ty.exists_of_isRecord hrecord
      obtain ⟨-, fields, hfields, hsum⟩ := sizeWithin_record.1 hn
      obtain ⟨sizes, hsizes, hn', -⟩ := sumSizes_eq_ok.1 hsum
      have hsizes' : Sizes cx.table.sizeOf fields sizes := hsizes.imp fun f m hm =>
        sizeWithin_mono hm (by omega) (List.nil_subset _)
      have hfound : cx.table.fields name = .ok (some (placed 0 fields sizes)) := by
        rw [SymbolTable.fields, hfields]
        exact fieldsFrom_of_sizes hsizes' (by unfold sizeLimit; omega)
      obtain ⟨inner, hinner, rfl⟩ := hleaves.of_single hfields
      obtain ⟨step, hvisit, hstep⟩ := h.record (d := depth) (a := a) hfound
      have hall := h.fixed_fields (o := 0) hsmall hstep
        (fun hk hsmall hleaves => ih hk (by omega) hsmall hleaves) hsizes hinner (by omega)
      exact ⟨fun hemits => hall.eq (hvisit.1 hemits), fun hreachable s =>
        hvisit.2 (hall.emits hreachable s)⟩

end Traverses

/-! ### Copying and clearing -/

variable {source target : Address} {name : String}

theorem emits_load_memory {v : Unit} : Emits (load (.memory source) ty r id) cx s v code s' ↔
    ∃ n, cx.table.sizeOf ty = .ok (some n) ∧
      code = [.instruction .mov [.sized (.ofSize n) r, .mem (.ofSize n) source]] ∧ s' = s := by
  rw [load, emits_sizeOf_bind]
  simp only [emits_emit]

theorem emits_store_memory {v : Unit} : Emits (store (.memory target) ty r id) cx s v code s' ↔
    ∃ n, cx.table.sizeOf ty = .ok (some n) ∧
      code = [.instruction .mov [.mem (.ofSize n) target, .sized (.ofSize n) r]] ∧ s' = s := by
  rw [store, emits_sizeOf_bind]
  simp only [emits_emit]

/-- Code that depends on the fields of a record. -/
theorem emits_fields_bind {found : List (Int × Ty)} {f : Option (List (Int × Ty)) → Gen Unit}
    (hfound : cx.table.fields name = .ok (some found)) :
    Emits (context >>= fun cx => liftM (cx.table.fields name) >>= f) cx s () code s' ↔
      Emits (f (some found)) cx s () code s' := by
  rw [emits_context_bind, emits_lift_bind]
  constructor
  · rintro ⟨v, hv, h⟩
    cases hfound.symm.trans hv
    exact h
  · exact fun h => ⟨_, hfound, h⟩

theorem emits_offsetBy_bind {a : Address} {δ : Int} {f : Address → Gen Unit} :
    Emits (liftM (a.offsetBy δ) >>= f) cx s () code s' ↔
      Address.inRange (a.displacement + δ) = true ∧ Emits (f (a.plus δ)) cx s () code s' := by
  rw [emits_lift_bind]
  constructor
  · rintro ⟨b, hb, h⟩
    obtain ⟨hrange, rfl⟩ := Address.offsetBy_eq_ok.1 hb
    exact ⟨hrange, h⟩
  · exact fun ⟨hrange, h⟩ => ⟨_, Address.offsetBy_eq_ok.2 ⟨hrange, rfl⟩, h⟩

/-- Copies a value, records nested at most `depth` deep. -/
def copyValue (r : Register) (id : NodeId) (depth : Nat) : Ty → Address × Address → Gen Unit
  | .record name, p => copyFields r id depth name p.1 p.2
  | ty, p => load (.memory p.1) ty r id >>= fun _ => store (.memory p.2) ty r id

theorem copyValue_scalar {p : Address × Address} (hplain : ty.isRecord = false) :
    copyValue r id depth ty p =
      (load (.memory p.1) ty r id >>= fun _ => store (.memory p.2) ty r id) := by
  cases ty with
  | record => cases hplain
  | _ => rfl

/-- Both addresses can be moved. -/
def MovesBoth (p : Address × Address) (δ : Int) : Prop :=
  Address.inRange (p.1.displacement + δ) = true ∧ Address.inRange (p.2.displacement + δ) = true

theorem traverses_copy : Traverses cx (copyValue r id) (fun p δ => (p.1.plus δ, p.2.plus δ))
    MovesBoth
    fun w p => [.instruction .mov [.sized w r, .mem w p.1],
      .instruction .mov [.mem w p.2, .sized w r]] where
  shift_zero := by simp
  shift_shift := by simp
  reachable_shift := by simp [MovesBoth, Address.plus, Int.add_assoc]
  scalar := by
    intro depth ty n p s code s' hplain hn
    rw [copyValue_scalar hplain, emits_bind]
    simp only [emits_load_memory, emits_store_memory, hn, Except.ok.injEq, Option.some.injEq]
    constructor
    · rintro ⟨_, _, _, _, ⟨_, rfl, rfl, rfl⟩, ⟨_, rfl, rfl, rfl⟩, rfl⟩
      exact ⟨rfl, rfl⟩
    · rintro ⟨rfl, rfl⟩
      exact ⟨(), _, _, _, ⟨n, rfl, rfl, rfl⟩, ⟨n, rfl, rfl, rfl⟩, rfl⟩
  limit := emits_unsupported.1
  record := by
    intro depth name found p hfound
    refine ⟨fun q => liftM (p.1.offsetBy q.1) >>= fun a => liftM (p.2.offsetBy q.1) >>= fun b =>
      copyValue r id depth q.2 (a, b), fun {s code s'} => ?_, fun {q s code s'} => ?_⟩
    · rw [copyValue, copyFields, emits_fields_bind hfound]
      refine iff_of_eq (congrArg (fun g => Emits (found.forM g) cx s () code s')
        (funext fun q => ?_))
      obtain ⟨δ, ty⟩ := q
      cases ty <;> rfl
    · rw [emits_offsetBy_bind, emits_offsetBy_bind, ← and_assoc]
      exact Iff.rfl

theorem traverses_clear : Traverses cx (zeroFill id) Address.plus
    (fun a δ => Address.inRange (a.displacement + δ) = true)
    fun w a => [.instruction .mov [.mem w a, .imm 0]] where
  shift_zero := by simp
  shift_shift := by simp
  reachable_shift := by simp [Address.plus, Int.add_assoc]
  scalar := by
    intro depth ty n a s code s' hplain hn
    rw [zeroFill_scalar hplain, emits_sizeOf_bind]
    simp only [hn, Except.ok.injEq, Option.some.injEq, emits_emit, exists_eq_left']
  limit := emits_unsupported.1
  record := by
    intro depth name found a hfound
    refine ⟨fun q => liftM (a.offsetBy q.1) >>= zeroFill id depth q.2, fun {s code s'} => ?_,
      emits_offsetBy_bind⟩
    rw [zeroFill, emits_fields_bind hfound]

theorem clears_eq_walked {a : Address} {cells : List (Nat × Ty)} :
    Traverses.walked Address.plus (fun w a => [.instruction .mov [.mem w a, .imm 0]]) a cells =
      clears a cells := by
  rw [Traverses.walked, clears, List.map_eq_flatMap]

/-- The code that copies a record copies its cells. -/
theorem copies_of_emits (hn : cx.table.sizeOf (.record name) = .ok (some n))
    (hsmall : n < 2147483648) (hleaves : cx.table.Expands [.record name] leaves)
    (h : Emits (copyRecord name source target r id) cx s () code s') :
    s' = s ∧ code = copies r source target (cells 0 leaves) :=
  (traverses_copy.fixed (a := (source, target)) hn (Nat.le_refl _) hsmall hleaves).eq
    (emits_context_bind.1 h)

theorem emits_copyRecord_of_room (hn : cx.table.sizeOf (.record name) = .ok (some n))
    (hsmall : n < 2147483648) (hleaves : cx.table.Expands [.record name] leaves)
    (hsource : source.Room n) (htarget : target.Room n) :
    Emits (copyRecord name source target r id) cx s ()
      (copies r source target (cells 0 leaves)) s := by
  refine emits_context_bind.2 ((traverses_copy.fixed (a := (source, target)) hn (Nat.le_refl _)
    hsmall hleaves).emits (fun before hle => ?_) s)
  exact ⟨(Address.offsetBy_eq_ok.1 (hsource.offsetBy hle)).1,
    (Address.offsetBy_eq_ok.1 (htarget.offsetBy hle)).1⟩

/-- The code that clears a value clears its cells. -/
theorem clears_of_emits {a : Address} (hn : cx.table.sizeOf ty = .ok (some n))
    (hsmall : n < 2147483648) (hleaves : cx.table.Expands [ty] leaves)
    (h : Emits (zeroFill id cx.table.recordDepth ty a) cx s () code s') :
    s' = s ∧ code = clears a (cells 0 leaves) := by
  rw [← clears_eq_walked]
  exact (traverses_clear.fixed hn (Nat.le_refl _) hsmall hleaves).eq h

theorem emits_zeroFill_of_room {a : Address} (hn : cx.table.sizeOf ty = .ok (some n))
    (hsmall : n < 2147483648) (hleaves : cx.table.Expands [ty] leaves) (hroom : a.Room n) :
    Emits (zeroFill id cx.table.recordDepth ty a) cx s () (clears a (cells 0 leaves)) s := by
  rw [← clears_eq_walked]
  exact (traverses_clear.fixed hn (Nat.le_refl _) hsmall hleaves).emits
    (fun before hle => (Address.offsetBy_eq_ok.1 (hroom.offsetBy hle)).1) s

/-- A cell is accessed with the width of its scalar. -/
theorem bytes_cellWidth (h : (ty.leafSize (some handleSize)).isSome = true) :
    ty.scalarBytes = some (cellWidth ty).bytes ∧ (cellWidth ty).bytes = ty.cellBytes := by
  cases ty with
  | void | record => cases h
  | _ => exact ⟨rfl, rfl⟩

/-- The scalars of a record tile it, and copying, clearing and finding its fields agree on where
they lie: copying and clearing the record access each of its bytes once, a field is found where it
comes in order, and chains of fields lead to bytes of the record, which differ when the chains
part. -/
theorem record_tiled (hdistinct : ∀ record fields, cx.table.lookupRecord record =
      .ok (some fields) → (fields.map Field.name).Nodup)
    (hn : cx.table.sizeOf (.record name) = .ok (some n)) (hsmall : n < 2147483648) :
    ∃ cells : List (Nat × Ty),
      (∀ c ∈ cells, c.2.scalarBytes = some (cellWidth c.2).bytes) ∧
      Tile (cells.map fun c => (c.1, (cellWidth c.2).bytes)) n ∧
      (∀ r id s source target, source.Room n → target.Room n →
        Emits (copyRecord name source target r id) cx s () (copies r source target cells) s) ∧
      (∀ id s a, a.Room n →
        Emits (zeroFill id cx.table.recordDepth (.record name) a) cx s () (clears a cells) s) ∧
      (∀ lower target value s code s', cx.info.typeOf target = some (.record name) →
        Emits (assign lower target value) cx s () code s' →
        ∃ before r source target, code = before ++ copies r source target cells) ∧
      (∃ fields found, cx.table.lookupRecord name = .ok (some fields) ∧
        cx.table.fields name = .ok (some found) ∧
        List.Forall₂ (fun f e => cx.table.field name f.name = .ok (some e) ∧ e.2 = f.ty)
          fields found) ∧
      (∀ path ty, cx.table.Chain (.record name) path ty → ∃ o k : Nat,
        cx.table.Leads (.record name) path o ty ∧ cx.table.sizeOf ty = .ok (some k) ∧ o + k ≤ n) ∧
      (∀ p q a b δ δ' k k',
        cx.table.Leads (.record name) p δ a → cx.table.Leads (.record name) q δ' b →
        ¬p <+: q → ¬q <+: p → cx.table.sizeOf a = .ok (some k) → cx.table.sizeOf b = .ok (some k') →
        δ + k ≤ δ' ∨ δ' + k' ≤ δ) := by
  obtain ⟨leaves, hleaves, hbytes, hsized⟩ := expands_of_sizeWithin hn
  have hwidth := fun c hc => bytes_cellWidth (hsized (Prod.snd c) (mem_of_mem_cells (o := 0) hc))
  have htile : Tile ((cells 0 leaves).map fun c => (c.1, (cellWidth c.2).bytes)) n := by
    rw [hbytes, List.map_congr_left fun c hc => congrArg (c.1, ·) (hwidth c hc).2]
    exact tile_cells leaves
  refine ⟨cells 0 leaves, fun c hc => (hwidth c hc).1, htile,
    fun r id s source target hsource htarget =>
      emits_copyRecord_of_room hn hsmall hleaves hsource htarget,
    fun id s a hroom => emits_zeroFill_of_room hn hsmall hleaves hroom, ?_,
    exists_fields_named hn (hdistinct name), ?_, ?_⟩
  · intro lower target value s code s' hty hassign
    cases assignShape hassign with
    | @record record k source destination _ _ r c c' copy _ _ _ _ _ _ type _ _ _ _ _ copied =>
      cases hty.symm.trans type
      obtain ⟨-, rfl⟩ := copies_of_emits hn hsmall hleaves copied
      exact ⟨c ++ c', r, source, destination, (List.append_assoc _ _ _).symm⟩
    | scalar type plain =>
      cases hty.symm.trans type
      cases plain
  · intro path ty hchain
    obtain ⟨δ, hleads⟩ := hchain.exists_leads hdistinct hn
    obtain ⟨o, k, rfl, hk, hle⟩ := hleads.within hn hsmall
    exact ⟨o, k, hleads, hk, hle⟩
  · intro p q a b δ δ' k k' h h' hp hq hk hk'
    exact h.disjoint h' hn hsmall hp hq hk hk'

theorem distinct_diamond (record : String) (fields : List Field)
    (h : diamond.lookupRecord record = .ok (some fields)) : (fields.map Field.name).Nodup := by
  have hentries : ∀ x ∈ diamond.entries, ∀ fields ∈ x.meaning.fields?,
      (fields.map Field.name).Nodup := by decide
  obtain ⟨_, e, x, d, -, -, hx, hm⟩ := lookupRecord_eq_some_iff.1 h
  exact hentries x (Array.mem_of_getElem? (entry_eq_ok_iff.1 hx).2) fields (by rw [hm]; rfl)

/-- Code of a function that works with records that contain others twice. -/
def diamondContext : Context := ⟨{}, SemanticInfo.blank 0, diamond, [], {}, false⟩

/-- A record of 40 bytes is copied from behind `rsi` into the frame byte by byte. -/
theorem tiled_diamond : ∃ cells : List (Nat × Ty),
    Tile (cells.map fun c => (c.1, (cellWidth c.2).bytes)) 40 ∧
    ∀ id s, Emits (copyRecord "Outer" (.register .rsi) (.frame (-40)) .rax id) diamondContext s ()
      (copies .rax (.register .rsi) (.frame (-40)) cells) s := by
  have hdistinct : ∀ record fields, diamondContext.table.lookupRecord record = .ok (some fields) →
      (fields.map Field.name).Nodup := distinct_diamond
  obtain ⟨cells, -, htile, hcopies, -⟩ := record_tiled hdistinct storageSize_diamond (by decide)
  exact ⟨cells, htile, fun id s => hcopies _ id s _ _ (by decide) (by decide)⟩

end Lowering

end MiniJ
