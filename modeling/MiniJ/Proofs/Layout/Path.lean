import MiniJ.Proofs.Layout.Size

/-!
# Paths into records

Where the values inside of a record lie. A path of field names leads to one of them, and the
displacements of the fields on the way add up. Different paths lead to different bytes, also where
an offset is so large that its displacement is negative.

## Main definitions

* `SymbolTable.Leads` — what a path leads to.

## Main statements

* `SymbolTable.Leads.apart` — different scalars of a record have no byte in common.
* `SymbolTable.Leads.eq_nil_of_record` — no record lies inside of itself.
-/
namespace MiniJ

open Outcome

/-- Bytes of a scalar in memory. -/
def Ty.scalarBytes : Ty → Option Nat
  | .bool => some 4
  | .int | .text | .array _ => some 8
  | .void | .record _ => none

namespace SymbolTable

variable {t : SymbolTable} {ty ty' : Ty} {p q : List String} {δ δ' : Int} {n N : Nat}

/-- A path of field names leads from a value to one inside of it, which lies this far away. -/
inductive Leads (t : SymbolTable) : Ty → List String → Int → Ty → Prop
  | here (ty : Ty) : Leads t ty [] 0 ty
  | field {record name : String} {δ δ' : Int} {inner ty : Ty} {path : List String}
      (found : t.field record name = .ok (some (δ, inner))) (rest : Leads t inner path δ' ty) :
      Leads t (.record record) (name :: path) (δ + δ') ty

theorem scalarBytes_iff :
    ty.scalarBytes = some n ↔ t.sizeOf ty = .ok (some n) ∧ ty.isRecord = false := by
  cases ty <;> simp [Ty.scalarBytes, Ty.isRecord, sizeOf_void]

namespace Leads

theorem append {mid : Ty} (h : t.Leads ty p δ mid) (h' : t.Leads mid q δ' ty') :
    t.Leads ty (p ++ q) (δ + δ') ty' := by
  induction h with
  | here => simpa using h'
  | field found _ ih =>
    rw [Int.add_assoc]
    exact .field found (ih h')

theorem snoc {record name : String} (h : t.Leads ty p δ (.record record))
    (found : t.field record name = .ok (some (δ', ty'))) :
    t.Leads ty (p ++ [name]) (δ + δ') ty' := by
  simpa using h.append (.field found (.here ty'))

theorem unique {a b : Ty} (h : t.Leads ty p δ a) (h' : t.Leads ty p δ' b) : δ = δ' ∧ a = b := by
  induction h generalizing δ' with
  | here =>
    cases h'
    exact ⟨rfl, rfl⟩
  | field found _ ih =>
    cases h' with
    | field found' rest' =>
      cases found.symm.trans found'
      obtain ⟨rfl, rfl⟩ := ih rest'
      exact ⟨rfl, rfl⟩

theorem split (h : t.Leads ty (p ++ q) δ ty') :
    ∃ mid δ₁ δ₂, t.Leads ty p δ₁ mid ∧ t.Leads mid q δ₂ ty' ∧ δ = δ₁ + δ₂ := by
  induction p generalizing ty δ with
  | nil => exact ⟨ty, 0, δ, .here ty, h, by simp⟩
  | cons name p ih =>
    cases h with
    | field found rest =>
      obtain ⟨mid, δ₁, δ₂, hfirst, hsecond, rfl⟩ := ih rest
      exact ⟨mid, _, δ₂, .field found hfirst, hsecond, (Int.add_assoc _ _ _).symm⟩

/-- A scalar has no fields. -/
theorem eq_nil (h : t.Leads ty p δ ty') (hscalar : ty.isRecord = false) : p = [] := by
  cases h with
  | here => rfl
  | field => cases hscalar

/-- No path goes on behind a scalar. -/
theorem eq_of_begins (h : t.Leads ty p δ ty') (hscalar : ty'.isRecord = false) {b : Ty}
    (h' : t.Leads ty q δ' b) (hbegins : p <+: q) : p = q := by
  obtain ⟨rest, rfl⟩ := hbegins
  obtain ⟨mid, δ₁, δ₂, hfirst, hsecond, -⟩ := h'.split
  obtain ⟨-, rfl⟩ := h.unique hfirst
  rw [hsecond.eq_nil hscalar, List.append_nil]

end Leads

/-! ### Bytes -/

/-- The displacement of a value behind this many bytes. -/
def Displaced (before : Nat) (δ : Int) : Prop :=
  δ = before ∨ δ = before - 4294967296 ∧ 2147483648 ≤ before

theorem displaced_displacement (before : Nat) : Displaced before (displacement before) := by
  unfold Displaced displacement sizeLimit
  split <;> omega

theorem Displaced.add {before before' : Nat} (h : Displaced before δ) (h' : Displaced before' δ')
    (hlt : before + before' < 4294967296) : Displaced (before + before') (δ + δ') := by
  unfold Displaced at *
  omega

/-- What a path leads to lies inside of the record. -/
theorem Leads.inside (h : t.Leads ty p δ ty') (hN : t.sizeOf ty = .ok (some N)) :
    ∃ before k, Displaced before δ ∧ t.sizeOf ty' = .ok (some k) ∧ before + k ≤ N := by
  have hlimit : N < 4294967296 := sizeOf_lt hN
  induction h generalizing N with
  | here => exact ⟨0, N, .inl rfl, hN, by omega⟩
  | field found _ ih =>
    obtain ⟨before, k, rfl, hk, hle⟩ := field_inside hN found
    obtain ⟨before', k', hdisplaced, hk', hle'⟩ := ih hk (by omega)
    exact ⟨before + before', k', (displaced_displacement before).add hdisplaced (by omega), hk',
      by omega⟩

/-- Fields with different names lie behind each other. -/
theorem fieldIn_apart {fields : List Field} {sizes : List Nat} {offset : Nat} {a b : String}
    (hsizes : Sizes t.sizeOf fields sizes) (hne : a ≠ b)
    (h : t.fieldIn a offset fields = .ok (some (δ, ty)))
    (h' : t.fieldIn b offset fields = .ok (some (δ', ty'))) :
    ∃ before k before' k', δ = displacement (offset + before) ∧ t.sizeOf ty = .ok (some k) ∧
      δ' = displacement (offset + before') ∧ t.sizeOf ty' = .ok (some k') ∧
      before + k ≤ sizes.sum ∧ before' + k' ≤ sizes.sum ∧
      (before + k ≤ before' ∨ before' + k' ≤ before) := by
  induction hsizes generalizing offset with
  | nil => simp [fieldIn, pure_eq_ok] at h
  | @cons f n fields sizes hn hsizes ih =>
    -- a name that is not the first one is found among the others
    have hothers : ∀ {name δ ty}, f.name ≠ name →
        t.fieldIn name offset (f :: fields) = .ok (some (δ, ty)) →
        t.fieldIn name (offset + n) fields = .ok (some (δ, ty)) := by
      intro name δ ty hname hfound
      rw [fieldIn, if_neg hname] at hfound
      obtain ⟨_, hsome, hadd⟩ := bind_eq_ok.1 hfound
      cases hn.symm.trans hsome
      obtain ⟨sum, hsum, hrest⟩ := bind_eq_ok.1 hadd
      obtain ⟨-, rfl⟩ := addSize_eq_ok.1 hsum
      exact hrest
    have hfirst : ∀ {name δ ty}, f.name = name →
        t.fieldIn name offset (f :: fields) = .ok (some (δ, ty)) →
        δ = displacement offset ∧ t.sizeOf ty = .ok (some n) := by
      intro name δ ty hname hfound
      rw [fieldIn, if_pos hname] at hfound
      cases pure_eq_ok.1 hfound
      exact ⟨rfl, hn⟩
    rw [List.sum_cons]
    by_cases ha : f.name = a
    · have hb : f.name ≠ b := fun hb => hne (ha.symm.trans hb)
      obtain ⟨rfl, hk⟩ := hfirst ha h
      obtain ⟨before', k', rfl, hk', hle⟩ := fieldIn_inside hsizes (hothers hb h')
      exact ⟨0, n, n + before', k', rfl, hk, by rw [Nat.add_assoc], hk', by omega, by omega,
        by omega⟩
    · by_cases hb : f.name = b
      · obtain ⟨rfl, hk'⟩ := hfirst hb h'
        obtain ⟨before, k, rfl, hk, hle⟩ := fieldIn_inside hsizes (hothers ha h)
        exact ⟨n + before, k, 0, n, by rw [Nat.add_assoc], hk, rfl, hk', by omega, by omega,
          by omega⟩
      · obtain ⟨before, k, before', k', rfl, hk, rfl, hk', hle, hle', hapart⟩ :=
          ih (hothers ha h) (hothers hb h')
        exact ⟨n + before, k, n + before',
          k', by rw [Nat.add_assoc], hk, by rw [Nat.add_assoc], hk', by omega, by omega, by omega⟩

theorem field_apart {record a b : String} (hN : t.sizeOf (.record record) = .ok (some N))
    (hne : a ≠ b) (h : t.field record a = .ok (some (δ, ty)))
    (h' : t.field record b = .ok (some (δ', ty'))) :
    ∃ before k before' k', δ = displacement before ∧ t.sizeOf ty = .ok (some k) ∧
      δ' = displacement before' ∧ t.sizeOf ty' = .ok (some k') ∧ before + k ≤ N ∧
      before' + k' ≤ N ∧ (before + k ≤ before' ∨ before' + k' ≤ before) := by
  obtain ⟨fields, sizes, hfields, hsizes, rfl, -⟩ := sizeOf_record hN
  rw [field, hfields] at h h'
  simpa using fieldIn_apart hsizes hne h h'

/-- Paths that part lead to different bytes. -/
theorem Leads.behind {a b : Ty} (h : t.Leads ty p δ a) (h' : t.Leads ty q δ' b)
    (hN : t.sizeOf ty = .ok (some N)) (hp : ¬p <+: q) (hq : ¬q <+: p) :
    ∃ before k before' k', Displaced before δ ∧ t.sizeOf a = .ok (some k) ∧ Displaced before' δ' ∧
      t.sizeOf b = .ok (some k') ∧ before + k ≤ N ∧ before' + k' ≤ N ∧
      (before + k ≤ before' ∨ before' + k' ≤ before) := by
  have hlimit : N < 4294967296 := sizeOf_lt hN
  induction h generalizing q δ' N with
  | here => exact absurd List.nil_prefix hp
  | @field record name δ δ₂ inner ty path found rest ih =>
    cases h' with
    | here => exact absurd List.nil_prefix hq
    | @field _ name' δ' δ₂' inner' _ path' found' rest' =>
      by_cases hname : name = name'
      · subst hname
        cases found.symm.trans found'
        obtain ⟨start, n, rfl, hn, hle⟩ := field_inside hN found
        rw [List.cons_prefix_cons, not_and] at hp hq
        obtain ⟨before, k, before', k', hd, hk, hd', hk', hin, hin', hapart⟩ :=
          ih rest' hn (hp rfl) (hq rfl) (by omega)
        exact ⟨start + before, k, start + before', k',
          (displaced_displacement start).add hd (by omega), hk,
          (displaced_displacement start).add hd' (by omega), hk', by omega, by omega, by omega⟩
      · obtain ⟨start, n, start', n', rfl, hn, rfl, hn', hle, hle', hapart⟩ :=
          field_apart hN hname found found'
        obtain ⟨before, k, hd, hk, hin⟩ := rest.inside hn
        obtain ⟨before', k', hd', hk', hin'⟩ := rest'.inside hn'
        exact ⟨start + before, k, start' + before', k',
          (displaced_displacement start).add hd (by omega), hk,
          (displaced_displacement start').add hd' (by omega), hk', by omega, by omega, by omega⟩

/-- How far away a scalar can be. -/
theorem Leads.bounds (h : t.Leads ty p δ ty') (hN : t.sizeOf ty = .ok (some N))
    (hn : ty'.scalarBytes = some n) : -2147483648 ≤ δ ∧ δ + n ≤ 4294967296 := by
  have hlimit : N < 4294967296 := sizeOf_lt hN
  obtain ⟨before, k, hd, hk, hle⟩ := h.inside hN
  cases (scalarBytes_iff.1 hn).1.symm.trans hk
  unfold Displaced at hd
  omega

/-- Different scalars of a record have no byte in common. -/
theorem Leads.apart {a b : Ty} {k k' : Nat} (h : t.Leads ty p δ a) (h' : t.Leads ty q δ' b)
    (hN : t.sizeOf ty = .ok (some N)) (ha : a.scalarBytes = some k) (hb : b.scalarBytes = some k')
    (hne : p ≠ q) : δ + k ≤ δ' ∨ δ' + k' ≤ δ := by
  have hlimit : N < 4294967296 := sizeOf_lt hN
  obtain ⟨hk, hscalar⟩ := scalarBytes_iff.1 ha
  obtain ⟨hk', hscalar'⟩ := scalarBytes_iff.1 hb
  have hp : ¬p <+: q := fun hbegins => hne (h.eq_of_begins hscalar h' hbegins)
  have hq : ¬q <+: p := fun hbegins => hne (h'.eq_of_begins hscalar' h hbegins).symm
  obtain ⟨before, n, before', n', hd, hn, hd', hn', hle, hle', hapart⟩ := h.behind h' hN hp hq
  cases hk.symm.trans hn
  cases hk'.symm.trans hn'
  unfold Displaced at hd hd'
  omega

/-! ### Records inside of records -/

/-- A field of a record that has a size has one inside of the record. -/
theorem sizeWithin_field {record name : String} {depth : Nat} {within : List String}
    (h : t.sizeWithin (some handleSize) (depth + 1) within (.record record) = .ok (some N))
    (found : t.field record name = .ok (some (δ, ty))) :
    ∃ k, t.sizeWithin (some handleSize) depth (record :: within) ty = .ok (some k) := by
  obtain ⟨-, fields, hfields, hsum⟩ := sizeWithin_record.1 h
  obtain ⟨sizes, hsizes, -, -⟩ := sumSizes_eq_ok.1 hsum
  obtain ⟨f, hf, rfl⟩ := field_find hfields found
  obtain ⟨k, -, hk⟩ := exists_of_forall₂_left hsizes (List.mem_of_find?_eq_some hf)
  exact ⟨k, hk⟩

/-- No record lies inside of one that it contains. -/
theorem Leads.not_mem_within {record : String} {depth : Nat} {within : List String}
    (h : t.Leads ty p δ (.record record))
    (hN : t.sizeWithin (some handleSize) depth within ty = .ok (some N)) : record ∉ within := by
  generalize hend : Ty.record record = last at h
  induction h generalizing depth within N with
  | here =>
    subst hend
    cases depth with
    | zero => simp [sizeWithin, pure_eq_ok] at hN
    | succ depth => exact (sizeWithin_record.1 hN).1
  | field found _ ih =>
    cases depth with
    | zero => simp [sizeWithin, pure_eq_ok] at hN
    | succ depth =>
      obtain ⟨k, hk⟩ := sizeWithin_field hN found
      intro hmem
      exact ih hk hend (.tail _ hmem)

/-- No record lies inside of itself. -/
theorem Leads.eq_nil_of_record {record : String} (h : t.Leads (.record record) p δ (.record record))
    (hN : t.sizeOf (.record record) = .ok (some N)) : p = [] := by
  cases h with
  | here => rfl
  | field found rest =>
    unfold sizeOf storageSize at hN
    cases hdepth : t.recordDepth with
    | zero => simp [hdepth, sizeWithin, pure_eq_ok] at hN
    | succ depth =>
      rw [hdepth] at hN
      obtain ⟨k, hk⟩ := sizeWithin_field hN found
      exact absurd (.head _) (rest.not_mem_within hk)

/-! ### All fields of a record -/

theorem fieldsFrom_named {fields : List Field} {offset : Nat} {found : List (Int × Ty)}
    (hnodup : (fields.map Field.name).Nodup)
    (h : t.fieldsFrom offset fields = .ok (some found)) :
    List.Forall₂ (fun f e => t.fieldIn f.name offset fields = .ok (some e)) fields found := by
  induction fields generalizing offset found with
  | nil =>
    cases pure_eq_ok.1 h
    exact .nil
  | cons f fields ih =>
    rw [List.map_cons, List.nodup_cons] at hnodup
    obtain ⟨size, hsize, hadd⟩ := bind_eq_ok.1 h
    cases size with
    | none => cases hadd
    | some n =>
      obtain ⟨sum, hsum, hrest⟩ := bind_eq_ok.1 hadd
      obtain ⟨others, hothers, hmap⟩ := bind_eq_ok.1 hrest
      simp only [pure_eq_ok, Option.map_eq_some_iff] at hmap
      obtain ⟨others, rfl, rfl⟩ := hmap
      refine .cons (by rw [fieldIn, if_pos rfl]; rfl) ?_
      have hnames : ∀ g ∈ fields, f.name ≠ g.name :=
        fun g hg heq => hnodup.1 (heq ▸ List.mem_map_of_mem hg)
      refine ((List.forall₂_and_left _ _).2 ⟨hnames, ih hnodup.2 hothers⟩).imp ?_
      rintro g e ⟨hname, hfound⟩
      rw [fieldIn, if_neg hname]
      exact bind_eq_ok.2 ⟨some n, hsize, bind_eq_ok.2 ⟨sum, hsum, hfound⟩⟩

/-- The fields of a record with distinct names, as they are found one by one. -/
theorem fields_named {record : String} {fields : List Field} {found : List (Int × Ty)}
    (hfields : t.lookupRecord record = .ok (some fields)) (hnodup : (fields.map Field.name).Nodup)
    (h : t.fields record = .ok (some found)) :
    List.Forall₂ (fun f e => t.field record f.name = .ok (some e)) fields found := by
  rw [SymbolTable.fields, hfields] at h
  refine (fieldsFrom_named hnodup h).imp fun f e hfound => ?_
  rw [field, hfields]
  exact hfound

end SymbolTable

end MiniJ
