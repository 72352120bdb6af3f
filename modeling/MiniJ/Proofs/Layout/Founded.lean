import MiniJ.Proofs.Layout.Storage
import Mathlib.Data.Finset.Card
import Mathlib.Data.Finset.Basic

/-!
# Types that have a size

A type has a size exactly if the records inside of it are known and none of them contains itself, if
nothing inside of it is `void`, and if texts and arrays have one. The size is then the sum over all
leaves, each counted as often as it occurs. The computation keeps the records around a type, so that
its recursion ends for every table.

## Main definitions

* `SymbolTable.Asks` — the recursive calls of the computation.
* `SymbolTable.Holds`, `SymbolTable.Reaches` — the types of fields, and the types inside of a type.
* `SymbolTable.Expands` — the leaves of some types, in order.
* `SymbolTable.Founded` — types that can have a size.

## Main statements

* `SymbolTable.storageSize_exact` — which types have a size, and which one.
-/
namespace MiniJ

open Outcome

/-- Size of a type that is no record. -/
def Ty.leafSize (handle : Option Nat) : Ty → Option Nat
  | .bool => some 4
  | .int => some 8
  | .text | .array _ => handle
  | .void | .record _ => none

/-- Bytes of all leaves together. -/
def Ty.leafBytes (handle : Option Nat) (leaves : List Ty) : Nat :=
  (leaves.map fun leaf => (leaf.leafSize handle).getD 0).sum

@[simp] theorem Ty.leafBytes_nil {handle : Option Nat} : leafBytes handle [] = 0 := rfl

@[simp] theorem Ty.leafBytes_append {handle : Option Nat} {xs ys : List Ty} :
    leafBytes handle (xs ++ ys) = leafBytes handle xs + leafBytes handle ys := by
  simp [leafBytes]

theorem Ty.leafBytes_singleton {handle : Option Nat} {ty : Ty} :
    leafBytes handle [ty] = (ty.leafSize handle).getD 0 := by
  simp [leafBytes]

namespace SymbolTable

variable {t : SymbolTable} {handle : Option Nat} {name : String} {ty x : Ty} {n depth depth' : Nat}
  {within : List String} {fields : List Field} {tys tys' leaves leaves' : List Ty}

/-! ### The recursion -/

/-- The recursive calls that the size of a type makes, each with the records around it. -/
def Asks (t : SymbolTable) (inner outer : List String × Ty) : Prop :=
  ∃ name fields f, outer.2 = .record name ∧ name ∉ outer.1 ∧
    t.lookupRecord name = .ok (some fields) ∧ f ∈ fields ∧ inner = (name :: outer.1, f.ty)

/-- Number of global names that are not among the records around a type. -/
def unvisited (t : SymbolTable) (within : List String) : Nat :=
  (t.globalNames.toFinset \ within.toFinset).card

theorem unvisited_cons_lt (hfields : t.lookupRecord name = .ok (some fields))
    (hfresh : name ∉ within) : t.unvisited (name :: within) < t.unvisited within := by
  have hname : name ∈ t.globalNames.toFinset \ within.toFinset := by
    simpa [hfresh] using mem_globalNames hfields
  unfold unvisited
  rw [List.toFinset_cons, Finset.sdiff_insert]
  exact Finset.card_erase_lt_of_mem hname

theorem unvisited_lt_recordDepth : t.unvisited within < t.recordDepth := by
  have hsub := Finset.card_le_card (Finset.sdiff_subset (s := t.globalNames.toFinset)
    (t := within.toFinset))
  have hlength := List.toFinset_card_le t.globalNames
  unfold unvisited
  rw [recordDepth_eq]
  omega

/-- The recursion ends: it never comes back to a record that it is inside of. -/
theorem asks_wellFounded (t : SymbolTable) : WellFounded t.Asks := by
  refine Subrelation.wf ?_ (measure fun call : List String × Ty => t.unvisited call.1).wf
  rintro inner outer ⟨name, fields, f, -, hfresh, hfields, -, rfl⟩
  exact unvisited_cons_lt hfields hfresh

theorem sumSizes_congr {size size' : Ty → Except Fault (Option Nat)} {total : Nat}
    (h : ∀ f ∈ fields, size f.ty = size' f.ty) :
    sumSizes size total fields = sumSizes size' total fields := by
  induction fields generalizing total with
  | nil => rfl
  | cons f rest ih =>
    have hrest : ∀ total, sumSizes size total rest = sumSizes size' total rest :=
      fun _ => ih fun g hg => h g (by simp [hg])
    simp only [sumSizes, h f (by simp), hrest]

/-- What a depth has to suffice for: the global names that were not visited yet. -/
theorem sizeWithin_depth (h : t.unvisited within < depth) (h' : t.unvisited within < depth') :
    t.sizeWithin handle depth within ty = t.sizeWithin handle depth' within ty := by
  induction depth generalizing depth' within ty with
  | zero => omega
  | succ depth ih =>
    obtain ⟨depth', rfl⟩ : ∃ k, depth' = k + 1 := ⟨depth' - 1, by omega⟩
    cases ty with
    | record name =>
      simp only [sizeWithin]
      by_cases hmem : within.contains name = true
      · rw [if_pos hmem, if_pos hmem]
      · rw [if_neg hmem, if_neg hmem]
        cases hfields : t.lookupRecord name with
        | error e => rfl
        | ok found =>
          cases found with
          | none => rfl
          | some fields =>
            have hfresh : name ∉ within := by simpa using hmem
            have hlt := unvisited_cons_lt hfields hfresh
            exact sumSizes_congr fun f _ => ih (by omega) (by omega)
    | _ => simp

/-- The depth that is allowed is never met. -/
theorem sizeWithin_recordDepth : t.sizeWithin handle t.recordDepth within (.record name) =
    if name ∈ within then .ok none
    else (t.lookupRecord name).bind fun
      | none => .ok none
      | some fields => sumSizes (t.sizeWithin handle t.recordDepth (name :: within)) 0 fields := by
  have hdeeper : ∀ {within ty}, t.sizeWithin handle t.recordDepth within ty =
      t.sizeWithin handle (t.recordDepth + 1) within ty :=
    sizeWithin_depth unvisited_lt_recordDepth (Nat.lt_succ_of_lt unvisited_lt_recordDepth)
  rw [hdeeper]
  simp only [sizeWithin, List.contains_eq_mem, decide_eq_true_eq]
  split
  · rfl
  · cases t.lookupRecord name with
    | error e => rfl
    | ok found =>
      cases found with
      | none => rfl
      | some fields => rfl

/-! ### Types inside of types -/

/-- A record type and the type of one of its fields. -/
def Holds (t : SymbolTable) (outer inner : Ty) : Prop :=
  ∃ name fields f, outer = .record name ∧ t.lookupRecord name = .ok (some fields) ∧ f ∈ fields ∧
    inner = f.ty

/-- The type is inside of the other one, or the same. -/
def Reaches (t : SymbolTable) : Ty → Ty → Prop := Relation.ReflTransGen t.Holds

/-- What lies inside of a record is the record itself or lies inside of a field. -/
theorem Reaches.cases_record (hfields : t.lookupRecord name = .ok (some fields))
    (h : t.Reaches (.record name) x) : x = .record name ∨ ∃ f ∈ fields, t.Reaches f.ty x := by
  rcases Relation.ReflTransGen.cases_head h with rfl | ⟨mid, ⟨_, _, f, heq, hfound, hf, rfl⟩, hrest⟩
  · exact .inl rfl
  · cases heq
    cases hfields.symm.trans hfound
    exact .inr ⟨f, hf, hrest⟩

theorem Reaches.eq_of_scalar (hscalar : ty.isRecord = false) (h : t.Reaches ty x) : x = ty := by
  rcases Relation.ReflTransGen.cases_head h with rfl | ⟨mid, ⟨_, _, _, rfl, -, -, -⟩, -⟩
  · rfl
  · cases hscalar

theorem reaches_field {f : Field} (hfields : t.lookupRecord name = .ok (some fields))
    (hf : f ∈ fields) (h : t.Reaches f.ty x) : t.Reaches (.record name) x :=
  .head ⟨name, fields, f, rfl, hfields, hf, rfl⟩ h

/-! ### Leaves -/

/-- The leaves of some types, in order: every record is replaced by what its fields expand to. -/
inductive Expands (t : SymbolTable) : List Ty → List Ty → Prop
  | nil : Expands t [] []
  | leaf {ty : Ty} {tys leaves : List Ty} (scalar : ty.isRecord = false)
      (rest : Expands t tys leaves) : Expands t (ty :: tys) (ty :: leaves)
  | record {name : String} {fields : List Field} {tys inner leaves : List Ty}
      (found : t.lookupRecord name = .ok (some fields))
      (first : Expands t (fields.map Field.ty) inner) (rest : Expands t tys leaves) :
      Expands t (.record name :: tys) (inner ++ leaves)

namespace Expands

theorem append (h : t.Expands tys leaves) (h' : t.Expands tys' leaves') :
    t.Expands (tys ++ tys') (leaves ++ leaves') := by
  induction h with
  | nil => exact h'
  | leaf scalar _ ih => exact .leaf scalar ih
  | record found first _ _ ih =>
    rw [List.append_assoc]
    exact .record found first ih

theorem unique (h : t.Expands tys leaves) (h' : t.Expands tys leaves') : leaves = leaves' := by
  induction h generalizing leaves' with
  | nil =>
    cases h'
    rfl
  | leaf scalar _ ih =>
    cases h' with
    | leaf _ rest => rw [ih rest]
    | record => cases scalar
  | record found _ _ ihfirst ihrest =>
    cases h' with
    | leaf scalar => cases scalar
    | record found' first rest =>
      cases found.symm.trans found'
      rw [ihfirst first, ihrest rest]

theorem split (h : t.Expands (tys ++ tys') leaves) :
    ∃ front back, t.Expands tys front ∧ t.Expands tys' back ∧ leaves = front ++ back := by
  induction tys generalizing leaves with
  | nil => exact ⟨[], leaves, .nil, h, rfl⟩
  | cons ty tys ih =>
    cases h with
    | leaf scalar rest =>
      obtain ⟨front, back, hfront, hback, rfl⟩ := ih rest
      exact ⟨_, back, .leaf scalar hfront, hback, rfl⟩
    | record found first rest =>
      obtain ⟨front, back, hfront, hback, rfl⟩ := ih rest
      exact ⟨_, back, .record found first hfront, hback, (List.append_assoc _ _ _).symm⟩

/-- A record expands to what its fields expand to. -/
theorem single (found : t.lookupRecord name = .ok (some fields))
    (first : t.Expands (fields.map Field.ty) leaves) : t.Expands [.record name] leaves := by
  simpa using Expands.record found first .nil

theorem of_single (h : t.Expands [.record name] leaves)
    (found : t.lookupRecord name = .ok (some fields)) :
    ∃ inner, t.Expands (fields.map Field.ty) inner ∧ leaves = inner := by
  cases h with
  | leaf scalar => cases scalar
  | record found' first rest =>
    cases found.symm.trans found'
    cases rest
    exact ⟨_, first, List.append_nil _⟩

/-- Fields expand together if each of them does. -/
theorem exists_of_forall (h : ∀ f ∈ fields, ∃ leaves, t.Expands [f.ty] leaves) :
    ∃ leaves, t.Expands (fields.map Field.ty) leaves := by
  induction fields with
  | nil => exact ⟨[], .nil⟩
  | cons f rest ih =>
    obtain ⟨front, hfront⟩ := h f (by simp)
    obtain ⟨back, hback⟩ := ih fun g hg => h g (by simp [hg])
    exact ⟨front ++ back, hfront.append hback⟩

/-- Scalars inside of a type that expands are among its leaves; records inside of it are known. -/
theorem reaches (h : t.Expands tys leaves) (hty : ty ∈ tys) (hx : t.Reaches ty x) :
    (x.isRecord = false → x ∈ leaves) ∧
      ∀ r, x = .record r → ∃ fields, t.lookupRecord r = .ok (some fields) := by
  induction h generalizing ty with
  | nil => cases hty
  | @leaf scalar tys leaves hscalar _ ih =>
    rcases List.mem_cons.1 hty with rfl | hty
    · obtain rfl := hx.eq_of_scalar hscalar
      exact ⟨fun _ => .head _, fun r hr => by simp [hr, Ty.isRecord] at hscalar⟩
    · exact ⟨fun hs => .tail _ ((ih hty hx).1 hs), (ih hty hx).2⟩
  | @record name fields tys inner leaves found _ _ ihfirst ihrest =>
    rcases List.mem_cons.1 hty with rfl | hty
    · rcases hx.cases_record found with rfl | ⟨f, hf, hx⟩
      · exact ⟨nofun, fun r hr => by cases hr; exact ⟨fields, found⟩⟩
      · obtain ⟨hleaf, hknown⟩ := ihfirst (List.mem_map_of_mem hf) hx
        exact ⟨fun hs => List.mem_append_left _ (hleaf hs), hknown⟩
    · obtain ⟨hleaf, hknown⟩ := ihrest hty hx
      exact ⟨fun hs => List.mem_append_right _ (hleaf hs), hknown⟩

/-- No type inside of a type that expands lies inside of itself. -/
theorem acyclic (h : t.Expands tys leaves) (hty : ty ∈ tys) (hx : t.Reaches ty x) :
    ¬Relation.TransGen t.Holds x x := by
  induction h generalizing ty x with
  | nil => cases hty
  | leaf hscalar _ ih =>
    rcases List.mem_cons.1 hty with rfl | hty
    · obtain rfl := hx.eq_of_scalar hscalar
      intro hcycle
      obtain ⟨mid, ⟨_, _, _, rfl, -, -, -⟩, -⟩ := Relation.TransGen.head'_iff.1 hcycle
      cases hscalar
    · exact ih hty hx
  | @record name fields tys inner leaves found _ _ ihfirst ihrest =>
    rcases List.mem_cons.1 hty with rfl | hty
    · rcases hx.cases_record found with rfl | ⟨f, hf, hx⟩
      · -- a way back to the record leads through one of its fields, which does not lie inside of
        -- itself
        intro hcycle
        obtain ⟨mid, hmid, hback⟩ := Relation.TransGen.head'_iff.1 hcycle
        obtain ⟨_, _, f, heq, hfound, hf, rfl⟩ := hmid
        cases heq
        cases found.symm.trans hfound
        exact ihfirst (List.mem_map_of_mem hf) hback hcycle
      · exact ihfirst (List.mem_map_of_mem hf) hx
    · exact ihrest hty hx

/-- What the first fields of a record inside of a type expand to are leaves of the type. -/
theorem sublist {before : List Field} {r : String} {front : List Ty} (h : t.Expands tys leaves)
    (hty : ty ∈ tys) (hr : t.Reaches ty (.record r))
    (hfields : t.lookupRecord r = .ok (some fields))
    (hbefore : before <+: fields) (hfront : t.Expands (before.map Field.ty) front) :
    front.Sublist leaves := by
  induction h generalizing ty with
  | nil => cases hty
  | leaf hscalar _ ih =>
    rcases List.mem_cons.1 hty with rfl | hty
    · cases hr.eq_of_scalar hscalar
      cases hscalar
    · exact (ih hty hr).cons _
  | @record name fields' tys inner leaves found first _ ihfirst ihrest =>
    rcases List.mem_cons.1 hty with rfl | hty
    · rcases hr.cases_record found with heq | ⟨f, hf, hr⟩
      · cases heq
        cases found.symm.trans hfields
        obtain ⟨after, rfl⟩ := hbefore
        rw [List.map_append] at first
        obtain ⟨front', back, hfront', -, rfl⟩ := first.split
        rw [hfront.unique hfront', List.append_assoc]
        exact List.sublist_append_left _ _
      · exact (ihfirst (List.mem_map_of_mem hf) hr).trans (List.sublist_append_left _ _)
    · exact (ihrest hty hr).trans (List.sublist_append_right _ _)

end Expands

/-! ### Sizes -/

/-- A type without a record that is unknown or inside of itself, without `void`, and without texts
and arrays if those have no size. -/
structure Founded (t : SymbolTable) (handle : Option Nat) (ty : Ty) : Prop where
  acyclic : ∀ r, t.Reaches ty (.record r) → ¬Relation.TransGen t.Holds (.record r) (.record r)
  known : ∀ r, t.Reaches ty (.record r) → ∃ fields, t.lookupRecord r = .ok (some fields)
  valued : ¬t.Reaches ty .void
  handled : ∀ x, t.Reaches ty x → (x = .text ∨ ∃ element, x = .array element) →
    handle.isSome = true

/-- The sums over the first fields of the records inside of a type fit into a word. -/
def SumsFit (t : SymbolTable) (handle : Option Nat) (ty : Ty) : Prop :=
  ∀ r fields before leaves, t.Reaches ty (.record r) → t.lookupRecord r = .ok (some fields) →
    before <+: fields → t.Expands (before.map Field.ty) leaves →
    Ty.leafBytes handle leaves < sizeLimit

theorem SumsFit.field {f : Field} (h : t.SumsFit handle (.record name))
    (hfields : t.lookupRecord name = .ok (some fields)) (hf : f ∈ fields) : t.SumsFit handle f.ty :=
  fun r fields' before leaves hr => h r fields' before leaves (reaches_field hfields hf hr)

theorem sizeWithin_scalar (hscalar : ty.isRecord = false) :
    t.sizeWithin handle depth within ty = .ok (ty.leafSize handle) := by
  cases ty with
  | record => cases hscalar
  | _ => simp [Ty.leafSize]

/-- A size is the sum over the leaves, all of which have one. -/
theorem expands_of_sizeWithin (h : t.sizeWithin handle depth within ty = .ok (some n)) :
    ∃ leaves, t.Expands [ty] leaves ∧ n = Ty.leafBytes handle leaves ∧
      ∀ leaf ∈ leaves, (leaf.leafSize handle).isSome = true := by
  induction depth generalizing within ty n with
  | zero =>
    cases hscalar : ty.isRecord with
    | true =>
      cases ty with
      | record => cases h
      | _ => cases hscalar
    | false =>
      rw [sizeWithin_scalar hscalar, Except.ok.injEq] at h
      exact ⟨[ty], .leaf hscalar .nil, by simp [Ty.leafBytes_singleton, h], by simp [h]⟩
  | succ depth ih =>
    cases hscalar : ty.isRecord with
    | false =>
      rw [sizeWithin_scalar hscalar, Except.ok.injEq] at h
      exact ⟨[ty], .leaf hscalar .nil, by simp [Ty.leafBytes_singleton, h], by simp [h]⟩
    | true =>
      obtain ⟨name, rfl⟩ := Ty.exists_of_isRecord hscalar
      obtain ⟨-, fields, hfields, hsum⟩ := sizeWithin_record.1 h
      obtain ⟨sizes, hsizes, hn, -⟩ := sumSizes_eq_ok.1 hsum
      have hparts : ∃ leaves, t.Expands (fields.map Field.ty) leaves ∧
          sizes.sum = Ty.leafBytes handle leaves ∧
          ∀ leaf ∈ leaves, (leaf.leafSize handle).isSome = true := by
        clear hfields hsum hn h hscalar
        induction hsizes with
        | nil => exact ⟨[], .nil, rfl, by simp⟩
        | @cons f k rest sizes hk _ ihrest =>
          obtain ⟨front, hfront, rfl, hsized⟩ := ih hk
          obtain ⟨back, hback, hsum, hsized'⟩ := ihrest
          refine ⟨front ++ back, hfront.append hback, by simp [hsum], fun leaf hleaf => ?_⟩
          rcases List.mem_append.1 hleaf with hleaf | hleaf
          · exact hsized leaf hleaf
          · exact hsized' leaf hleaf
      obtain ⟨leaves, hleaves, hsum, hsized⟩ := hparts
      exact ⟨leaves, .single hfields hleaves, by rw [hn, hsum, Nat.zero_add], hsized⟩

/-- A type without unknown records and without records inside of themselves expands. -/
theorem Founded.exists_expands (h : t.Founded handle ty) : ∃ leaves, t.Expands [ty] leaves := by
  -- the records around a type contain it, so none of them is met again
  suffices hsteps : ∀ k within ty, t.unvisited within = k →
      (∀ w ∈ within, Relation.TransGen t.Holds (.record w) ty) → t.Founded handle ty →
      ∃ leaves, t.Expands [ty] leaves from hsteps _ [] ty rfl (by simp) h
  clear h
  intro k
  induction k using Nat.strong_induction_on with
  | _ k ih =>
    intro within ty hk hwithin hty
    cases ty with
    | record name =>
      obtain ⟨fields, hfields⟩ := hty.known name .refl
      have hfresh : name ∉ within := fun hmem => hty.acyclic name .refl (hwithin name hmem)
      have hparts : ∀ f ∈ fields, ∃ leaves, t.Expands [f.ty] leaves := by
        intro f hf
        have hstep : t.Holds (.record name) f.ty := ⟨name, fields, f, rfl, hfields, hf, rfl⟩
        refine ih _ (hk ▸ unvisited_cons_lt hfields hfresh) (name :: within) f.ty rfl ?_ ?_
        · intro w hw
          rcases List.mem_cons.1 hw with rfl | hw
          · exact .single hstep
          · exact (hwithin w hw).tail hstep
        · exact ⟨fun r hr => hty.acyclic r (reaches_field hfields hf hr),
            fun r hr => hty.known r (reaches_field hfields hf hr),
            fun hvoid => hty.valued (reaches_field hfields hf hvoid),
            fun x hx => hty.handled x (reaches_field hfields hf hx)⟩
      obtain ⟨leaves, hleaves⟩ := Expands.exists_of_forall hparts
      exact ⟨leaves, .single hfields hleaves⟩
    | _ => exact ⟨_, .leaf rfl .nil⟩

/-- Types that expand to leaves with sizes have the sums of these sizes, whatever other records are
around them. -/
theorem sizes_of_expands (h : t.Expands tys leaves) (hdepth : t.unvisited within < depth)
    (hfresh : ∀ ty ∈ tys, ∀ w ∈ within, ¬t.Reaches ty (.record w))
    (hsized : ∀ leaf ∈ leaves, (leaf.leafSize handle).isSome = true)
    (hfits : ∀ ty ∈ tys, t.SumsFit handle ty) :
    ∃ sizes, List.Forall₂ (fun ty n => t.sizeWithin handle depth within ty = .ok (some n)) tys
      sizes ∧ sizes.sum = Ty.leafBytes handle leaves := by
  induction h generalizing depth within with
  | nil => exact ⟨[], .nil, rfl⟩
  | @leaf ty tys leaves hscalar _ ih =>
    obtain ⟨k, hk⟩ := Option.isSome_iff_exists.1 (hsized ty (.head _))
    obtain ⟨sizes, hsizes, hsum⟩ := ih hdepth (fun ty' hty => hfresh ty' (.tail _ hty))
      (fun leaf hleaf => hsized leaf (.tail _ hleaf)) fun ty' hty => hfits ty' (.tail _ hty)
    refine ⟨k :: sizes, .cons (by rw [sizeWithin_scalar hscalar, hk]) hsizes, ?_⟩
    rw [List.sum_cons, hsum]
    simp [Ty.leafBytes, hk]
  | @record name fields tys inner leaves found first _ ihfirst ihrest =>
    obtain ⟨depth, rfl⟩ : ∃ k, depth = k + 1 := ⟨depth - 1, by omega⟩
    have hname : name ∉ within := fun hmem => hfresh _ (.head _) name hmem .refl
    have hvisited := unvisited_cons_lt found hname
    have hroom : t.unvisited (name :: within) < depth := by omega
    obtain ⟨parts, hparts, hsum⟩ := ihfirst hroom
      (by
        intro ty hty w hw hreaches
        obtain ⟨f, hf, rfl⟩ := List.mem_map.1 hty
        rcases List.mem_cons.1 hw with rfl | hw
        · -- the record would lie inside of its own field
          have hstep : t.Holds (.record w) f.ty := ⟨w, fields, f, rfl, found, hf, rfl⟩
          exact (Expands.single found first).acyclic (.head _) .refl (.head' hstep hreaches)
        · exact hfresh _ (.head _) w hw (reaches_field found hf hreaches))
      (fun leaf hleaf => hsized leaf (List.mem_append_left _ hleaf))
      (by
        intro ty hty
        obtain ⟨f, hf, rfl⟩ := List.mem_map.1 hty
        exact (hfits _ (.head _)).field found hf)
    obtain ⟨sizes, hsizes, hrest⟩ := ihrest hdepth (fun ty hty => hfresh ty (.tail _ hty))
      (fun leaf hleaf => hsized leaf (List.mem_append_right _ hleaf))
      fun ty hty => hfits ty (.tail _ hty)
    have hbound : Ty.leafBytes handle inner < sizeLimit :=
      hfits _ (.head _) name fields fields inner .refl found (List.prefix_refl _) first
    refine ⟨Ty.leafBytes handle inner :: sizes, .cons (sizeWithin_record.2
      ⟨hname, fields, found, sumSizes_eq_ok.2 ⟨parts, ?_, ?_, .inr hbound⟩⟩) hsizes, ?_⟩
    · exact List.forall₂_map_left_iff.1 hparts
    · rw [hsum, Nat.zero_add]
    · rw [List.sum_cons, hrest, Ty.leafBytes_append]

/-- Without an overflow and with lookups that succeed there is an answer. -/
theorem exists_sizeWithin (hlookup : ∀ name, ∃ found, t.lookupRecord name = .ok found)
    (hfits : t.SumsFit handle ty) : ∃ size, t.sizeWithin handle depth within ty = .ok size := by
  induction depth generalizing within ty with
  | zero =>
    cases ty with
    | record name => exact ⟨none, rfl⟩
    | _ => exact ⟨_, sizeWithin_scalar rfl⟩
  | succ depth ih =>
    cases ty with
    | record name =>
      simp only [sizeWithin]
      by_cases hmem : within.contains name = true
      · exact ⟨none, by rw [if_pos hmem]; rfl⟩
      · rw [if_neg hmem]
        obtain ⟨found, hfound⟩ := hlookup name
        rw [hfound]
        cases found with
        | none => exact ⟨none, rfl⟩
        | some fields =>
          -- the sum so far is the one over the leaves of the fields so far
          suffices hsum : ∀ before rest leaves, fields = before ++ rest →
              t.Expands (before.map Field.ty) leaves →
              ∃ size, sumSizes (t.sizeWithin handle depth (name :: within))
                (Ty.leafBytes handle leaves) rest = .ok size from
            hsum [] fields [] rfl .nil
          intro before rest
          induction rest generalizing before with
          | nil => exact fun leaves _ _ => ⟨_, rfl⟩
          | cons f rest ihrest =>
            intro leaves hsplit hleaves
            have hf : f ∈ fields := by simp [hsplit]
            obtain ⟨size, hsize⟩ :
                ∃ size, t.sizeWithin handle depth (name :: within) f.ty = .ok size :=
              ih (hfits.field hfound hf)
            cases size with
            | none => exact ⟨none, bind_eq_ok.2 ⟨none, hsize, rfl⟩⟩
            | some k =>
              obtain ⟨last, hlast, rfl, -⟩ := expands_of_sizeWithin hsize
              have hnext : t.Expands ((before ++ [f]).map Field.ty) (leaves ++ last) := by
                rw [List.map_append]
                exact hleaves.append hlast
              have hsplit' : fields = (before ++ [f]) ++ rest := by simpa using hsplit
              have hbound := hfits name fields (before ++ [f]) _ .refl hfound ⟨rest,
                hsplit'.symm⟩ hnext
              obtain ⟨size, hrest⟩ := ihrest (before ++ [f]) _ hsplit' hnext
              rw [Ty.leafBytes_append] at hbound hrest
              exact ⟨size, bind_eq_ok.2 ⟨some _, hsize, bind_eq_ok.2
                ⟨_, addSize_eq_ok.2 ⟨hbound, rfl⟩, hrest⟩⟩⟩
    | _ => exact ⟨_, sizeWithin_scalar rfl⟩

/-- A type that has a size is founded. -/
theorem founded_of_sizeWithin (h : t.sizeWithin handle depth within ty = .ok (some n)) :
    t.Founded handle ty := by
  obtain ⟨leaves, hleaves, -, hsized⟩ := expands_of_sizeWithin h
  have hty : ty ∈ [ty] := .head _
  refine ⟨fun r hr => hleaves.acyclic hty hr, fun r hr => (hleaves.reaches hty hr).2 r rfl,
    fun hvoid => ?_, fun x hx hhandle => ?_⟩
  · simpa [Ty.leafSize] using hsized .void ((hleaves.reaches hty hvoid).1 rfl)
  · rcases hhandle with rfl | ⟨element, rfl⟩
    · exact hsized .text ((hleaves.reaches hty hx).1 rfl)
    · exact hsized (.array element) ((hleaves.reaches hty hx).1 rfl)

/-- The leaves of types that expand are no records and lie inside of the types. -/
theorem Expands.reached (h : t.Expands tys leaves) {leaf : Ty} (hleaf : leaf ∈ leaves) :
    leaf.isRecord = false ∧ ∃ ty ∈ tys, t.Reaches ty leaf := by
  induction h with
  | nil => cases hleaf
  | leaf hscalar _ ih =>
    rcases List.mem_cons.1 hleaf with rfl | hleaf
    · exact ⟨hscalar, _, .head _, .refl⟩
    · obtain ⟨hs, ty, hty, hreaches⟩ := ih hleaf
      exact ⟨hs, ty, .tail _ hty, hreaches⟩
  | record found _ _ ihfirst ihrest =>
    rcases List.mem_append.1 hleaf with hleaf | hleaf
    · obtain ⟨hs, ty, hty, hreaches⟩ := ihfirst hleaf
      obtain ⟨f, hf, rfl⟩ := List.mem_map.1 hty
      exact ⟨hs, _, .head _, reaches_field found hf hreaches⟩
    · obtain ⟨hs, ty, hty, hreaches⟩ := ihrest hleaf
      exact ⟨hs, ty, .tail _ hty, hreaches⟩

/-- A founded type has a size. -/
theorem Founded.exists_size (h : t.Founded handle ty) (hfits : t.SumsFit handle ty) :
    ∃ n, t.storageSize handle ty = .ok (some n) := by
  obtain ⟨leaves, hleaves⟩ := h.exists_expands
  have hsized : ∀ leaf ∈ leaves, (leaf.leafSize handle).isSome = true := by
    intro leaf hleaf
    obtain ⟨hscalar, ty', hty, hreaches⟩ := hleaves.reached hleaf
    rw [List.mem_singleton.1 hty] at hreaches
    cases leaf with
    | bool | int => rfl
    | void => exact absurd hreaches h.valued
    | text => exact h.handled _ hreaches (.inl rfl)
    | array element => exact h.handled _ hreaches (.inr ⟨element, rfl⟩)
    | record => cases hscalar
  have hdepth : t.unvisited [] < t.recordDepth := unvisited_lt_recordDepth
  obtain ⟨sizes, hsizes, -⟩ := sizes_of_expands hleaves hdepth (by simp) hsized
    (by simpa using hfits)
  cases hsizes with
  | cons hn _ => exact ⟨_, hn⟩

/-- Which types have a size, and which one: the computation ends, it gives an answer if its sums
fit, the answer is a size exactly for founded types, and the size is the sum over the leaves. -/
theorem storageSize_exact (hfits : t.SumsFit handle ty) :
    WellFounded t.Asks ∧
    (∀ within name, t.sizeWithin handle t.recordDepth within (.record name) =
      if name ∈ within then .ok none
      else (t.lookupRecord name).bind fun
        | none => .ok none
        | some fields => sumSizes (t.sizeWithin handle t.recordDepth (name :: within)) 0 fields) ∧
    ((∀ name, ∃ found, t.lookupRecord name = .ok found) →
      ∃ size, t.storageSize handle ty = .ok size) ∧
    ((∃ n, t.storageSize handle ty = .ok (some n)) ↔ t.Founded handle ty) ∧
    ∀ n, t.storageSize handle ty = .ok (some n) →
      ∃ leaves, t.Expands [ty] leaves ∧ n = Ty.leafBytes handle leaves := by
  refine ⟨t.asks_wellFounded, fun within name => sizeWithin_recordDepth,
    fun hlookup => exists_sizeWithin hlookup hfits,
    ⟨fun ⟨n, hn⟩ => founded_of_sizeWithin hn, fun hfounded => hfounded.exists_size hfits⟩,
    fun n hn => ?_⟩
  obtain ⟨leaves, hleaves, hsum, -⟩ := expands_of_sizeWithin hn
  exact ⟨leaves, hleaves, hsum⟩

/-- The sums inside of a type that has a size fit into a word if the size does. -/
theorem sumsFit_of_storageSize (h : t.storageSize handle ty = .ok (some n)) (hn : n < sizeLimit) :
    t.SumsFit handle ty := by
  obtain ⟨leaves, hleaves, rfl, -⟩ := expands_of_sizeWithin h
  intro r fields before front hr hfields hbefore hfront
  have hsub := hleaves.sublist (.head _) hr hfields hbefore hfront
  exact Nat.lt_of_le_of_lt ((hsub.map _).sum_le_sum (by simp)) hn

/-- A record that contains another one twice, with a text and an array. -/
def diamond : SymbolTable where
  entries := #[⟨"Inner", ScopeId.global, .empty, .record [⟨"i", .int⟩, ⟨"b", .bool⟩] 0⟩,
    ⟨"Outer", ScopeId.global, .empty, .record [⟨"a", .record "Inner"⟩, ⟨"s", .text⟩,
      ⟨"b", .record "Inner"⟩, ⟨"h", .array (.record "Outer")⟩] 0⟩]
  scopes := #[⟨none, [("Outer", 2), ("Inner", 1)]⟩]

theorem storageSize_diamond :
    diamond.storageSize (some 8) (.record "Outer") = .ok (some 40) := by decide +kernel

/-- The record is founded, and its size is the one of its six leaves. -/
theorem exact_diamond : diamond.SumsFit (some 8) (.record "Outer") ∧
    diamond.Founded (some 8) (.record "Outer") ∧
    ∃ leaves, diamond.Expands [.record "Outer"] leaves ∧ 40 = Ty.leafBytes (some 8) leaves := by
  have hfits := sumsFit_of_storageSize storageSize_diamond (by decide)
  obtain ⟨-, -, -, hfounded, hsum⟩ := storageSize_exact hfits
  exact ⟨hfits, hfounded.1 ⟨40, storageSize_diamond⟩, hsum 40 storageSize_diamond⟩

end SymbolTable

end MiniJ
