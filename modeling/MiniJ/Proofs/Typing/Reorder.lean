import MiniJ.Proofs.Binding.Reorder
import MiniJ.Proofs.Typing.Faultless

/-!
# Checking functions in another order

The check of a function fills the rows of its own nodes, and what it finds does not depend on what
the tables hold. So functions may be checked in any order: either every order passes or none, and
the tables are the same in the end.

## Main definitions

* `Typing.State.SameRows` — tables with the same rows for some nodes.

## Main statements

* `Typing.checkFunctions_iff` — the functions pass one after the other if each of them passes.
* `Typing.checkFunctions_rows` — and then each leaves the rows that it leaves alone.
* `Arena.Reorders.check_iff`, `Arena.Reorders.check_rows` — programs that list them in another
  order.
-/
namespace MiniJ

namespace Typing

variable {cx cx' : Context} {S : Nat → Prop} {s s' t t' : State}

/-! ### Tables with the same rows -/

/-- Tables of one size with the same rows for the nodes with property `S`. -/
structure State.SameRows (S : Nat → Prop) (s t : State) : Prop where
  size : t.types.size = s.types.size ∧ t.targets.size = s.targets.size
  types : ∀ i, S i → SemanticInfo.row t.types i = SemanticInfo.row s.types i
  targets : ∀ i, S i → SemanticInfo.row t.targets i = SemanticInfo.row s.targets i

theorem State.SameRows.trans {r : State} (h : s.SameRows S t) (h' : t.SameRows S r) :
    s.SameRows S r :=
  ⟨⟨h'.size.1.trans h.size.1, h'.size.2.trans h.size.2⟩,
    fun i hi => (h'.types i hi).trans (h.types i hi),
    fun i hi => (h'.targets i hi).trans (h.targets i hi)⟩

theorem row_setRow_congr {α : Type} {table table' : Array (Option α)} {i : Nat}
    (hsize : table'.size = table.size) (h : SemanticInfo.row table' i = SemanticInfo.row table i)
    (id : Nat) (v : α) : SemanticInfo.row (SemanticInfo.setRow table' id v) i =
      SemanticInfo.row (SemanticInfo.setRow table id v) i := by
  unfold SemanticInfo.row at h ⊢
  simp only [SemanticInfo.setRow, Array.getElem?_setIfInBounds, hsize]
  split
  · rfl
  · exact h

theorem stays_sameRows (S : Nat → Prop) : Stays (State.SameRows S) where
  type id ty s t h := by
    refine ⟨⟨?_, h.size.2⟩, fun i hi => row_setRow_congr h.size.1 (h.types i hi) id ty, h.targets⟩
    rw [SemanticInfo.size_setRow, SemanticInfo.size_setRow, h.size.1]
  target id target s t h := by
    refine ⟨⟨h.size.1, ?_⟩, h.types, fun i hi => row_setRow_congr h.size.2 (h.targets i hi)
      id target⟩
    rw [SemanticInfo.size_setRow, SemanticInfo.size_setRow, h.size.2]

theorem Keeps.sameRows {T : Nat → Prop} (h : Keeps T s s') (hpos : ∀ i, S i → 0 < i)
    (hapart : ∀ i, S i → ¬T i) : s.SameRows S s' :=
  ⟨h.size, fun i hi => h.types i (hpos i hi) (hapart i hi),
    fun i hi => h.targets i (hpos i hi) (hapart i hi)⟩

theorem not_interval_of_apart {p q : Nat × Nat} (h : Arena.Apart p q) {i : Nat}
    (hi : Interval q.2 q.1 i) : ¬Interval p.2 p.1 i := by
  intro hi'
  unfold Interval at hi hi'
  unfold Arena.Apart at h
  omega

/-! ### Functions in any order -/

theorem indifferent_checkFunction {lo id : Nat} (htree : cx.arena.Tree lo id) :
    Indifferent cx (checkFunction id) :=
  tandem_checkFunction stays_true (.refl cx fun _ => True) rfl (fun _ _ => trivial) htree

/-- Functions pass one after the other if each of them passes. -/
theorem checkFunctions_iff {parts : List (Nat × Nat)}
    (htrees : ∀ p ∈ parts, cx.arena.Tree p.2 p.1) :
    (∃ s', Succeeds ((parts.map Prod.fst).forM checkFunction) cx s () s') ↔
      ∀ p ∈ parts, ∃ s', Succeeds (checkFunction p.1) cx s () s' := by
  induction parts generalizing s with
  | nil => exact ⟨fun _ => by simp, fun _ => ⟨s, rfl⟩⟩
  | cons p rest ih =>
    have hrest : ∀ q ∈ rest, cx.arena.Tree q.2 q.1 := fun q hq => htrees q (by simp [hq])
    have hany {q : Nat × Nat} (hq : q ∈ rest) {s t : State}
        (h : ∃ s', Succeeds (checkFunction q.1) cx s () s') :
        ∃ t', Succeeds (checkFunction q.1) cx t () t' := by
      obtain ⟨s', h⟩ := h
      exact (indifferent_checkFunction (hrest q hq)).succeeds h t
    constructor
    · rintro ⟨s', h⟩
      obtain ⟨_, t, hp, h⟩ := succeeds_bind.1 h
      intro q hq
      rcases List.mem_cons.1 hq with rfl | hq
      · exact ⟨t, hp⟩
      · exact hany hq ((ih hrest).1 ⟨s', h⟩ q hq)
    · intro h
      obtain ⟨t, hp⟩ := h p (by simp)
      obtain ⟨s', hs'⟩ := (ih (s := t) hrest).2 fun q hq => hany hq (h q (by simp [hq]))
      exact ⟨s', succeeds_bind.2 ⟨(), t, hp, hs'⟩⟩

/-- Functions that pass one after the other leave the rows that each of them leaves alone, and no
others. -/
theorem checkFunctions_rows {parts : List (Nat × Nat)} (hapart : parts.Pairwise Arena.Apart)
    (hparts : ∀ p ∈ parts, (∃ f, cx.arena.kind p.1 = .ok (.function f)) ∧ cx.arena.Tree p.2 p.1)
    (hsized : s.Sized cx) (h : Succeeds ((parts.map Prod.fst).forM checkFunction) cx s () s') :
    (∀ p ∈ parts, ∀ t, Succeeds (checkFunction p.1) cx s () t →
      t.SameRows (Interval p.2 p.1) s') ∧
      Keeps (fun i => ∃ p ∈ parts, Interval p.2 p.1 i) s s' := by
  induction parts generalizing s with
  | nil =>
    obtain ⟨-, rfl⟩ := succeeds_pure.1 h
    exact ⟨by simp, .refl _ _⟩
  | cons p rest ih =>
    obtain ⟨hfirst, hapart⟩ := List.pairwise_cons.1 hapart
    obtain ⟨_, t, hp, hrest⟩ := succeeds_bind.1 h
    obtain ⟨⟨f, hf⟩, htree⟩ := hparts p (by simp)
    have hkeeps := (checkFunction_stands hf htree hsized hp).2
    obtain ⟨hothers, hkeeps'⟩ := ih hapart (fun q hq => hparts q (by simp [hq]))
      (hsized.keeps hkeeps) hrest
    refine ⟨fun q hq r hr => ?_, (hkeeps.mono fun i hi => ⟨p, by simp, hi⟩).trans
      (hkeeps'.mono fun i ⟨q, hq, hi⟩ => ⟨q, by simp [hq], hi⟩)⟩
    rcases List.mem_cons.1 hq with rfl | hq
    · -- the functions behind this one leave its rows alone
      cases hp.symm.trans hr
      refine hkeeps'.sameRows (fun i hi => Nat.zero_lt_of_lt hi.1) fun i hi ⟨q', hq', hi'⟩ => ?_
      exact not_interval_of_apart (hfirst q' hq') hi' hi
    · -- the first function has left the rows of this one alone
      have hsame : s.SameRows (Interval q.2 q.1) t :=
        hkeeps.sameRows (fun i hi => Nat.zero_lt_of_lt hi.1)
          fun i hi => not_interval_of_apart (hfirst q hq) hi
      obtain ⟨t', ht', hrows⟩ := Tandem.succeeds (tandem_checkFunction (stays_sameRows _)
        (.refl cx fun _ => True) rfl (fun _ _ => trivial) (hparts q (by simp [hq])).2) hsame hr
      exact hrows.trans (hothers q hq t' ht')

/-- Two runs over the same functions, each in its own order. -/
theorem checkFunctions_perm {parts parts' : List (Nat × Nat)} (hperm : parts'.Perm parts)
    (hparts : ∀ p ∈ parts, cx.arena.Tree p.2 p.1) (hparts' : ∀ p ∈ parts, cx'.arena.Tree p.2 p.1)
    (htandem : ∀ p ∈ parts, Tandem Eq cx cx' (checkFunction p.1) (checkFunction p.1)) :
    (∃ s', Succeeds ((parts'.map Prod.fst).forM checkFunction) cx' s () s') ↔
      ∃ s', Succeeds ((parts.map Prod.fst).forM checkFunction) cx s () s' := by
  rw [checkFunctions_iff hparts, checkFunctions_iff fun p hp => hparts' p (hperm.mem_iff.1 hp)]
  have hresult : ∀ p ∈ parts, (∃ s', Succeeds (checkFunction p.1) cx' s () s') ↔
      ∃ s', Succeeds (checkFunction p.1) cx s () s' := by
    intro p hp
    have h := htandem p hp s s rfl
    exact ⟨fun ⟨s', hs'⟩ => ⟨s', (Prod.ext h.1 h.2).trans hs'⟩,
      fun ⟨s', hs'⟩ => ⟨s', (Prod.ext h.1 h.2).symm.trans hs'⟩⟩
  exact ⟨fun h p hp => (hresult p hp).1 (h p (hperm.mem_iff.2 hp)),
    fun h p hp => (hresult p (hperm.mem_iff.1 hp)).2 (h p (hperm.mem_iff.1 hp))⟩

/-- They fill the tables in the same way. -/
theorem checkFunctions_sameRows {parts parts' : List (Nat × Nat)} (hperm : parts'.Perm parts)
    (hapart : parts.Pairwise Arena.Apart)
    (hparts : ∀ p ∈ parts, (∃ f, cx.arena.kind p.1 = .ok (.function f)) ∧ cx.arena.Tree p.2 p.1)
    (hparts' : ∀ p ∈ parts, (∃ f, cx'.arena.kind p.1 = .ok (.function f)) ∧ cx'.arena.Tree p.2 p.1)
    (htandem : ∀ p ∈ parts, Tandem Eq cx cx' (checkFunction p.1) (checkFunction p.1))
    (hsized : s.Sized cx) (hsized' : s.Sized cx')
    (h : Succeeds ((parts.map Prod.fst).forM checkFunction) cx s () s')
    (h' : Succeeds ((parts'.map Prod.fst).forM checkFunction) cx' s () t') :
    s'.SameRows (0 < ·) t' := by
  obtain ⟨hrows, hkeeps⟩ := checkFunctions_rows hapart hparts hsized h
  obtain ⟨hrows', hkeeps'⟩ := checkFunctions_rows (hperm.symm.pairwise hapart Arena.Apart.symm)
    (fun p hp => hparts' p (hperm.mem_iff.1 hp)) hsized' h'
  have heach : ∀ p ∈ parts, s'.SameRows (Interval p.2 p.1) t' := by
    intro p hp
    obtain ⟨t, ht⟩ := (checkFunctions_iff fun p hp => (hparts p hp).2).1 ⟨s', h⟩ p hp
    obtain ⟨_, ht', rfl⟩ := (htandem p hp).succeeds rfl ht
    have hs := hrows p hp t ht
    have hs' := hrows' p (hperm.mem_iff.2 hp) t ht'
    exact ⟨⟨hs'.size.1.trans hs.size.1.symm, hs'.size.2.trans hs.size.2.symm⟩,
      fun i hi => (hs'.types i hi).trans (hs.types i hi).symm,
      fun i hi => (hs'.targets i hi).trans (hs.targets i hi).symm⟩
  refine ⟨⟨hkeeps'.size.1.trans hkeeps.size.1.symm, hkeeps'.size.2.trans hkeeps.size.2.symm⟩,
    fun i hi => ?_, fun i hi => ?_⟩ <;>
  by_cases hin : ∃ p ∈ parts, Interval p.2 p.1 i
  · obtain ⟨p, hp, hin⟩ := hin
    exact (heach p hp).types i hin
  · rw [hkeeps.types i hi hin, hkeeps'.types i hi fun ⟨p, hp, hin'⟩ =>
      hin ⟨p, hperm.mem_iff.1 hp, hin'⟩]
  · obtain ⟨p, hp, hin⟩ := hin
    exact (heach p hp).targets i hin
  · rw [hkeeps.targets i hi hin,
      hkeeps'.targets i hi fun ⟨p, hp, hin'⟩ => hin ⟨p, hperm.mem_iff.1 hp, hin'⟩]

/-! ### Units -/

theorem tandem_checkRecord {R : State → State → Prop} {P : Nat → Prop} {id : Nat}
    (hmatch : cx.Matches cx' P) (hP : ∀ i, cx.arena.Below id i → P i) :
    Tandem R cx cx' (checkRecord id) (checkRecord id) := by
  refine tandem_bind_of (tandem_node (hmatch.node id (hP id (.self id)))) fun s n s' hn => ?_
  obtain ⟨hn, -⟩ := succeeds_node.1 hn
  have hk : cx.arena.kind id = .ok n.kind := Arena.kind_eq_ok_iff.2 ⟨n.span, hn⟩
  obtain ⟨k, span⟩ := n
  cases k with
  | record r =>
    exact tandem_forM fun p hp => tandem_checkDeclaration hmatch (hP p (.child hk hp (.self p)))
  | _ => exact tandem_pure _

/-- A unit passes if its globals, its records and its functions do; only the functions leave
notes. -/
theorem succeeds_checkUnit {u : UnitNode} (hu : cx.arena.unit? = some u) :
    Succeeds checkUnit cx s () s' ↔ Succeeds (u.globals.forM checkDeclaration) cx s () s ∧
      Succeeds (u.records.forM checkRecord) cx s () s ∧
      Succeeds (u.functions.forM checkFunction) cx s () s' := by
  obtain ⟨span, hnode⟩ := Arena.node_root_of_unit? hu
  simp only [checkUnit, succeeds_bind, succeeds_node]
  constructor
  · rintro ⟨n, _, ⟨hn, rfl⟩, h⟩
    cases Except.ok.inj (hnode.symm.trans hn)
    simp only [succeeds_bind] at h
    obtain ⟨_, t, hglobals, _, t', hrecords, hfunctions⟩ := h
    obtain ⟨-, rfl⟩ := checkDeclarations_cases hglobals
    obtain ⟨-, rfl⟩ := checkRecords_cases hrecords
    exact ⟨hglobals, hrecords, hfunctions⟩
  · rintro ⟨hglobals, hrecords, hfunctions⟩
    exact ⟨_, s, ⟨hnode, rfl⟩, succeeds_bind.2 ⟨(), s, hglobals,
      succeeds_bind.2 ⟨(), s, hrecords, hfunctions⟩⟩⟩

end Typing

/-! ### Programs in another order -/

namespace Arena

open Typing

variable {a a' : Arena} {u u' : UnitNode} {table table' : SymbolTable} {info info' : SemanticInfo}

theorem check_eq_ok_iff : (a.check table info).1 = .ok () ↔
    ∃ s', Succeeds checkUnit (a.context table info) ⟨info.types, info.targets⟩ () s' :=
  ⟨fun hok => ⟨_, Prod.ext hok rfl⟩, fun ⟨_, hs⟩ => congrArg Prod.fst hs⟩

namespace Reorders

/-- Away from the root the type checker sees the same. -/
theorem checkMatches (h : a.Reorders a' u u') (hcomplete : a.Complete u)
    (hnames : a.NamesFunctionsOnce u) (hbind : a.bind {} = (.ok (), table, info))
    (hbind' : a'.bind {} = (.ok (), table', info')) :
    (a.context table info).Matches (a'.context table' info') (· ≠ NodeId.root) := by
  have hspread := hcomplete.spread
  obtain ⟨hmeanings, hvariables⟩ := h.boundAlike hcomplete hnames hbind hbind'
  obtain ⟨hsound, -, -⟩ := stripped_of_bind h.unit? hspread hbind
  obtain ⟨hsound', -, -⟩ := stripped_of_bind h.symm.unit? (h.spread hspread) hbind'
  obtain ⟨g, hg, -⟩ := hsound.root
  obtain ⟨g', hg', -⟩ := hsound'.root
  refine ⟨?_, fun i hi => h.node i hi, fun i name _ hk => ?_, fun i name args hi hk => ?_⟩
  · funext name
    simp only [context]
    rw [hsound.linked.lookupRecord_eq hg, hsound'.linked.lookupRecord_eq hg', hmeanings]
  · obtain ⟨e, e', x, x', hrow, hrow', hx, hx', -, hm, -⟩ := hvariables i name hk
    simp only [SemanticInfo.resolvedEntry] at hrow hrow'
    simp only [Context.held, context, hrow, hrow', Option.map_some, hx, hx', Except.map, hm]
  · obtain ⟨d, hd, f, hf, r, hr, hbelow⟩ := hcomplete.exists_body h.unit? hk (.inl rfl)
    have hf' := (h.kind_iff (by simp)).2 hf
    have hbelow' : a'.Below r i := h.below_body hspread hd hf hr hbelow
    rw [((readable_of_bind h.unit? hspread hbind).2 d hd f hf r hr i hbelow).2 name args hk,
      ((readable_of_bind h.symm.unit? (h.spread hspread) hbind').2 d
        (h.functions.mem_iff.2 hd) f hf' r
        hr i hbelow').2 name args ((h.kind_iff (by simp)).2 hk), Binding.overloadSet,
      Binding.overloadsOf_of_perm h.perm_overloads hnames, Binding.overloadSet]

/-- What a run over a unit compares to in the other program. -/
theorem tandem_members (h : a.Reorders a' u u') (hcomplete : a.Complete u)
    (hnames : a.NamesFunctionsOnce u) (hbind : a.bind {} = (.ok (), table, info))
    (hbind' : a'.bind {} = (.ok (), table', info')) (R : State → State → Prop) (hR : Stays R) :
    Tandem R (a.context table info) (a'.context table' info') (u.globals.forM checkDeclaration)
      (u'.globals.forM checkDeclaration) ∧
    Tandem R (a.context table info) (a'.context table' info') (u.records.forM checkRecord)
      (u'.records.forM checkRecord) ∧
    ∀ d ∈ u.functions, Tandem R (a.context table info) (a'.context table' info') (checkFunction d)
      (checkFunction d) := by
  have hspread := hcomplete.spread
  have hmatch := h.checkMatches hcomplete hnames hbind hbind'
  refine ⟨?_, ?_, fun d hd => ?_⟩
  · rw [h.globals]
    refine tandem_forM fun g hg => tandem_checkDeclaration hmatch ?_
    obtain ⟨⟨b, hb⟩, -⟩ := hspread.globals g hg
    exact h.ne_root hb (by simp)
  · rw [h.records]
    refine tandem_forM fun r hr => tandem_checkRecord hmatch fun i hi => ?_
    obtain ⟨⟨d, hd⟩, start, htree⟩ := hspread.records r hr
    exact h.below_ne_root htree (h.ne_root hd (by simp)) hi
  · obtain ⟨-, hroot, start, htree⟩ := h.function_tree hspread hd
    exact tandem_checkFunction hR hmatch h.size (fun i hi => h.below_ne_root htree hroot hi) htree

/-- Both checks start from the same tables. -/
theorem blank_of_bind (h : a.Reorders a' u u') (hbind : a.bind {} = (.ok (), table, info))
    (hbind' : a'.bind {} = (.ok (), table', info')) :
    State.mk info'.types info'.targets = ⟨info.types, info.targets⟩ ∧
      (State.mk info.types info.targets).Sized (a.context table info) := by
  obtain ⟨htypes, htargets⟩ := bind_blank hbind
  obtain ⟨htypes', htargets'⟩ := bind_blank hbind'
  rw [htypes, htargets, htypes', htargets', h.size]
  exact ⟨rfl, by simp [State.Sized, SemanticInfo.blank, context]⟩

/-- The type checker accepts both programs, or none. -/
theorem check_iff (h : a.Reorders a' u u') (hcomplete : a.Complete u)
    (hnames : a.NamesFunctionsOnce u) (hbind : a.bind {} = (.ok (), table, info))
    (hbind' : a'.bind {} = (.ok (), table', info')) :
    (a'.check table' info').1 = .ok () ↔ (a.check table info).1 = .ok () := by
  obtain ⟨hglobals, hrecords, hfunctions⟩ := h.tandem_members hcomplete hnames hbind hbind' Eq
    stays_eq
  obtain ⟨parts, hparts, -, htrees⟩ := hcomplete.spread.functions
  obtain ⟨parts', hparts', hperm⟩ := h.exists_parts hparts
  rw [check_eq_ok_iff, check_eq_ok_iff, (h.blank_of_bind hbind hbind').1]
  have hu : (a.context table info).arena.unit? = some u := h.unit?
  have hu' : (a'.context table' info').arena.unit? = some u' := h.symm.unit?
  simp only [succeeds_checkUnit hu, succeeds_checkUnit hu', exists_and_left]
  have hrun {x x' : CheckM PUnit} {s : State} (htandem : Tandem Eq (a.context table info)
      (a'.context table' info') x x') : Succeeds x' (a'.context table' info') s () s ↔
        Succeeds x (a.context table info) s () s := by
    have heq := htandem s s rfl
    rw [Succeeds, Succeeds, Prod.ext heq.1 heq.2]
  rw [hrun hglobals, hrun hrecords, ← hparts, ← hparts', checkFunctions_perm hperm]
  · exact fun p hp => (htrees p hp).2
  · intro p hp
    obtain ⟨⟨f, hf⟩, htree⟩ := htrees p hp
    exact h.tree htree (h.ne_root hf (by simp))
  · exact fun p hp => hfunctions p.1 (hparts ▸ List.mem_map_of_mem hp)

/-- And it gives every expression the same type and every call the same target. -/
theorem check_rows (h : a.Reorders a' u u') (hcomplete : a.Complete u)
    (hnames : a.NamesFunctionsOnce u) (hbind : a.bind {} = (.ok (), table, info))
    (hbind' : a'.bind {} = (.ok (), table', info')) {t t' : SymbolTable} {i i' : SemanticInfo}
    (hcheck : a.check table info = (.ok (), t, i))
    (hcheck' : a'.check table' info' = (.ok (), t', i'))
    (x : NodeId) : i'.typeOf x = i.typeOf x ∧ i'.callTarget x = i.callTarget x := by
  obtain ⟨-, -, hfunctions⟩ := h.tandem_members hcomplete hnames hbind hbind' Eq stays_eq
  obtain ⟨parts, hparts, hapart, htrees⟩ := hcomplete.spread.functions
  obtain ⟨parts', hparts', hperm⟩ := h.exists_parts hparts
  obtain ⟨s, hrun, htypes, htargets⟩ := checkUnit_of_check hcheck
  obtain ⟨s', hrun', htypes', htargets'⟩ := checkUnit_of_check hcheck'
  obtain ⟨hstart, hsized⟩ := h.blank_of_bind hbind hbind'
  have hsized' := (h.symm.blank_of_bind hbind' hbind).2
  rw [hstart] at hrun' hsized'
  have hu : (a.context table info).arena.unit? = some u := h.unit?
  have hu' : (a'.context table' info').arena.unit? = some u' := h.symm.unit?
  have hrun := ((succeeds_checkUnit hu).1 hrun).2.2
  have hrun' := ((succeeds_checkUnit hu').1 hrun').2.2
  rw [← hparts] at hrun
  rw [← hparts'] at hrun'
  have hsame : s.SameRows (0 < ·) s' := by
    refine checkFunctions_sameRows hperm hapart htrees (fun p hp => ?_) (fun p hp => ?_)
      hsized hsized'
      hrun hrun'
    · obtain ⟨⟨f, hf⟩, htree⟩ := htrees p hp
      exact ⟨⟨f, (h.kind_iff (by simp)).2 hf⟩, h.tree htree (h.ne_root hf (by simp))⟩
    · exact hfunctions p.1 (hparts ▸ List.mem_map_of_mem hp)
  have hrow : ∀ x, 0 < x → i'.typeOf x = i.typeOf x ∧ i'.callTarget x = i.callTarget x := by
    intro x hx
    unfold SemanticInfo.typeOf SemanticInfo.callTarget
    rw [htypes, htypes', htargets, htargets']
    exact ⟨hsame.types x hx, hsame.targets x hx⟩
  -- number zero is no node and reads the first row
  cases x with
  | zero => exact hrow 1 Nat.one_pos
  | succ x => exact hrow (x + 1) x.succ_pos

end Reorders

end Arena

end MiniJ
