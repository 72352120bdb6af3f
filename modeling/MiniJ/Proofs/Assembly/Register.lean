import MiniJ.Assembly.Instruction

/-!
# Laws of register files

Claiming adds a register, releasing takes it away, and a file is determined by the registers it
holds.
-/
namespace MiniJ

/-! ### Lines on registers -/

namespace Line

def push (r : Register) : Line := .instruction .push [.reg r]

def pop (r : Register) : Line := .instruction .pop [.reg r]

def move (target source : Register) : Line := .instruction .mov [.reg target, .reg source]

end Line

/-! ### Lists -/

/-- A sublist of a list without repetitions is what a filter leaves of it. -/
theorem eq_filter_of_sublist {α : Type} [DecidableEq α] {l all : List α} (h : l.Sublist all)
    (hnodup : all.Nodup) : l = all.filter fun x => decide (x ∈ l) := by
  induction h with
  | slnil => rfl
  | @cons l all a hsub ih =>
    obtain ⟨ha, hall⟩ := List.nodup_cons.1 hnodup
    have hal : a ∉ l := fun hmem => ha (hsub.subset hmem)
    rw [List.filter_cons_of_neg (by simpa using hal)]
    exact ih hall
  | @cons_cons l all a hsub ih =>
    obtain ⟨ha, hall⟩ := List.nodup_cons.1 hnodup
    rw [List.filter_cons_of_pos (by simp)]
    have hrest : all.filter (fun x => decide (x ∈ a :: l)) = all.filter fun x =>
        decide (x ∈ l) := by
      apply List.filter_congr
      intro x hx
      have hne : x ≠ a := fun heq => ha (heq ▸ hx)
      simp [hne]
    rw [hrest, ← ih hall]

namespace Register

theorem nodup_tracked : tracked.Nodup := by decide

theorem mem_tracked_of_scratch {r : Register} (h : r ∈ scratch) : r ∈ tracked :=
  List.mem_append_right _ h

theorem mem_tracked_of_arguments {r : Register} (h : r ∈ arguments) : r ∈ tracked :=
  List.mem_append_left _ h

theorem ne_rsp_of_tracked {r : Register} (h : r ∈ tracked) : r ≠ .rsp := by
  rintro rfl
  exact absurd h (by decide)

theorem ne_rbp_of_tracked {r : Register} (h : r ∈ tracked) : r ≠ .rbp := by
  rintro rfl
  exact absurd h (by decide)

end Register

namespace RegisterFile

variable {f g : RegisterFile} {q r : Register}

theorem nodup_live (f : RegisterFile) : f.live.Nodup := f.ordered.nodup Register.nodup_tracked

theorem mem_tracked (h : r ∈ f.live) : r ∈ Register.tracked := f.ordered.subset h

theorem ext_of_mem (h : ∀ q, q ∈ f.live ↔ q ∈ g.live) : f = g := by
  have hlive : f.live = g.live := by
    rw [eq_filter_of_sublist f.ordered Register.nodup_tracked,
      eq_filter_of_sublist g.ordered Register.nodup_tracked]
    simp only [h]
  cases f
  cases g
  simp_all

theorem claim?_eq_some (h : f.claim? r = some g) :
    r ∈ Register.tracked ∧ r ∉ f.live ∧ ∀ q, q ∈ g.live ↔ q = r ∨ q ∈ f.live := by
  unfold claim? at h
  split at h
  · next hfree =>
    cases h
    simp only [isLive, Bool.and_eq_true, List.contains_eq_mem, decide_eq_true_eq,
      Bool.not_eq_true', decide_eq_false_iff_not] at hfree
    refine ⟨hfree.1, hfree.2, fun q => ?_⟩
    simp only [isLive, List.mem_filter, Bool.or_eq_true, beq_iff_eq, List.contains_eq_mem,
      decide_eq_true_eq]
    constructor
    · rintro ⟨_, h⟩
      exact h
    · rintro (rfl | h)
      · exact ⟨hfree.1, .inl rfl⟩
      · exact ⟨mem_tracked h, .inr h⟩
  · cases h

theorem claim?_isSome (ht : r ∈ Register.tracked) (hfree : r ∉ f.live) :
    ∃ g, f.claim? r = some g := by
  simp [claim?, isLive, ht, hfree]

theorem claimScratch?_eq_some (h : f.claimScratch? = some (r, g)) :
    r ∈ Register.scratch ∧ r ∉ f.live ∧ ∀ q, q ∈ g.live ↔ q = r ∨ q ∈ f.live := by
  simp only [claimScratch?, Option.bind_eq_bind, Option.bind_eq_some_iff] at h
  obtain ⟨r', hfind, g', hclaim, heq⟩ := h
  cases heq
  obtain ⟨-, hfree, hlive⟩ := claim?_eq_some hclaim
  exact ⟨List.mem_of_find?_eq_some hfind, hfree, hlive⟩

theorem release_eq_ok (h : f.release r = .ok g) :
    (r ∉ Register.tracked ∧ g = f) ∨
      (r ∈ f.live ∧ ∀ q, q ∈ g.live ↔ q ≠ r ∧ q ∈ f.live) := by
  unfold release at h
  split at h
  · next hr =>
    cases h
    exact .inl ⟨by simpa using hr, rfl⟩
  · split at h
    · next hlive =>
      cases h
      refine .inr ⟨by simpa [isLive] using hlive, fun q => ?_⟩
      exact f.nodup_live.mem_erase_iff
    · cases h

theorem exists_release (h : r ∈ f.live) : ∃ g, f.release r = .ok g := by
  simp [release, isLive, h, mem_tracked h]

end RegisterFile

end MiniJ
