import MiniJ.Proofs.Assembly.Register
import MiniJ.Proofs.Lowering.Run

/-!
# Register discipline of code generation

A part of code generation leaves the registers it found live, hands out scratch registers that were
free, and puts back as many words as it takes from the stack.

## Main definitions

* `Gen.Claims` — what a part of code generation does to registers and stack.
-/
namespace MiniJ

namespace Gen

variable {cx : Context} {s s' t : State} {code : List Line} {r : Register} {rs rs' : List Register}

/-- The free scratch registers `rs` become live; nothing else changes but text constants. -/
structure Claims (rs : List Register) (s s' : State) : Prop where
  free : ∀ r ∈ rs, r ∈ Register.scratch ∧ r ∉ s.registers.live
  nodup : rs.Nodup
  live : ∀ q, q ∈ s'.registers.live ↔ q ∈ rs ∨ q ∈ s.registers.live
  depth : s'.stackDepth = s.stackDepth
  labels : s'.labelCount = s.labelCount

theorem Claims.refl (s : State) : Claims [] s s := ⟨by simp, .nil, by simp, rfl, rfl⟩

theorem Claims.trans (h : Claims rs s t) (h' : Claims rs' t s') : Claims (rs' ++ rs) s s' := by
  refine ⟨fun r hr => ?_, ?_, fun q => ?_, h'.depth.trans h.depth, h'.labels.trans h.labels⟩
  · rcases List.mem_append.1 hr with hr | hr
    · obtain ⟨hscratch, hfree⟩ := h'.free r hr
      exact ⟨hscratch, fun hlive => hfree ((h.live r).2 (.inr hlive))⟩
    · exact h.free r hr
  · refine List.nodup_append.2 ⟨h'.nodup, h.nodup, fun a ha b hb heq => ?_⟩
    exact (h'.free a ha).2 ((h.live a).2 (.inl (heq ▸ hb)))
  · rw [h'.live, h.live, List.mem_append, or_assoc]

theorem Claims.perm (h : Claims rs s s') (hp : rs.Perm rs') : Claims rs' s s' :=
  ⟨fun r hr => h.free r (hp.mem_iff.2 hr), hp.nodup_iff.1 h.nodup,
    fun q => by rw [h.live q, hp.mem_iff], h.depth, h.labels⟩

theorem Claims.tracked (h : Claims [r] s s') : r ∈ Register.tracked :=
  Register.mem_tracked_of_scratch (h.free r (by simp)).1

/-- The registers that were live still are. -/
theorem Claims.mono (h : Claims rs s s') {q : Register} (hq : q ∈ s.registers.live) :
    q ∈ s'.registers.live := (h.live q).2 (.inr hq)

/-- A claimed register is not one that was live. -/
theorem Claims.ne_of_live {q : Register} (h : Claims rs s s') (hq : q ∈ rs)
    (hr : r ∈ s.registers.live) : r ≠ q := by
  rintro rfl
  exact (h.free r hq).2 hr

theorem Claims.registers_eq (h : Claims [] s s') : s'.registers = s.registers :=
  RegisterFile.ext_of_mem fun q => by simp [h.live q]

/-- A state that differs in its text constants only. -/
theorem Claims.of_eq (hr : s'.registers = s.registers) (hd : s'.stackDepth = s.stackDepth)
    (hl : s'.labelCount = s.labelCount) : Claims [] s s' :=
  ⟨by simp, .nil, by simp [hr], hd, hl⟩

theorem emits_scratch {id : NodeId} (h : Emits (scratch id) cx s r code s') :
    code = [] ∧ Claims [r] s s' := by
  rw [scratch, emits_state_bind] at h
  split at h
  · next q g hclaim =>
    rw [emits_update_bind, emits_pure] at h
    obtain ⟨rfl, rfl, rfl⟩ := h
    obtain ⟨hscratch, hfree, hlive⟩ := RegisterFile.claimScratch?_eq_some hclaim
    refine ⟨rfl, fun q hq => ?_, by simp, fun q => ?_, rfl, rfl⟩
    · cases List.mem_singleton.1 hq
      exact ⟨hscratch, hfree⟩
    · rw [List.mem_singleton]
      exact hlive q
  · simp [emits_node_bind, emits_fail] at h

theorem emits_scratch_bind {β : Type} {id : NodeId} {f : Register → Gen β} {w : β}
    (h : Emits (scratch id >>= f) cx s w code s') :
    ∃ r t, Claims [r] s t ∧ Emits (f r) cx t w code s' := by
  obtain ⟨r, _, t, _, hr, hf, rfl⟩ := emits_bind.1 h
  obtain ⟨rfl, hclaims⟩ := emits_scratch hr
  exact ⟨r, t, hclaims, hf⟩

theorem emits_release {v : Unit} : Emits (release r) cx s v code s' ↔
    ∃ g, s.registers.release r = .ok g ∧ code = [] ∧ s' = { s with registers := g } := by
  rw [release, emits_state_bind, emits_lift_bind]
  simp only [emits_update]

theorem emits_release_bind {β : Type} {f : Unit → Gen β} {w : β} :
    Emits (release r >>= f) cx s w code s' ↔
      ∃ g, s.registers.release r = .ok g ∧ Emits (f ()) cx { s with registers := g } w code s' := by
  rw [emits_bind]
  constructor
  · rintro ⟨_, _, _, _, h, hf, rfl⟩
    obtain ⟨g, hg, rfl, rfl⟩ := emits_release.1 h
    exact ⟨g, hg, hf⟩
  · rintro ⟨g, hg, hf⟩
    exact ⟨(), [], _, code, emits_release.2 ⟨g, hg, rfl, rfl⟩, hf, rfl⟩

/-- Releasing a claimed register. -/
theorem Claims.release (h : Claims rs s t) (hr : r ∈ rs) {g : RegisterFile}
    (hg : t.registers.release r = .ok g) :
    Claims (rs.erase r) s { t with registers := g } := by
  refine ⟨fun q hq => h.free q (List.mem_of_mem_erase hq), h.nodup.erase r, fun q => ?_, h.depth,
    h.labels⟩
  have htracked := Register.mem_tracked_of_scratch (h.free r hr).1
  rcases RegisterFile.release_eq_ok hg with ⟨hno, -⟩ | ⟨-, hlive⟩
  · exact absurd htracked hno
  · rw [hlive, h.live, h.nodup.mem_erase_iff]
    constructor
    · rintro ⟨hne, hq | hq⟩
      · exact .inl ⟨hne, hq⟩
      · exact .inr hq
    · rintro (⟨hne, hq⟩ | hq)
      · exact ⟨hne, .inl hq⟩
      · refine ⟨fun heq => (h.free r hr).2 (heq ▸ hq), .inr hq⟩

/-- Releasing the registers that were claimed. -/
theorem Claims.releaseAll {qs : List Register} {v : Unit} (h : Claims (qs ++ rs) s t)
    (hg : Emits (Gen.releaseAll qs) cx t v code s') : code = [] ∧ Claims rs s s' := by
  induction qs generalizing t code with
  | nil =>
    obtain ⟨-, rfl, rfl⟩ := emits_pure.1 hg
    exact ⟨rfl, h⟩
  | cons q qs ih =>
    obtain ⟨_, _, t', _, hq, hrest, rfl⟩ := emits_bind.1 hg
    obtain ⟨g, hg', rfl, rfl⟩ := emits_release.1 hq
    have hclaims := h.release (r := q) (by simp) hg'
    rw [List.cons_append, List.erase_cons_head] at hclaims
    exact ih hclaims hrest

end Gen

end MiniJ
