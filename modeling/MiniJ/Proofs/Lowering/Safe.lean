import MiniJ.Proofs.Lowering.Shape

/-!
# Code generation without surprises

A part of code generation is safe if it can only fail for the reasons a checked program may give:
too few registers, an operator without code for texts, and records as results. What it emits can be
written out.

## Main definitions

* `Gen.Safe` — the property.

## Main statements

* `Gen.safe_bind` — steps behind each other.
-/
namespace MiniJ

/-- Reasons to give up on a checked program. -/
def CodegenError.IsGap : CodegenError → Prop
  | .outOfRegisters _ => True
  | .unsupported (.textOperator op) _ =>
    op ∈ [BinaryOp.plus, .lesser, .lesserEq, .greater, .greaterEq]
  | .unsupported .recordResult _ => True
  | _ => False

def Failure.IsGap : Failure CodegenError → Prop
  | .reported e => e.IsGap
  | .fault _ => False

/-- The displacement of an address has an absolute value. -/
def Address.Writable (a : Address) : Prop := -2147483648 < a.displacement

def Operand.Writable : Operand → Prop
  | mem _ a | addr a => a.Writable
  | _ => True

def Line.Writable : Line → Prop
  | label _ => True
  | instruction _ operands => ∀ x ∈ operands, x.Writable

theorem Address.Writable.render {a : Address} (h : a.Writable) : ∃ text, a.render = .ok text := by
  have hlt : -2147483648 < a.displacement := h
  unfold Address.render
  split
  · exact ⟨_, rfl⟩
  · split
    · next hneg =>
      have hrange : Address.inRange (-a.displacement) = true := by
        simp only [Address.inRange, Bool.and_eq_true, decide_eq_true_eq]
        omega
      rw [if_pos hrange]
      exact ⟨_, rfl⟩
    · exact ⟨_, rfl⟩

theorem Operand.Writable.render {x : Operand} (h : x.Writable) : ∃ text, x.render = .ok text := by
  cases x with
  | mem width a =>
    obtain ⟨text, htext⟩ := Address.Writable.render h
    exact ⟨_, Outcome.bind_eq_ok.2 ⟨text, htext, rfl⟩⟩
  | addr a => exact Address.Writable.render h
  | _ => exact ⟨_, rfl⟩

/-- A writable line can be written out. -/
theorem Line.Writable.render {line : Line} (h : line.Writable) :
    ∃ text, line.render = .ok text := by
  cases line with
  | label name => exact ⟨_, rfl⟩
  | instruction mnemonic operands =>
    obtain ⟨texts, htexts⟩ := Outcome.exists_mapM fun x hx => (h x hx).render
    exact ⟨_, Outcome.bind_eq_ok.2 ⟨texts, htexts, rfl⟩⟩

/-- An address further inside of a value that can be addressed. -/
theorem Address.Writable.offsetBy {a : Address} {d : Nat} (h : a.Writable)
    (hlt : a.displacement + d < 2147483648) :
    a.offsetBy d = .ok { a with displacement := a.displacement + d } ∧
      Address.Writable { a with displacement := a.displacement + d } := by
  have hlow : -2147483648 < a.displacement := h
  have hrange : Address.inRange (a.displacement + d) = true := by
    simp only [Address.inRange, Bool.and_eq_true, decide_eq_true_eq]
    omega
  exact ⟨if_pos hrange, show -2147483648 < a.displacement + (d : Int) by omega⟩

namespace Gen

variable {α β : Type} {cx : Context} {s : State}

/-- Code generation fails for an expected reason only, and what it emits can be written out. -/
structure Safe (x : Gen α) (cx : Context) (s : State) : Prop where
  failure : ∀ e, x cx s = .error e → e.IsGap
  code : ∀ v c t, Emits x cx s v c t → ∀ line ∈ c, line.Writable

/-- A part of code generation that succeeds. -/
theorem safe_of_emits {x : Gen α} {v : α} {c : List Line} {t : State} (h : Emits x cx s v c t)
    (hc : ∀ line ∈ c, line.Writable) : Safe x cx s := by
  refine ⟨fun e he => ?_, fun v' c' t' h' => ?_⟩
  · cases h.symm.trans he
  · cases h.symm.trans h'
    exact hc

theorem safe_pure {v : α} : Safe (pure v) cx s :=
  safe_of_emits (emits_pure.2 ⟨rfl, rfl, rfl⟩) (by simp)

/-- Steps behind each other. -/
theorem safe_bind {x : Gen α} {f : α → Gen β} (hx : Safe x cx s)
    (hf : ∀ v c t, Emits x cx s v c t → Safe (f v) cx t) : Safe (x >>= f) cx s := by
  refine ⟨fun e he => ?_, fun w c t h => ?_⟩
  · have hbind : (x >>= f) cx s = Gen.bind x f cx s := rfl
    rw [hbind, Gen.bind] at he
    rcases hv : x cx s with e' | ⟨v, c, t⟩
    · rw [hv] at he
      cases he
      exact hx.failure e hv
    · rw [hv] at he
      dsimp only at he
      rcases hw : f v cx t with e' | ⟨w, c', t'⟩
      · rw [hw] at he
        cases he
        exact (hf v c t hv).failure e hw
      · rw [hw] at he
        cases he
  · obtain ⟨v, c₁, t₁, c₂, hv, hw, rfl⟩ := emits_bind.1 h
    intro line hline
    rcases List.mem_append.1 hline with hline | hline
    · exact hx.code v c₁ t₁ hv line hline
    · exact (hf v c₁ t₁ hv).code w c₂ t hw line hline

/-- A first step that succeeds. -/
theorem safe_bind_of_emits {x : Gen α} {f : α → Gen β} {v : α} {c : List Line} {t : State}
    (h : Emits x cx s v c t) (hc : ∀ line ∈ c, line.Writable) (hf : Safe (f v) cx t) :
    Safe (x >>= f) cx s := by
  refine safe_bind (safe_of_emits h hc) fun v' c' t' h' => ?_
  cases h.symm.trans h'
  exact hf

theorem safe_fail {failure : Failure CodegenError} (h : failure.IsGap) :
    Safe (fail failure : Gen α) cx s := by
  refine ⟨fun e he => ?_, fun v c t hv => (emits_fail.1 hv).elim⟩
  cases he
  exact h

/-! ### First steps -/

theorem safe_context_bind {f : Context → Gen β} (h : Safe (f cx) cx s) :
    Safe (context >>= f) cx s :=
  safe_bind_of_emits (v := cx) (c := []) (t := s) rfl (by simp) h

theorem safe_state_bind {f : State → Gen β} (h : Safe (f s) cx s) : Safe (state >>= f) cx s :=
  safe_bind_of_emits (v := s) (c := []) (t := s) rfl (by simp) h

theorem safe_update {g : State → State} : Safe (update g) cx s :=
  safe_of_emits (v := ()) (emits_update.2 ⟨rfl, rfl⟩) (by simp)

theorem safe_lift_bind {x : Except Fault α} {f : α → Gen β} {v : α} (hx : x = .ok v)
    (h : Safe (f v) cx s) : Safe (liftM x >>= f) cx s :=
  safe_bind_of_emits (emits_lift.2 ⟨hx, rfl, rfl⟩) (by simp) h

theorem safe_emit {mnemonic : Mnemonic} {operands : List Operand}
    (h : ∀ x ∈ operands, x.Writable) : Safe (emit mnemonic operands) cx s :=
  safe_of_emits (v := ()) (emits_emit.2 ⟨rfl, rfl⟩) (by simpa [Line.Writable] using h)

theorem safe_emit_bind {mnemonic : Mnemonic} {operands : List Operand} {f : Unit → Gen β}
    (h : ∀ x ∈ operands, x.Writable) (hf : Safe (f ()) cx s) :
    Safe (emit mnemonic operands >>= f) cx s :=
  safe_bind_of_emits (v := ()) (emits_emit.2 ⟨rfl, rfl⟩) (by simpa [Line.Writable] using h) hf

theorem safe_placeLabel {name : String} : Safe (placeLabel name) cx s :=
  safe_of_emits (v := ()) (emits_placeLabel.2 ⟨rfl, rfl⟩) (by simp [Line.Writable])

theorem safe_newLabel : Safe newLabel cx s :=
  safe_state_bind (safe_bind safe_update fun _ _ _ _ => safe_pure)

/-! ### Nodes -/

variable {id : NodeId} {k : NodeKind}

theorem safe_kind_bind {f : NodeKind → Gen β} (hk : cx.arena.kind id = .ok k)
    (h : Safe (f k) cx s) : Safe (kind id >>= f) cx s :=
  safe_bind_of_emits (emits_kind.2 ⟨hk, rfl, rfl⟩) (by simp) h

/-- Giving up for an expected reason. -/
theorem safe_unsupported {what : Unsupported} (hk : cx.arena.kind id = .ok k)
    (hgap : ∀ span, (CodegenError.unsupported what span).IsGap) :
    Safe (unsupported what id : Gen α) cx s := by
  obtain ⟨span, hnode⟩ := Arena.kind_eq_ok_iff.1 hk
  exact safe_bind_of_emits (emits_node.2 ⟨hnode, rfl, rfl⟩) (by simp) (safe_fail (hgap span))

theorem safe_scratch (hk : cx.arena.kind id = .ok k) : Safe (scratch id) cx s := by
  refine safe_state_bind ?_
  split
  · exact safe_bind safe_update fun _ _ _ _ => safe_pure
  · obtain ⟨span, hnode⟩ := Arena.kind_eq_ok_iff.1 hk
    exact safe_bind_of_emits (emits_node.2 ⟨hnode, rfl, rfl⟩) (by simp) (safe_fail trivial)

theorem safe_typeOf_bind {ty : Ty} {f : Ty → Gen β} (hty : cx.info.typeOf id = some ty)
    (h : Safe (f ty) cx s) : Safe (typeOf id >>= f) cx s :=
  safe_bind_of_emits (emits_typeOf.2 ⟨hty, rfl, rfl⟩) (by simp) h

theorem safe_sizeOf_bind {ty : Ty} {n : Nat} {f : Nat → Gen β}
    (hn : cx.table.sizeOf ty = .ok (some n)) (h : Safe (f n) cx s) :
    Safe (Gen.sizeOf ty id >>= f) cx s :=
  safe_bind_of_emits (emits_sizeOf.2 ⟨hn, rfl, rfl⟩) (by simp) h

/-! ### Registers and stack -/

variable {r : Register} {rs : List Register}

theorem safe_release (h : r ∈ s.registers.live) : Safe (release r) cx s := by
  obtain ⟨g, hg⟩ := RegisterFile.exists_release h
  exact safe_of_emits (v := ()) (emits_release.2 ⟨g, hg, rfl, rfl⟩) (by simp)

/-- Releasing registers that were claimed. -/
theorem safe_releaseAll {qs q : List Register} {t : State} (h : Claims (qs ++ q) s t) :
    Safe (releaseAll qs) cx t := by
  induction qs generalizing t with
  | nil => exact safe_pure
  | cons r qs ih =>
    refine safe_bind (safe_release ((h.live r).2 (.inl (by simp)))) fun _ c t' ht => ?_
    obtain ⟨g, hg, rfl, rfl⟩ := emits_release.1 ht
    have hclaims := h.release (r := r) (by simp) hg
    rw [List.cons_append, List.erase_cons_head] at hclaims
    exact ih hclaims

theorem safe_push : Safe (push r) cx s :=
  safe_of_emits (v := ()) (emits_push.2 ⟨rfl, rfl⟩)
    (by simp [Line.push, Line.Writable, Operand.Writable])

theorem safe_forM_push : Safe (rs.forM push) cx s := by
  refine safe_of_emits (v := ()) (emits_forM_push.2 ⟨rfl, rfl⟩) fun line hline => ?_
  obtain ⟨q, -, rfl⟩ := List.mem_map.1 hline
  simp [Line.push, Line.Writable, Operand.Writable]

theorem safe_forM_pop (h : rs.length ≤ s.stackDepth) : Safe (rs.forM pop) cx s := by
  refine safe_of_emits (v := ()) (emits_forM_pop.2 ⟨h, rfl, rfl⟩) fun line hline => ?_
  obtain ⟨q, -, rfl⟩ := List.mem_map.1 hline
  simp [Line.pop, Line.Writable, Operand.Writable]

/-- The same for every element of a list, in any state. -/
theorem safe_forM {xs : List α} {f : α → Gen Unit} (h : ∀ x ∈ xs, ∀ s, Safe (f x) cx s) :
    Safe (xs.forM f) cx s := by
  induction xs generalizing s with
  | nil => exact safe_pure
  | cons x xs ih =>
    exact safe_bind (h x (by simp) s) fun _ _ _ _ => ih fun y hy => h y (by simp [hy])

end Gen

end MiniJ
