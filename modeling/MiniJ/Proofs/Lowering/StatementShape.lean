import MiniJ.Proofs.Lowering.Shape

/-!
# Shape of the code for statements

What lowering emits for one statement, given what it emits for the statements and expressions in it:
jumps, labels and the code of the parts, in order, with the state of code generation in between.

## Main definitions

* `Lowering.TestShape` — a condition that sets the flags.
* `Lowering.ReturnShape` — leaving the function.
* `Lowering.StatementShape` — one level of a statement.

## Main statements

* `Lowering.statementShape` — lowering emits these shapes only.
-/
namespace MiniJ

namespace Gen

variable {β : Type} {cx : Context} {s s' : State} {code : List Line}

/-- Name of the label with this number. -/
def labelName (n : Nat) : String := s!".L{n}"

/-- One more label. -/
def State.labelled (s : State) : State := { s with labelCount := s.labelCount + 1 }

@[simp] theorem State.registers_labelled (s : State) : s.labelled.registers = s.registers := rfl

@[simp] theorem State.stackDepth_labelled (s : State) : s.labelled.stackDepth = s.stackDepth := rfl

@[simp] theorem State.labelCount_labelled (s : State) :
    s.labelled.labelCount = s.labelCount + 1 := rfl

theorem emits_newLabel_bind {f : String → Gen β} {w : β} :
    Emits (newLabel >>= f) cx s w code s' ↔
      Emits (f (labelName s.labelCount)) cx s.labelled w code s' := by
  have h : newLabel cx s = .ok ⟨labelName s.labelCount, [], s.labelled⟩ := rfl
  rw [emits_bind]
  constructor
  · rintro ⟨_, _, _, _, hlabel, hf, rfl⟩
    cases h.symm.trans hlabel
    exact hf
  · intro hf
    exact ⟨_, [], _, code, h, hf, rfl⟩

theorem emits_placeLabel_bind {name : String} {f : Unit → Gen β} {w : β} :
    Emits (placeLabel name >>= f) cx s w code s' ↔
      ∃ rest, code = .label name :: rest ∧ Emits (f ()) cx s w rest s' := by
  rw [emits_bind]
  constructor
  · rintro ⟨_, _, _, rest, hlabel, hf, rfl⟩
    obtain ⟨rfl, rfl⟩ := emits_placeLabel.1 hlabel
    exact ⟨rest, rfl, hf⟩
  · rintro ⟨rest, rfl, hf⟩
    exact ⟨(), [.label name], s, rest, emits_placeLabel.2 ⟨rfl, rfl⟩, hf, rfl⟩

theorem emits_immediate_bind {id : NodeId} {f : Option Int64 → Gen β} {w : β}
    (h : Emits (immediate id >>= f) cx s w code s') : ∃ k, cx.arena.kind id = .ok k ∧
      Emits (f (match k with
        | .int value => some value
        | .bool value => some (if value then 1 else 0)
        | _ => none)) cx s w code s' := by
  obtain ⟨value, _, _, _, himmediate, hf, rfl⟩ := emits_bind.1 h
  obtain ⟨k, hk, hvalue⟩ := emits_kind_bind.1 himmediate
  refine ⟨k, hk, ?_⟩
  cases k <;> (obtain ⟨rfl, rfl, rfl⟩ := emits_pure.1 hvalue; exact hf)

end Gen

namespace Lowering

open Gen

variable {lower : Lowering} {cx : Context} {s s' : State} {code : List Line} {id : NodeId}
  {statement : NodeId → Gen Unit}

/-! ### Conditions -/

/-- The code of a condition, which holds exactly with the outcome that it gives back. -/
inductive TestShape (lower : Lowering) (cx : Context) (id : NodeId) (s : State) :
    Test → Condition → List Line → State → Prop
  | comparison {op : BinaryOp} {condition : Condition} {left right : NodeId} {lhs rhs : Register}
      {c c' : List Line} {t t' t₁ s' : State}
      (first : Emits (lower.expression left) cx s lhs c t)
      (second : Emits (lower.expression right) cx t rhs c' t')
      (dropped : Releases rhs t' t₁) (dropped' : Releases lhs t₁ s') :
      TestShape lower cx id s (.comparison op condition left right) condition
        (c ++ (c' ++ [.instruction .cmp [.reg lhs, .reg rhs]])) s'
  | value {r : Register} {c : List Line} {t s' : State}
      (computed : Emits (lower.expression id) cx s r c t) (dropped : Releases r t s') :
      TestShape lower cx id s .value .equal (c ++ [.instruction .cmp [.reg r, .imm 1]]) s'

theorem testShape {shape : Test} {condition : Condition} (hshape : ∀ b, shape ≠ .constant b)
    (h : Emits (test lower id shape) cx s condition code s') :
    TestShape lower cx id s shape condition code s' := by
  cases shape with
  | constant b => exact absurd rfl (hshape b)
  | comparison op outcome left right =>
    obtain ⟨lhs, c, t, _, hleft, hrest, rfl⟩ := emits_bind.1 (emits_rejectText_bind h)
    obtain ⟨rhs, c', t', _, hright, hcmp, rfl⟩ := emits_bind.1 hrest
    obtain ⟨_, rfl, hdrop⟩ := emits_emit_bind.1 hcmp
    obtain ⟨g, hg, hdrop'⟩ := emits_release_bind.1 hdrop
    obtain ⟨g', hg', hdone⟩ := emits_release_bind.1 hdrop'
    obtain ⟨rfl, rfl, rfl⟩ := emits_pure.1 hdone
    exact .comparison hleft hright ⟨g, hg, rfl⟩ ⟨g', hg', rfl⟩
  | value =>
    obtain ⟨r, c, t, _, hvalue, hcmp, rfl⟩ := emits_bind.1 h
    obtain ⟨_, rfl, hdrop⟩ := emits_emit_bind.1 hcmp
    obtain ⟨g, hg, hdone⟩ := emits_release_bind.1 hdrop
    obtain ⟨rfl, rfl, rfl⟩ := emits_pure.1 hdone
    exact .value hvalue ⟨g, hg, rfl⟩

theorem emits_jumpUnless {shape : Test} {target : String} {v : Unit}
    (hshape : ∀ b, shape ≠ .constant b)
    (h : Emits (jumpUnless lower id shape target) cx s v code s') :
    ∃ condition c, TestShape lower cx id s shape condition c s' ∧
      code = c ++ [.instruction (.jump condition.negate) [.label target]] := by
  obtain ⟨condition, c, t, _, htest, hjump, rfl⟩ := emits_bind.1 h
  obtain ⟨rfl, rfl⟩ := emits_emit.1 hjump
  exact ⟨condition, c, testShape hshape htest, rfl⟩

theorem emits_jumpIf {shape : Test} {target : String} {v : Unit} (hshape : ∀ b, shape ≠ .constant b)
    (h : Emits (jumpIf lower id shape target) cx s v code s') :
    ∃ condition c, TestShape lower cx id s shape condition c s' ∧
      code = c ++ [.instruction (.jump condition) [.label target]] := by
  obtain ⟨condition, c, t, _, htest, hjump, rfl⟩ := emits_bind.1 h
  obtain ⟨rfl, rfl⟩ := emits_emit.1 hjump
  exact ⟨condition, c, testShape hshape htest, rfl⟩

/-- Only a literal condition is decided at once. -/
theorem Test.kind_of_constant {k : NodeKind} {b : Bool} (h : Test.ofKind k = .constant b) :
    k = .bool b := by
  unfold Test.ofKind at h
  split at h
  · cases h
    rfl
  · split at h <;> cases h
  · cases h

/-! ### Returning -/

/-- Leaves the function. -/
def epilogueCode : List Line :=
  [.instruction .mov [.reg .rsp, .reg .rbp], .instruction .pop [.reg .rbp], .instruction .ret []]

/-- Ends the program. -/
def exitCode (status : Operand) : List Line :=
  [.instruction .mov [.reg .rdi, status], .instruction .call [.label "_exit"]]

theorem emits_epilogue {v : Unit} :
    Emits epilogue cx s v code s' ↔ code = epilogueCode ∧ s' = s := by
  have h : epilogue cx s = .ok ⟨(), epilogueCode, s⟩ := rfl
  rw [Emits, h]
  simp [eq_comm]

theorem emits_exit {status : Operand} {v : Unit} :
    Emits (exit status) cx s v code s' ↔ code = exitCode status ∧ s' = s := by
  have h : exit status cx s = .ok ⟨(), exitCode status, s⟩ := rfl
  rw [Emits, h]
  simp [eq_comm]

/-- A call for its effect. -/
theorem emits_call_release {v : Unit}
    (h : Emits (call lower id >>= fun r => releaseAll r.toList) cx s v code s') :
    (∃ name args result t, cx.arena.kind id = .ok (.call name args) ∧
      Emits (callNode lower id name args) cx s result code t ∧
      Emits (releaseAll result.toList) cx t () [] s') ∨ (code = [] ∧ s' = s) := by
  obtain ⟨result, c, t, c', hcall, hrelease, rfl⟩ := emits_bind.1 h
  obtain rfl := emits_releaseAll_code hrelease
  rw [List.append_nil]
  obtain ⟨k, hk, hcode⟩ := emits_kind_bind.1 hcall
  cases k with
  | call name args => exact .inl ⟨name, args, result, t, hk, hcode, hrelease⟩
  | _ =>
    obtain ⟨rfl, rfl, rfl⟩ := emits_pure.1 hcode
    exact .inr ⟨rfl, (emits_forM_nil.1 hrelease).2⟩

/-- The value that a `return` gives back; a void call is run before. -/
inductive ReturnedShape (lower : Lowering) (cx : Context) (s : State) :
    Option NodeId → Option NodeId → List Line → State → Prop
  | none : ReturnedShape lower cx s none none [] s
  | value {v : NodeId} {ty : Ty} (type : cx.info.typeOf v = some ty) (nonvoid : ty ≠ .void) :
      ReturnedShape lower cx s (some v) (some v) [] s
  | void {v : NodeId} {c : List Line} {s' : State} (type : cx.info.typeOf v = some .void)
      (called : Emits (call lower v >>= fun r => releaseAll r.toList) cx s () c s') :
      ReturnedShape lower cx s (some v) none c s'

theorem returnedShape {value result : Option NodeId}
    (h : Emits (returnedValue lower value) cx s result code s') :
    ReturnedShape lower cx s value result code s' := by
  cases value with
  | none =>
    obtain ⟨rfl, rfl, rfl⟩ := emits_pure.1 h
    exact .none
  | some v =>
    obtain ⟨ty, hty, hrest⟩ := emits_typeOf_bind.1 h
    split at hrest
    · next hvoid =>
      obtain ⟨r, c, t, _, hcall, hrelease, rfl⟩ := emits_bind.1 hrest
      obtain ⟨_, c', t', _, hreleased, hdone, rfl⟩ := emits_bind.1 hrelease
      obtain ⟨rfl, rfl, rfl⟩ := emits_pure.1 hdone
      rw [List.append_nil]
      exact .void (hvoid ▸ hty) (emits_bind.2 ⟨r, c, t, c', hcall, hreleased, rfl⟩)
    · next hvoid =>
      obtain ⟨rfl, rfl, rfl⟩ := emits_pure.1 hrest
      exact .value hty hvoid

/-- A value is put into a register: a constant at once, anything else by its own code. -/
inductive PutShape (lower : Lowering) (cx : Context) (s : State) (target : Register) (v : NodeId) :
    List Line → State → Prop
  | constant {value : Int64} (kind : cx.arena.kind v = .ok (.int value) ∨
        ∃ b, cx.arena.kind v = .ok (.bool b) ∧ value = if b then 1 else 0) :
      PutShape lower cx s target v [.instruction .mov [.reg target, .imm value]] s
  | moved {r : Register} {c : List Line} {t s' : State}
      (computed : Emits (lower.expression v) cx s r c t) (released : Releases r t s') :
      PutShape lower cx s target v (c ++ [.move target r]) s'
  | there {c : List Line} {t s' : State} (computed : Emits (lower.expression v) cx s target c t)
      (released : Releases target t s') : PutShape lower cx s target v c s'

/-- Leaving the function with a value or without one. -/
inductive LeaveShape (lower : Lowering) (cx : Context) (s : State) :
    Option NodeId → List Line → State → Prop
  | exit (entry : cx.isEntry = true) : LeaveShape lower cx s none (exitCode (.imm 0)) s
  | exitWith {v : NodeId} {c : List Line} {s' : State} (entry : cx.isEntry = true)
      (put : PutShape lower cx s .rdi v c s') :
      LeaveShape lower cx s (some v) (c ++ [.instruction .call [.label "_exit"]]) s'
  | epilogue (entry : cx.isEntry = false) : LeaveShape lower cx s none epilogueCode s
  | giveBack {v : NodeId} {c : List Line} {s' : State} (entry : cx.isEntry = false)
      (put : PutShape lower cx s .rax v c s') :
      LeaveShape lower cx s (some v) (c ++ epilogueCode) s'

theorem leaveShape_exit {value : Option NodeId} {v : Unit} (hentry : cx.isEntry = true)
    (h : Emits (exitWith lower value) cx s v code s') : LeaveShape lower cx s value code s' := by
  cases value with
  | none =>
    obtain ⟨rfl, rfl⟩ := emits_exit.1 h
    exact .exit hentry
  | some v =>
    obtain ⟨k, hk, hrest⟩ := emits_immediate_bind h
    have hcomputed : Emits (lower.expression v >>= fun r => exit (.reg r) >>= fun _ => release r)
        cx s () code s' → LeaveShape lower cx s (some v) code s' := by
      intro hvalue
      obtain ⟨r, c, t, _, hr, hleave, rfl⟩ := emits_bind.1 hvalue
      obtain ⟨_, _, _, _, hexit, hrelease, rfl⟩ := emits_bind.1 hleave
      obtain ⟨rfl, rfl⟩ := emits_exit.1 hexit
      obtain ⟨rfl, hreleases⟩ := emits_release_iff.1 hrelease
      have hput : LeaveShape lower cx s (some v) _ s' := .exitWith hentry (.moved hr hreleases)
      simpa [exitCode, Line.move] using hput
    cases k with
    | int value =>
      obtain ⟨rfl, rfl⟩ := emits_exit.1 hrest
      exact .exitWith hentry (.constant (.inl hk))
    | bool b =>
      obtain ⟨rfl, rfl⟩ := emits_exit.1 hrest
      exact .exitWith hentry (.constant (.inr ⟨b, hk, rfl⟩))
    | _ => exact hcomputed hrest

theorem putShape_giveBack {v : NodeId} {w : Unit} (h : Emits (giveBack lower v) cx s w code s') :
    PutShape lower cx s .rax v code s' := by
  obtain ⟨ty, -, hguard⟩ := emits_typeOf_bind.1 h
  obtain ⟨-, hvalue⟩ := emits_guard.1 hguard
  obtain ⟨k, hk, hrest⟩ := emits_immediate_bind hvalue
  have hcomputed : Emits (lower.expression v >>= fun r =>
      if r ≠ .rax then emit .mov [.reg .rax, .reg r] >>= fun _ => release r else release r)
      cx s w code s' → PutShape lower cx s .rax v code s' := by
    intro hcode
    obtain ⟨r, c, t, _, hr, hmove, rfl⟩ := emits_bind.1 hcode
    obtain ⟨_, rfl, hrelease⟩ := emits_emit_if.1 hmove
    obtain ⟨rfl, hreleases⟩ := emits_release_iff.1 hrelease
    by_cases hrax : r = .rax
    · subst hrax
      simpa using PutShape.there hr hreleases
    · simpa [hrax, Line.move] using @PutShape.moved _ _ _ .rax _ _ _ _ _ hr hreleases
  cases k with
  | int value =>
    obtain ⟨rfl, rfl⟩ := emits_emit.1 hrest
    exact .constant (.inl hk)
  | bool b =>
    obtain ⟨rfl, rfl⟩ := emits_emit.1 hrest
    exact .constant (.inr ⟨b, hk, rfl⟩)
  | _ => exact hcomputed hrest

/-- The code of a `return`. -/
inductive ReturnShape (lower : Lowering) (cx : Context) (value : Option NodeId) (s : State) :
    List Line → State → Prop
  | mk {result : Option NodeId} {c c' : List Line} {t s' : State}
      (returned : ReturnedShape lower cx s value result c t)
      (leaves : LeaveShape lower cx t result c' s') : ReturnShape lower cx value s (c ++ c') s'

theorem returnShape {value : Option NodeId} {v : Unit}
    (h : Emits (returnStatement lower value) cx s v code s') :
    ReturnShape lower cx value s code s' := by
  obtain ⟨result, c, t, c', hreturned, hrest, rfl⟩ := emits_bind.1 h
  refine .mk (returnedShape hreturned) ?_
  replace hrest := emits_context_bind.1 hrest
  split at hrest
  · next hentry => exact leaveShape_exit hentry hrest
  · next hentry =>
    rw [Bool.not_eq_true] at hentry
    obtain ⟨_, c₁, t₁, c₂, hgive, hleave, rfl⟩ := emits_bind.1 hrest
    obtain ⟨rfl, rfl⟩ := emits_epilogue.1 hleave
    cases result with
    | none =>
      obtain ⟨rfl, rfl⟩ := emits_forM_nil.1 hgive
      exact .epilogue hentry
    | some v =>
      obtain ⟨c₃, t₃, c₄, hput, hnone, rfl⟩ := emits_forM_cons.1 hgive
      obtain ⟨rfl, rfl⟩ := emits_forM_nil.1 hnone
      rw [List.append_nil]
      exact .giveBack hentry (putShape_giveBack hput)

/-! ### Records and declarations -/

theorem emits_forM_all {α : Type} {xs : List α} {g : α → Gen Unit} {v : Unit} {P : Line → Prop}
    (hg : ∀ x ∈ xs, ∀ {s c s'}, Emits (g x) cx s () c s' → s' = s ∧ ∀ line ∈ c, P line)
    (h : Emits (xs.forM g) cx s v code s') : s' = s ∧ ∀ line ∈ code, P line := by
  induction xs generalizing s code with
  | nil =>
    obtain ⟨rfl, rfl⟩ := emits_forM_nil.1 h
    exact ⟨rfl, by simp⟩
  | cons x xs ih =>
    obtain ⟨c, t, c', hx, hxs, rfl⟩ := emits_forM_cons.1 h
    obtain ⟨rfl, hfirst⟩ := hg x (by simp) hx
    obtain ⟨rfl, hrest⟩ := ih (fun y hy => hg y (by simp [hy])) hxs
    refine ⟨rfl, fun line hline => ?_⟩
    rcases List.mem_append.1 hline with hline | hline
    · exact hfirst line hline
    · exact hrest line hline

/-- A move between a register and memory. -/
inductive IsTransfer (r : Register) : Line → Prop
  | load (width : Width) (a : Address) :
      IsTransfer r (.instruction .mov [.sized width r, .mem width a])
  | store (width : Width) (a : Address) :
      IsTransfer r (.instruction .mov [.mem width a, .sized width r])

/-- A record is copied through one register. -/
theorem emits_copyFields {r : Register} {depth : Nat} {record : String} {source target : Address}
    {v : Unit} (h : Emits (copyFields r id depth record source target) cx s v code s') :
    s' = s ∧ ∀ line ∈ code, IsTransfer r line := by
  induction depth generalizing record source target s code s' with
  | zero => exact (emits_unsupported.1 h).elim
  | succ depth ih =>
    obtain ⟨found, -, hcopy⟩ := emits_lift_bind.1 (emits_context_bind.1 h)
    cases found with
    | none => exact (emits_unsupported.1 hcopy).elim
    | some fields =>
      refine emits_forM_all (fun p hp => ?_) hcopy
      intro s c s' hp
      obtain ⟨a, -, htarget⟩ := emits_lift_bind.1 hp
      obtain ⟨b, -, hvalue⟩ := emits_lift_bind.1 htarget
      split at hvalue
      · exact ih hvalue
      · obtain ⟨line, _, hload, rfl, hrest⟩ := emits_load_bind hvalue
        obtain ⟨rfl, line', hstore, rfl⟩ := emits_store hrest
        cases hload
        cases hstore
        refine ⟨rfl, fun line hline => ?_⟩
        rcases List.mem_cons.1 hline with rfl | hline
        · exact .load _ _
        · cases List.mem_singleton.1 hline
          exact .store _ _

/-- Zeros over a value that is no record. -/
theorem zeroFill_scalar {depth : Nat} {ty : Ty} {a : Address} (h : ty.isRecord = false) :
    zeroFill id depth ty a = (do
      let width := Width.ofSize (← Gen.sizeOf ty id)
      emit .mov [.mem width a, .imm 0]) := by
  cases ty with
  | record => cases h
  | _ => cases depth <;> rfl

/-- A store of zeros. -/
def IsClearing (line : Line) : Prop :=
  ∃ width a, line = .instruction .mov [.mem width a, .imm 0]

theorem emits_zeroFill {depth : Nat} {ty : Ty} {a : Address} {v : Unit}
    (h : Emits (zeroFill id depth ty a) cx s v code s') :
    s' = s ∧ ∀ line ∈ code, IsClearing line := by
  induction depth generalizing ty a s code s' with
  | zero =>
    cases hrecord : ty.isRecord with
    | true =>
      cases ty with
      | record record => exact (emits_unsupported.1 h).elim
      | _ => cases hrecord
    | false =>
      rw [zeroFill_scalar hrecord] at h
      obtain ⟨n, -, hstore⟩ := emits_sizeOf_bind.1 h
      obtain ⟨rfl, rfl⟩ := emits_emit.1 hstore
      exact ⟨rfl, by simp [IsClearing]⟩
  | succ depth ih =>
    cases hrecord : ty.isRecord with
    | true =>
      cases ty with
      | record record =>
        obtain ⟨found, -, hfill⟩ := emits_lift_bind.1 (emits_context_bind.1 h)
        cases found with
        | none => exact (emits_unsupported.1 hfill).elim
        | some fields =>
          refine emits_forM_all (fun p hp => ?_) hfill
          intro s c s' hp
          obtain ⟨b, -, hfield⟩ := emits_lift_bind.1 hp
          exact ih hfield
      | _ => cases hrecord
    | false =>
      rw [zeroFill_scalar hrecord] at h
      obtain ⟨n, -, hstore⟩ := emits_sizeOf_bind.1 h
      obtain ⟨rfl, rfl⟩ := emits_emit.1 hstore
      exact ⟨rfl, by simp [IsClearing]⟩

theorem emits_declareLocal {d : NodeId} {v : Unit} (h : Emits (declareLocal d) cx s v code s') :
    s' = s ∧ ∀ line ∈ code, IsClearing line := by
  replace h := emits_context_bind.1 h
  split at h
  · exact emits_zeroFill h
  · obtain ⟨-, rfl, rfl⟩ := emits_pure.1 h
    exact ⟨rfl, by simp⟩

/-! ### Assignments -/

/-- The code of an assignment. -/
inductive AssignShape (lower : Lowering) (cx : Context) (target value : NodeId) (s : State) :
    List Line → State → Prop
  | record {record : String} {k : NodeKind} {source destination : Address}
      {temp temp' : Option Register} {r : Register} {c c' copy : List Line}
      {t t' t₁ t₂ t₃ s' : State} (type : cx.info.typeOf target = some (.record record))
      (kind : cx.arena.kind value = .ok k) (stored : k.isCall = false)
      (first : Emits (lower.place value) cx s ⟨.memory source, temp⟩ c t)
      (second : Emits (lower.place target) cx t ⟨.memory destination, temp'⟩ c' t')
      (claimed : Claims [r] t' t₁)
      (copied : Emits (copyRecord record source destination r target) cx t₁ () copy t₁)
      (released : Releases r t₁ t₂) (released' : Emits (releaseAll temp'.toList) cx t₂ () [] t₃)
      (released'' : Emits (releaseAll temp.toList) cx t₃ () [] s') :
      AssignShape lower cx target value s (c ++ (c' ++ copy)) s'
  | scalar {ty : Ty} {r : Register} {p : Place} {c c' : List Line} {line : Line}
    {t t' t₁ s' : State} (type : cx.info.typeOf target = some ty) (plain : ty.isRecord = false)
      (first : Emits (lower.expression value) cx s r c t)
      (second : Emits (lower.place target) cx t p c' t') (stores : Stores cx ty r p.location line)
      (released : Emits (releasePlace p) cx t' () [] t₁) (released' : Releases r t₁ s') :
      AssignShape lower cx target value s (c ++ (c' ++ [line])) s'

theorem assignShape_record {record : String} {target value : NodeId} {v : Unit}
    (hty : cx.info.typeOf target = some (.record record))
    (h : Emits (assignRecord lower record target value) cx s v code s') :
    AssignShape lower cx target value s code s' := by
  obtain ⟨k, hk, hguard⟩ := emits_kind_bind.1 h
  obtain ⟨hcall, hparts⟩ := emits_guard.1 hguard
  obtain ⟨⟨location, temp⟩, c, t, _, hsource, hrest, rfl⟩ := emits_bind.1 hparts
  obtain ⟨⟨location', temp'⟩, c', t', _, htarget, hcopy, rfl⟩ := emits_bind.1 hrest
  cases location with
  | register => exact (emits_unsupported.1 hcopy).elim
  | memory source =>
    cases location' with
    | register => exact (emits_unsupported.1 hcopy).elim
    | memory destination =>
      obtain ⟨r, t₁, hclaims, hcode⟩ := emits_scratch_bind hcopy
      obtain ⟨_, copy, t₂, _, hcopied, hrelease, rfl⟩ := emits_bind.1 hcode
      obtain ⟨rfl, -⟩ := emits_copyFields (emits_context_bind.1 hcopied)
      obtain ⟨g, hg, hrelease'⟩ := emits_release_bind.1 hrelease
      obtain ⟨t₃, hreleased, hlast⟩ := emits_releasePlace_bind hrelease'
      obtain rfl := emits_releaseAll_code hlast
      rw [List.append_nil]
      exact .record hty hk (by simpa using hcall) hsource htarget hclaims hcopied ⟨g, hg, rfl⟩
        hreleased hlast

theorem assignShape {target value : NodeId} {v : Unit}
    (h : Emits (assign lower target value) cx s v code s') :
    AssignShape lower cx target value s code s' := by
  obtain ⟨ty, hty, hrest⟩ := emits_typeOf_bind.1 h
  have hscalar : ty.isRecord = false → Emits (lower.expression value >>= fun r =>
      lower.place target >>= fun p => store p.location ty r target >>= fun _ =>
      releasePlace p >>= fun _ => release r) cx s v code s' →
      AssignShape lower cx target value s code s' := by
    intro hplain hcode
    obtain ⟨r, c, t, _, hvalue, hplace, rfl⟩ := emits_bind.1 hcode
    obtain ⟨p, c', t', _, hp, hstore, rfl⟩ := emits_bind.1 hplace
    obtain ⟨line, _, hstores, rfl, hrelease⟩ := emits_store_bind hstore
    obtain ⟨t₁, hreleased, hlast⟩ := emits_releasePlace_bind hrelease
    obtain ⟨rfl, hreleases⟩ := emits_release_iff.1 hlast
    exact .scalar hty hplain hvalue hp hstores hreleased hreleases
  cases ty with
  | record record => exact assignShape_record hty hrest
  | _ => exact hscalar rfl hrest

/-! ### Statements -/

/-- One level of a statement. -/
inductive StatementShape (lower : Lowering) (cx : Context) (statement : NodeId → Gen Unit)
    (id : NodeId) (s : State) : List Line → State → Prop
  | block {body : List NodeId} {c : List Line} {s' : State}
      (kind : cx.arena.kind id = .ok (.block body))
      (parts : Emits (body.forM statement) cx s () c s') :
      StatementShape lower cx statement id s c s'
  | declare {d : NodeId} {c : List Line} (kind : cx.arena.kind id = .ok (.declare d))
      (cleared : Emits (declareLocal d) cx s () c s) : StatementShape lower cx statement id s c s
  | assign {target value : NodeId} {c : List Line} {s' : State}
      (kind : cx.arena.kind id = .ok (.assign target value))
      (shape : AssignShape lower cx target value s c s') :
      StatementShape lower cx statement id s c s'
  | callStatement {call : NodeId} {c : List Line} {s' : State}
      (kind : cx.arena.kind id = .ok (.callStatement call))
      (called : Emits (Lowering.call lower call >>= fun r => releaseAll r.toList) cx s () c s') :
      StatementShape lower cx statement id s c s'
  | taken {condition onTrue : NodeId} {onFalse : Option NodeId} {c : List Line} {s' : State}
      (kind : cx.arena.kind id = .ok (.branch condition onTrue onFalse))
      (literal : cx.arena.kind condition = .ok (.bool true))
      (part : Emits (statement onTrue) cx s () c s') : StatementShape lower cx statement id s c s'
  | passed {condition onTrue : NodeId} {onFalse : Option NodeId} {c : List Line} {s' : State}
      (kind : cx.arena.kind id = .ok (.branch condition onTrue onFalse))
      (literal : cx.arena.kind condition = .ok (.bool false))
      (part : Emits (onFalse.toList.forM statement) cx s () c s') :
      StatementShape lower cx statement id s c s'
  | choice {condition onTrue : NodeId} {k : NodeKind} {outcome : Condition} {c c' : List Line}
      {t s' : State} (kind : cx.arena.kind id = .ok (.branch condition onTrue none))
      (tested : cx.arena.kind condition = .ok k)
      (test : TestShape lower cx condition s.labelled (Test.ofKind k) outcome c t)
      (first : Emits (statement onTrue) cx t () c' s') :
      StatementShape lower cx statement id s
        (c ++ .instruction (.jump outcome.negate) [.label (labelName s.labelCount)] ::
          (c' ++ [.label (labelName s.labelCount)])) s'
  | alternative {condition onTrue onFalse : NodeId} {k : NodeKind} {outcome : Condition}
      {c c' c'' : List Line} {t t' s' : State}
      (kind : cx.arena.kind id = .ok (.branch condition onTrue (some onFalse)))
      (tested : cx.arena.kind condition = .ok k)
      (test : TestShape lower cx condition s.labelled (Test.ofKind k) outcome c t)
      (first : Emits (statement onTrue) cx t () c' t')
      (second : Emits (statement onFalse) cx t'.labelled () c'' s') :
      StatementShape lower cx statement id s
        (c ++ .instruction (.jump outcome.negate) [.label (labelName s.labelCount)] ::
          (c' ++ .instruction .jmp [.label (labelName t'.labelCount)] ::
            .label (labelName s.labelCount) :: (c'' ++ [.label (labelName t'.labelCount)]))) s'
  | never {condition body : NodeId} (kind : cx.arena.kind id = .ok (.loop condition body))
      (literal : cx.arena.kind condition = .ok (.bool false)) :
      StatementShape lower cx statement id s [] s
  | forever {condition body : NodeId} {c : List Line} {s' : State}
      (kind : cx.arena.kind id = .ok (.loop condition body))
      (literal : cx.arena.kind condition = .ok (.bool true))
      (part : Emits (statement body) cx s.labelled () c s') :
      StatementShape lower cx statement id s (.label (labelName s.labelCount) ::
        (c ++ [.instruction .jmp [.label (labelName s.labelCount)]])) s'
  | loop {condition body : NodeId} {k : NodeKind} {outcome : Condition} {c c' : List Line}
      {t s' : State} (kind : cx.arena.kind id = .ok (.loop condition body))
      (tested : cx.arena.kind condition = .ok k)
      (part : Emits (statement body) cx s.labelled.labelled () c t)
      (test : TestShape lower cx condition t (Test.ofKind k) outcome c' s') :
      StatementShape lower cx statement id s
        (.instruction .jmp [.label (labelName (s.labelCount + 1))] ::
          .label (labelName s.labelCount) :: (c ++ .label (labelName (s.labelCount + 1)) ::
            (c' ++ [.instruction (.jump outcome) [.label (labelName s.labelCount)]]))) s'
  | ret {value : Option NodeId} {c : List Line} {s' : State}
      (kind : cx.arena.kind id = .ok (.ret value)) (shape : ReturnShape lower cx value s c s') :
      StatementShape lower cx statement id s c s'
  | empty (kind : cx.arena.kind id = .ok .empty) : StatementShape lower cx statement id s [] s

theorem statementShape_branch {condition onTrue : NodeId} {onFalse : Option NodeId} {v : Unit}
    (hk : cx.arena.kind id = .ok (.branch condition onTrue onFalse))
    (h : Emits (branch lower statement condition onTrue onFalse) cx s v code s') :
    StatementShape lower cx statement id s code s' := by
  obtain ⟨k, hcondition, hrest⟩ := emits_kind_bind.1 h
  have htested : (∀ b, Test.ofKind k ≠ .constant b) →
      Emits (branchOn lower statement condition (Test.ofKind k) onTrue onFalse) cx s v code s' →
      StatementShape lower cx statement id s code s' := by
    intro hshape hbranch
    obtain ⟨_, _, t, _, hjump, hparts, rfl⟩ := emits_bind.1 (emits_newLabel_bind.1 hbranch)
    obtain ⟨outcome, c, htest, rfl⟩ := emits_jumpUnless hshape hjump
    obtain ⟨_, c', t', _, hfirst, hothers, rfl⟩ := emits_bind.1 hparts
    rw [List.append_assoc, List.singleton_append]
    cases onFalse with
    | none =>
      obtain ⟨rfl, rfl⟩ := emits_placeLabel.1 hothers
      exact .choice hk hcondition htest hfirst
    | some other =>
      obtain ⟨_, rfl, hlabel⟩ := emits_emit_bind.1 (emits_newLabel_bind.1 hothers)
      obtain ⟨_, rfl, hother⟩ := emits_placeLabel_bind.1 hlabel
      obtain ⟨_, c'', t'', _, hsecond, hlast, rfl⟩ := emits_bind.1 hother
      obtain ⟨rfl, rfl⟩ := emits_placeLabel.1 hlast
      exact .alternative hk hcondition htest hfirst hsecond
  cases hshape : Test.ofKind k with
  | constant b =>
    obtain rfl := Test.kind_of_constant hshape
    cases b with
    | true => exact .taken hk hcondition hrest
    | false => exact .passed hk hcondition hrest
  | comparison | value =>
    refine htested (by simp [hshape]) ?_
    rw [hshape] at hrest ⊢
    exact hrest

theorem statementShape_loop {condition body : NodeId} {v : Unit}
    (hk : cx.arena.kind id = .ok (.loop condition body))
    (h : Emits (loop lower statement condition body) cx s v code s') :
    StatementShape lower cx statement id s code s' := by
  obtain ⟨k, hcondition, hrest⟩ := emits_kind_bind.1 h
  have htested : (∀ b, Test.ofKind k ≠ .constant b) →
      Emits (loopOn lower statement condition (Test.ofKind k) body) cx s v code s' →
      StatementShape lower cx statement id s code s' := by
    intro hshape hloop
    obtain ⟨_, rfl, hlabel⟩ := emits_emit_bind.1
      (emits_newLabel_bind.1 (emits_newLabel_bind.1 hloop))
    obtain ⟨_, rfl, hparts⟩ := emits_placeLabel_bind.1 hlabel
    obtain ⟨_, c, t, _, hpart, hbottom, rfl⟩ := emits_bind.1 hparts
    obtain ⟨_, rfl, hjump⟩ := emits_placeLabel_bind.1 hbottom
    obtain ⟨outcome, c', htest, rfl⟩ := emits_jumpIf hshape hjump
    exact .loop hk hcondition hpart htest
  cases hshape : Test.ofKind k with
  | constant b =>
    obtain rfl := Test.kind_of_constant hshape
    cases b with
    | true =>
      obtain ⟨_, rfl, hparts⟩ := emits_placeLabel_bind.1 (emits_newLabel_bind.1 hrest)
      obtain ⟨_, c, t, _, hpart, hjump, rfl⟩ := emits_bind.1 hparts
      obtain ⟨rfl, rfl⟩ := emits_emit.1 hjump
      exact .forever hk hcondition hpart
    | false =>
      obtain ⟨-, rfl, rfl⟩ := emits_pure.1 hrest
      exact .never hk hcondition
  | comparison | value =>
    refine htested (by simp [hshape]) ?_
    rw [hshape] at hrest ⊢
    exact hrest

/-- The code of a statement has one of the shapes. -/
theorem statementShape {depth : Nat} {k : NodeKind} {v : Unit} (hk : cx.arena.kind id = .ok k)
    (hrole : k.role = .statement)
    (h : Emits (Lowering.statement lower (depth + 1) id) cx s v code s') :
    StatementShape lower cx (Lowering.statement lower depth) id s code s' := by
  obtain ⟨k', hk', hcode⟩ := emits_kind_bind.1 h
  cases hk.symm.trans hk'
  cases k with
  | block body => exact .block hk hcode
  | declare d =>
    obtain ⟨rfl, -⟩ := emits_declareLocal hcode
    exact .declare hk hcode
  | assign target value => exact .assign hk (assignShape hcode)
  | callStatement c => exact .callStatement hk hcode
  | branch condition onTrue onFalse => exact statementShape_branch hk hcode
  | loop condition body => exact statementShape_loop hk hcode
  | ret value => exact .ret hk (returnShape hcode)
  | empty =>
    obtain ⟨-, rfl, rfl⟩ := emits_pure.1 hcode
    exact .empty hk
  | _ => cases hrole

end Lowering

end MiniJ
