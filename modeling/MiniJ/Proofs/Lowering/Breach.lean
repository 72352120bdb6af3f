import MiniJ.Proofs.Lowering.Frame
import MiniJ.Proofs.Lowering.FunctionShape

/-!
# Breaches of the register discipline

Failures of code generation that say that a register was claimed while in use, released while free,
or that more words were taken from the stack than were put on it. The steps that all parts of code
generation are made of do not fail like that, given what is live and on the stack.

## Main definitions

* `Failure.IsBreach` — failures that break the discipline.
* `Gen.Orderly` — a part of code generation does not fail like that.

## Main statements

* `Frame.avoids_layout` — laying out a frame.
* `Gen.orderly_bind`, `Gen.orderly_releaseAll`, `Gen.orderly_forM_pop` — steps of code generation.
-/
namespace MiniJ

/-- A register was released while it was free, or too many words were taken from the stack. -/
def Fault.IsBreach : Fault → Prop
  | .freeRegister | .stackUnderflow => True
  | _ => False

/-- The discipline of registers and stack was broken. -/
def Failure.IsBreach : Failure CodegenError → Prop
  | .fault f => f.IsBreach
  | .reported (.registerInUse _) => True
  | .reported _ => False

open Outcome

/-- A fault inside of code generation. -/
theorem Outcome.Avoids.lift {α : Type} {x : Except Fault α} (h : Avoids Fault.IsBreach x) :
    Avoids Failure.IsBreach (liftM x : Except (Failure CodegenError) α) := by
  intro e he
  cases x with
  | error f =>
    cases he
    exact h f rfl
  | ok v => cases he

/-! ### Nodes, records and frames -/

theorem Arena.avoids_node (a : Arena) (id : NodeId) : Avoids Fault.IsBreach (a.node id) := by
  unfold Arena.node
  split
  · exact .ok _
  · exact .error (fun h => h)

theorem Arena.avoids_kind (a : Arena) (id : NodeId) : Avoids Fault.IsBreach (a.kind id) :=
  (a.avoids_node id).bind fun _ => .pure _

theorem Arena.avoids_binder? (a : Arena) (id : NodeId) : Avoids Fault.IsBreach (a.binder? id) :=
  (a.avoids_kind id).bind fun _ => .pure _

theorem Arena.avoids_function? (a : Arena) (id : NodeId) : Avoids Fault.IsBreach (a.function? id) :=
  (a.avoids_kind id).bind fun _ => .pure _

theorem Address.avoids_offsetBy (a : Address) (δ : Int) : Avoids Fault.IsBreach (a.offsetBy δ) := by
  unfold Address.offsetBy
  split
  · exact .ok _
  · exact .error (fun h => h)

theorem avoids_addSize (m n : Nat) : Avoids Fault.IsBreach (addSize m n) := by
  unfold addSize
  split
  · exact .ok _
  · exact .error (fun h => h)

namespace SymbolTable

variable (t : SymbolTable)

theorem avoids_entry (e : EntryId) : Avoids Fault.IsBreach (t.entry e) := by
  cases e with
  | zero => exact .error (fun h => h)
  | succ i =>
    rw [entry]
    split
    · exact .ok _
    · exact .error (fun h => h)

theorem avoids_lookupRecord (name : String) : Avoids Fault.IsBreach (t.lookupRecord name) := by
  have hscope : Avoids Fault.IsBreach (t.scope ScopeId.global) := by
    unfold scope
    split
    · exact .ok _
    · exact .error (fun h => h)
  refine (hscope.bind fun s => .pure _).bind fun found => ?_
  split
  · exact .pure _
  · exact (t.avoids_entry _).bind fun _ => .pure _

theorem avoids_sumSizes {size : Ty → Except Fault (Option Nat)}
    (h : ∀ ty, Avoids Fault.IsBreach (size ty))
    {fields : List Field} {total : Nat} : Avoids Fault.IsBreach (sumSizes size total fields) := by
  induction fields generalizing total with
  | nil => exact .pure _
  | cons f rest ih =>
    refine (h f.ty).bind fun found => ?_
    split
    · exact .pure _
    · exact (avoids_addSize _ _).bind fun _ => ih

theorem avoids_sizeWithin {handle : Option Nat} {depth : Nat} {within : List String} {ty : Ty} :
    Avoids Fault.IsBreach (t.sizeWithin handle depth within ty) := by
  induction depth generalizing within ty with
  | zero => cases ty <;> exact .pure _
  | succ depth ih =>
    cases ty with
    | record name =>
      rw [sizeWithin]
      split
      · exact .pure _
      · refine (t.avoids_lookupRecord name).bind fun found => ?_
        split
        · exact .pure _
        · exact avoids_sumSizes fun ty => ih
    | _ => exact .pure _

theorem avoids_sizeOf (ty : Ty) : Avoids Fault.IsBreach (t.sizeOf ty) := t.avoids_sizeWithin

theorem avoids_field (record name : String) : Avoids Fault.IsBreach (t.field record name) := by
  have hfields : ∀ {fields offset}, Avoids Fault.IsBreach (t.fieldIn name offset fields) := by
    intro fields
    induction fields with
    | nil => exact fun {_} => .pure _
    | cons f rest ih =>
      intro offset
      rw [fieldIn]
      split
      · exact .pure _
      · refine (t.avoids_sizeOf f.ty).bind fun found => ?_
        split
        · exact .pure _
        · exact (avoids_addSize _ _).bind fun _ => ih
  refine (t.avoids_lookupRecord record).bind fun found => ?_
  split
  · exact .pure _
  · exact hfields

theorem avoids_fields (record : String) : Avoids Fault.IsBreach (t.fields record) := by
  have hfields : ∀ {fields offset}, Avoids Fault.IsBreach (t.fieldsFrom offset fields) := by
    intro fields
    induction fields with
    | nil => exact fun {_} => .pure _
    | cons f rest ih =>
      intro offset
      refine (t.avoids_sizeOf f.ty).bind fun found => ?_
      split
      · exact .pure _
      · exact (avoids_addSize _ _).bind fun _ => ih.bind fun _ => .pure _
  refine (t.avoids_lookupRecord record).bind fun found => ?_
  split
  · exact .pure _
  · exact hfields

end SymbolTable

theorem Arena.avoids_preorder (a : Arena) {depth : Nat} {id : NodeId} :
    Avoids Fault.IsBreach (a.preorder depth id) := by
  induction depth generalizing id with
  | zero => exact .error (fun h => h)
  | succ depth ih =>
    exact (a.avoids_kind id).bind fun k => (Avoids.mapM fun _ => ih).bind fun _ => .pure _

namespace Frame

variable {a : Arena} {info : SemanticInfo} {table : SymbolTable}

theorem avoids_roundUp (n unit : Nat) : Avoids Fault.IsBreach (roundUp n unit) := by
  unfold roundUp
  extract_lets rounded
  split
  · exact .ok _
  · exact .error (fun h => h)

theorem avoids_allocate (f : Frame) (size : Nat) (ty : Ty) :
    Avoids Fault.IsBreach (f.allocate size ty) := by
  refine (avoids_addSize _ _).bind fun n => (avoids_roundUp _ _).bind fun used => ?_
  extract_lets displacement jp
  split
  · exact .bind (.error (fun h => h)) fun _ => .pure _
  · exact .pure _

theorem avoids_slotSize {b : Binder} {span : Span} :
    Avoids Failure.IsBreach (slotSize table b span) := by
  unfold slotSize
  split
  · exact .pure _
  · refine (table.avoids_sizeOf b.ty).lift.bind fun found => ?_
    split
    · exact .pure _
    · exact .error (fun h => h)

theorem avoids_addParameter {taken : List NodeId} {f : Frame} {index : Nat} {param : NodeId} :
    Avoids Failure.IsBreach (addParameter a table taken f index param) := by
  refine (a.avoids_node param).lift.bind fun node => ?_
  split
  · exact .pure _
  · split
    · exact avoids_slotSize.bind fun _ => (avoids_allocate _ _ _).lift.bind fun _ => .pure _
    · split
      · exact avoids_slotSize.bind fun _ => (avoids_allocate _ _ _).lift.bind fun _ => .pure _
      · exact .pure _
    · exact .pure _

theorem avoids_addParameters {taken params : List NodeId} {f : Frame} {index : Nat} :
    Avoids Failure.IsBreach (addParameters a table taken index params f) := by
  induction params generalizing f index with
  | nil => exact .pure _
  | cons param rest ih => exact avoids_addParameter.bind fun _ => ih

theorem avoids_addLocals {f : Frame} {statement : NodeId} :
    Avoids Failure.IsBreach (addLocals a table f statement) := by
  have hlocals : Avoids Fault.IsBreach (localsOf a statement) :=
    a.avoids_preorder.bind fun _ => (Avoids.mapM a.avoids_kind).bind fun _ => .pure _
  refine hlocals.lift.bind fun ids => .foldlM fun f id _ => ?_
  refine (a.avoids_node id).lift.bind fun node => ?_
  split
  · exact .pure _
  · exact avoids_slotSize.bind fun _ => (avoids_allocate _ _ _).lift.bind fun _ => .pure _

theorem avoids_takenBy {arg param : NodeId} :
    Avoids Fault.IsBreach (takenBy a info table arg param) := by
  refine (a.avoids_binder? param).bind fun b => ?_
  extract_lets byReference
  split
  · exact .pure _
  · refine (a.avoids_kind arg).bind fun k => ?_
    cases k with
    | var name =>
      dsimp only
      split
      · exact .pure _
      · refine (table.avoids_entry _).bind fun x => ?_
        split <;> exact .pure _
    | _ => exact .pure _

theorem avoids_takenIn {statement : NodeId} :
    Avoids Fault.IsBreach (takenIn a info table statement) := by
  refine a.avoids_preorder.bind fun ids => Avoids.bind (.mapM fun id => ?_) fun _ => .pure _
  refine (a.avoids_kind id).bind fun k => ?_
  split
  · refine (a.avoids_function? _).bind fun found => ?_
    split
    · exact Avoids.bind (.mapM fun p => avoids_takenBy) fun _ => .pure _
    · exact .pure _
  · exact .pure _

/-- Storage is laid out without claiming registers. -/
theorem avoids_layout {f : FunctionNode} : Avoids Failure.IsBreach (layout a info table f) := by
  refine Avoids.bind (Avoids.lift (.mapM fun _ => avoids_takenIn)) fun taken => ?_
  refine avoids_addParameters.bind fun f => Avoids.bind (.foldlM fun _ _ _ => avoids_addLocals)
    fun f => ?_
  exact (avoids_roundUp _ _).lift.bind fun _ => .pure _

end Frame

namespace Gen

variable {α β : Type} {cx : Context} {s t : State} {id : NodeId} {r : Register}
  {rs : List Register}

/-- A part of code generation does not fail by a breach. -/
def Orderly (x : Gen α) (cx : Context) (s : State) : Prop := ∀ e, x cx s = .error e → ¬e.IsBreach

theorem orderly_of_emits {x : Gen α} {v : α} {c : List Line} (h : Emits x cx s v c t) :
    Orderly x cx s := fun _ he => nomatch h.symm.trans he

theorem orderly_pure {v : α} : Orderly (pure v) cx s := orderly_of_emits (t := s) rfl

theorem orderly_bind {x : Gen α} {f : α → Gen β} (hx : Orderly x cx s)
    (hf : ∀ v c t, Emits x cx s v c t → Orderly (f v) cx t) : Orderly (x >>= f) cx s := by
  intro e he
  have hbind : (x >>= f) cx s = Gen.bind x f cx s := rfl
  rw [hbind, Gen.bind] at he
  cases hx' : x cx s with
  | error e' =>
    rw [hx'] at he
    cases he
    exact hx e hx'
  | ok out =>
    rw [hx'] at he
    dsimp only at he
    cases hf' : f out.value cx out.state with
    | error e' =>
      rw [hf'] at he
      cases he
      exact hf out.value out.code out.state hx' e hf'
    | ok out' =>
      rw [hf'] at he
      cases he

/-- Steps that do not look at each other's state. -/
theorem orderly_seq {x : Gen α} {f : α → Gen β} (hx : Orderly x cx s)
    (hf : ∀ v s, Orderly (f v) cx s) : Orderly (x >>= f) cx s :=
  orderly_bind hx fun v _ t _ => hf v t

theorem orderly_fail {failure : Failure CodegenError} (h : ¬failure.IsBreach) :
    Orderly (fail failure : Gen α) cx s := by
  intro e he
  cases he
  exact h

theorem orderly_lift {x : Except Fault α} (h : Avoids Fault.IsBreach x) :
    Orderly (liftM x : Gen α) cx s := by
  cases x with
  | error f =>
    intro e he
    cases he
    exact h f rfl
  | ok v => exact orderly_of_emits (t := s) (emits_lift.2 ⟨rfl, rfl, rfl⟩)

theorem orderly_context_bind {f : Context → Gen β} (h : Orderly (f cx) cx s) :
    Orderly (context >>= f) cx s := by
  refine orderly_bind (orderly_of_emits (t := s) rfl) fun v c t hv => ?_
  cases hv
  exact h

theorem orderly_state_bind {f : State → Gen β} (h : Orderly (f s) cx s) :
    Orderly (state >>= f) cx s := by
  refine orderly_bind (orderly_of_emits (t := s) rfl) fun v c t hv => ?_
  cases hv
  exact h

theorem orderly_lift_seq {x : Except Fault α} {f : α → Gen β} (hx : Avoids Fault.IsBreach x)
    (hf : ∀ v, Orderly (f v) cx s) : Orderly (liftM x >>= f) cx s := by
  refine orderly_bind (orderly_lift hx) fun v c t hv => ?_
  obtain ⟨-, -, rfl⟩ := emits_lift.1 hv
  exact hf v

theorem orderly_update {g : State → State} : Orderly (update g) cx s :=
  orderly_of_emits (v := ()) (emits_update.2 ⟨rfl, rfl⟩)

theorem orderly_emit {mnemonic : Mnemonic} {operands : List Operand} :
    Orderly (emit mnemonic operands) cx s := orderly_of_emits (v := ()) (emits_emit.2 ⟨rfl, rfl⟩)

theorem orderly_emit_bind {mnemonic : Mnemonic} {operands : List Operand} {f : Unit → Gen β}
    (h : Orderly (f ()) cx s) : Orderly (emit mnemonic operands >>= f) cx s := by
  refine orderly_bind orderly_emit fun v c t hv => ?_
  obtain ⟨-, rfl⟩ := emits_emit.1 hv
  exact h

theorem orderly_placeLabel {name : String} : Orderly (placeLabel name) cx s :=
  orderly_of_emits (v := ()) (emits_placeLabel.2 ⟨rfl, rfl⟩)

theorem orderly_newLabel : Orderly newLabel cx s :=
  orderly_of_emits (t := s.labelled) (v := labelName s.labelCount) (c := []) rfl

theorem orderly_kind_bind {f : NodeKind → Gen β}
    (hf : ∀ k, cx.arena.kind id = .ok k → Orderly (f k) cx s) : Orderly (kind id >>= f) cx s := by
  refine orderly_bind ?_ fun k c t hk => ?_
  · exact orderly_seq (orderly_context_bind (orderly_lift (cx.arena.avoids_node id)))
      fun _ _ => orderly_pure
  · obtain ⟨hkind, -, rfl⟩ := emits_kind.1 hk
    exact hf k hkind

theorem orderly_unsupported {what : Unsupported} : Orderly (unsupported what id : Gen α) cx s :=
  orderly_seq (orderly_context_bind (orderly_lift (cx.arena.avoids_node id)))
    fun _ _ => orderly_fail (fun h => h)

theorem orderly_scratch : Orderly (scratch id) cx s := by
  refine orderly_state_bind ?_
  split
  · exact orderly_seq orderly_update fun _ _ => orderly_pure
  · exact orderly_seq (orderly_context_bind (orderly_lift (cx.arena.avoids_node id)))
      fun _ _ => orderly_fail (fun h => h)

theorem orderly_typeOf_bind {f : Ty → Gen β} (hf : ∀ ty, Orderly (f ty) cx s) :
    Orderly (typeOf id >>= f) cx s := by
  refine orderly_bind (orderly_context_bind ?_) fun ty c t hty => ?_
  · split
    · exact orderly_pure
    · exact orderly_unsupported
  · obtain ⟨-, -, rfl⟩ := emits_typeOf.1 hty
    exact hf ty

theorem orderly_sizeOf_bind {ty : Ty} {f : Nat → Gen β} (hf : ∀ n, Orderly (f n) cx s) :
    Orderly (Gen.sizeOf ty id >>= f) cx s := by
  refine orderly_bind (orderly_context_bind (orderly_lift_seq (cx.table.avoids_sizeOf ty)
    fun found => ?_)) fun n c t hn => ?_
  · split
    · exact orderly_pure
    · exact orderly_unsupported
  · obtain ⟨-, -, rfl⟩ := emits_sizeOf.1 hn
    exact hf n

/-- A check that ends code generation when it fails. -/
theorem orderly_guard {c : Prop} [Decidable c] {what : Unsupported} {k : α → Gen β} {x : Gen β}
    (h : Orderly x cx s) : Orderly (if c then unsupported what id >>= k else x) cx s := by
  split
  · exact orderly_bind orderly_unsupported fun _ _ _ hv => (emits_unsupported.1 hv).elim
  · exact h

/-! ### Registers and stack -/

theorem orderly_release (h : r ∈ s.registers.live) : Orderly (release r) cx s := by
  obtain ⟨g, hg⟩ := RegisterFile.exists_release h
  exact orderly_of_emits (v := ()) (emits_release.2 ⟨g, hg, rfl, rfl⟩)

/-- Registers that were claimed are released. -/
theorem orderly_releaseAll {qs q : List Register} (h : Claims (qs ++ q) s t) :
    Orderly (releaseAll qs) cx t := by
  induction qs generalizing t with
  | nil => exact orderly_pure
  | cons r qs ih =>
    refine orderly_bind (orderly_release ((h.live r).2 (by simp))) fun _ _ t' ht' => ih ?_
    have hreleased := h.releases (by simp) (emits_release_iff.1 ht').2
    rwa [List.cons_append, List.erase_cons_head] at hreleased

theorem orderly_releaseAll_self {qs : List Register} (h : Claims qs s t) :
    Orderly (releaseAll qs) cx t := orderly_releaseAll (q := []) (by rwa [List.append_nil])

theorem orderly_push : Orderly (push r) cx s := orderly_of_emits (v := ()) (emits_push.2 ⟨rfl, rfl⟩)

theorem orderly_forM_push : Orderly (rs.forM push) cx s :=
  orderly_of_emits (v := ()) (emits_forM_push.2 ⟨rfl, rfl⟩)

theorem orderly_forM_pop (h : rs.length ≤ s.stackDepth) : Orderly (rs.forM pop) cx s :=
  orderly_of_emits (v := ()) (emits_forM_pop.2 ⟨h, rfl, rfl⟩)

theorem orderly_shrink {n : Nat} (h : n ≤ s.stackDepth) : Orderly (shrink n) cx s :=
  orderly_of_emits (v := ()) (emits_shrink.2 ⟨h, rfl, rfl⟩)

theorem orderly_forM {xs : List α} {f : α → Gen Unit} (h : ∀ x ∈ xs, ∀ s, Orderly (f x) cx s) :
    Orderly (xs.forM f) cx s := by
  induction xs generalizing s with
  | nil => exact orderly_pure
  | cons x xs ih =>
    exact orderly_seq (h x (by simp) s) fun _ _ => ih fun y hy => h y (by simp [hy])

theorem orderly_slotOf : Orderly (slotOf id) cx s := by
  refine orderly_context_bind ?_
  split
  · exact orderly_unsupported
  · refine orderly_lift_seq (cx.table.avoids_entry _) fun entry => ?_
    split
    · exact orderly_pure
    · split
      · exact orderly_pure
      · exact orderly_unsupported
    · exact orderly_unsupported

end Gen

end MiniJ
