import MiniJ.Proofs.Lowering.Balance
import MiniJ.Proofs.Lowering.Progress

/-!
# Statements of a checked program have code

Lowering a statement of a checked function is safe, in every state of code generation.

## Main statements

* `Lowering.safe_statement` — statements of any depth are safe.
-/
namespace MiniJ

open Outcome

namespace Lowering

open Gen

variable {lower : Lowering} {cx : Context} {u : UnitNode} {f : FunctionNode} {s : State}
  {id : NodeId} {ty : Ty} {depth : Nat} {k : NodeKind}

/-! ### Records and declarations -/

theorem safe_zeroFill_scalar {a : Address} {n : Nat} (hscalar : ty.isRecord = false)
    (hn : cx.table.sizeOf ty = .ok (some n)) (hwritable : a.Writable) :
    Safe (zeroFill id depth ty a) cx s := by
  rw [zeroFill_scalar hscalar]
  exact safe_sizeOf_bind hn (safe_emit (by simpa [Operand.Writable] using hwritable))

/-- A value that can be addressed is filled with zeros, at a depth its records fit in. -/
theorem safe_zeroFill {a : Address} {within : List String} {n : Nat} (hcompact : cx.table.Compact)
    (hdepth : depth ≤ cx.table.recordDepth)
    (hn : cx.table.sizeWithin (some handleSize) depth within ty = .ok (some n))
    (hwritable : a.Writable)
    (hupper : ty.isRecord = true → a.displacement + n < 2147483648) (hsmall : n < 2147483648) :
    Safe (zeroFill id depth ty a) cx s := by
  induction depth generalizing ty within n a s with
  | zero =>
    cases hrecord : ty.isRecord with
    | true =>
      obtain ⟨record, rfl⟩ := Ty.exists_of_isRecord hrecord
      simp [SymbolTable.sizeWithin, pure_eq_ok] at hn
    | false =>
      exact safe_zeroFill_scalar hrecord (SymbolTable.sizeWithin_mono hn hdepth (List.nil_subset _))
        hwritable
  | succ depth ih =>
    cases hrecord : ty.isRecord with
    | true =>
      obtain ⟨record, rfl⟩ := Ty.exists_of_isRecord hrecord
      obtain ⟨-, fields, hfields, -⟩ := SymbolTable.sizeWithin_record.1 hn
      obtain ⟨found, hfound⟩ := hcompact.exists_fields hfields
      refine safe_context_bind (safe_lift_bind hfound (safe_forM fun p hp s => ?_))
      obtain ⟨δ, ty⟩ := p
      obtain ⟨before, m, rfl, hm, hle⟩ := SymbolTable.mem_fields hdepth hn hfound hp
      have hroom := hupper rfl
      dsimp only
      rw [SymbolTable.displacement_of_lt (by omega)]
      obtain ⟨hoffset, hinner⟩ := hwritable.offsetBy (d := before) (by omega)
      refine safe_lift_bind hoffset (ih (by omega) hm hinner (fun _ => ?_) (by omega))
      show a.displacement + (before : Int) + (m : Int) < _
      omega
    | false =>
      exact safe_zeroFill_scalar hrecord (SymbolTable.sizeWithin_mono hn hdepth (List.nil_subset _))
        hwritable

/-- A record that can be addressed is copied, at a depth its records fit in. -/
theorem safe_copyFields {scratch : Register} {record : String} {source target : Address}
    {within : List String} {n : Nat} (hcompact : cx.table.Compact)
    (hdepth : depth ≤ cx.table.recordDepth)
    (hn : cx.table.sizeWithin (some handleSize) depth within (.record record) = .ok (some n))
    (hsource : source.Writable) (hsourceUpper : source.displacement + n < 2147483648)
    (htarget : target.Writable) (htargetUpper : target.displacement + n < 2147483648)
    (hsmall : n < 2147483648) : Safe (copyFields scratch id depth record source target) cx s := by
  induction depth generalizing record within n source target s with
  | zero => simp [SymbolTable.sizeWithin, pure_eq_ok] at hn
  | succ depth ih =>
    obtain ⟨-, fields, hfields, -⟩ := SymbolTable.sizeWithin_record.1 hn
    obtain ⟨found, hfound⟩ := hcompact.exists_fields hfields
    refine safe_context_bind (safe_lift_bind hfound (safe_forM fun p hp s => ?_))
    obtain ⟨δ, ty⟩ := p
    obtain ⟨before, m, rfl, hm, hle⟩ := SymbolTable.mem_fields hdepth hn hfound hp
    dsimp only
    rw [SymbolTable.displacement_of_lt (by omega)]
    obtain ⟨hsourceAt, hsource'⟩ := hsource.offsetBy (d := before) (by omega)
    obtain ⟨htargetAt, htarget'⟩ := htarget.offsetBy (d := before) (by omega)
    have hscalar : ty.isRecord = false → ∀ {a b : Address}, a.Writable → b.Writable →
        Safe (load (.memory a) ty scratch id >>= fun _ => store (.memory b) ty scratch id)
          cx s := by
      intro hplain a b ha hb
      have hsize : cx.table.sizeOf ty = .ok (some m) :=
        SymbolTable.sizeWithin_mono hm (by omega) (List.nil_subset _)
      refine safe_bind (safe_move (.memory ha (by simp [hplain])) hsize).1 fun _ _ _ _ => ?_
      exact (safe_move (.memory hb (by simp [hplain])) hsize).2
    refine safe_lift_bind hsourceAt (safe_lift_bind htargetAt ?_)
    cases ty with
    | record inner =>
      refine ih (by omega) hm hsource' ?_ htarget' ?_ (by omega)
      · show source.displacement + (before : Int) + (m : Int) < _
        omega
      · show target.displacement + (before : Int) + (m : Int) < _
        omega
    | _ => exact hscalar rfl hsource' htarget'

theorem safe_declareLocal (hfits : cx.Fits u f) (hin : cx.InBody f id)
    (hwithin : cx.arena.Within depth id) {d : NodeId} (hk : cx.arena.kind id = .ok (.declare d)) :
    Safe (declareLocal d) cx s := by
  obtain ⟨taken, -, hsound, hslots⟩ := hfits.frame_sound
  obtain ⟨fid, hfid, hf⟩ := hfits.member
  obtain ⟨r, hr, hbelow⟩ := hin
  refine safe_context_bind ?_
  split
  · next δ ty isReference hslot =>
    have hplaced := hsound.placed _ (Frame.mem_of_slot? hslot)
    obtain ⟨b, hb, hty, href⟩ := hsound.declared _ (Frame.mem_of_slot? hslot)
    have hstorable := hfits.program.storable_local hfid hf hr hbelow hk hb
    obtain rfl : ty = b.ty := hty
    obtain rfl : isReference = false := href.trans (hwithin.shaped hk b hb)
    refine safe_zeroFill hfits.compact (Nat.le_refl _) (hfits.compact.sizeOf_eq hstorable)
      (hplaced.writable hfits.small rfl) (fun hrecord => ?_) (hfits.compact.bytes_lt hstorable)
    have hzero := hplaced.below_zero hfits.small rfl (by simpa [Slot.FitsWord] using hrecord)
      (hfits.compact.sizeOf_eq hstorable)
    exact Int.lt_of_le_of_lt hzero (by decide)
  · exact safe_pure

/-! ### Assignments -/

variable {target value : NodeId}

theorem Roomy.memory_of_record {record : String} {location : Location}
    (h : Roomy cx id (.record record) location) : ∃ a : Address, location = .memory a ∧ a.Writable ∧
      a.displacement + cx.table.bytes (.record record) < 2147483648 := by
  cases h with
  | register kind stored plain => cases plain
  | memory writable upper => exact ⟨_, rfl, writable, upper rfl⟩

theorem safe_assignRecord (hlower : Prepared lower cx u f depth) {record : String}
    (hin : cx.InBody f target) (hin' : cx.InBody f value) (hwithin : cx.arena.Within depth target)
    (hwithin' : cx.arena.Within depth value) (hplace : cx.arena.IsPlace target)
    (htarget : cx.arena.Typed u cx.table cx.info target (.record record))
    (hvalue : cx.arena.Typed u cx.table cx.info value (.record record)) :
    Safe (assignRecord lower record target value) cx s := by
  have hstorable := hlower.fits.storable_place hin htarget hplace
  obtain ⟨k, hk⟩ := hwithin'.kind
  obtain ⟨k', hk'⟩ := hwithin.kind
  refine safe_kind_bind hk ?_
  split
  · exact safe_bind (safe_unsupported hk fun _ => trivial) fun _ _ _ h =>
      (emits_unsupported.1 h).elim
  · next hcall =>
    have hplace' := isPlace_of_record hk hvalue (by simpa using hcall)
    refine safe_bind (hlower.progresses.place hin' hwithin' hplace' hvalue) fun p c t hp => ?_
    refine safe_bind (hlower.progresses.place hin hwithin hplace htarget) fun q c' t' hq => ?_
    obtain ⟨location, temp⟩ := p
    obtain ⟨location', temp'⟩ := q
    obtain ⟨a, rfl, ha, haUpper⟩ := (hlower.roomy hin' hvalue hp).memory_of_record
    obtain ⟨b, rfl, hb, hbUpper⟩ := (hlower.roomy hin htarget hq).memory_of_record
    have hboth := (hlower.disciplined.place hvalue hp).trans (hlower.disciplined.place htarget hq)
    refine safe_bind (safe_scratch hk') fun r _ t₁ hr => ?_
    have hclaims := hboth.trans (emits_scratch hr).2
    have hcopy : Safe (copyRecord record a b r target) cx t₁ := safe_context_bind
      (safe_copyFields hlower.fits.compact (Nat.le_refl _) (hlower.fits.compact.sizeOf_eq hstorable)
        ha haUpper hb hbUpper (hlower.fits.compact.bytes_lt hstorable))
    refine safe_bind hcopy fun _ _ t₂ ht₂ => ?_
    obtain rfl := (emits_copyFields (emits_context_bind.1 ht₂)).1
    refine safe_bind (safe_release ((hclaims.live r).2 (by simp))) fun _ _ t₃ ht₃ => ?_
    have hreleased := hclaims.releases (by simp) (emits_release_iff.1 ht₃).2
    rw [List.cons_append, List.erase_cons_head, List.nil_append] at hreleased
    refine safe_bind (safe_releaseAll hreleased) fun _ _ t₄ ht₄ => ?_
    have hleft := (hreleased.releaseAll ht₄).2
    exact safe_releaseAll (q := []) (by rwa [List.append_nil])

theorem safe_assign (hlower : Prepared lower cx u f depth) (hin : cx.InBody f target)
    (hin' : cx.InBody f value) (hwithin : cx.arena.Within depth target)
    (hwithin' : cx.arena.Within depth value) (hplace : cx.arena.IsPlace target)
    (htarget : cx.arena.Typed u cx.table cx.info target ty)
    (hvalue : cx.arena.Typed u cx.table cx.info value ty) :
    Safe (assign lower target value) cx s := by
  have hstorable := hlower.fits.storable_place hin htarget hplace
  refine safe_typeOf_bind htarget.noted ?_
  have hscalar : ty.isRecord = false → Safe (do
      let r ← lower.expression value
      let place ← lower.place target
      store place.location ty r target
      releasePlace place
      release r) cx s := by
    intro hplain
    refine safe_bind (hlower.progresses.expression hin' hwithin' hvalue hstorable.ne_void hplain)
      fun r _ t hr => ?_
    refine safe_bind (hlower.progresses.place hin hwithin hplace htarget) fun p _ t' hp => ?_
    have hclaims := (hlower.disciplined.expression hvalue hr).trans
      (hlower.disciplined.place htarget hp)
    have hmove := safe_move (s := t') (r := r) (hlower.roomy hin htarget hp)
      (hlower.fits.compact.sizeOf_eq hstorable)
    refine safe_bind hmove.2 fun _ _ t₁ ht₁ => ?_
    obtain ⟨rfl, -⟩ := emits_store ht₁
    refine safe_bind (safe_releaseAll hclaims) fun _ _ t₂ ht₂ => safe_release ?_
    exact ((hclaims.releaseAll ht₂).2.live r).2 (by simp)
  cases ty with
  | record record =>
    exact safe_assignRecord hlower hin hin' hwithin hwithin' hplace htarget hvalue
  | _ => exact hscalar rfl

/-! ### Calls and returns -/

/-- A call that may give back nothing. -/
theorem safe_call_bind (hlower : Prepared lower cx u f depth) (hin : cx.InBody f id)
    (hwithin : cx.arena.Within depth id) (htyped : cx.arena.Typed u cx.table cx.info id ty)
    {α : Type} {g : Option Register → Gen α} (hg : ∀ r t, Claims r.toList s t → Safe (g r) cx t) :
    Safe (call lower id >>= g) cx s := by
  obtain ⟨k, hk⟩ := hwithin.kind
  have hcall : Safe (call lower id) cx s := by
    refine safe_kind_bind hk ?_
    split
    · exact safe_callNode hlower hin (hwithin.mono (Nat.le_succ _)) hk htyped
    · exact safe_pure
  refine safe_bind hcall fun r _ t hr => hg r t ?_
  obtain ⟨k', hk', hcode⟩ := emits_kind_bind.1 hr
  split at hcode
  · exact (callShape hcode).claims hlower.fits.program hlower.disciplined htyped hk'
  · obtain ⟨rfl, -, rfl⟩ := emits_pure.1 hcode
    exact .refl _

theorem safe_immediate_bind {β : Type} {g : Option Int64 → Gen β} (hk : cx.arena.kind id = .ok k)
    (hg : ∀ o, Safe (g o) cx s) : Safe (immediate id >>= g) cx s := by
  have hquiet : ∃ o, Emits (immediate id) cx s o [] s := by
    simp only [immediate, emits_kind_bind]
    cases k with
    | int value => exact ⟨_, _, hk, emits_pure.2 ⟨rfl, rfl, rfl⟩⟩
    | bool value => exact ⟨_, _, hk, emits_pure.2 ⟨rfl, rfl, rfl⟩⟩
    | _ => exact ⟨_, _, hk, emits_pure.2 ⟨rfl, rfl, rfl⟩⟩
  obtain ⟨o, ho⟩ := hquiet
  exact safe_bind_of_emits ho (by simp) (hg o)

theorem safe_exit {status : Operand} (h : status.Writable) : Safe (exit status) cx s :=
  safe_emit_bind (by simpa [Operand.Writable] using h) (safe_emit (by simp [Operand.Writable]))

theorem safe_epilogue : Safe epilogue cx s :=
  safe_emit_bind (by simp [Operand.Writable])
    (safe_emit_bind (by simp [Operand.Writable]) (safe_emit (by simp)))

/-- The value of a `return` from the entry function. -/
theorem safe_exitWith (hlower : Prepared lower cx u f depth) (hin : cx.InBody f id)
    (hwithin : cx.arena.Within depth id) (htyped : cx.arena.Typed u cx.table cx.info id ty)
    (hvoid : ty ≠ .void) (hplain : ty.isRecord = false) : Safe (exitWith lower (some id)) cx s := by
  obtain ⟨k, hk⟩ := hwithin.kind
  refine safe_immediate_bind hk fun o => ?_
  cases o with
  | some constant => exact safe_exit trivial
  | none =>
    refine safe_bind (hlower.progresses.expression hin hwithin htyped hvoid hplain)
      fun r _ t hr => safe_bind (safe_exit trivial) fun _ _ t' ht' => safe_release ?_
    obtain ⟨_, rfl, hcall⟩ := emits_emit_bind.1 ht'
    obtain ⟨rfl, rfl⟩ := emits_emit.1 hcall
    exact ((hlower.disciplined.expression htyped hr).live r).2 (by simp)

/-- The value of a `return`; records have no code. -/
theorem safe_giveBack (hlower : Prepared lower cx u f depth) (hin : cx.InBody f id)
    (hwithin : cx.arena.Within depth id) (htyped : cx.arena.Typed u cx.table cx.info id ty)
    (hvoid : ty ≠ .void) : Safe (giveBack lower id) cx s := by
  obtain ⟨k, hk⟩ := hwithin.kind
  refine safe_typeOf_bind htyped.noted ?_
  split
  · exact safe_bind (safe_unsupported hk fun _ => trivial) fun _ _ _ h =>
      (emits_unsupported.1 h).elim
  · next hplain =>
    refine safe_immediate_bind hk fun o => ?_
    cases o with
    | some constant => exact safe_emit (by simp [Operand.Writable])
    | none =>
      refine safe_bind (hlower.progresses.expression hin hwithin htyped hvoid
        (by simpa using hplain))
        fun r _ t hr => ?_
      have hlive : r ∈ t.registers.live :=
        ((hlower.disciplined.expression htyped hr).live r).2 (by simp)
      split
      · exact safe_emit_bind (by simp [Operand.Writable]) (safe_release hlive)
      · exact safe_release hlive

theorem safe_returnStatement (hlower : Prepared lower cx u f depth) {value : Option NodeId}
    (hin : ∀ v ∈ value, cx.InBody f v) (hwithin : ∀ v ∈ value, cx.arena.Within depth v)
    (htyped : ∀ v ∈ value, cx.arena.Typed u cx.table cx.info v f.returnType) :
    Safe (returnStatement lower value) cx s := by
  -- what happens after the value has been looked at
  have hleave : ∀ {value : Option NodeId}, (∀ v ∈ value, cx.InBody f v) →
      (∀ v ∈ value, cx.arena.Within depth v) →
      (∀ v ∈ value, cx.arena.Typed u cx.table cx.info v f.returnType ∧ f.returnType ≠ .void) →
      ∀ s, Safe (context >>= fun cx => if cx.isEntry = true then exitWith lower value else
        value.toList.forM (giveBack lower) >>= fun _ => epilogue) cx s := by
    intro value hin hwithin htyped s
    refine safe_context_bind ?_
    split
    · next hentry =>
      cases value with
      | none => exact safe_exit trivial
      | some v =>
        obtain ⟨hv, hvoid⟩ := htyped v rfl
        refine safe_exitWith hlower (hin v rfl) (hwithin v rfl) hv hvoid ?_
        rw [hlower.fits.entry hentry]
        rfl
    · refine safe_bind (safe_forM fun v hv s => ?_) fun _ _ _ _ => safe_epilogue
      rw [Option.mem_toList] at hv
      exact safe_giveBack hlower (hin v hv) (hwithin v hv) (htyped v hv).1 (htyped v hv).2
  cases value with
  | none =>
    refine safe_bind safe_pure fun o _ t ho => ?_
    obtain ⟨rfl, -, rfl⟩ := emits_pure.1 ho
    exact hleave (by simp) (by simp) (by simp) t
  | some v =>
    have hv := htyped v rfl
    by_cases hvoid : f.returnType = .void
    · have hvalue : Safe (returnedValue lower (some v)) cx s := by
        refine safe_typeOf_bind hv.noted ?_
        rw [if_pos hvoid]
        refine safe_call_bind hlower (hin v rfl) (hwithin v rfl) hv fun r t hclaims => ?_
        exact safe_bind (safe_releaseAll (q := []) (by rwa [List.append_nil]))
          fun _ _ _ _ => safe_pure
      refine safe_bind hvalue fun o _ t ho => ?_
      obtain ⟨ty, hty, hrest⟩ := emits_typeOf_bind.1 ho
      cases hv.noted.symm.trans hty
      rw [if_pos hvoid] at hrest
      obtain ⟨r, _, t', _, -, hdiscard, -⟩ := emits_bind.1 hrest
      obtain ⟨_, _, t'', _, -, hdone, -⟩ := emits_bind.1 hdiscard
      obtain ⟨rfl, -, rfl⟩ := emits_pure.1 hdone
      exact hleave (by simp) (by simp) (by simp) t
    · have hvalue : Emits (returnedValue lower (some v)) cx s (some v) [] s := by
        refine emits_typeOf_bind.2 ⟨_, hv.noted, ?_⟩
        rw [if_neg hvoid]
        exact emits_pure.2 ⟨rfl, rfl, rfl⟩
      exact safe_bind_of_emits hvalue (by simp) (hleave hin hwithin (fun w hw =>
        ⟨htyped w hw, hvoid⟩) s)

/-! ### Conditions -/

/-- A condition sets the flags. -/
theorem safe_test (hlower : Prepared lower cx u f depth) (hin : cx.InBody f id)
    (hwithin : cx.arena.Within depth id) (hk : cx.arena.kind id = .ok k)
    (htyped : cx.arena.Typed u cx.table cx.info id .bool) :
    Safe (test lower id (Test.ofKind k)) cx s := by
  have hvalue : Safe (do
      let r ← lower.expression id
      emit .cmp [.reg r, .imm 1]
      release r
      return Condition.equal) cx s := by
    refine safe_bind (hlower.progresses.expression hin hwithin htyped (by simp) rfl)
      fun r _ t hr => safe_emit_bind (by simp [Operand.Writable]) ?_
    have hlive := ((hlower.disciplined.expression htyped hr).live r).2 (by simp)
    exact safe_bind (safe_release hlive) fun _ _ _ _ => safe_pure
  cases hshape : Test.ofKind k with
  | constant | value => exact hvalue
  | comparison op condition left right =>
    obtain rfl := Test.kind_of_comparison hshape
    have hwithin' := hwithin.mono (Nat.le_succ _)
    obtain ⟨inner, first, second, hvoid, hplain, result⟩ := htyped.binary_cases hk
    refine safe_bind (safe_rejectText hk first (by rw [result]; rfl)) fun _ _ _ _ => ?_
    refine safe_bind (hlower.progresses.expression (hin.child hk (.head _))
      (hwithin'.child hk (.head _)) first hvoid hplain) fun lhs _ t hleft => ?_
    refine safe_bind (hlower.progresses.expression (hin.child hk (.tail _ (.head _)))
      (hwithin'.child hk (.tail _ (.head _))) second hvoid hplain) fun rhs _ t' hright => ?_
    have hclaims := (hlower.disciplined.expression first hleft).trans
      (hlower.disciplined.expression second hright)
    refine safe_emit_bind (by simp [Operand.Writable]) ?_
    refine safe_bind (safe_release ((hclaims.live rhs).2 (by simp))) fun _ _ t₁ ht₁ => ?_
    have hreleased := hclaims.releases (by simp) (emits_release_iff.1 ht₁).2
    rw [List.cons_append, List.erase_cons_head] at hreleased
    exact safe_bind (safe_release ((hreleased.live lhs).2 (by simp))) fun _ _ _ _ => safe_pure

/-! ### Statements -/

variable {statement : NodeId → Gen Unit} {condition : NodeId}

theorem safe_branch (hlower : Prepared lower cx u f depth) (hin : cx.InBody f condition)
    (hwithin : cx.arena.Within depth condition)
    (htyped : cx.arena.Typed u cx.table cx.info condition .bool) {onTrue : NodeId}
    {onFalse : Option NodeId} (hfirst : ∀ s, Safe (statement onTrue) cx s)
    (hsecond : ∀ other ∈ onFalse, ∀ s, Safe (statement other) cx s) :
    Safe (branch lower statement condition onTrue onFalse) cx s := by
  obtain ⟨k, hk⟩ := hwithin.kind
  have htest := fun s => safe_test (s := s) hlower hin hwithin hk htyped
  have hemit : ∀ {mnemonic label s}, Safe (emit mnemonic [.label label]) cx s :=
    safe_emit (by simp [Operand.Writable])
  have hshaped : Safe (branchOn lower statement condition (Test.ofKind k) onTrue onFalse) cx s := by
    refine safe_bind safe_newLabel fun otherwise _ t _ => ?_
    refine safe_bind (safe_bind (htest t) fun _ _ _ _ => hemit) fun _ _ t₁ _ => ?_
    refine safe_bind (hfirst t₁) fun _ _ t₂ _ => ?_
    cases onFalse with
    | none => exact safe_placeLabel
    | some other =>
      refine safe_bind safe_newLabel fun done _ t₃ _ => safe_bind hemit fun _ _ t₄ _ => ?_
      refine safe_bind safe_placeLabel fun _ _ t₅ _ => ?_
      exact safe_bind (hsecond other rfl t₅) fun _ _ _ _ => safe_placeLabel
  refine safe_kind_bind hk ?_
  cases hshape : Test.ofKind k with
  | constant b =>
    cases b with
    | true => exact hfirst s
    | false => exact safe_forM fun other hother s => hsecond other (Option.mem_toList.1 hother) s
  | comparison | value =>
    rw [hshape] at hshaped
    exact hshaped

theorem safe_loop (hlower : Prepared lower cx u f depth) (hin : cx.InBody f condition)
    (hwithin : cx.arena.Within depth condition)
    (htyped : cx.arena.Typed u cx.table cx.info condition .bool) {body : NodeId}
    (hbody : ∀ s, Safe (statement body) cx s) :
    Safe (loop lower statement condition body) cx s := by
  obtain ⟨k, hk⟩ := hwithin.kind
  have htest := fun s => safe_test (s := s) hlower hin hwithin hk htyped
  have hemit : ∀ {mnemonic label s}, Safe (emit mnemonic [.label label]) cx s :=
    safe_emit (by simp [Operand.Writable])
  have hshaped : Safe (loopOn lower statement condition (Test.ofKind k) body) cx s := by
    refine safe_bind safe_newLabel fun start _ _ _ => safe_bind safe_newLabel fun bottom _ _ _ => ?_
    refine safe_bind hemit fun _ _ _ _ => safe_bind safe_placeLabel fun _ _ t _ => ?_
    refine safe_bind (hbody t) fun _ _ _ _ => safe_bind safe_placeLabel fun _ _ t' _ => ?_
    exact safe_bind (htest t') fun _ _ _ _ => hemit
  refine safe_kind_bind hk ?_
  cases hshape : Test.ofKind k with
  | constant b =>
    cases b with
    | false => exact safe_pure
    | true =>
      refine safe_bind safe_newLabel fun start _ _ _ => safe_bind safe_placeLabel fun _ _ t _ => ?_
      exact safe_bind (hbody t) fun _ _ _ _ => hemit
  | comparison | value =>
    rw [hshape] at hshaped
    exact hshaped

/-- Statements of a checked function are safe to lower. -/
theorem safe_statement {d : Nat} (hlower : Prepared lower cx u f d) (hle : depth ≤ d)
    (hin : cx.InBody f id) (hwithin : cx.arena.Within depth id)
    (hchecked : cx.arena.Checked u cx.table cx.info f.returnType id) :
    Safe (Lowering.statement lower depth id) cx s := by
  induction depth generalizing id s with
  | zero => exact absurd hwithin Arena.not_within_zero
  | succ depth ih =>
    have hdeep := fun {c} (hc : cx.arena.Within depth c) => hc.mono (show depth ≤ d by omega)
    have hpart : ∀ {c k}, cx.arena.kind id = .ok k → c ∈ k.children →
        cx.arena.Checked u cx.table cx.info f.returnType c →
        ∀ s, Safe (Lowering.statement lower depth c) cx s := fun hk hc hcheck s =>
      ih (by omega) (hin.child hk hc) (hwithin.child hk hc) hcheck
    cases hchecked with
    | block kind parts =>
      exact safe_kind_bind kind (safe_forM fun x hx s => hpart kind hx (parts x hx) s)
    | declare kind => exact safe_kind_bind kind (safe_declareLocal hlower.fits hin hwithin kind)
    | assign kind place typed =>
      exact safe_kind_bind kind (safe_assign hlower (hin.child kind (.head _))
        (hin.child kind (.tail _ (.head _))) (hdeep (hwithin.child kind (.head _)))
        (hdeep (hwithin.child kind (.tail _ (.head _)))) (hwithin.shaped kind) place typed)
    | callStatement kind call =>
      refine safe_kind_bind kind (safe_call_bind hlower (hin.child kind (.head _))
        (hdeep (hwithin.child kind (.head _))) call fun r t hclaims => ?_)
      exact safe_releaseAll (q := []) (by rwa [List.append_nil])
    | branch kind test first second =>
      exact safe_kind_bind kind (safe_branch hlower (hin.child kind (.head _))
        (hdeep (hwithin.child kind (.head _))) test (hpart kind (.tail _ (.head _)) first)
        fun other hother =>
          hpart kind (.tail _ (.tail _ (Option.mem_toList.2 hother))) (second other hother))
    | loop kind test inner =>
      exact safe_kind_bind kind (safe_loop hlower (hin.child kind (.head _))
        (hdeep (hwithin.child kind (.head _))) test (hpart kind (.tail _ (.head _)) inner))
    | ret kind typed =>
      exact safe_kind_bind kind (safe_returnStatement hlower
        (fun v hv => hin.child kind (Option.mem_toList.2 hv))
        (fun v hv => hdeep (hwithin.child kind (Option.mem_toList.2 hv))) typed)
    | empty kind => exact safe_kind_bind kind safe_pure

end Lowering

end MiniJ
