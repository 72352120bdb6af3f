import MiniJ.Proofs.Lowering.References

/-!
# Blocks of code

The code of a function stands in one block behind its label. The labels inside are numbered from 0
on, each number is used once, jumps stay in the block, and the last line leaves the function.

## Main definitions

* `Lowering.Tidy` — a part of code generation whose jumps go to labels of its own.
* `Line.Leaves` — lines that control does not go beyond.

## Main statements

* `Lowering.tidy_statement` — statements.
* `Lowering.FunctionShape.tidy` — functions.
-/
namespace MiniJ

/-- Control does not go beyond this line: it returns or ends the program. -/
def Line.Leaves (line : Line) : Prop :=
  line = .instruction .ret [] ∨ line = .instruction .call [.label "_exit"]

namespace Lowering

open Gen

variable {α : Type} {cx : Context} {u : UnitNode} {f : FunctionNode} {s s' : State}
  {code : List Line} {id : NodeId} {ty : Ty} {depth n lo mid hi : Nat} {ks ks' js : List Nat}

/-! ### Label numbers -/

/-- Different numbers from `lo` on, below `hi`. -/
structure Fresh (lo hi : Nat) (ks : List Nat) : Prop where
  le : lo ≤ hi
  nodup : ks.Nodup
  range : ∀ k ∈ ks, lo ≤ k ∧ k < hi

theorem Fresh.nil (n : Nat) : Fresh n n [] := ⟨Nat.le_refl n, .nil, by simp⟩

theorem Fresh.append (h : Fresh lo mid ks) (h' : Fresh mid hi ks') : Fresh lo hi (ks ++ ks') := by
  refine ⟨h.le.trans h'.le, List.nodup_append.2 ⟨h.nodup, h'.nodup, fun k hk k' hk' => ?_⟩,
    fun k hk => ?_⟩
  · have hbelow := (h.range k hk).2
    have habove := (h'.range k' hk').1
    omega
  · have hle := h.le
    have hle' := h'.le
    rcases List.mem_append.1 hk with hk | hk
    · have hrange := h.range k hk
      omega
    · have hrange := h'.range k hk
      omega

theorem Fresh.perm (h : Fresh lo hi ks) (hperm : ks.Perm ks') : Fresh lo hi ks' :=
  ⟨h.le, hperm.nodup_iff.1 h.nodup, fun k hk => h.range k (hperm.mem_iff.2 hk)⟩

/-- A label that was numbered before the others. -/
theorem Fresh.cons (h : Fresh (lo + 1) hi ks) : Fresh lo hi (lo :: ks) := by
  have hfirst : Fresh lo (lo + 1) [lo] := ⟨by omega, by simp, by simp⟩
  exact hfirst.append h

/-- A label that was numbered before the others and is placed behind them. -/
theorem Fresh.snoc (h : Fresh (lo + 1) hi ks) : Fresh lo hi (ks ++ [lo]) :=
  h.cons.perm (List.perm_append_singleton lo ks).symm

/-! ### Tidy parts -/

/-- A part of code generation uses new label numbers only, each once, and jumps to labels of its
own. -/
def Tidy (cx : Context) (u : UnitNode) (x : Gen Unit) : Prop :=
  ∀ s v code s', Emits x cx s v code s' → ∃ ks js, Lays cx u s'.texts.length code ks js ∧
    Fresh s.labelCount s'.labelCount ks ∧ js ⊆ ks ∧ TextsGrow cx s.texts s'.texts

namespace Tidy

variable {x : Gen α} {Q : α → Prop} {y : Gen Unit} {g : Unit → Gen Unit}

theorem of_refers {y : Gen Unit} {Q : Unit → Prop} (h : Refers cx u y Q) : Tidy cx u y := by
  intro s v code s' hemits
  obtain ⟨-, hlabels, htexts, hlays⟩ := h _ _ _ _ hemits
  exact ⟨[], [], hlays, hlabels ▸ .nil _, List.nil_subset _, htexts⟩

theorem bind (hy : Tidy cx u y) (hg : ∀ v, Tidy cx u (g v)) : Tidy cx u (y >>= g) := by
  intro s w code s' hemits
  obtain ⟨v, c, t, c', hc, hc', rfl⟩ := emits_bind.1 hemits
  obtain ⟨ks, js, hlays, hfresh, hsub, htexts⟩ := hy _ _ _ _ hc
  obtain ⟨ks', js', hlays', hfresh', hsub', htexts'⟩ := hg v _ _ _ _ hc'
  refine ⟨ks ++ ks', js ++ js', (hlays.mono htexts'.le).append hlays', hfresh.append hfresh', ?_,
    htexts.trans htexts'⟩
  exact List.append_subset.2 ⟨List.subset_append_of_subset_left ks' hsub,
    List.subset_append_of_subset_right ks hsub'⟩

theorem forM {X : Type} {xs : List X} {g : X → Gen Unit} (h : ∀ y ∈ xs, Tidy cx u (g y)) :
    Tidy cx u (xs.forM g) := by
  induction xs with
  | nil => exact of_refers (Q := fun _ => True) (.pure trivial)
  | cons y ys ih => exact (h y (by simp)).bind fun _ => ih fun z hz => h z (by simp [hz])

end Tidy

/-! ### Records, declarations and assignments -/

theorem refers_copyFields {r : Register} {record : String} {source target : Address}
    (hsource : Named cx u source) (htarget : Named cx u target) :
    Refers cx u (copyFields r id depth record source target) fun _ => True := by
  induction depth generalizing record source target with
  | zero => exact .unsupported
  | succ depth ih =>
    refine .context_bind (.lift_bind fun found _ => ?_)
    split
    · exact .unsupported
    · refine .forM fun p _ => .lift_bind fun source' hsource' =>
        .lift_bind fun target' htarget' => ?_
      split
      · exact ih (hsource.offsetBy hsource') (htarget.offsetBy htarget')
      · have hload : NamedAt cx u (.memory source') := hsource.offsetBy hsource'
        have hstore : NamedAt cx u (.memory target') := htarget.offsetBy htarget'
        exact (refers_load hload).seq fun _ => refers_store hstore

theorem refers_zeroFill {a : Address} (h : Named cx u a) :
    Refers cx u (zeroFill id depth ty a) fun _ => True := by
  have hscalar : ∀ {depth ty a}, Named cx u a → ty.isRecord = false →
      Refers cx u (zeroFill id depth ty a) fun _ => True := by
    intro depth ty a ha hplain
    rw [zeroFill_scalar hplain]
    refine .sizeOf_bind fun n => .emit rfl fun o ho name hname => ?_
    rw [List.mem_pair] at ho
    rcases ho with rfl | rfl
    · exact ha name hname
    · cases hname
  induction depth generalizing ty a with
  | zero =>
    cases ty with
    | record => exact .unsupported
    | _ => exact hscalar h rfl
  | succ depth ih =>
    cases ty with
    | record record =>
      refine .context_bind (.lift_bind fun found _ => ?_)
      split
      · exact .unsupported
      · exact .forM fun p _ => .lift_bind fun a' ha' => ih (h.offsetBy ha')
    | _ => exact hscalar h rfl

theorem refers_declareLocal : Refers cx u (declareLocal id) fun _ => True := by
  refine .context_bind ?_
  split
  · exact refers_zeroFill (named_frame _)
  · exact .pure trivial

theorem refers_assignRecord (hparts : RefersParts depth cx u f) {record : String}
    {target value : NodeId} (htarget : cx.InBody f target) (hvalue : cx.InBody f value) :
    Refers cx u (assignRecord (atDepth depth) record target value) fun _ => True := by
  refine .kind_bind fun k hk => .guard ?_
  refine (hparts.place hvalue).bind fun source hsource => ?_
  refine (hparts.place htarget).bind fun destination hdestination => ?_
  split
  · next src dst hsrc hdst =>
    rw [hsrc] at hsource
    rw [hdst] at hdestination
    refine Refers.scratch.seq fun r => Refers.seq
      (.context_bind (refers_copyFields hsource hdestination)) fun _ => ?_
    exact Refers.release.seq fun _ => Refers.releaseAll.seq fun _ => .releaseAll
  · exact .unsupported

theorem refers_assign (hparts : RefersParts depth cx u f) {target value : NodeId}
    (htarget : cx.InBody f target) (hvalue : cx.InBody f value) :
    Refers cx u (assign (atDepth depth) target value) fun _ => True := by
  refine .typeOf_bind fun ty => ?_
  split
  · exact refers_assignRecord hparts htarget hvalue
  · refine (hparts.expression hvalue).seq fun r => (hparts.place htarget).bind fun p hp => ?_
    exact (refers_store hp).seq fun _ => Refers.releaseAll.seq fun _ => .release

/-! ### Returning -/

theorem refers_exit {status : Operand} (h : status.symbol? = none) :
    Refers cx u (exit status) fun _ => True := by
  refine (Refers.emit_plain rfl (List.filterMap_eq_nil_iff.2 ?_)).seq fun _ => .emit_plain rfl rfl
  exact List.forall_mem_cons.2 ⟨rfl, List.forall_mem_singleton.2 h⟩

theorem refers_epilogue : Refers cx u epilogue fun _ => True :=
  (Refers.emit_plain rfl rfl).seq fun _ => (Refers.emit_plain rfl rfl).seq fun _ =>
    .emit_plain rfl rfl

theorem refers_immediate : Refers cx u (immediate id) fun _ => True := by
  refine .kind_bind fun k _ => ?_
  split <;> exact .pure trivial

theorem refers_returnedValue (hparts : RefersParts depth cx u f) {value : Option NodeId}
    (hin : ∀ v ∈ value, cx.InBody f v) :
    Refers cx u (returnedValue (atDepth depth) value) fun result =>
      ∀ v ∈ result, cx.InBody f v := by
  cases value with
  | none => exact .pure (by simp)
  | some v =>
    refine .typeOf_bind fun ty => ?_
    split
    · exact (refers_call hparts (hin v rfl)).seq fun r => Refers.releaseAll.seq fun _ =>
        .pure (by simp)
    · exact .pure hin

theorem refers_exitWith (hparts : RefersParts depth cx u f) {value : Option NodeId}
    (hin : ∀ v ∈ value, cx.InBody f v) :
    Refers cx u (exitWith (atDepth depth) value) fun _ => True := by
  cases value with
  | none => exact refers_exit rfl
  | some v =>
    refine refers_immediate.seq fun constant => ?_
    split
    · exact refers_exit rfl
    · exact (hparts.expression (hin v rfl)).seq fun r => (refers_exit rfl).seq fun _ => .release

theorem refers_giveBack (hparts : RefersParts depth cx u f) (hin : cx.InBody f id) :
    Refers cx u (giveBack (atDepth depth) id) fun _ => True := by
  refine .typeOf_bind fun ty => .guard (refers_immediate.seq fun constant => ?_)
  split
  · exact .emit_plain rfl rfl
  · exact (hparts.expression hin).seq fun r => .emit_if rfl rfl .release

theorem refers_returnStatement (hparts : RefersParts depth cx u f) {value : Option NodeId}
    (hin : ∀ v ∈ value, cx.InBody f v) :
    Refers cx u (returnStatement (atDepth depth) value) fun _ => True := by
  refine (refers_returnedValue hparts hin).bind fun result hresult => .context_bind ?_
  split
  · exact refers_exitWith hparts hresult
  · refine Refers.seq (.forM fun v hv => refers_giveBack hparts ?_) fun _ => refers_epilogue
    exact hresult v (by simpa using hv)

/-! ### Conditions -/

theorem refers_test (hparts : RefersParts depth cx u f) (hin : cx.InBody f id) {k : NodeKind}
    (hk : cx.arena.kind id = .ok k) :
    Refers cx u (test (atDepth depth) id (Test.ofKind k)) fun _ => True := by
  have hvalue : Refers cx u ((atDepth depth).expression id >>= fun r =>
      emit .cmp [.reg r, .imm 1] >>= fun _ => release r >>= fun _ => pure Condition.equal)
        fun _ => True :=
    (hparts.expression hin).seq fun r => (Refers.emit_plain rfl rfl).seq fun _ =>
      Refers.release.seq fun _ => .pure trivial
  cases hshape : Test.ofKind k with
  | constant | value => exact hvalue
  | comparison op condition left right =>
    -- the operands of the comparison are those of the node
    obtain ⟨hleft, hright⟩ : cx.InBody f left ∧ cx.InBody f right := by
      unfold Test.ofKind at hshape
      split at hshape
      · cases hshape
      · split at hshape
        · cases hshape
          exact ⟨hin.child hk (.head _), hin.child hk (.tail _ (.head _))⟩
        · cases hshape
      · cases hshape
    refine refers_rejectText.seq fun _ => (hparts.expression hleft).seq fun lhs =>
      (hparts.expression hright).seq fun rhs => (Refers.emit_plain rfl rfl).seq fun _ => ?_
    exact Refers.release.seq fun _ => Refers.release.seq fun _ => .pure trivial

/-- A test and a jump on its outcome. -/
theorem lays_jump {g : Condition → Condition} {k : Nat} {v : Unit} {x : Gen Condition}
    (hx : Refers cx u x fun _ => True)
    (h : Emits (x >>= fun c => emit (.jump (g c)) [.label (labelName k)]) cx s v code s') :
    s'.labelCount = s.labelCount ∧ TextsGrow cx s.texts s'.texts ∧
      Lays cx u s'.texts.length code [] [k] := by
  obtain ⟨condition, c, t, _, hc, hjump, rfl⟩ := emits_bind.1 h
  obtain ⟨rfl, rfl⟩ := emits_emit.1 hjump
  obtain ⟨-, hlabels, htexts, hlays⟩ := hx _ _ _ _ hc
  exact ⟨hlabels, htexts, Lays.after (.jump _ k) hlays⟩

/-! ### Statements -/

variable {statement : NodeId → Gen Unit}

theorem tidy_branchOn (hparts : RefersParts depth cx u f) {condition onTrue : NodeId}
    {onFalse : Option NodeId} {k : NodeKind} (hin : cx.InBody f condition)
    (hk : cx.arena.kind condition = .ok k) (hfirst : Tidy cx u (statement onTrue))
    (hsecond : ∀ other ∈ onFalse, Tidy cx u (statement other)) :
    Tidy cx u (branchOn (atDepth depth) statement condition (Test.ofKind k) onTrue onFalse) := by
  intro s v code s' hemits
  obtain ⟨_, c, t, _, hjump, hparts', rfl⟩ := emits_bind.1 (emits_newLabel_bind.1 hemits)
  obtain ⟨hcount, htexts, hlays⟩ := lays_jump (refers_test hparts hin hk) hjump
  obtain ⟨_, c', t', _, hthen, helse, rfl⟩ := emits_bind.1 hparts'
  obtain ⟨ks, js, hlays', hfresh, hsub, htexts'⟩ := hfirst _ _ _ _ hthen
  rw [hcount] at hfresh
  cases onFalse with
  | none =>
    obtain ⟨rfl, rfl⟩ := emits_placeLabel.1 helse
    refine ⟨_, _, (hlays.mono htexts'.le).append (hlays'.append (.label s.labelCount)), ?_, ?_,
      htexts.trans htexts'⟩
    · simpa using hfresh.snoc
    · grind
  | some other =>
    obtain ⟨_, rfl, hlabel⟩ := emits_emit_bind.1 (emits_newLabel_bind.1 helse)
    obtain ⟨_, rfl, hother⟩ := emits_placeLabel_bind.1 hlabel
    obtain ⟨_, c'', t'', _, hotherwise, hlast, rfl⟩ := emits_bind.1 hother
    obtain ⟨rfl, rfl⟩ := emits_placeLabel.1 hlast
    obtain ⟨ks', js', hlays'', hfresh', hsub', htexts''⟩ := hsecond other rfl _ _ _ _ hotherwise
    have hskip : Lays cx u s'.texts.length (.instruction .jmp [.label (labelName t'.labelCount)] ::
        .label (labelName s.labelCount) :: (c'' ++ [.label (labelName t'.labelCount)]))
        (s.labelCount :: (ks' ++ [t'.labelCount])) (t'.labelCount :: js') := by
      simpa using (Lays.jump _ t'.labelCount).append
        ((Lays.label s.labelCount).append (hlays''.append (.label t'.labelCount)))
    have hle := htexts'.trans htexts''
    refine ⟨_, _, (hlays.mono hle.le).append ((hlays'.mono htexts''.le).append hskip), ?_, ?_,
      htexts.trans hle⟩
    · have hlabels := hfresh.snoc.append hfresh'.snoc
      simpa using hlabels
    · grind

theorem tidy_branch (hparts : RefersParts depth cx u f) {condition onTrue : NodeId}
    {onFalse : Option NodeId} (hin : cx.InBody f condition) (hfirst : Tidy cx u (statement onTrue))
    (hsecond : ∀ other ∈ onFalse, Tidy cx u (statement other)) :
    Tidy cx u (branch (atDepth depth) statement condition onTrue onFalse) := by
  intro s v code s' hemits
  obtain ⟨k, hk, hrest⟩ := emits_kind_bind.1 hemits
  have htested := tidy_branchOn hparts hin hk hfirst hsecond
  have hother : Tidy cx u (onFalse.toList.forM statement) :=
    .forM fun other hmem => hsecond other (by simpa using hmem)
  cases hshape : Test.ofKind k with
  | constant b =>
    rw [hshape] at hrest
    cases b with
    | true => exact hfirst _ _ _ _ hrest
    | false => exact hother _ _ _ _ hrest
  | comparison | value =>
    rw [hshape] at hrest htested
    exact htested _ _ _ _ hrest

theorem tidy_loopForever {body : NodeId} (hbody : Tidy cx u (statement body)) :
    Tidy cx u (loopForever statement body) := by
  intro s v code s' hemits
  obtain ⟨_, rfl, hparts⟩ := emits_placeLabel_bind.1 (emits_newLabel_bind.1 hemits)
  obtain ⟨_, c, t, _, hpart, hjump, rfl⟩ := emits_bind.1 hparts
  obtain ⟨rfl, rfl⟩ := emits_emit.1 hjump
  obtain ⟨ks, js, hlays, hfresh, hsub, htexts⟩ := hbody _ _ _ _ hpart
  refine ⟨_, _, (Lays.label s.labelCount).append (hlays.append (.jump _ s.labelCount)), ?_, ?_,
    htexts⟩
  · simpa using hfresh.cons
  · grind

theorem tidy_loopOn (hparts : RefersParts depth cx u f) {condition body : NodeId} {k : NodeKind}
    (hin : cx.InBody f condition) (hk : cx.arena.kind condition = .ok k)
    (hbody : Tidy cx u (statement body)) :
    Tidy cx u (loopOn (atDepth depth) statement condition (Test.ofKind k) body) := by
  intro s v code s' hemits
  obtain ⟨_, rfl, hlabel⟩ := emits_emit_bind.1
    (emits_newLabel_bind.1 (emits_newLabel_bind.1 hemits))
  obtain ⟨_, rfl, hpart⟩ := emits_placeLabel_bind.1 hlabel
  obtain ⟨_, c, t, _, hinside, hbottom, rfl⟩ := emits_bind.1 hpart
  obtain ⟨c', rfl, hjump⟩ := emits_placeLabel_bind.1 hbottom
  obtain ⟨hcount, htexts', hlays'⟩ := lays_jump (g := fun c => c) (refers_test hparts hin hk) hjump
  obtain ⟨ks, js, hlays, hfresh, hsub, htexts⟩ := hbody _ _ _ _ hinside
  have hlabels : Fresh s.labelCount s'.labelCount (s.labelCount :: (ks ++ [s.labelCount + 1])) := by
    rw [hcount]
    exact hfresh.snoc.cons
  refine ⟨_, (s.labelCount + 1) :: (js ++ [s.labelCount]), ?_,
    hlabels, by grind, htexts.trans htexts'⟩
  have htop : Lays cx u s'.texts.length [.instruction .jmp [.label (labelName (s.labelCount + 1))],
      .label (labelName s.labelCount)] [s.labelCount] [s.labelCount + 1] :=
    (Lays.jump _ (s.labelCount + 1)).append (.label s.labelCount)
  have hall := htop.append ((hlays.mono htexts'.le).append
    ((Lays.label (s.labelCount + 1)).append hlays'))
  simpa using hall

theorem tidy_loop (hparts : RefersParts depth cx u f) {condition body : NodeId}
    (hin : cx.InBody f condition) (hbody : Tidy cx u (statement body)) :
    Tidy cx u (loop (atDepth depth) statement condition body) := by
  intro s v code s' hemits
  obtain ⟨k, hk, hrest⟩ := emits_kind_bind.1 hemits
  have htested := tidy_loopOn hparts hin hk hbody
  cases hshape : Test.ofKind k with
  | constant b =>
    rw [hshape] at hrest
    cases b with
    | true => exact tidy_loopForever hbody _ _ _ _ hrest
    | false => exact Tidy.of_refers (Q := fun _ => True) (.pure trivial) _ _ _ _ hrest
  | comparison | value =>
    rw [hshape] at hrest htested
    exact htested _ _ _ _ hrest

/-- Statements of a function are tidy. -/
theorem tidy_statement (hparts : RefersParts depth cx u f) {d : Nat} (hin : cx.InBody f id) :
    Tidy cx u (Lowering.statement (atDepth depth) d id) := by
  induction d generalizing id with
  | zero => exact .of_refers (Q := fun _ => True) .fail
  | succ d ih =>
    intro s v code s' hemits
    obtain ⟨k, hk, hrest⟩ := emits_kind_bind.1 hemits
    have hchild : ∀ {c}, c ∈ k.children → cx.InBody f c := hin.child hk
    have hquiet : Tidy cx u (pure ()) := .of_refers (Q := fun _ => True) (.pure trivial)
    have hvalue : Tidy cx u ((atDepth depth).expression id >>= release) :=
      .of_refers ((hparts.expression hin).seq fun _ => .release)
    cases k with
    | block body => exact Tidy.forM (fun c hc => ih (hchild hc)) _ _ _ _ hrest
    | declare declaration => exact Tidy.of_refers refers_declareLocal _ _ _ _ hrest
    | assign target value =>
      exact Tidy.of_refers (refers_assign hparts (hchild (.head _)) (hchild (.tail _ (.head _))))
        _ _ _ _ hrest
    | callStatement c =>
      exact Tidy.of_refers ((refers_call hparts (hchild (.head _))).seq fun _ => .releaseAll)
        _ _ _ _ hrest
    | branch condition onTrue onFalse =>
      refine tidy_branch hparts (hchild (.head _)) (ih (hchild (.tail _ (.head _))))
        (fun other hother =>
        ih (hchild ?_)) _ _ _ _ hrest
      simp [NodeKind.children, Option.mem_def.1 hother]
    | loop condition body =>
      exact tidy_loop hparts (hchild (.head _)) (ih (hchild (.tail _ (.head _)))) _ _ _ _ hrest
    | ret value =>
      refine Tidy.of_refers (refers_returnStatement hparts fun v hv => hchild ?_) _ _ _ _ hrest
      simp [NodeKind.children, Option.mem_def.1 hv]
    | empty | dummy | declaration | function | record | unit => exact hquiet _ _ _ _ hrest
    | _ => exact hvalue _ _ _ _ hrest

/-! ### Functions -/

/-- The code of the last of some steps comes last. -/
theorem emits_forM_getLast? {X : Type} {xs : List X} {g : X → Gen Unit} {last : X} {v : Unit}
    (hlast : xs.getLast? = some last) (h : Emits (xs.forM g) cx s v code s') :
    ∃ front c t, code = front ++ c ∧ Emits (g last) cx t () c s' := by
  induction xs generalizing s code with
  | nil => cases hlast
  | cons x xs ih =>
    obtain ⟨c, t, c', hx, hxs, rfl⟩ := emits_forM_cons.1 h
    cases xs with
    | nil =>
      cases hlast
      obtain ⟨rfl, rfl⟩ := emits_forM_nil.1 hxs
      exact ⟨[], c, s, by simp, hx⟩
    | cons y ys =>
      obtain ⟨front, c₁, t₁, rfl, hg⟩ := ih hlast hxs
      exact ⟨c ++ front, c₁, t₁, by simp, hg⟩

theorem LeaveShape.getLast? {lower : Lowering} {value : Option NodeId}
    (h : LeaveShape lower cx s value code s') :
    ∃ line, code.getLast? = some line ∧ line.Leaves := by
  cases h with
  | exit => exact ⟨_, rfl, .inr rfl⟩
  | exitWith => exact ⟨_, by simp, .inr rfl⟩
  | epilogue => exact ⟨_, rfl, .inl rfl⟩
  | giveBack => exact ⟨_, by simp [epilogueCode], .inl rfl⟩

/-- A body that ends with a `return` leaves the function in its last line. -/
theorem getLast?_of_endsWithReturn {lower : Lowering} {body : List NodeId} {t : State} {v : Unit}
    (hends : Emits (endsWithReturn body) cx t true [] t)
    (h : Emits (body.forM (Lowering.statement lower depth)) cx s v code s') :
    ∃ line, code.getLast? = some line ∧ line.Leaves := by
  unfold endsWithReturn at hends
  split at hends
  · next last hlast =>
    obtain ⟨k, hk, hreturn⟩ := emits_kind_bind.1 hends
    obtain ⟨hisReturn, -⟩ := emits_pure.1 hreturn
    obtain ⟨front, c, t', rfl, hstatement⟩ := emits_forM_getLast? hlast h
    cases depth with
    | zero => exact (emits_fail.1 hstatement).elim
    | succ depth =>
      obtain ⟨k', hk', hcode⟩ := emits_kind_bind.1 hstatement
      cases Except.ok.inj (hk.symm.trans hk')
      cases k <;> cases hisReturn
      obtain ⟨hreturned, hleaves⟩ := returnShape hcode
      obtain ⟨line, hline, hleave⟩ := hleaves.getLast?
      exact ⟨line, by simp [List.getLast?_append, hline], hleave⟩
  · cases (emits_pure.1 hends).1

theorem refers_copyParameter {p : CopiedParameter} (h : Named cx u p.address) :
    Refers cx u (copyParameter p) fun _ => True := by
  have hcopy : ∀ {incoming : Operand}, incoming.symbol? = none → Refers cx u (do
      claim .r11
      claim .rax
      emit .mov [.reg .r11, incoming]
      copyRecord p.record (.register .r11) p.address .rax p.param
      release .rax
      release .r11) fun _ => True := by
    intro incoming hincoming
    refine Refers.claim.seq fun _ => Refers.claim.seq fun _ => Refers.seq (.emit_plain rfl ?_)
      fun _ => ?_
    · exact List.filterMap_eq_nil_iff.2 (by simpa [Operand.symbol?] using hincoming)
    · exact Refers.seq (.context_bind (refers_copyFields (named_register _) h)) fun _ =>
        Refers.release.seq fun _ => .release
  unfold copyParameter
  cases p.source with
  | global => exact .pure trivial
  | register r => exact hcopy rfl
  | frame displacement => exact hcopy rfl

theorem refers_prologue (hlowers : cx.Lowers u f) : Refers cx u prologue fun _ => True := by
  obtain ⟨taken, -, hsound, -⟩ := hlowers.frame_sound
  refine .context_bind ((Refers.emit_plain rfl rfl).seq fun _ => (Refers.emit_plain rfl rfl).seq
    fun _ =>
    .emit_if rfl rfl (.emit_if rfl rfl ?_))
  refine Refers.seq (.forM fun p hp => .emit_plain rfl ?_) fun _ => .forM fun p hp =>
    refers_copyParameter ?_
  · obtain ⟨used, -, haddress⟩ := hsound.moved p hp
    refine List.filterMap_eq_nil_iff.2 (List.forall_mem_cons.2 ⟨?_, ?_⟩)
    · rw [haddress]
      rfl
    · exact List.forall_mem_singleton.2 (Operand.symbol?_sized ..)
  · obtain ⟨used, n, haddress, -⟩ := (hsound.copied p hp).target
    rw [haddress]
    exact named_frame _

/-- What follows a body leaves the function. -/
theorem refers_ending (body : List NodeId) : Refers cx u (endsWithReturn body >>= fun returns =>
    if (!returns) = true then if cx.isEntry = true then exit (.imm 0) else epilogue else pure ())
    fun _ => True := by
  have hends : Refers cx u (endsWithReturn body) fun _ => True := by
    unfold endsWithReturn
    split
    · exact .kind_bind fun _ _ => .pure trivial
    · exact .pure trivial
  refine hends.seq fun returns => ?_
  split
  · split
    · exact refers_exit rfl
    · exact refers_epilogue
  · exact .pure trivial

theorem getLast?_tailCode (cx : Context) :
    ∃ line, (tailCode cx false).getLast? = some line ∧ line.Leaves := by
  unfold tailCode
  split
  · next h => cases h
  · split
    · exact ⟨_, rfl, .inr rfl⟩
    · exact ⟨_, rfl, .inl rfl⟩

/-- The last line of a function leaves it. -/
theorem FunctionShape.getLast? {label : String} (h : FunctionShape label f cx s code s') :
    ∃ line, code.getLast? = some line ∧ line.Leaves := by
  cases h with
  | @mk t _ copies body returns claimed copied lowered ends =>
    cases returns with
    | true =>
      obtain ⟨line, hline, hleaves⟩ := getLast?_of_endsWithReturn ends lowered
      refine ⟨line, ?_, hleaves⟩
      simp [tailCode, List.getLast?_cons, List.getLast?_append, hline]
    | false =>
      obtain ⟨line, hline, hleaves⟩ := getLast?_tailCode cx
      refine ⟨line, ?_, hleaves⟩
      simp [List.getLast?_cons, List.getLast?_append, hline]

/-- The code of a function is its label and a tidy block. -/
theorem tidy_functionBody (hlowers : cx.Lowers u f) {label : String} {v : Unit}
    (h : Emits (functionBody label f) cx s v code s') :
    ∃ block ks js, code = .label label :: block ∧ Lays cx u s'.texts.length block ks js ∧
      Fresh s.labelCount s'.labelCount ks ∧ js ⊆ ks ∧ TextsGrow cx s.texts s'.texts := by
  have hparts := refers_atDepth hlowers cx.arena.depthLimit
  have hbody :
      Tidy cx u (f.body.forM (Lowering.statement (ofArena cx.arena) cx.arena.depthLimit)) :=
    .forM fun r hr => tidy_statement hparts ⟨r, hr, .self r⟩
  obtain ⟨_, _, t, _, hclaim, hrest, rfl⟩ := emits_bind.1 (emits_context_bind.1 h)
  obtain ⟨rfl, hclaimed, -⟩ := emits_forM_claim hclaim
  obtain ⟨block, rfl, hblock⟩ := emits_placeLabel_bind.1 hrest
  have htidy := (Tidy.of_refers (refers_prologue hlowers)).bind fun _ => hbody.bind fun _ =>
    .of_refers (refers_ending f.body)
  obtain ⟨ks, js, hlays, hfresh, hsub, htexts⟩ := htidy _ _ _ _ hblock
  rw [hclaimed] at hfresh htexts
  exact ⟨block, ks, js, rfl, hlays, hfresh, hsub, htexts⟩

end Lowering

end MiniJ
