import MiniJ.Proofs.Lowering.Steady
import MiniJ.Proofs.Lowering.Visits

/-!
# What code generation counts

Wherever a run of code generation comes to, the words that its code has pushed so far are as many as
it keeps count of. Statements start with nothing on the stack, and an even number of words is on it
at calls.

## Main statements

* `Lowering.Part.counts` — the parts of a task.
* `Lowering.CallPoint.counts`, `Lowering.ExitPoint.counts` — calls.
-/
namespace MiniJ

namespace Lowering

open Gen

variable {cx : Context} {u : UnitNode} {f : FunctionNode} {s s' s₀ t : State} {task task' : Task}
  {front code c : List Line} {id : NodeId} {ty : Ty} {depth n : Nat} {r : Register}

/-! ### Code of the parts -/

theorem Steady.pushedWords_eq {d d' : Int} (h : Steady d code d') : pushedWords code = d' - d := by
  have htotal := h.total
  omega

/-- A statement starts with nothing on the stack. -/
def Task.Rests (s : State) : Task → Prop
  | .statement _ _ => s.stackDepth = 0
  | _ => True

/-- The words that `c` pushes are those by which the count grows. -/
def Counts (s : State) (c : List Line) (t : State) : Prop :=
  (t.stackDepth : Int) = s.stackDepth + pushedWords c

theorem Counts.nil (s : State) : Counts s [] s := by simp [Counts]

theorem Counts.append {c' : List Line} (h : Counts s c t) (h' : Counts t c' s') :
    Counts s (c ++ c') s' := by
  simp only [Counts, pushedWords_append] at h h' ⊢
  omega

theorem SteadyParts.counts_expression (h : SteadyParts depth cx u f) (hin : cx.InBody f id)
    (htyped : cx.arena.Typed u cx.table cx.info id ty)
    (hemits : Emits ((atDepth depth).expression id) cx s r code t) : Counts s code t := by
  have hwords := (h.expression hin htyped hemits).pushedWords_eq
  have hdepth := (h.disciplined.expression htyped hemits).depth
  unfold Counts
  omega

theorem SteadyParts.counts_place (h : SteadyParts depth cx u f) (hin : cx.InBody f id)
    (htyped : cx.arena.Typed u cx.table cx.info id ty) {p : Place}
    (hemits : Emits ((atDepth depth).place id) cx s p code t) : Counts s code t := by
  have hwords := (h.place hin htyped hemits).pushedWords_eq
  have hdepth := (h.disciplined.place htyped hemits).depth
  unfold Counts
  omega

theorem TestShape.counts (hparts : SteadyParts cx.arena.depthLimit cx u f) {k : NodeKind}
    {outcome : Condition} (hin : cx.InBody f id) (hk : cx.arena.kind id = .ok k)
    (htyped : cx.arena.Typed u cx.table cx.info id ty)
    (h : TestShape (ofArena cx.arena) cx id s (Test.ofKind k) outcome code t) :
    Counts s code t ∧ t.stackDepth = s.stackDepth := by
  have hwords := (h.steady hparts hin hk htyped).pushedWords_eq
  have hdepth := (h.claims hparts.disciplined hk htyped).depth
  refine ⟨?_, hdepth⟩
  unfold Counts
  omega

theorem counts_statement (hparts : SteadyParts cx.arena.depthLimit cx u f) (hin : cx.InBody f id)
    (hchecked : cx.arena.Checked u cx.table cx.info ty id) (hempty : s.stackDepth = 0) {v : Unit}
    (h : Emits (statement (ofArena cx.arena) depth id) cx s v code t) :
    Counts s code t ∧ t.stackDepth = 0 := by
  obtain ⟨hsteady, hrests⟩ := steady_statement hparts hin hchecked hempty h
  exact ⟨by simp [Counts, hempty, hrests, hsteady.pushedWords_eq], hrests⟩

theorem counts_statements (hparts : SteadyParts cx.arena.depthLimit cx u f) {xs : List NodeId}
    (hxs : ∀ x ∈ xs, cx.InBody f x ∧ cx.arena.Checked u cx.table cx.info ty x)
    (hempty : s.stackDepth = 0) {v : Unit}
    (h : Emits (xs.forM (statement (ofArena cx.arena) depth)) cx s v code t) :
    Counts s code t ∧ t.stackDepth = 0 := by
  have hsteady : Steady 0 code 0 := steady_forM (fun x hx _ _ _ hs hx' =>
    steady_statement hparts (hxs x hx).1 (hxs x hx).2 hs hx') hempty h
  have hbalanced : Balanced s t := balanced_forM (fun x hx _ _ _ hx' =>
    balanced_statement hparts.lowers.program hparts.disciplined (hxs x hx).2 hx') h
  have hrests : t.stackDepth = 0 := hbalanced.depth.trans hempty
  exact ⟨by simp [Counts, hempty, hrests, hsteady.pushedWords_eq], hrests⟩

/-- What is pushed in front of an argument: live registers, padding and the arguments behind it. -/
theorem counts_arguments (hparts : SteadyParts depth cx u f) {xs : List (NodeId × Bool)}
    {padding : Nat} (hpadding : padding < 2)
    (hxs : ∀ p ∈ xs, cx.InBody f p.1 ∧ ∃ ty, cx.arena.Typed u cx.table cx.info p.1 ty)
    (h : Emits (xs.forM fun (arg, byAddress) => pushArgument (atDepth depth) arg byAddress) cx
      (s.grown (s.registers.live.length + padding)) () c t) :
    Counts s (s.registers.live.map .push ++ (paddingCode padding ++ c)) t := by
  have hshape := argumentsShape h
  have hwords := (hshape.steady hparts hxs).pushedWords_eq
  have hdepth := (hshape.claims hparts.disciplined fun p hp => (hxs p hp).2).depth
  have hsaves := (@Steady.pushes 0 s.registers.live (Int.le_refl 0)).pushedWords_eq
  have hpad := (@steady_paddingCode 0 padding (Int.le_refl 0) hpadding).pushedWords_eq
  simp only [State.stackDepth_grown] at hwords hdepth
  simp only [Counts, pushedWords_append]
  omega

/-- The words in front of a part are counted. -/
theorem Part.counts (hlowers : cx.Lowers u f) (hsmall : cx.arena.size < 4294967296)
    (hfits : task.Fits cx u f) (hrests : task.Rests s) (h : Part cx s task task' t c) :
    Counts s c t ∧ task'.Rests t := by
  have hparts := steady_atDepth hlowers hsmall
  cases h with
  | @member _ _ x xs ys _ _ kind earlier =>
    obtain ⟨hin, ty, hchecked⟩ := hfits
    exact counts_statements (hparts _) (fun y hy => ⟨hin.child kind (List.mem_append_left _ hy),
      hchecked.block_parts kind y (List.mem_append_left _ hy)⟩) hrests earlier
  | assigned | source | called | last | result | comparedLeft | tested | operand | stepped | left
  | read | value | base | array => exact ⟨.nil s, trivial⟩
  | taken | passed => exact ⟨.nil s, hrests⟩
  | condition => exact ⟨.nil s, trivial⟩
  | target kind type scalar earlier =>
    obtain ⟨hin, _, hchecked⟩ := hfits
    obtain ⟨ty, -, hvalue⟩ := hchecked.assign_parts kind
    exact ⟨(hparts _).counts_expression (hin.child kind (.tail _ (.head _))) hvalue earlier,
      trivial⟩
  | destination kind type earlier =>
    obtain ⟨hin, _, hchecked⟩ := hfits
    obtain ⟨ty, -, hvalue⟩ := hchecked.assign_parts kind
    exact ⟨(hparts _).counts_place (hin.child kind (.tail _ (.head _))) hvalue earlier, trivial⟩
  | first kind tested test =>
    obtain ⟨hin, _, hchecked⟩ := hfits
    obtain ⟨htest, hempty⟩ := test.counts (hparts _) (hin.child kind (.head _)) tested
      (hchecked.branch_parts kind).1
    exact ⟨htest.append (Counts.nil _), hempty.trans hrests⟩
  | @second _ _ _ _ _ _ outcome _ _ t t' kind tested test earlier =>
    obtain ⟨hin, _, hchecked⟩ := hfits
    obtain ⟨hcondition, honTrue, -⟩ := hchecked.branch_parts kind
    obtain ⟨htest, hempty⟩ := test.counts (hparts _) (hin.child kind (.head _)) tested hcondition
    obtain ⟨hfirst, hempty'⟩ := counts_statement (hparts _) (hin.child kind (.tail _ (.head _)))
      honTrue (hempty.trans hrests) earlier
    have hjump : Counts t [.instruction (.jump outcome.negate)
        [.label (labelName s.labelCount)]] t :=
      Counts.nil t
    have hlast : Counts t' [.instruction .jmp [.label (labelName t'.labelCount)],
        .label (labelName s.labelCount)] t'.labelled := Counts.nil t'
    exact ⟨((htest.append hjump).append hfirst).append hlast, hempty'⟩
  | forever => exact ⟨Counts.nil s, hrests⟩
  | body => exact ⟨Counts.nil s, hrests⟩
  | @bottom _ _ _ _ _ _ t kind tested undecided earlier =>
    obtain ⟨hin, _, hchecked⟩ := hfits
    obtain ⟨hbody, -⟩ := counts_statement (hparts _) (hin.child kind (.tail _ (.head _)))
      (hchecked.loop_parts kind).2 (by exact hrests) earlier
    have htop : Counts s [.instruction .jmp [.label (labelName (s.labelCount + 1))],
        .label (labelName s.labelCount)] s.labelled.labelled := Counts.nil s
    exact ⟨(htop.append hbody).append (Counts.nil t), trivial⟩
  | comparedRight kind compares earlier =>
    obtain ⟨hin, _, htyped⟩ := hfits
    obtain rfl := Test.kind_of_comparison compares
    obtain ⟨_, hleft⟩ := htyped.child kind (.head _)
    exact ⟨(hparts _).counts_expression (hin.child kind (.head _)) hleft earlier, trivial⟩
  | right kind earlier | index kind earlier =>
    obtain ⟨hin, _, htyped⟩ := hfits
    obtain ⟨_, hfirst⟩ := htyped.child kind (.head _)
    exact ⟨(hparts _).counts_expression (hin.child kind (.head _)) hfirst earlier, trivial⟩
  | @argument depth _ arg _ args callee xs ys byAddress _ _ kind calls order earlier =>
    obtain ⟨hin, _, htyped⟩ := hfits
    refine ⟨counts_arguments (hparts _) (Nat.mod_lt _ Nat.two_pos) (fun p hp => ?_) earlier, ?_⟩
    · have hmem : p ∈ args.zip callee.byAddress := by
        rw [← List.mem_reverse, order]
        exact List.mem_append_left _ hp
      have harg := (List.of_mem_zip hmem).1
      exact ⟨hin.child kind harg, htyped.child kind harg⟩
    · cases byAddress <;> exact trivial

/-! ### Points of a run -/

/-- Wherever the run of a function comes to, the words that its code has pushed are counted. -/
theorem Comes.counts (hlowers : cx.Lowers u f) (hsmall : cx.arena.size < 4294967296)
    (hempty : s₀.stackDepth = 0) (h : Comes cx f s₀ task s front) :
    Counts s₀ front s ∧ task.Rests s := by
  induction h with
  | @body x xs ys moves c t t' claimed enters order earlier =>
    obtain ⟨copies, hcopies, -, hcode⟩ := emits_prologue enters
    obtain rfl := List.append_cancel_left hcode
    have hdepth : t.stackDepth = s₀.stackDepth := by rw [(emits_forM_claim claimed).2.1]
    have hquiet : ∀ line ∈ cx.frame.homed.map homeCode ++ copies, line.Quiet := by
      refine List.forall_mem_append.2 ⟨fun line hline => ?_, hcopies.quiet⟩
      obtain ⟨p, -, rfl⟩ := List.mem_map.1 hline
      exact .mk rfl (by simp [Machine.written])
    have hmoves : Counts s₀ (cx.frame.homed.map homeCode ++ copies) t := by
      have hwords := (Steady.all_quiet hquiet (Int.le_refl 0)).pushedWords_eq
      unfold Counts
      omega
    obtain ⟨fid, hfid, hf⟩ := hlowers.member
    have hbody := (hlowers.program.typed.functions fid hfid f hf).body
    obtain ⟨hearlier, hrests⟩ := counts_statements (steady_atDepth hlowers hsmall _) (fun y hy => by
      have hmem : y ∈ f.body := order ▸ List.mem_append_left _ hy
      exact ⟨⟨y, hmem, .self y⟩, hbody y hmem⟩) (hdepth.trans hempty) earlier
    exact ⟨hmoves.append hearlier, hrests⟩
  | part whole part ih =>
    obtain ⟨hcounts, hrests⟩ := ih
    obtain ⟨hpart, hrests'⟩ := part.counts hlowers hsmall (whole.fits hlowers) hrests
    exact ⟨hcounts.append hpart, hrests'⟩

/-- At a call, as many words are on the stack as code generation counts. The number is even. -/
theorem CallPoint.counts (hlowers : cx.Lowers u f) (hsmall : cx.arena.size < 4294967296)
    (hempty : s₀.stackDepth = 0) {callee : Callee} (h : CallPoint cx f s₀ id callee n front) :
    pushedWords front = n ∧ n % 2 = 0 := by
  obtain @⟨depth, dropped, name, args, s, t, front, before, comes, kind, calls, passes⟩ := h
  obtain ⟨hin, ty, htyped⟩ : Task.Fits cx u f (.call depth id) := comes.fits hlowers
  obtain ⟨hsteady, heven, -, -⟩ := steady_passArguments (steady_atDepth hlowers hsmall depth) hin
    htyped kind calls passes
  have hwords := hsteady.pushedWords_eq
  have hcounts := (comes.counts hlowers hsmall hempty).1
  simp only [Counts, hempty] at hcounts
  rw [pushedWords_append]
  omega

/-- Nothing is on the stack where the program ends. -/
theorem ExitPoint.counts (hlowers : cx.Lowers u f) (hsmall : cx.arena.size < 4294967296)
    (hempty : s₀.stackDepth = 0) (h : ExitPoint cx f s₀ n front) :
    pushedWords front = n ∧ n = 0 := by
  have hparts := steady_atDepth hlowers hsmall cx.arena.depthLimit
  have hcall : pushedWords [(.instruction .call [.label "_exit"] : Line)] = 0 := rfl
  cases h with
  | @ret depth id value s t front before entry comes kind returns =>
    obtain ⟨hin, ty, hchecked⟩ : Task.Fits cx u f (.statement depth id) := comes.fits hlowers
    obtain ⟨hcounts, hrests⟩ := comes.counts hlowers hsmall hempty
    have hstatement : Emits (statement (ofArena cx.arena) 1 id) cx s () _ t :=
      emits_kind_bind.2 ⟨_, kind, returns⟩
    obtain ⟨hreturn, hdepth⟩ := counts_statement hparts hin hchecked hrests hstatement
    simp only [Counts, pushedWords_append, hcall, hempty] at hcounts hreturn
    rw [pushedWords_append]
    omega
  | @finish label front t entry runs =>
    have hshape := functionShape runs
    obtain ⟨rest, hcode, hsteady, hrests⟩ := hshape.steady hparts hempty
    obtain rfl := List.append_cancel_left (List.cons.inj hcode).2
    have hwords := hsteady.pushedWords_eq
    rw [pushedWords_append, hcall] at hwords
    omega

/-- At every call, an even number of words is on the stack, as many as code generation counts. -/
theorem CallSite.counts (hlowers : cx.Lowers u f) (hsmall : cx.arena.size < 4294967296)
    (hempty : s₀.stackDepth = 0) {name : String} (h : CallSite cx f s₀ front n name) :
    pushedWords front = n ∧ n % 2 = 0 := by
  cases h with
  | call point => exact point.counts hlowers hsmall hempty
  | exit point =>
    obtain ⟨hwords, rfl⟩ := point.counts hlowers hsmall hempty
    exact ⟨hwords, rfl⟩

end Lowering

end MiniJ
