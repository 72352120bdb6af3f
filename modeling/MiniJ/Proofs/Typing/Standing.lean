import MiniJ.Proofs.Accepted
import MiniJ.Proofs.Typing.Residue

/-!
# What the tables of a program stand on

In the tables of an accepted program, the rows of every expression are those that a check of this
expression alone leaves, against the type it has in the end. Which candidates were tried for the
calls around it and then rejected makes no difference.

## Main definitions

* `Typing.Stands` — every expression at or below a node has the rows of a last visit.

## Main statements

* `Typing.checkStatement_stands`, `Typing.checkFunction_stands` — parts of a program.
* `Arena.check_leaves_no_residue` — every expression of a bound program.
-/
namespace MiniJ

namespace Typing

variable {cx : Context} {s s' t : State}

/-- The rows of every expression at or below a node are those of a last visit. -/
def Stands (cx : Context) (id : Nat) (s : State) : Prop :=
  ∀ i, cx.arena.Below id i → cx.arena.HasRole .expression i → ∃ e, Visited cx checkRoot i e s

theorem Stands.rests {id : Nat} (h : Stands cx id s) (hrests : Rests cx id s s') :
    Stands cx id s' := by
  intro i hi hrole
  obtain ⟨e, hvisit⟩ := h i hi hrole
  exact ⟨e, hvisit.rests fun j hj => hrests j (hi.trans hj)⟩

/-- Checking a part behind another one leaves the rows of the first. -/
theorem Stands.behind {lo c first last : Nat} (h : Stands cx c s) (htree : cx.arena.Tree lo c)
    (hkeeps : Keeps (Interval first last) s s') (hle : c ≤ first) : Stands cx c s' :=
  h.rests (hkeeps.rests htree fun i _ hi hin => by have := hin.1; omega)

theorem Keeps.join {lo c d : Nat} (hc : lo < c) (hd : c < d) (h : Keeps (Interval lo c) s t)
    (h' : Keeps (Interval c d) t s') : Keeps (Interval lo d) s s' :=
  (h.mono fun _ hi => hi.mono (Nat.le_refl _) (Nat.le_of_lt hd)).trans
    (h'.mono fun _ hi => hi.mono (Nat.le_of_lt hc) (Nat.le_refl _))

theorem stands_of_children {id : Nat} {k : NodeKind} (hk : cx.arena.kind id = .ok k)
    (hrole : k.role ≠ .expression) (h : ∀ c ∈ k.children, Stands cx c s) : Stands cx id s := by
  intro i hi hexpr
  cases hi with
  | self =>
    obtain ⟨k', hk', hrole'⟩ := hexpr
    cases hk.symm.trans hk'
    exact absurd hrole' hrole
  | child hk' hc hi =>
    cases hk.symm.trans hk'
    exact h _ hc i hi hexpr

theorem stays_eq : Stays Eq :=
  ⟨fun _ _ _ _ h => by rw [h], fun _ _ _ _ h => by rw [h]⟩

theorem Visited.root {depth lo c : Nat} {e : Option Ty}
    (h : Visited cx (checkExpression depth) c e s)
    (htree : cx.arena.Tree lo c) (hdepth : cx.arena.Within depth c) :
    Visited cx checkRoot c e s := by
  obtain ⟨r, ty, r', hr, hrun, hrests⟩ := h
  obtain ⟨_, hrun', rfl⟩ := (tandem_checkExpression stays_eq (.refl cx fun _ => True)
    (fun _ _ => trivial) hdepth htree.within e).succeeds rfl hrun
  exact ⟨r, ty, r', hr, (checkRoot_eq c e).2 hrun', hrests⟩

/-- Every part of a checked expression was visited for a last time. -/
theorem exists_visited {depth lo id : Nat} {e : Option Ty} {k : NodeKind} {ty : Ty}
    (htree : cx.arena.Tree lo id) (hk : cx.arena.kind id = .ok k) (hrole : k.role = .expression)
    (hsized : s.Sized cx) (h : Succeeds (checkExpression (depth + 1) id e) cx s ty s') :
    ∀ c ∈ k.children, ∃ x, Visited cx (checkExpression depth) c x s' := by
  intro c hc
  cases hcall : k.isCall with
  | false => exact ⟨_, plain_visited htree hk hrole hcall hsized h c hc⟩
  | true =>
    obtain ⟨name, args, rfl⟩ := NodeKind.exists_of_isCall hcall
    obtain ⟨typed, sig, r, -, -, hlength, -, hvisits⟩ := call_visited htree hk hsized h
    have hzip : (args.zip sig.params).map Prod.fst = args :=
      List.map_fst_zip (Nat.le_of_eq hlength)
    obtain ⟨q, hq, rfl⟩ := List.mem_map.1 (hzip.symm ▸ hc)
    exact ⟨_, hvisits q hq⟩

theorem checkExpression_stands {depth lo id : Nat} {e : Option Ty} {ty : Ty}
    (htree : cx.arena.Tree lo id) (hrole : cx.arena.HasRole .expression id)
    (hdepth : cx.arena.Within depth id) (hsized : s.Sized cx)
    (h : Succeeds (checkExpression depth id e) cx s ty s') : Stands cx id s' := by
  induction depth generalizing lo id e s s' ty with
  | zero => exact absurd hdepth Arena.not_within_zero
  | succ depth ih =>
    intro i hi hexpr
    cases hi with
    | self => exact ⟨e, (visited_of_succeeds hsized h).root htree hdepth⟩
    | child hk hc hi =>
      obtain ⟨k, hk', hrole⟩ := hrole
      cases hk.symm.trans hk'
      obtain ⟨start, hstart, -⟩ := htree.child hk hc
      obtain ⟨x, r, ty', r', hr, hrun, hrests⟩ := exists_visited htree hk hrole hsized h _ hc
      have hstands := ih hstart (hasRole_part htree hk hrole hc) (hdepth.child hk hc) hr hrun
      exact hstands.rests hrests i hi hexpr

theorem checkRoot_stands {lo id : Nat} {e : Option Ty} {ty : Ty} (htree : cx.arena.Tree lo id)
    (hrole : cx.arena.HasRole .expression id) (hsized : s.Sized cx)
    (h : Succeeds (checkRoot id e) cx s ty s') :
    Stands cx id s' ∧ Keeps (Interval lo id) s s' ∧ s'.Sized cx := by
  rw [checkRoot_eq] at h
  have hkeeps := (within_checkExpression htree e).keeps h
  exact ⟨checkExpression_stands htree hrole htree.within hsized h, hkeeps, hsized.keeps hkeeps⟩

theorem checkCondition_stands {lo id : Nat} {construct : Conditional}
    (htree : cx.arena.Tree lo id) (hrole : cx.arena.HasRole .expression id) (hsized : s.Sized cx)
    (h : Succeeds (checkCondition construct id) cx s () s') :
    Stands cx id s' ∧ Keeps (Interval lo id) s s' ∧ s'.Sized cx := by
  obtain ⟨found, t, hfound, h⟩ := succeeds_bind.1 h
  split at h
  · simp only [succeeds_bind, succeeds_fail, and_false, exists_false] at h
  · obtain ⟨-, rfl⟩ := succeeds_pure.1 h
    exact checkRoot_stands htree hrole hsized hfound

theorem checkStatements_stands {run : NodeId → CheckM Unit} {lo id : Nat}
    {parts : List (Nat × Nat)} (htiles : Arena.Tiles lo parts id)
    (htrees : ∀ p ∈ parts, cx.arena.Tree p.2 p.1)
    (hrun : ∀ p ∈ parts, ∀ s s', s.Sized cx → Succeeds (run p.1) cx s () s' →
      Stands cx p.1 s' ∧ Keeps (Interval p.2 p.1) s s')
    (hsized : s.Sized cx) (h : Succeeds ((parts.map Prod.fst).forM run) cx s () s') :
    (∀ p ∈ parts, Stands cx p.1 s') ∧ Keeps (Interval lo id) s s' := by
  induction parts generalizing lo s with
  | nil =>
    obtain ⟨-, rfl⟩ := succeeds_pure.1 h
    exact ⟨by simp, .refl _ _⟩
  | cons p rest ih =>
    have htree := htrees p (by simp)
    have hlt := htree.lt
    have hbounds := (htiles.2.bounds fun q hq => (htrees q (by simp [hq])).lt).1
    obtain ⟨_, t, hfirst, h⟩ := succeeds_bind.1 h
    obtain ⟨hstands, hkeeps⟩ := hrun p (by simp) s t hsized hfirst
    obtain ⟨hothers, hkeeps'⟩ := ih htiles.2 (fun q hq => htrees q (by simp [hq]))
      (fun q hq => hrun q (by simp [hq])) (hsized.keeps hkeeps) h
    have hlo : p.2 = lo := htiles.1
    refine ⟨fun q hq => ?_, (hkeeps.mono fun i hi => ?_).trans (hkeeps'.mono fun i hi => ?_)⟩
    · rcases List.mem_cons.1 hq with rfl | hq
      · exact hstands.behind htree hkeeps' (Nat.le_refl _)
      · exact hothers q hq
    · exact hi.mono (by omega) (by omega)
    · exact hi.mono (by omega) (Nat.le_refl _)

theorem stands_of_only_child {lo id c : Nat} {k : NodeKind} (htree : cx.arena.Tree lo id)
    (hk : cx.arena.kind id = .ok k) (hrole : k.role ≠ .expression) (hchildren : k.children = [c])
    (hstands : Stands cx c s') (hkeeps : Keeps (Interval lo c) s s') :
    Stands cx id s' ∧ Keeps (Interval lo id) s s' := by
  obtain ⟨hc, hid⟩ := htree.only_child hk hchildren
  refine ⟨stands_of_children hk hrole fun d hd => ?_,
    hkeeps.mono fun i hi => hi.mono (Nat.le_refl _) (Nat.le_of_lt hid)⟩
  rw [hchildren, List.mem_singleton] at hd
  exact hd ▸ hstands

/-- Two parts that are checked one after the other. -/
theorem stands_of_two_children {lo id c d : Nat} {k : NodeKind} (htree : cx.arena.Tree lo id)
    (hk : cx.arena.kind id = .ok k) (hrole : k.role ≠ .expression) (hchildren : k.children = [c, d])
    (hstands : Stands cx c t) (hkeeps : Keeps (Interval lo c) s t)
    (hstands' : Stands cx d s') (hkeeps' : Keeps (Interval c d) t s') :
    Stands cx id s' ∧ Keeps (Interval lo id) s s' := by
  obtain ⟨hc, hd, hid⟩ := htree.two_children hk hchildren
  refine ⟨stands_of_children hk hrole fun e he => ?_, (hkeeps.join hc.lt hd.lt hkeeps').mono
    fun i hi => hi.mono (Nat.le_refl _) (Nat.le_of_lt hid)⟩
  rw [hchildren, List.mem_pair] at he
  rcases he with rfl | rfl
  · exact hstands.behind hc hkeeps' (Nat.le_refl _)
  · exact hstands'

/-- Checking a statement visits its expressions and touches only its own rows. -/
theorem checkStatement_stands {ret : Ty} {depth lo id : Nat} (htree : cx.arena.Tree lo id)
    (hrole : cx.arena.HasRole .statement id) (hsized : s.Sized cx)
    (h : Succeeds (checkStatement ret depth id) cx s () s') :
    Stands cx id s' ∧ Keeps (Interval lo id) s s' := by
  induction depth generalizing lo id s s' with
  | zero => exact (succeeds_throw.1 h).elim
  | succ depth ih =>
    obtain ⟨k, hk, hrole⟩ := hrole
    obtain ⟨span, hnode⟩ := Arena.kind_eq_ok_iff.1 hk
    simp only [checkStatement, succeeds_bind, succeeds_node] at h
    obtain ⟨n, s, ⟨hn, rfl⟩, h⟩ := h
    cases Except.ok.inj (hnode.symm.trans hn)
    have hexpr : k.role ≠ .expression := by rw [hrole]; decide
    cases k with
    | block body =>
      have hroles := htree.roles hk
      simp only [NodeKind.partRoles, NodeKind.children, List.forall₂_map_left_iff,
        List.forall₂_same] at hroles
      obtain ⟨parts, hk', -, hchildren, htiles, -, htrees⟩ := htree
      obtain rfl := Except.ok.inj (hk.symm.trans hk')
      obtain rfl : parts.map Prod.fst = body := hchildren
      obtain ⟨hparts, hkeeps⟩ := checkStatements_stands htiles htrees (fun p hp s s' hs h =>
        ih (htrees p hp) (hroles p.1 (List.mem_map_of_mem hp)) hs h) hsized h
      refine ⟨stands_of_children hk hexpr fun c hc => ?_, hkeeps⟩
      obtain ⟨p, hp, rfl⟩ := List.mem_map.1 hc
      exact hparts p hp
    | declare d =>
      obtain ⟨hr, -⟩ := hasRole_head htree hk rfl rfl
      obtain ⟨b, hb⟩ := hr.isDeclaration
      obtain ⟨-, rfl⟩ := checkDeclaration_cases hb h
      exact stands_of_only_child htree hk hexpr rfl
        (stands_of_children hb (by simp [NodeKind.role]) (by simp [NodeKind.children])) (.refl _ _)
    | assign target value =>
      obtain ⟨htarget, hvalue, -⟩ := htree.two_children hk rfl
      obtain ⟨hr, hr'⟩ := hasRole_head htree hk rfl rfl
      obtain ⟨expected, t, hexpected, h⟩ := succeeds_bind.1 h
      obtain ⟨hfirst, hkeeps, hsized'⟩ := checkRoot_stands htarget hr hsized hexpected
      obtain ⟨found, t', hfound, h⟩ := succeeds_bind.1 h
      obtain ⟨hsecond, hkeeps', -⟩ :=
        checkRoot_stands hvalue (List.forall₂_cons.1 hr').1 hsized' hfound
      split at h
      · exact (succeeds_fail.1 h).elim
      · obtain ⟨-, rfl⟩ := succeeds_pure.1 h
        exact stands_of_two_children htree hk hexpr rfl hfirst hkeeps hsecond hkeeps'
    | callStatement c =>
      obtain ⟨hc, -⟩ := htree.only_child hk rfl
      obtain ⟨hr, -⟩ := hasRole_head htree hk rfl rfl
      obtain ⟨ty, t, hty, h⟩ := succeeds_bind.1 h
      obtain ⟨-, rfl⟩ := succeeds_pure.1 h
      obtain ⟨hcall, hkeeps, -⟩ := checkRoot_stands hc hr hsized hty
      exact stands_of_only_child htree hk hexpr rfl hcall hkeeps
    | branch condition onTrue onFalse =>
      obtain ⟨hr, hr'⟩ := hasRole_head htree hk rfl rfl
      obtain ⟨hrt, hro⟩ := List.forall₂_cons.1 hr'
      obtain ⟨_, t, hcondition, h⟩ := succeeds_bind.1 h
      obtain ⟨_, t', htrue, h⟩ := succeeds_bind.1 h
      cases onFalse with
      | none =>
        obtain ⟨hcond, hbody, -⟩ := htree.two_children hk rfl
        obtain ⟨hfirst, hkeeps, hsized'⟩ := checkCondition_stands hcond hr hsized hcondition
        obtain ⟨hsecond, hkeeps'⟩ := ih hbody hrt hsized' htrue
        obtain ⟨-, rfl⟩ := succeeds_pure.1 h
        exact stands_of_two_children htree hk hexpr rfl hfirst hkeeps hsecond hkeeps'
      | some other =>
        obtain ⟨hcond, hbody, hother, hid⟩ := htree.three_children hk rfl
        obtain ⟨hfirst, hkeeps, hsized'⟩ := checkCondition_stands hcond hr hsized hcondition
        obtain ⟨hsecond, hkeeps'⟩ := ih hbody hrt hsized' htrue
        obtain ⟨hthird, hkeeps''⟩ := ih hother (List.forall₂_cons.1 hro).1
          (hsized'.keeps hkeeps') h
        have hboth := hkeeps'.join hbody.lt hother.lt hkeeps''
        have hlast := Nat.lt_trans hbody.lt hother.lt
        have hall := hkeeps.join hcond.lt hlast hboth
        refine ⟨stands_of_children hk hexpr fun c hc => ?_,
          hall.mono fun i hi => hi.mono (Nat.le_refl _) (by omega)⟩
        simp only [NodeKind.children, Option.toList_some, List.mem_cons, List.not_mem_nil,
          or_false] at hc
        rcases hc with rfl | rfl | rfl
        · exact hfirst.behind hcond hboth (Nat.le_refl _)
        · exact hsecond.behind hbody hkeeps'' (Nat.le_refl _)
        · exact hthird
    | loop condition body =>
      obtain ⟨hcond, hbody, -⟩ := htree.two_children hk rfl
      obtain ⟨hr, hr'⟩ := hasRole_head htree hk rfl rfl
      obtain ⟨_, t, hcondition, h⟩ := succeeds_bind.1 h
      obtain ⟨hfirst, hkeeps, hsized'⟩ := checkCondition_stands hcond hr hsized hcondition
      obtain ⟨hsecond, hkeeps'⟩ := ih hbody (List.forall₂_cons.1 hr').1 hsized' h
      exact stands_of_two_children htree hk hexpr rfl hfirst hkeeps hsecond hkeeps'
    | ret value =>
      cases value with
      | none =>
        obtain ⟨found, t, hfound, hlast⟩ := succeeds_bind.1 h
        obtain ⟨rfl, rfl⟩ := succeeds_pure.1 hfound
        split at hlast
        · exact (succeeds_fail.1 hlast).elim
        · obtain ⟨-, rfl⟩ := succeeds_pure.1 hlast
          exact ⟨stands_of_children hk hexpr (by simp [NodeKind.children]), .refl _ _⟩
      | some v =>
        obtain ⟨hv, -⟩ := htree.only_child hk rfl
        obtain ⟨hr, -⟩ := hasRole_head htree hk rfl rfl
        obtain ⟨found, t, hfound, h⟩ := succeeds_bind.1 h
        obtain ⟨hvalue, hkeeps, -⟩ := checkRoot_stands hv hr hsized hfound
        split at h
        · exact (succeeds_fail.1 h).elim
        · obtain ⟨-, rfl⟩ := succeeds_pure.1 h
          exact stands_of_only_child htree hk hexpr rfl hvalue hkeeps
    | empty =>
      obtain ⟨-, rfl⟩ := succeeds_pure.1 h
      exact ⟨stands_of_children hk hexpr (by simp [NodeKind.children]), .refl _ _⟩
    | _ => cases hrole

/-! ### Programs -/

theorem checkFunction_stands {lo id : Nat} {f : FunctionNode}
    (hk : cx.arena.kind id = .ok (.function f)) (htree : cx.arena.Tree lo id) (hsized : s.Sized cx)
    (h : Succeeds (checkFunction id) cx s () s') :
    (∀ r ∈ f.body, Stands cx r s') ∧ Keeps (Interval lo id) s s' := by
  obtain ⟨span, hnode⟩ := Arena.kind_eq_ok_iff.1 hk
  simp only [checkFunction, succeeds_bind, succeeds_node] at h
  obtain ⟨n, s, ⟨hn, rfl⟩, h⟩ := h
  cases Except.ok.inj (hnode.symm.trans hn)
  simp only [NodeKind.function?, succeeds_bind, succeeds_read] at h
  obtain ⟨_, t, htype, _, t', hparams, cx, _, ⟨rfl, rfl⟩, hbody⟩ := h
  obtain ⟨-, rfl⟩ := checkType_cases htype
  obtain ⟨-, rfl⟩ := checkDeclarations_cases hparams
  obtain ⟨start, parts, hstart, hback, htiles, htrees, hroles⟩ := htree.exists_body hk
  rw [← hback] at hbody
  obtain ⟨hparts, hkeeps⟩ := checkStatements_stands htiles htrees
    (fun p hp s s' hs h => checkStatement_stands (htrees p hp) (hroles p hp) hs h) hsized hbody
  refine ⟨fun r hr => ?_, hkeeps.mono fun i hi => hi.mono (by omega) (Nat.le_refl _)⟩
  rw [← hback] at hr
  obtain ⟨p, hp, rfl⟩ := List.mem_map.1 hr
  exact hparts p hp

theorem checkFunctions_stands {lo : Nat} {parts : List (Nat × Nat)} (hasc : Arena.Ascends lo parts)
    (hparts : ∀ p ∈ parts, (∃ f, cx.arena.kind p.1 = .ok (.function f)) ∧ cx.arena.Tree p.2 p.1)
    (hsized : s.Sized cx) (h : Succeeds ((parts.map Prod.fst).forM checkFunction) cx s () s') :
    (∀ p ∈ parts, ∀ f, cx.arena.kind p.1 = .ok (.function f) → ∀ r ∈ f.body, Stands cx r s') ∧
      Keeps (lo < ·) s s' := by
  induction parts generalizing lo s with
  | nil =>
    obtain ⟨-, rfl⟩ := succeeds_pure.1 h
    exact ⟨by simp, .refl _ _⟩
  | cons p rest ih =>
    obtain ⟨hlo, hasc⟩ := hasc
    obtain ⟨_, t, hfirst, hrest⟩ := succeeds_bind.1 h
    obtain ⟨⟨f, hf⟩, htree⟩ := hparts p (by simp)
    have hlt := htree.lt
    obtain ⟨hbody, hkeeps⟩ := checkFunction_stands hf htree hsized hfirst
    obtain ⟨hothers, hkeeps'⟩ := ih hasc (fun q hq => hparts q (by simp [hq]))
      (hsized.keeps hkeeps) hrest
    refine ⟨fun q hq g hg r hr => ?_, (hkeeps.mono fun i hi => ?_).trans
      (hkeeps'.mono fun i hi => ?_)⟩
    · rcases List.mem_cons.1 hq with rfl | hq
      · cases Except.ok.inj (hf.symm.trans hg)
        obtain ⟨start, hstart, -, hle⟩ := htree.child hf (List.mem_append_right _ hr)
        refine (hbody r hr).rests (hkeeps'.rests hstart fun i _ hi hin => ?_)
        omega
      · exact hothers q hq g hg r hr
    · exact Nat.lt_of_le_of_lt hlo hi.1
    · omega

/-- Every expression in the bodies of a program that passes has been visited for a last time. -/
theorem checkUnit_stands {u : UnitNode} (hu : cx.arena.unit? = some u)
    (hlayout : cx.arena.Layout 1 u) (hsized : s.Sized cx) (h : Succeeds checkUnit cx s () s') :
    ∀ d ∈ u.functions, ∀ f, cx.arena.kind d = .ok (.function f) → ∀ r ∈ f.body, Stands cx r s' := by
  obtain ⟨span, hnode⟩ := Arena.node_root_of_unit? hu
  simp only [checkUnit, succeeds_bind, succeeds_node] at h
  obtain ⟨n, _, ⟨hn, rfl⟩, h⟩ := h
  cases Except.ok.inj (hnode.symm.trans hn)
  simp only [succeeds_bind] at h
  obtain ⟨_, t, hglobals, _, t', hrecords, hfunctions⟩ := h
  obtain ⟨-, rfl⟩ := checkDeclarations_cases hglobals
  obtain ⟨-, rfl⟩ := checkRecords_cases hrecords
  obtain ⟨parts, hparts, hasc, htrees⟩ := hlayout.functions
  rw [← hparts] at hfunctions
  intro d hd
  obtain ⟨p, hp, rfl⟩ := List.mem_map.1 (hparts.symm ▸ hd)
  exact (checkFunctions_stands hasc htrees hsized hfunctions).1 p hp

end Typing

/-- What the type checker reads of a bound program. -/
def Arena.context (a : Arena) (table : SymbolTable) (info : SemanticInfo) : Typing.Context :=
  ⟨a, table, info.scopes, info.resolved⟩

/-- An expression of a parsed program is a tree, inside of the body of a function. -/
theorem Arena.Complete.exists_tree {a : Arena} {u : UnitNode} (h : a.Complete u)
    (hu : a.unit? = some u) {e : Nat} (he : a.HasRole .expression e) :
    ∃ lo, a.Tree lo e ∧ ∃ d ∈ u.functions, ∃ f, a.kind d = .ok (.function f) ∧
      ∃ r ∈ f.body, a.Below r e := by
  obtain ⟨k, hk, hrole⟩ := he
  obtain ⟨d, hd, f, hf, r, hr, hbelow⟩ := h.exists_body hu hk (.inl hrole)
  obtain ⟨-, lo, htree⟩ := h.layout.function_tree hd
  obtain ⟨start, hstart, -⟩ := htree.sub (.child hf (List.mem_append_right _ hr) hbelow)
  exact ⟨start, hstart, d, hd, f, hf, r, hr, hbelow⟩

namespace Typing

variable {cx : Context} {s t : State} {lo e : Nat}

theorem within_checkRoot (htree : cx.arena.Tree lo e) (expected : Option Ty) :
    Within (Interval lo e) (checkRoot e expected) cx := by
  refine within_bind_of within_read fun s v s' h => ?_
  obtain ⟨rfl, -⟩ := succeeds_read.1 h
  exact within_checkExpression htree expected

/-- The check of an expression writes its subtree and nothing else. -/
theorem checkRoot_outside (htree : cx.arena.Tree lo e) (expected : Option Ty) {i : Nat}
    (hpos : 0 < i) (hi : ¬cx.arena.Below e i) :
    SemanticInfo.row (outcome (checkRoot e expected) cx s).2.types i = SemanticInfo.row s.types i ∧
      SemanticInfo.row (outcome (checkRoot e expected) cx s).2.targets i =
        SemanticInfo.row s.targets i := by
  have hkeeps := within_checkRoot htree expected s
  have hout : ¬Interval lo e i := fun hin => hi (htree.below_of_le hin.1 hin.2)
  exact ⟨hkeeps.types i hpos hout, hkeeps.targets i hpos hout⟩

theorem checkRoot_same {expected : Option Ty} {ty : Ty} (htree : cx.arena.Tree lo e)
    (he : cx.arena.HasRole .expression e) (hs : s.Sized cx) (ht : t.Sized cx)
    (hs' : (outcome (checkRoot e expected) cx s).1 = .ok ty)
    (ht' : (outcome (checkRoot e expected) cx t).1 = .ok ty) :
    Same cx e (outcome (checkRoot e expected) cx s).2 (outcome (checkRoot e expected) cx t).2 :=
  checkExpression_same htree he htree.within hs ht ((checkRoot_eq e expected).1 (Prod.ext hs' rfl))
    ((checkRoot_eq e expected).1 (Prod.ext ht' rfl))

/-- An expression whose rows stem from a last visit has the rows of a check against its own type. -/
theorem own_type_of_visited {x : Option Ty} (htree : cx.arena.Tree lo e)
    (he : cx.arena.HasRole .expression e) (h : Visited cx checkRoot e x s) :
    ∃ ty, SemanticInfo.row s.types e = some ty ∧ ∀ t, t.Sized cx →
      ∃ t', Succeeds (checkRoot e (some ty)) cx t ty t' ∧ Same cx e t' s := by
  obtain ⟨r, ty, r', hr, hrun, hrests⟩ := h
  rw [checkRoot_eq] at hrun
  refine ⟨ty, ?_, fun t ht => ?_⟩
  · exact (hrests e (.self e)).1.trans (checkExpression_noted htree hr hrun)
  · obtain ⟨t', hrun', hsame⟩ := checkExpression_own_type htree he htree.within hr ht hrun
    refine ⟨t', (checkRoot_eq e _).2 hrun', fun i hi => ?_⟩
    obtain ⟨htypes, htargets⟩ := hsame i hi
    exact ⟨htypes.symm.trans (hrests i hi).1.symm, fun hcall =>
      (htargets hcall).symm.trans (hrests i hi).2.symm⟩

end Typing

/-! ### A program -/

/-- The arena and the tables of a source text, if it binds. -/
def bind? (source : SourceId) (bytes : List UInt8) : Option (Arena × SymbolTable × SemanticInfo) :=
  match Arena.ofBytes source bytes with
  | .error _ => none
  | .ok a =>
    match a.bind {} with
    | (.error _, _) => none
    | (.ok (), table, info) => some (a, table, info)

theorem of_bind? {source : SourceId} {bytes : List UInt8} {p : Arena × SymbolTable × SemanticInfo}
    (h : bind? source bytes = some p) :
    Arena.ofBytes source bytes = .ok p.1 ∧ p.1.bind {} = (.ok (), p.2.1, p.2.2) := by
  unfold bind? at h
  split at h
  · cases h
  · next a hparse =>
    split at h
    · cases h
    · next hbind =>
      cases h
      exact ⟨hparse, hbind⟩

namespace Nested

/-- Two overloads of `g` that differ in their result, and a call of `g` in the arguments of `f`. The
first overload of `f` is rejected after `g` has been tried against its first parameter. -/
def words : List String :=
  ["bool", "g", "(", ")", "\x7b", "return", "true", ";", "\x7d", "int", "g", "(", ")", "\x7b",
    "return",
    "1", ";", "\x7d", "void", "f", "(", "bool", "a", ",", "bool", "b", ")", "\x7b", "\x7d",
    "void", "f",
    "(", "int", "a", ",", "int", "b", ")", "\x7b", "\x7d", "int", "main", "(", ")", "\x7b", "f",
    "(", "g",
    "(", ")", ",", "1", ")", ";", "return", "0", ";", "\x7d"]

/-- The words with a blank behind each. -/
def bytes : List UInt8 := words.flatMap fun w => w.toList.map (fun c => UInt8.ofNat c.toNat) ++ [32]

def bound : Arena × SymbolTable × SemanticInfo := (bind? 2 bytes).get (by decide +kernel)

theorem bind?_bytes : bind? 2 bytes = some bound := by
  rw [bound, Option.some_get]

/-- The tables of the program once it is checked. -/
def checked : SymbolTable × SemanticInfo := (bound.1.check bound.2.1 bound.2.2).2

/-- The program is accepted, and its call of `g` is an integer. -/
theorem facts : (bound.1.check bound.2.1 bound.2.2).1 = .ok () ∧
    bound.1.kind 14 = .ok (.call "g" []) ∧ checked.2.typeOf 14 = some .int ∧
    checked.2.callTarget 14 = some (.function 7) := by decide +kernel

theorem check_bound : bound.1.check bound.2.1 bound.2.2 = (.ok (), checked.1, checked.2) := by
  have hok := facts.1
  unfold checked
  generalize bound.1.check bound.2.1 bound.2.2 = r at hok ⊢
  exact Prod.ext hok rfl

attribute [irreducible] bound checked

end Nested

/-- A check that passes is a run over the unit, and its tables are the result. -/
theorem Arena.checkUnit_of_check {a : Arena} {table table' : SymbolTable}
    {info info' : SemanticInfo} (h : a.check table info = (.ok (), table', info')) :
    ∃ s', Typing.Succeeds Typing.checkUnit (a.context table info) ⟨info.types, info.targets⟩ () s' ∧
      info'.types = s'.types ∧ info'.targets = s'.targets := by
  have hcheck : a.check table info =
      let r := Typing.outcome Typing.checkUnit (a.context table info) ⟨info.types, info.targets⟩
      (r.1, table.withoutBuiltins, { info with types := r.2.types, targets := r.2.targets }) := rfl
  simp only [hcheck, Prod.mk.injEq] at h
  obtain ⟨hok, -, rfl⟩ := h
  exact ⟨_, Prod.ext hok rfl, rfl, rfl⟩

/-- In a bound program the check of an expression gives the same result from any two tables, changes
no row outside of the subtree and, when it succeeds, leaves the same types and targets in it. In the
tables of a program that passes, the rows of an expression are those that its check against its own
type leaves. -/
theorem Arena.check_leaves_no_residue {source : SourceId} {bytes : List UInt8} {a : Arena}
    {table : SymbolTable} {info : SemanticInfo} (hparse : Arena.ofBytes source bytes = .ok a)
    (hbind : a.bind {} = (.ok (), table, info)) (e : Nat) (he : a.HasRole .expression e) :
    (∀ expected s t, s.Sized (a.context table info) → t.Sized (a.context table info) →
      let first := Typing.outcome (Typing.checkRoot e expected) (a.context table info) s
      let second := Typing.outcome (Typing.checkRoot e expected) (a.context table info) t
      first.1 = second.1 ∧
      (∀ i, 0 < i → ¬a.Below e i → SemanticInfo.row first.2.types i = SemanticInfo.row s.types i ∧
        SemanticInfo.row first.2.targets i = SemanticInfo.row s.targets i) ∧
      (first.1.isOk = true → ∀ i, a.Below e i →
        SemanticInfo.row first.2.types i = SemanticInfo.row second.2.types i ∧
        (a.isCall i = true →
          SemanticInfo.row first.2.targets i = SemanticInfo.row second.2.targets i))) ∧
    ∀ table' info', a.check table info = (.ok (), table', info') →
      ∃ ty, info'.typeOf e = some ty ∧ ∀ s, s.Sized (a.context table info) →
        ∃ s', Typing.Succeeds (Typing.checkRoot e (some ty)) (a.context table info) s ty s' ∧
          ∀ i, a.Below e i → SemanticInfo.row s'.types i = info'.typeOf i ∧
            (a.isCall i = true → SemanticInfo.row s'.targets i = info'.callTarget i) := by
  obtain ⟨u, hu, hcomplete⟩ := Arena.exists_complete_ofBytes hparse
  obtain ⟨lo, htree, d, hd, f, hf, r, hr, hbelow⟩ := hcomplete.exists_tree hu he
  have harena : (a.context table info).arena = a := rfl
  have hsized : Typing.State.Sized (a.context table info) ⟨info.types, info.targets⟩ := by
    obtain ⟨htypes, htargets⟩ := Arena.bind_blank hbind
    simp [Typing.State.Sized, htypes, htargets, SemanticInfo.blank, Arena.context]
  generalize hcx : a.context table info = cx at harena hsized ⊢
  subst harena
  refine ⟨fun expected s t hs ht => ?_, fun table' info' hcheck => ?_⟩
  · have hresult := (Typing.tandem_checkRoot Typing.stays_true (.refl _ fun _ => True) rfl
      (fun _ _ => trivial) htree expected s t trivial).1
    refine ⟨hresult, fun i hpos hi => Typing.checkRoot_outside htree expected hpos hi,
      fun hok => ?_⟩
    cases hfirst : (Typing.outcome (Typing.checkRoot e expected) cx s).1 with
    | error err => simp [hfirst, Except.isOk, Except.toBool] at hok
    | ok ty => exact Typing.checkRoot_same htree he hs ht hfirst (hresult ▸ hfirst)
  · obtain ⟨s', hrun, htypes, htargets⟩ := Arena.checkUnit_of_check hcheck
    rw [hcx] at hrun
    obtain ⟨x, hvisit⟩ := Typing.checkUnit_stands hu hcomplete.layout hsized hrun d hd f hf r hr e
      hbelow he
    obtain ⟨ty, hty, hown⟩ := Typing.own_type_of_visited htree he hvisit
    refine ⟨ty, by rw [SemanticInfo.typeOf, htypes, hty], fun s hs => ?_⟩
    obtain ⟨t', hrun', hsame⟩ := hown s hs
    refine ⟨t', hrun', fun i hi => ?_⟩
    rw [SemanticInfo.typeOf, SemanticInfo.callTarget, htypes, htargets]
    exact hsame i hi

/-- The call of `g` is settled on the overload that gives an `int`, from whatever the trial against
a `bool` has left behind. -/
theorem no_residue_of_rejected_overload :
    Nested.checked.2.callTarget 14 = some (.function 7) ∧
    ∀ s, s.Sized (Nested.bound.1.context Nested.bound.2.1 Nested.bound.2.2) →
      ∃ s', Typing.Succeeds (Typing.checkRoot 14 (some .int))
        (Nested.bound.1.context Nested.bound.2.1 Nested.bound.2.2) s .int s' ∧
        SemanticInfo.row s'.targets 14 = some (.function 7) := by
  obtain ⟨hparse, hbind⟩ := of_bind? Nested.bind?_bytes
  obtain ⟨-, hkind, htype, htarget⟩ := Nested.facts
  obtain ⟨ty, hty, hown⟩ := (Arena.check_leaves_no_residue hparse hbind 14
    ⟨_, hkind, rfl⟩).2 _ _ Nested.check_bound
  obtain rfl := Option.some.inj (htype.symm.trans hty)
  refine ⟨htarget, fun s hs => ?_⟩
  obtain ⟨s', hrun, hrows⟩ := hown s hs
  have hcall : Nested.bound.1.isCall 14 = true := Arena.isCall_of_kind hkind
  exact ⟨s', hrun, ((hrows 14 (.self 14)).2 hcall).trans htarget⟩

end MiniJ
