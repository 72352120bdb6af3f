import MiniJ.Proofs.Typing.Judgement
import MiniJ.Proofs.Typing.Run

/-!
# The type checker is sound

A program that passes the checker is well typed by its annotations. The checker may visit a call
among the arguments of another call several times; each visit changes only the rows of that call
and its parts, and the last one settles them.

## Main statements

* `Typing.checkExpression_sound` — expressions.
* `Typing.checkStatement_sound` — statements.
* `Arena.check_sound` — a whole program.
-/
namespace MiniJ

namespace Typing

variable {cx : Context} {u : UnitNode} {s s' t : State} {S : Nat → Prop}

/-- The nodes above `lo` up to `id`. -/
def Interval (lo id : Nat) (i : Nat) : Prop := lo < i ∧ i ≤ id

/-- The annotations of a program while it is checked. -/
def State.info (cx : Context) (s : State) : SemanticInfo :=
  ⟨cx.scopes, cx.resolved, s.types, s.targets⟩

/-- The tables once the type of a node is noted. -/
def State.note (s : State) (id : Nat) (ty : Ty) : State :=
  { s with types := SemanticInfo.setRow s.types id ty }

/-- The tables have a row for every node. -/
def State.Sized (cx : Context) (s : State) : Prop :=
  s.types.size = cx.arena.size ∧ s.targets.size = cx.arena.size

theorem State.Sized.keeps (h : s.Sized cx) (hk : Keeps S s s') : s'.Sized cx :=
  ⟨hk.size.1.trans h.1, hk.size.2.trans h.2⟩

theorem Keeps.agree {lo id : Nat} (h : Keeps S s s') (hS : ∀ i, lo < i → i ≤ id → ¬S i) :
    SemanticInfo.Agree lo id (s.info cx) (s'.info cx) :=
  ⟨rfl, fun i hlo hid => h.types i (by omega) (hS i hlo hid),
    fun i hlo hid => h.targets i (by omega) (hS i hlo hid)⟩

/-! ### Footprints -/

section Footprint

variable {check : Checker}

theorem within_argumentTypes {args : List NodeId}
    (h : ∀ arg ∈ args, ∀ e, Within S (check arg e) cx) : Within S (argumentTypes check args) cx :=
  within_mapM fun arg harg => within_bind (within_node arg) fun _ =>
    within_ite (within_pure _) (within_bind (h arg harg none) fun _ => within_pure _)

theorem within_fits {expected : Ty} {arg : NodeId × Option Ty}
    (h : arg.2 = none → ∀ e, Within S (check arg.1 e) cx) :
    Within S (fits check expected arg) cx := by
  obtain ⟨arg, _ | ty⟩ := arg
  · exact within_bind (within_attempt (h rfl _)) fun _ => within_pure _
  · exact within_pure _

theorem within_allFit {args : List (NodeId × Option Ty)} {params : List Binder}
    (h : ∀ p ∈ args, p.2 = none → ∀ e, Within S (check p.1 e) cx) :
    Within S (allFit check args params) cx := by
  induction args generalizing params with
  | nil => exact within_pure _
  | cons arg args ih =>
    cases params with
    | nil => exact within_pure _
    | cons param params =>
      refine within_bind (within_fits (h arg (by simp))) fun fit => within_ite ?_ (within_pure _)
      exact ih fun p hp => h p (by simp [hp])

theorem within_choose {args : List (NodeId × Option Ty)} {expected : Option Ty}
    {overloads : List Signature} (h : ∀ p ∈ args, p.2 = none → ∀ e, Within S (check p.1 e) cx) :
    Within S (choose check args expected overloads) cx := by
  induction overloads with
  | nil => exact within_pure _
  | cons candidate rest ih =>
    exact within_ite ih (within_ite ih
      (within_bind (within_allFit h) fun fit => within_ite (within_pure _) ih))

theorem within_describe {args : List (NodeId × Option Ty)}
    (h : ∀ p ∈ args, p.2 = none → ∀ e, Within S (check p.1 e) cx) :
    Within S (describe check args) cx := by
  refine within_mapM fun p hp => ?_
  obtain ⟨arg, _ | ty⟩ := p
  · exact within_attempt (h _ hp rfl none)
  · exact within_pure _

theorem within_settle {args : List (NodeId × Option Ty)} {params : List Binder}
    (h : ∀ p ∈ args, ∀ e, Within S (check p.1 e) cx) :
    Within S (settle check args params) cx := by
  induction args generalizing params with
  | nil => exact within_pure _
  | cons arg args ih =>
    cases params with
    | nil => exact within_pure _
    | cons param params =>
      have hrest : Within S (settle check args params) cx := ih fun p hp => h p (by simp [hp])
      have hplace {c : Prop} [Decidable c] (cause : SemanticError.Cause) (span : Span) :
          Within S (if c then (do fail cause span; settle check args params)
            else settle check args params) cx :=
        within_ite (within_bind (within_fail _ _) fun _ => hrest) hrest
      exact within_bind (within_node _) fun n =>
        within_ite (within_bind (h arg (by simp) _) fun _ => hplace _ _) (hplace _ _)

/-- The arguments come back in order, with a type unless they are calls. -/
theorem argumentTypes_cases {args : List NodeId} {typed : List (NodeId × Option Ty)}
    (h : Succeeds (argumentTypes check args) cx s typed s') :
    List.Forall₂ (fun arg q => q.1 = arg ∧ ∃ k, cx.arena.kind arg = .ok k ∧
      (q.2 = none → k.isCall = true)) args typed := by
  refine (succeeds_mapM h).imp fun arg q hq => ?_
  obtain ⟨t, t', hq⟩ := hq
  simp only [succeeds_bind, succeeds_node] at hq
  obtain ⟨n, _, ⟨hn, rfl⟩, hq⟩ := hq
  have hk : cx.arena.kind arg = .ok n.kind := Arena.kind_eq_ok_iff.2 ⟨n.span, hn⟩
  split at hq
  · next hcall =>
    obtain ⟨rfl, -⟩ := succeeds_pure.1 hq
    exact ⟨rfl, _, hk, fun _ => hcall⟩
  · simp only [succeeds_bind, succeeds_pure] at hq
    obtain ⟨ty, _, -, rfl, -⟩ := hq
    exact ⟨rfl, _, hk, by simp⟩

theorem within_checkCall {id : Nat} {span : Span} {name : String} {args : List NodeId}
    {expected : Option Ty} (hid : S id) (hpos : 0 < id)
    (h : ∀ arg ∈ args, ∀ e, Within S (check arg e) cx) :
    Within S (checkCall check id span name args expected) cx := by
  refine within_bind within_read fun _ => within_bind (within_lift _) fun overloads => ?_
  refine within_bind_of (within_argumentTypes h) fun s typed s' htyped => ?_
  have hargs : ∀ p ∈ typed, ∀ e, Within S (check p.1 e) cx := by
    intro p hp
    obtain ⟨arg, harg, rfl, -⟩ := Outcome.exists_of_forall₂_right (argumentTypes_cases htyped) hp
    exact h _ harg
  refine within_bind (within_choose fun p hp _ => hargs p hp) fun chosen => ?_
  cases chosen with
  | none => exact within_bind (within_describe fun p hp _ => hargs p hp) fun _ => within_fail _ _
  | some sig =>
    exact within_bind (within_settle hargs) fun _ =>
      within_bind (within_setTarget hid hpos _) fun _ => within_pure _

theorem within_variableType (id : NodeId) (name : String) (span : Span) :
    Within S (variableType id name span) cx := by
  refine within_bind within_read fun cx' => ?_
  split
  · exact within_fail _ _
  · refine within_bind (within_lift _) fun x => ?_
    split
    · exact within_pure _
    · exact within_fail _ _

theorem within_fieldType (record name : String) (span : Span) :
    Within S (fieldType record name span) cx := by
  refine within_bind within_read fun cx' => within_bind (within_lift _) fun found => ?_
  split
  · exact within_fail _ _
  · split
    · exact within_pure _
    · exact within_fail _ _

theorem within_checkKind {id : Nat} {expected : Option Ty} {n : Node} (hid : S id) (hpos : 0 < id)
    (h : ∀ c ∈ n.kind.children, ∀ e, Within S (check c e) cx) :
    Within S (checkKind check id expected n) cx := by
  obtain ⟨k, span⟩ := n
  cases k with
  | var name => exact within_variableType _ _ _
  | field base name =>
    refine within_bind (h base (.head _) _) fun found => ?_
    split
    · exact within_fieldType _ _ _
    · exact within_fail _ _
  | element base index =>
    refine within_bind (h base (.head _) _) fun found => ?_
    split
    · refine within_bind (h index (.tail _ (.head _)) _) fun found => within_ite ?_ (within_pure _)
      exact within_bind (within_node _) fun _ => within_bind (within_fail _ _) fun _ =>
        within_pure _
    · exact within_fail _ _
  | unary op operand =>
    refine within_bind (h operand (.head _) _) fun found => ?_
    split
    · exact within_fail _ _
    · exact within_bind (within_node _) fun _ =>
        within_ite (within_bind (within_fail _ _) fun _ => within_pure _) (within_pure _)
  | binary op left right =>
    refine within_bind (h left (.head _) _) fun l =>
      within_bind (h right (.tail _ (.head _)) _) fun r => ?_
    split
    · exact within_fail _ _
    · exact within_pure _
  | call name args => exact within_checkCall hid hpos h
  | _ => exact within_pure _

end Footprint

theorem within_checkExpression {depth lo id : Nat} (htree : cx.arena.Tree lo id)
    (expected : Option Ty) : Within (Interval lo id) (checkExpression depth id expected) cx := by
  induction depth generalizing lo id expected with
  | zero => exact within_throw _
  | succ depth ih =>
    have hid : Interval lo id id := ⟨htree.lt, Nat.le_refl _⟩
    have hpos : 0 < id := Nat.zero_lt_of_lt htree.lt
    refine within_bind_of (within_node id) fun s n s' hn => ?_
    obtain ⟨hn, -⟩ := succeeds_node.1 hn
    refine within_bind (within_checkKind hid hpos fun c hc e => ?_) fun ty =>
      within_bind (within_setType hid hpos ty) fun _ => within_pure _
    obtain ⟨start, hstart, hlo, hlt⟩ := htree.child (Arena.kind_eq_ok_iff.2 ⟨n.span, hn⟩) hc
    exact (ih hstart e).mono fun i hi => ⟨Nat.lt_of_le_of_lt hlo hi.1, by have := hi.2; omega⟩

/-! ### Calls -/

/-- A checker that types expressions and stays in their subtrees. -/
structure Checker.Sound (cx : Context) (u : UnitNode) (check : Checker) : Prop where
  within : ∀ lo id expected, cx.arena.Tree lo id → Within (Interval lo id) (check id expected) cx
  typed : ∀ lo id expected s ty s', cx.arena.Tree lo id → cx.arena.HasRole .expression id →
    s.Sized cx → Succeeds (check id expected) cx s ty s' →
    cx.arena.Typed u cx.table (s'.info cx) id ty
  expected : ∀ id name args expected s ty s', cx.arena.kind id = .ok (.call name args) →
    Succeeds (check id (some expected)) cx s ty s' → ty = expected

variable {check : Checker}

theorem allFit_cases {args : List (NodeId × Option Ty)} {params : List Binder}
    (h : Succeeds (allFit check args params) cx s true s') :
    ∀ q ∈ args.zip params, ∀ ty, q.1.2 = some ty → ty = q.2.ty := by
  induction args generalizing params s with
  | nil => simp
  | cons arg args ih =>
    cases params with
    | nil => simp
    | cons param params =>
      obtain ⟨fit, t, hfit, h⟩ := succeeds_bind.1 h
      split at h
      · next hf =>
        intro q hq ty hty
        rcases List.mem_cons.1 hq with rfl | hq
        · obtain ⟨arg, ty'⟩ := arg
          cases hty
          obtain ⟨rfl, -⟩ := succeeds_pure.1 hfit
          exact of_decide_eq_true hf
        · exact ih h q hq ty hty
      · obtain ⟨h, -⟩ := succeeds_pure.1 h
        cases h

/-- The overload a call takes fits its arity, its context and the arguments that are no calls. -/
theorem choose_cases {args : List (NodeId × Option Ty)} {expected : Option Ty}
    {overloads : List Signature} {sig : Signature}
    (h : Succeeds (choose check args expected overloads) cx s (some sig) s') :
    sig ∈ overloads ∧ args.length = sig.params.length ∧
      (∀ ty, expected = some ty → ty = sig.returnType) ∧
      ∀ q ∈ args.zip sig.params, ∀ ty, q.1.2 = some ty → ty = q.2.ty := by
  induction overloads generalizing s with
  | nil => cases (succeeds_pure.1 h).1
  | cons candidate rest ih =>
    have hrest : ∀ {t}, Succeeds (choose check args expected rest) cx t (some sig) s' →
        sig ∈ candidate :: rest ∧ args.length = sig.params.length ∧
          (∀ ty, expected = some ty → ty = sig.returnType) ∧
          ∀ q ∈ args.zip sig.params, ∀ ty, q.1.2 = some ty → ty = q.2.ty := by
      intro t h
      obtain ⟨hmem, hothers⟩ := ih h
      exact ⟨List.mem_cons_of_mem _ hmem, hothers⟩
    unfold choose at h
    split at h
    · exact hrest h
    · next harity =>
      split at h
      · exact hrest h
      · next hexpected =>
        obtain ⟨fit, t, hfit, h⟩ := succeeds_bind.1 h
        split at h
        · next hf =>
          obtain ⟨hsig, -⟩ := succeeds_pure.1 h
          cases hsig
          subst hf
          refine ⟨List.mem_cons_self, by simpa using Eq.symm (not_not.1 harity), fun ty hty => ?_,
            allFit_cases hfit⟩
          simpa [hty] using hexpected
        · exact hrest h

/-- What is known about an argument before the overload is settled: calls have no type yet. -/
def Argument (cx : Context) (u : UnitNode) (s : State) (p : Nat × Nat) (q : NodeId × Option Ty) :
    Prop :=
  q.1 = p.1 ∧ ∃ k, cx.arena.kind p.1 = .ok k ∧
    match q.2 with
    | none => k.isCall = true
    | some ty => k.isCall = false ∧ cx.arena.Typed u cx.table (s.info cx) p.1 ty

theorem Argument.keeps {p : Nat × Nat} {q : NodeId × Option Ty} (h : Argument cx u s p q)
    (htree : cx.arena.Tree p.2 p.1) (hkeeps : Keeps S s s')
    (hS : q.2 ≠ none → ∀ i, p.2 < i → i ≤ p.1 → ¬S i) : Argument cx u s' p q := by
  obtain ⟨hq, k, hk, h⟩ := h
  refine ⟨hq, k, hk, ?_⟩
  obtain ⟨arg, _ | ty⟩ := q
  · exact h
  · exact ⟨h.1, h.2.stable htree (hkeeps.agree (hS (by simp)))⟩

/-- Subtrees behind each other, all of them expressions. -/
structure Arguments (cx : Context) (lo : Nat) (parts : List (Nat × Nat)) (id : Nat) : Prop where
  tiles : Arena.Tiles lo parts id
  trees : ∀ p ∈ parts, cx.arena.Tree p.2 p.1
  roles : ∀ p ∈ parts, cx.arena.HasRole .expression p.1

/-- The arguments of a call as subtrees behind each other. -/
theorem exists_arguments {lo id : Nat} {name : String} {args : List NodeId}
    (htree : cx.arena.Tree lo id) (hk : cx.arena.kind id = .ok (.call name args)) :
    ∃ parts, parts.map Prod.fst = args ∧ Arguments cx lo parts id := by
  have hroles := htree.roles hk
  obtain ⟨parts, hk', -, hchildren, htiles, -, htrees⟩ := htree
  obtain rfl := Except.ok.inj (hk.symm.trans hk')
  obtain rfl : parts.map Prod.fst = args := hchildren
  refine ⟨parts, rfl, htiles, htrees, fun p hp => ?_⟩
  simp only [NodeKind.partRoles, NodeKind.children, List.forall₂_map_left_iff,
    List.forall₂_map_right_iff, List.forall₂_same] at hroles
  exact hroles p hp

theorem Arguments.tail {lo id : Nat} {p : Nat × Nat} {rest : List (Nat × Nat)}
    (h : Arguments cx lo (p :: rest) id) : Arguments cx p.1 rest id :=
  ⟨h.tiles.2, fun q hq => h.trees q (by simp [hq]), fun q hq => h.roles q (by simp [hq])⟩

theorem Arguments.head {lo id : Nat} {p : Nat × Nat} {rest : List (Nat × Nat)}
    (h : Arguments cx lo (p :: rest) id) : p.2 = lo ∧ cx.arena.Tree p.2 p.1 ∧
      cx.arena.HasRole .expression p.1 ∧ lo < p.1 := by
  obtain ⟨c, start⟩ := p
  have htree := h.trees (c, start) (by simp)
  exact ⟨h.tiles.1, htree, h.roles _ (by simp), h.tiles.1 ▸ htree.lt⟩

theorem Arguments.le_start {lo id : Nat} {parts : List (Nat × Nat)} (h : Arguments cx lo parts id)
    {p : Nat × Nat} (hp : p ∈ parts) : lo ≤ p.2 :=
  ((h.tiles.bounds fun q hq => (h.trees q hq).lt).2 p hp).1

theorem argumentTypes_sound {lo id : Nat} {parts : List (Nat × Nat)}
    {typed : List (NodeId × Option Ty)} (hcheck : check.Sound cx u)
    (hargs : Arguments cx lo parts id) (hsized : s.Sized cx)
    (h : Succeeds (argumentTypes check (parts.map Prod.fst)) cx s typed s') :
    List.Forall₂ (Argument cx u s') parts typed ∧ Keeps (lo < ·) s s' := by
  induction parts generalizing lo s s' typed with
  | nil =>
    obtain ⟨rfl, rfl⟩ := succeeds_pure.1 h
    exact ⟨.nil, .refl _ _⟩
  | cons p rest ih =>
    obtain ⟨hlo, htree, hrole, hlt⟩ := hargs.head
    unfold argumentTypes at h
    rw [List.map_cons, List.mapM_cons] at h
    simp only [succeeds_bind, succeeds_node, succeeds_pure] at h
    obtain ⟨q, t, ⟨n, s, ⟨hn, rfl⟩, hq⟩, others, t', hrest, rfl, rfl⟩ := h
    have hk : cx.arena.kind p.1 = .ok n.kind := Arena.kind_eq_ok_iff.2 ⟨n.span, hn⟩
    have hfirst : Argument cx u t p q ∧ Keeps (lo < ·) s t := by
      split at hq
      · next hcall =>
        obtain ⟨rfl, rfl⟩ := succeeds_pure.1 hq
        exact ⟨⟨rfl, _, hk, hcall⟩, .refl _ _⟩
      · next hcall =>
        simp only [succeeds_bind, succeeds_pure] at hq
        obtain ⟨ty, _, hty, rfl, rfl⟩ := hq
        refine ⟨⟨rfl, _, hk, by simpa using hcall, ?_⟩, ?_⟩
        · exact hcheck.typed _ _ _ _ _ _ htree hrole hsized hty
        · exact ((hcheck.within _ _ _ htree).keeps hty).mono fun i hi => hlo ▸ hi.1
    obtain ⟨hothers, hkeeps⟩ := ih hargs.tail (hsized.keeps hfirst.2) hrest
    refine ⟨.cons (hfirst.1.keeps htree hkeeps fun _ i _ hi => by omega) hothers, ?_⟩
    exact hfirst.2.trans (hkeeps.mono fun i hi => by omega)

/-- After settling, every argument has the type of its parameter, and references have places. -/
theorem settle_sound {lo id : Nat} {parts : List (Nat × Nat)}
    {typed : List (NodeId × Option Ty)} {params : List Binder} (hcheck : check.Sound cx u)
    (hargs : Arguments cx lo parts id) (hsized : s.Sized cx)
    (htyped : List.Forall₂ (Argument cx u s) parts typed) (harity : typed.length = params.length)
    (hfit : ∀ q ∈ typed.zip params, ∀ ty, q.1.2 = some ty → ty = q.2.ty)
    (h : Succeeds (settle check typed params) cx s () s') :
    (∀ q ∈ (parts.map Prod.fst).zip params, cx.arena.Typed u cx.table (s'.info cx) q.1 q.2.ty ∧
      (q.2.isReference = true → cx.arena.IsPlace q.1)) ∧ Keeps (lo < ·) s s' := by
  induction parts generalizing lo s typed params with
  | nil =>
    cases htyped
    obtain ⟨-, rfl⟩ := succeeds_pure.1 h
    exact ⟨by simp, .refl _ _⟩
  | cons p rest ih =>
    obtain ⟨q, typed, hq, htail, rfl⟩ := List.forall₂_cons_left_iff.1 htyped
    obtain ⟨param, params, rfl⟩ := List.exists_cons_of_length_eq_add_one harity.symm
    obtain ⟨hlo, htree, hrole, hlt⟩ := hargs.head
    obtain ⟨arg, o⟩ := q
    obtain ⟨rfl, k, hk, harg⟩ := hq
    simp only [settle, succeeds_bind, succeeds_node] at h
    obtain ⟨n, s, ⟨hn, rfl⟩, h⟩ := h
    obtain rfl : k = n.kind := Except.ok.inj (hk.symm.trans (Arena.kind_eq_ok_iff.2 ⟨n.span, hn⟩))
    -- the argument is settled first, then the place is required
    have hfirst : ∃ t, cx.arena.Typed u cx.table (t.info cx) p.1 param.ty ∧
        Keeps (Interval p.2 p.1) s t ∧
        Succeeds (do
          if param.isReference && !n.kind.isPlace then
            fail (.referenceToNonPlace param.name) n.span
          settle check typed params) cx t () s' := by
      split at h
      · next hcall =>
        obtain ⟨ty, t, hty, h⟩ := succeeds_bind.1 h
        obtain ⟨name, args, hkind⟩ := NodeKind.exists_of_isCall hcall
        obtain rfl := hcheck.expected _ _ _ _ _ _ _ (hkind ▸ hk) hty
        exact ⟨t, hcheck.typed _ _ _ _ _ _ htree hrole hsized hty,
          (hcheck.within _ _ _ htree).keeps hty, h⟩
      · next hcall =>
        refine ⟨s, ?_, .refl _ _, h⟩
        obtain _ | ty := o
        · exact absurd harg hcall
        · exact hfit ((p.1, some ty), param) (by simp) ty rfl ▸ harg.2
    obtain ⟨t, hty, hkeeps, h⟩ := hfirst
    rw [succeeds_guard (fun _ _ _ => succeeds_fail.1)] at h
    obtain ⟨hplace, h⟩ := h
    have hrest : List.Forall₂ (Argument cx u t) rest typed := by
      refine ((List.forall₂_and_left _ _).2 ⟨fun r hr => hr, htail⟩).imp fun r q hq => ?_
      refine hq.2.keeps (hargs.trees r (by simp [hq.1])) hkeeps fun _ i hi _ hin => ?_
      have hstart := hargs.tail.le_start hq.1
      exact absurd hin.2 (by omega)
    obtain ⟨hothers, hkeeps'⟩ := ih hargs.tail (hsized.keeps hkeeps) hrest (by simpa using harity)
      (fun q hq => hfit q (by simp [hq])) h
    refine ⟨fun q hq => ?_, (hkeeps.mono fun i hi => hlo ▸ hi.1).trans
      (hkeeps'.mono fun i hi => by omega)⟩
    rcases List.mem_cons.1 hq with rfl | hq
    · refine ⟨hty.stable htree (hkeeps'.agree fun i _ hi => by simpa using hi), fun href => ?_⟩
      simp only [Bool.and_eq_true, Bool.not_eq_true', not_and, Bool.not_eq_false] at hplace
      exact ⟨n.kind, hk, hplace href⟩
    · exact hothers q hq

/-- Trying overloads revisits only the arguments that are calls. -/
theorem choose_keeps {lo id : Nat} {parts : List (Nat × Nat)} {typed : List (NodeId × Option Ty)}
    {expected : Option Ty} {overloads : List Signature} {chosen : Option Signature}
    (hcheck : check.Sound cx u) (hargs : Arguments cx lo parts id)
    (htyped : List.Forall₂ (Argument cx u s) parts typed)
    (h : Succeeds (choose check typed expected overloads) cx s chosen s') :
    List.Forall₂ (Argument cx u s') parts typed ∧ Keeps (Interval lo id) s s' := by
  let S : Nat → Prop := fun i => ∃ p ∈ parts,
    (∃ k, cx.arena.kind p.1 = .ok k ∧ k.isCall = true) ∧ Interval p.2 p.1 i
  have hkeeps : Keeps S s s' := by
    refine (within_choose fun q hq hnone e => ?_).keeps h
    obtain ⟨p, hp, hqp, k, hk, harg⟩ := Outcome.exists_of_forall₂_right htyped hq
    rw [hnone] at harg
    rw [hqp]
    exact (hcheck.within _ _ _ (hargs.trees p hp)).mono fun i hi => ⟨p, hp, ⟨k, hk, harg⟩, hi⟩
  refine ⟨?_, hkeeps.mono ?_⟩
  · refine ((List.forall₂_and_left _ _).2 ⟨fun p hp => hp, htyped⟩).imp fun p q hpq => ?_
    obtain ⟨hp, harg⟩ := hpq
    refine harg.keeps (hargs.trees p hp) hkeeps fun hsome i hlo hid hS => ?_
    obtain ⟨p', hp', ⟨k', hk', hcall⟩, hi⟩ := hS
    obtain rfl := hargs.tiles.eq_of_overlap (fun r hr => (hargs.trees r hr).lt) hp hp' ⟨hlo, hid⟩ hi
    obtain ⟨-, k, hk, harg⟩ := harg
    obtain ⟨ty, hty⟩ := Option.ne_none_iff_exists'.1 hsome
    rw [hty] at harg
    obtain rfl := Except.ok.inj (hk.symm.trans hk')
    simp [hcall] at harg
  · rintro i ⟨p, hp, -, hi⟩
    have hbounds := (hargs.tiles.bounds fun r hr => (hargs.trees r hr).lt).2 p hp
    exact ⟨by have := hi.1; omega, by have := hi.2; omega⟩

/-- An overload that is found describes a function of that name. -/
theorem describes_of_lookupFunction {name : String} {scope : Nat} {found : Option (List Signature)}
    {sig : Signature} (htable : Binding.TableSound cx.arena u cx.table)
    (h : cx.table.lookupFunction name scope = .ok found) (hsig : sig ∈ found.getD []) :
    sig.Describes cx.arena u name := by
  cases found with
  | none => simp at hsig
  | some overloads =>
    obtain ⟨d, sc, e, x, hsc, hmem, hx, hm⟩ := SymbolTable.overloads_of_lookupFunction h
    obtain ⟨y, hy, rfl⟩ := htable.names d sc hsc name e hmem
    obtain rfl := Except.ok.inj (hx.symm.trans hy)
    have hdesc := htable.meanings e x hx
    rw [hm] at hdesc
    exact hdesc sig hsig

theorem checkCall_sound {lo id : Nat} {span : Span} {name : String} {args : List NodeId}
    {expected : Option Ty} {ty : Ty} (htable : Binding.TableSound cx.arena u cx.table)
    (hcheck : check.Sound cx u) (hk : cx.arena.kind id = .ok (.call name args))
    (htree : cx.arena.Tree lo id) (hsized : s.Sized cx)
    (h : Succeeds (checkCall check id span name args expected) cx s ty s') :
    (∀ t, expected = some t → ty = t) ∧
      cx.arena.Typed u cx.table ((s'.note id ty).info cx) id ty := by
  obtain ⟨parts, rfl, hargs⟩ := exists_arguments htree hk
  have hpos := (Arena.bounds_of_kind hk)
  simp only [checkCall, succeeds_bind, succeeds_read, succeeds_lift] at h
  obtain ⟨_, s₀, ⟨rfl, rfl⟩, found, s, ⟨hfound, rfl⟩, typed, t₁, htyped, chosen, t₂, hchosen, h⟩ :=
    h
  split at h
  · simp [succeeds_bind, succeeds_fail] at h
  · next sig =>
    simp only [setTarget, succeeds_bind, succeeds_modify, succeeds_pure] at h
    obtain ⟨_, t₃, hsettle, _, _, rfl, rfl, rfl⟩ := h
    obtain ⟨harguments, hkeeps⟩ := argumentTypes_sound hcheck hargs hsized htyped
    obtain ⟨hmem, harity, hexpected, hfit⟩ := choose_cases hchosen
    obtain ⟨harguments', hkeeps'⟩ := choose_keeps hcheck hargs harguments hchosen
    have hsized' := (hsized.keeps hkeeps).keeps hkeeps'
    obtain ⟨hsettled, hkeeps''⟩ := settle_sound hcheck hargs hsized' harguments' harity hfit hsettle
    have hsized'' := hsized'.keeps hkeeps''
    refine ⟨fun t ht => (hexpected t ht).symm, ?_⟩
    have hlength : (parts.map Prod.fst).length = typed.length := by
      rw [List.length_map, harguments.length_eq]
    refine .call hk (describes_of_lookupFunction htable hfound hmem) (hlength.trans harity)
      (SemanticInfo.row_setRow_self hpos.1 (by rw [hsized''.2]; exact hpos.2) _) (fun q hq => ?_)
      (fun q hq => (hsettled q hq).2)
      (SemanticInfo.row_setRow_self hpos.1 (by rw [hsized''.1]; exact hpos.2) _)
    obtain ⟨p, hp, hpq⟩ := List.mem_map.1 (List.of_mem_zip hq).1
    have hlt : p.1 < id := (hargs.tiles.bounds fun r hr => (hargs.trees r hr).lt).2 p hp |>.2
    refine (hsettled q hq).1.stable (hpq ▸ hargs.trees p hp)
      ⟨rfl, fun i hlo hi => ?_, fun i hlo hi => ?_⟩ <;>
    · have hle : i ≤ p.1 := hpq ▸ hi
      have hne : i ≠ id := Nat.ne_of_lt (Nat.lt_of_le_of_lt hle hlt)
      exact SemanticInfo.row_setRow_of_ne hpos.1 (by omega) hne _

/-! ### Expressions -/

theorem typed_note {lo id c : Nat} {ty inner : Ty} (htree : cx.arena.Tree lo c) (hc : c < id)
    (h : cx.arena.Typed u cx.table (s.info cx) c inner) :
    cx.arena.Typed u cx.table ((s.note id ty).info cx) c inner := by
  refine h.stable htree ⟨rfl, fun i hlo hi => ?_, fun _ _ _ => rfl⟩
  exact SemanticInfo.row_setRow_of_ne (by omega) (by omega) (by omega) ty

theorem hasRole_head {lo id c : Nat} {k : NodeKind} {role : Role} {roles : List Role}
    {rest : List NodeId} (htree : cx.arena.Tree lo id) (hk : cx.arena.kind id = .ok k)
    (hroles : k.partRoles = role :: roles) (hchildren : k.children = c :: rest) :
    cx.arena.HasRole role c ∧ List.Forall₂ cx.arena.HasRole roles rest := by
  have h := htree.roles hk
  rw [hroles, hchildren] at h
  exact List.forall₂_cons.1 h

/-- One level of an expression. -/
theorem checkKind_sound {lo id : Nat} {expected : Option Ty} {n : Node} {ty : Ty}
    (htable : Binding.TableSound cx.arena u cx.table) (hcheck : check.Sound cx u)
    (hn : cx.arena.node id = .ok n) (htree : cx.arena.Tree lo id)
    (hrole : n.kind.role = .expression) (hsized : s.Sized cx)
    (h : Succeeds (checkKind check id expected n) cx s ty s') :
    cx.arena.Typed u cx.table ((s'.note id ty).info cx) id ty := by
  have hk : cx.arena.kind id = .ok n.kind := Arena.kind_eq_ok_iff.2 ⟨n.span, hn⟩
  obtain ⟨k, span⟩ := n
  have hbounds := Arena.bounds_of_kind hk
  have hsized' : s'.Sized cx := by
    refine hsized.keeps ((within_checkKind (S := Interval lo id) ⟨htree.lt, Nat.le_refl _⟩ hbounds.1
      fun c hc e => ?_).keeps h)
    obtain ⟨start, hstart, hlo, hlt⟩ := htree.child hk hc
    exact (hcheck.within _ _ _ hstart).mono fun i hi =>
      ⟨Nat.lt_of_le_of_lt hlo hi.1, by have := hi.2; omega⟩
  have hnoted : SemanticInfo.row (s'.note id ty).types id = some ty :=
    SemanticInfo.row_setRow_self hbounds.1 (by rw [hsized'.1]; exact hbounds.2) ty
  cases k with
  | int v =>
    obtain ⟨rfl, -⟩ := succeeds_pure.1 h
    exact .int hk hnoted
  | text v =>
    obtain ⟨rfl, -⟩ := succeeds_pure.1 h
    exact .text hk hnoted
  | bool v =>
    obtain ⟨rfl, -⟩ := succeeds_pure.1 h
    exact .bool hk hnoted
  | var name =>
    simp only [checkKind, variableType, succeeds_bind, succeeds_read] at h
    obtain ⟨_, _, ⟨rfl, rfl⟩, h⟩ := h
    split at h
    · exact (succeeds_fail.1 h).elim
    · next e he =>
      simp only [succeeds_bind, succeeds_lift] at h
      obtain ⟨x, _, ⟨hx, rfl⟩, h⟩ := h
      split at h
      · next ty' ref cls d hm =>
        obtain ⟨rfl, rfl⟩ := succeeds_pure.1 h
        exact .var hk he hx hm hnoted
      · exact (succeeds_fail.1 h).elim
  | field base name =>
    obtain ⟨hbase, hlt⟩ := htree.only_child hk rfl
    obtain ⟨hr, -⟩ := hasRole_head htree hk rfl rfl
    obtain ⟨found, t, hfound, h⟩ := succeeds_bind.1 h
    have htyped := hcheck.typed _ _ _ _ _ _ hbase hr hsized hfound
    split at h
    · next record =>
      simp only [fieldType, succeeds_bind, succeeds_read, succeeds_lift] at h
      obtain ⟨_, _, ⟨rfl, rfl⟩, fields, _, ⟨hfields, rfl⟩, h⟩ := h
      split at h
      · exact (succeeds_fail.1 h).elim
      · split at h
        · next f hf =>
          obtain ⟨rfl, rfl⟩ := succeeds_pure.1 h
          exact .field hk (typed_note hbase hlt htyped) hfields hf hnoted
        · exact (succeeds_fail.1 h).elim
    · exact (succeeds_fail.1 h).elim
  | element base index =>
    obtain ⟨hbase, hindex, hlt⟩ := htree.two_children hk rfl
    obtain ⟨hr, hr'⟩ := hasRole_head htree hk rfl rfl
    obtain ⟨found, t, hfound, h⟩ := succeeds_bind.1 h
    have htyped := hcheck.typed _ _ _ _ _ _ hbase hr hsized hfound
    have hsized₁ := hsized.keeps ((hcheck.within _ _ _ hbase).keeps hfound)
    split at h
    · next element =>
      obtain ⟨found', t', hfound', h⟩ := succeeds_bind.1 h
      have htyped' := hcheck.typed _ _ _ _ _ _ hindex (List.forall₂_cons.1 hr').1 hsized₁ hfound'
      have hkeeps := (hcheck.within _ _ _ hindex).keeps hfound'
      split at h
      · simp only [succeeds_bind, succeeds_fail, false_and, and_false, exists_false] at h
      · next hint =>
        obtain ⟨rfl, rfl⟩ := succeeds_pure.1 h
        obtain rfl := not_not.1 hint
        refine .element hk (typed_note hbase (Nat.lt_trans hindex.lt hlt) ?_)
          (typed_note hindex hlt htyped') hnoted
        exact htyped.stable hbase (hkeeps.agree fun i _ hi hin => by have := hin.1; omega)
    · exact (succeeds_fail.1 h).elim
  | unary op operand =>
    obtain ⟨hop, hlt⟩ := htree.only_child hk rfl
    obtain ⟨hr, -⟩ := hasRole_head htree hk rfl rfl
    obtain ⟨found, t, hfound, h⟩ := succeeds_bind.1 h
    have htyped := hcheck.typed _ _ _ _ _ _ hop hr hsized hfound
    split at h
    · exact (succeeds_fail.1 h).elim
    · next ty' hty' =>
      simp only [succeeds_bind, succeeds_node] at h
      obtain ⟨n, _, ⟨hn', rfl⟩, h⟩ := h
      rw [succeeds_guard fun _ _ _ => succeeds_fail.1] at h
      obtain ⟨hplace, h⟩ := h
      obtain ⟨rfl, rfl⟩ := succeeds_pure.1 h
      simp only [Bool.and_eq_true, Bool.not_eq_true', not_and, Bool.not_eq_false] at hplace
      exact .unary hk (typed_note hop hlt htyped) hty'
        (fun hstep => ⟨_, Arena.kind_eq_ok_iff.2 ⟨n.span, hn'⟩, hplace hstep⟩) hnoted
  | binary op left right =>
    obtain ⟨hleft, hright, hlt⟩ := htree.two_children hk rfl
    obtain ⟨hr, hr'⟩ := hasRole_head htree hk rfl rfl
    obtain ⟨l, t, hl, h⟩ := succeeds_bind.1 h
    have htyped := hcheck.typed _ _ _ _ _ _ hleft hr hsized hl
    have hsized₁ := hsized.keeps ((hcheck.within _ _ _ hleft).keeps hl)
    obtain ⟨r, t', hr, h⟩ := succeeds_bind.1 h
    have htyped' := hcheck.typed _ _ _ _ _ _ hright (List.forall₂_cons.1 hr').1 hsized₁ hr
    have hkeeps := (hcheck.within _ _ _ hright).keeps hr
    split at h
    · exact (succeeds_fail.1 h).elim
    · next ty' hty' =>
      obtain ⟨rfl, rfl⟩ := succeeds_pure.1 h
      refine .binary hk (typed_note hleft (Nat.lt_trans hright.lt hlt) ?_)
        (typed_note hright hlt htyped') hty' hnoted
      exact htyped.stable hleft (hkeeps.agree fun i _ hi hin => by have := hin.1; omega)
  | call name args => exact (checkCall_sound htable hcheck hk htree hsized h).2
  | _ => cases hrole

/-- The checker of expressions is sound at every depth. -/
theorem checkExpression_sound (htable : Binding.TableSound cx.arena u cx.table) (depth : Nat) :
    (checkExpression depth).Sound cx u := by
  induction depth with
  | zero =>
    refine ⟨fun _ _ _ _ => within_throw _, fun _ _ _ _ _ _ _ _ _ h => ?_,
      fun _ _ _ _ _ _ _ _ h => ?_⟩ <;>
    exact (succeeds_throw.1 h).elim
  | succ depth ih =>
    refine ⟨fun lo id e htree => within_checkExpression htree e, ?_, ?_⟩
    · intro lo id expected s ty s' htree hrole hsized h
      simp only [checkExpression, setType, succeeds_bind, succeeds_node, succeeds_modify,
        succeeds_pure] at h
      obtain ⟨n, _, ⟨hn, rfl⟩, _, t, hkind, _, _, rfl, rfl, rfl⟩ := h
      obtain ⟨k, hk, hrole⟩ := hrole
      obtain rfl := Except.ok.inj (hk.symm.trans (Arena.kind_eq_ok_iff.2 ⟨n.span, hn⟩))
      exact checkKind_sound htable ih hn htree hrole hsized hkind
    · intro id name args expected s ty s' hk h
      simp only [checkExpression, setType, succeeds_bind, succeeds_node, succeeds_modify,
        succeeds_pure] at h
      obtain ⟨n, _, ⟨hn, rfl⟩, _, t, hkind, _, _, rfl, rfl, rfl⟩ := h
      obtain ⟨span, hnode⟩ := Arena.kind_eq_ok_iff.1 hk
      obtain rfl := Except.ok.inj (hnode.symm.trans hn)
      simp only [checkKind, checkCall, setTarget, succeeds_bind, succeeds_read,
        succeeds_lift] at hkind
      obtain ⟨_, _, _, _, _, _, _, _, _, chosen, _, hchosen, hlast⟩ := hkind
      split at hlast
      · simp [succeeds_bind, succeeds_fail] at hlast
      · simp only [succeeds_bind, succeeds_pure] at hlast
        obtain ⟨_, _, _, _, _, _, rfl, _⟩ := hlast
        exact ((choose_cases hchosen).2.2.1 expected rfl).symm

/-! ### Statements -/

theorem checkRoot_eq (id : NodeId) (expected : Option Ty) {ty : Ty} :
    Succeeds (checkRoot id expected) cx s ty s' ↔
      Succeeds (checkExpression cx.arena.depthLimit id expected) cx s ty s' := by
  simp only [checkRoot, succeeds_bind, succeeds_read]
  constructor
  · rintro ⟨_, _, ⟨rfl, rfl⟩, h⟩
    exact h
  · intro h
    exact ⟨cx, s, ⟨rfl, rfl⟩, h⟩

/-- Checking an expression from its root. -/
theorem checkRoot_sound {lo id : Nat} {expected : Option Ty} {ty : Ty}
    (htable : Binding.TableSound cx.arena u cx.table) (htree : cx.arena.Tree lo id)
    (hrole : cx.arena.HasRole .expression id) (hsized : s.Sized cx)
    (h : Succeeds (checkRoot id expected) cx s ty s') :
    cx.arena.Typed u cx.table (s'.info cx) id ty ∧ Keeps (Interval lo id) s s' := by
  rw [checkRoot_eq] at h
  have hsound := checkExpression_sound htable cx.arena.depthLimit
  exact ⟨hsound.typed _ _ _ _ _ _ htree hrole hsized h, (hsound.within _ _ _ htree).keeps h⟩

theorem checkType_cases {ty : Ty} {span : Span} (h : Succeeds (checkType ty span) cx s () s') :
    cx.table.Knows ty ∧ s' = s := by
  unfold checkType at h
  split at h
  · next name hname =>
    simp only [succeeds_bind, succeeds_read, succeeds_lift] at h
    obtain ⟨_, _, ⟨rfl, rfl⟩, found, t, ⟨hfound, rfl⟩, h⟩ := h
    split at h
    · exact (succeeds_fail.1 h).elim
    · next hsome =>
      refine ⟨fun name' hname' => ?_, (succeeds_pure.1 h).2⟩
      obtain rfl : name' = name := by
        rw [hname] at hname'
        exact (Ty.record.inj hname').symm
      cases found with
      | none => simp at hsome
      | some fields => exact ⟨fields, hfound⟩
  · next hname =>
    exact ⟨fun name hname' => absurd hname' (hname name), (succeeds_pure.1 h).2⟩

theorem checkDeclaration_cases {id : Nat} {b : Binder}
    (hk : cx.arena.kind id = .ok (.declaration b))
    (h : Succeeds (checkDeclaration id) cx s () s') : cx.table.Knows b.ty ∧ s' = s := by
  obtain ⟨span, hnode⟩ := Arena.kind_eq_ok_iff.1 hk
  simp only [checkDeclaration, succeeds_bind, succeeds_node] at h
  obtain ⟨n, t, ⟨hn, rfl⟩, h⟩ := h
  cases Except.ok.inj (hnode.symm.trans hn)
  exact checkType_cases h

theorem checkCondition_sound {lo id : Nat} {construct : Conditional}
    (htable : Binding.TableSound cx.arena u cx.table) (htree : cx.arena.Tree lo id)
    (hrole : cx.arena.HasRole .expression id) (hsized : s.Sized cx)
    (h : Succeeds (checkCondition construct id) cx s () s') :
    cx.arena.Typed u cx.table (s'.info cx) id .bool ∧ Keeps (Interval lo id) s s' := by
  obtain ⟨found, t, hfound, h⟩ := succeeds_bind.1 h
  split at h
  · simp only [succeeds_bind, succeeds_fail, and_false, exists_false] at h
  · next hbool =>
    obtain ⟨-, rfl⟩ := succeeds_pure.1 h
    obtain rfl := not_not.1 hbool
    exact checkRoot_sound htable htree hrole hsized hfound

/-- Statements behind each other. -/
theorem checkStatements_sound {ret : Ty} {run : NodeId → CheckM Unit} {lo id : Nat}
    {parts : List (Nat × Nat)} (htiles : Arena.Tiles lo parts id)
    (htrees : ∀ p ∈ parts, cx.arena.Tree p.2 p.1)
    (hrun : ∀ p ∈ parts, ∀ s s', s.Sized cx → Succeeds (run p.1) cx s () s' →
      cx.arena.Checked u cx.table (s'.info cx) ret p.1 ∧ Keeps (Interval p.2 p.1) s s')
    (hsized : s.Sized cx) (h : Succeeds ((parts.map Prod.fst).forM run) cx s () s') :
    (∀ p ∈ parts, cx.arena.Checked u cx.table (s'.info cx) ret p.1) ∧
      Keeps (Interval lo id) s s' := by
  induction parts generalizing lo s with
  | nil =>
    obtain ⟨-, rfl⟩ := succeeds_pure.1 h
    exact ⟨by simp, .refl _ _⟩
  | cons p rest ih =>
    have hlt := (htrees p (by simp)).lt
    have hbounds := (htiles.2.bounds fun q hq => (htrees q (by simp [hq])).lt).1
    obtain ⟨_, t, hfirst, h⟩ := succeeds_bind.1 h
    obtain ⟨hchecked, hkeeps⟩ := hrun p (by simp) s t hsized hfirst
    obtain ⟨hothers, hkeeps'⟩ := ih htiles.2 (fun q hq => htrees q (by simp [hq]))
      (fun q hq => hrun q (by simp [hq])) (hsized.keeps hkeeps) h
    refine ⟨fun q hq => ?_, (hkeeps.mono fun i hi => ?_).trans (hkeeps'.mono fun i hi => ?_)⟩
    · rcases List.mem_cons.1 hq with rfl | hq
      · exact hchecked.stable (htrees q (by simp))
          (hkeeps'.agree fun i _ hi hin => absurd hin.1 (by omega))
      · exact hothers q hq
    · exact ⟨htiles.1 ▸ hi.1, by have := hi.2; omega⟩
    · exact ⟨by have := hi.1; have := htiles.1; omega, hi.2⟩

theorem Interval.mono {lo lo' id id' i : Nat} (h : Interval lo' id' i) (hlo : lo ≤ lo')
    (hid : id' ≤ id) : Interval lo id i := ⟨Nat.lt_of_le_of_lt hlo h.1, Nat.le_trans h.2 hid⟩

/-- Checking a part behind another one keeps the annotations of the first. -/
theorem Keeps.behind {lo c d : Nat} (hc : lo < c) (hd : c < d) (h : Keeps (Interval lo c) s t)
    (h' : Keeps (Interval c d) t s') :
    Keeps (Interval lo d) s s' ∧ SemanticInfo.Agree lo c (t.info cx) (s'.info cx) := by
  refine ⟨(h.mono fun i hi => ?_).trans (h'.mono fun i hi => ?_), h'.agree fun i _ hi hin => ?_⟩
  · exact hi.mono (Nat.le_refl _) (by omega)
  · exact hi.mono (by omega) (Nat.le_refl _)
  · exact absurd hin.1 (by omega)

/-- Checking a statement establishes that it is well typed and touches only its own rows. -/
theorem checkStatement_sound {ret : Ty} {depth lo id : Nat}
    (htable : Binding.TableSound cx.arena u cx.table) (htree : cx.arena.Tree lo id)
    (hrole : cx.arena.HasRole .statement id) (hsized : s.Sized cx)
    (h : Succeeds (checkStatement ret depth id) cx s () s') :
    cx.arena.Checked u cx.table (s'.info cx) ret id ∧ Keeps (Interval lo id) s s' := by
  induction depth generalizing lo id s s' with
  | zero => exact (succeeds_throw.1 h).elim
  | succ depth ih =>
    obtain ⟨k, hk, hrole⟩ := hrole
    obtain ⟨span, hnode⟩ := Arena.kind_eq_ok_iff.1 hk
    simp only [checkStatement, succeeds_bind, succeeds_node] at h
    obtain ⟨n, s, ⟨hn, rfl⟩, h⟩ := h
    cases Except.ok.inj (hnode.symm.trans hn)
    have hlt := htree.lt
    cases k with
    | block body =>
      have hroles := htree.roles hk
      simp only [NodeKind.partRoles, NodeKind.children, List.forall₂_map_left_iff,
        List.forall₂_same] at hroles
      obtain ⟨parts, hk', -, hchildren, htiles, -, htrees⟩ := htree
      obtain rfl := Except.ok.inj (hk.symm.trans hk')
      replace hchildren : parts.map Prod.fst = body := hchildren
      subst hchildren
      obtain ⟨hparts, hkeeps⟩ := checkStatements_sound htiles htrees (fun p hp s s' hs h =>
        ih (htrees p hp) (hroles p.1 (List.mem_map_of_mem hp)) hs h) hsized h
      refine ⟨.block hk fun x hx => ?_, hkeeps⟩
      obtain ⟨p, hp, rfl⟩ := List.mem_map.1 hx
      exact hparts p hp
    | declare d =>
      obtain ⟨hr, -⟩ := hasRole_head htree hk rfl rfl
      obtain ⟨b, hb⟩ := hr.isDeclaration
      obtain ⟨hknown, rfl⟩ := checkDeclaration_cases hb h
      exact ⟨.declare hk hb hknown, .refl _ _⟩
    | assign target value =>
      obtain ⟨htarget, hvalue, hid⟩ := htree.two_children hk rfl
      obtain ⟨hr, hr'⟩ := hasRole_head htree hk rfl rfl
      obtain ⟨expected, t, hexpected, h⟩ := succeeds_bind.1 h
      obtain ⟨hty, hkeeps⟩ := checkRoot_sound htable htarget hr hsized hexpected
      obtain ⟨found, t', hfound, h⟩ := succeeds_bind.1 h
      obtain ⟨hty', hkeeps'⟩ := checkRoot_sound htable hvalue (List.forall₂_cons.1 hr').1
        (hsized.keeps hkeeps) hfound
      split at h
      · exact (succeeds_fail.1 h).elim
      · next heq =>
        obtain ⟨-, rfl⟩ := succeeds_pure.1 h
        obtain rfl := not_not.1 heq
        obtain ⟨hboth, hagree⟩ := hkeeps.behind htarget.lt hvalue.lt hkeeps'
        exact ⟨.assign hk (hty.stable htarget hagree) hty',
          hboth.mono fun i hi => hi.mono (Nat.le_refl _) (Nat.le_of_lt hid)⟩
    | callStatement c =>
      obtain ⟨hc, hid⟩ := htree.only_child hk rfl
      obtain ⟨hr, -⟩ := hasRole_head htree hk rfl rfl
      obtain ⟨ty, t, hty, h⟩ := succeeds_bind.1 h
      obtain ⟨-, rfl⟩ := succeeds_pure.1 h
      obtain ⟨hty, hkeeps⟩ := checkRoot_sound htable hc hr hsized hty
      exact ⟨.callStatement hk hty, hkeeps.mono fun i hi => hi.mono (Nat.le_refl _) (by omega)⟩
    | branch condition onTrue onFalse =>
      obtain ⟨hr, hr'⟩ := hasRole_head htree hk rfl rfl
      obtain ⟨hrt, hro⟩ := List.forall₂_cons.1 hr'
      obtain ⟨_, t, hcondition, h⟩ := succeeds_bind.1 h
      obtain ⟨_, t', htrue, h⟩ := succeeds_bind.1 h
      cases onFalse with
      | none =>
        obtain ⟨hcond, hbody, hid⟩ := htree.two_children hk rfl
        obtain ⟨hty, hkeeps⟩ := checkCondition_sound htable hcond hr hsized hcondition
        obtain ⟨hchecked, hkeeps'⟩ := ih hbody hrt (hsized.keeps hkeeps) htrue
        obtain ⟨-, rfl⟩ := succeeds_pure.1 h
        obtain ⟨hboth, hagree⟩ := hkeeps.behind hcond.lt hbody.lt hkeeps'
        exact ⟨.branch hk (hty.stable hcond hagree) hchecked (by simp),
          hboth.mono fun i hi => hi.mono (Nat.le_refl _) (Nat.le_of_lt hid)⟩
      | some other =>
        obtain ⟨hcond, hbody, hother, hid⟩ := htree.three_children hk rfl
        obtain ⟨hty, hkeeps⟩ := checkCondition_sound htable hcond hr hsized hcondition
        obtain ⟨hchecked, hkeeps'⟩ := ih hbody hrt (hsized.keeps hkeeps) htrue
        obtain ⟨hchecked', hkeeps''⟩ := ih hother (List.forall₂_cons.1 hro).1
          ((hsized.keeps hkeeps).keeps hkeeps') h
        obtain ⟨hboth, hagree⟩ := hkeeps'.behind hbody.lt hother.lt hkeeps''
        obtain ⟨hall, hagree'⟩ := hkeeps.behind hcond.lt (Nat.lt_trans hbody.lt hother.lt) hboth
        refine ⟨.branch hk (hty.stable hcond hagree') (hchecked.stable hbody hagree) fun x hx => ?_,
          hall.mono fun i hi => hi.mono (Nat.le_refl _) (Nat.le_of_lt hid)⟩
        cases hx
        exact hchecked'
    | loop condition body =>
      obtain ⟨hcond, hbody, hid⟩ := htree.two_children hk rfl
      obtain ⟨hr, hr'⟩ := hasRole_head htree hk rfl rfl
      obtain ⟨_, t, hcondition, h⟩ := succeeds_bind.1 h
      obtain ⟨hty, hkeeps⟩ := checkCondition_sound htable hcond hr hsized hcondition
      obtain ⟨hchecked, hkeeps'⟩ := ih hbody (List.forall₂_cons.1 hr').1 (hsized.keeps hkeeps) h
      obtain ⟨hboth, hagree⟩ := hkeeps.behind hcond.lt hbody.lt hkeeps'
      exact ⟨.loop hk (hty.stable hcond hagree) hchecked,
        hboth.mono fun i hi => hi.mono (Nat.le_refl _) (Nat.le_of_lt hid)⟩
    | ret value =>
      cases value with
      | none =>
        obtain ⟨found, t, hfound, hlast⟩ := succeeds_bind.1 h
        obtain ⟨rfl, rfl⟩ := succeeds_pure.1 hfound
        split at hlast
        · exact (succeeds_fail.1 hlast).elim
        · next heq =>
          obtain ⟨-, rfl⟩ := succeeds_pure.1 hlast
          exact ⟨.ret hk (by simp) fun _ => (not_not.1 heq).symm, .refl _ _⟩
      | some v =>
        obtain ⟨hv, hid⟩ := htree.only_child hk rfl
        obtain ⟨hr, -⟩ := hasRole_head htree hk rfl rfl
        obtain ⟨found, t, hfound, h⟩ := succeeds_bind.1 h
        obtain ⟨hty, hkeeps⟩ := checkRoot_sound htable hv hr hsized hfound
        split at h
        · exact (succeeds_fail.1 h).elim
        · next heq =>
          obtain ⟨-, rfl⟩ := succeeds_pure.1 h
          obtain rfl := not_not.1 heq
          refine ⟨.ret hk (fun w hw => ?_) (by simp),
            hkeeps.mono fun i hi => hi.mono (Nat.le_refl _) (Nat.le_of_lt hid)⟩
          cases hw
          exact hty
    | empty =>
      obtain ⟨-, rfl⟩ := succeeds_pure.1 h
      exact ⟨.empty hk, .refl _ _⟩
    | _ => cases hrole

/-! ### Programs -/

theorem checkDeclarations_cases {ids : List NodeId}
    (h : Succeeds (ids.forM checkDeclaration) cx s () s') :
    (∀ d ∈ ids, cx.arena.KnownDeclaration cx.table d) ∧ s' = s := by
  induction ids generalizing s with
  | nil =>
    obtain ⟨-, rfl⟩ := succeeds_pure.1 h
    exact ⟨by simp, rfl⟩
  | cons d rest ih =>
    obtain ⟨_, t, hd, hrest⟩ := succeeds_bind.1 h
    obtain ⟨hothers, rfl⟩ := ih hrest
    have hstate : s' = s := by
      simp only [checkDeclaration, succeeds_bind, succeeds_node] at hd
      obtain ⟨n, s, ⟨-, rfl⟩, hd⟩ := hd
      split at hd
      · exact (checkType_cases hd).2
      · exact (succeeds_pure.1 hd).2
    refine ⟨fun e he b hb => ?_, hstate⟩
    rcases List.mem_cons.1 he with rfl | he
    · exact (checkDeclaration_cases hb hd).1
    · exact hothers e he b hb

theorem checkRecords_cases {ids : List NodeId} (h : Succeeds (ids.forM checkRecord) cx s () s') :
    (∀ id ∈ ids, ∀ r, cx.arena.kind id = .ok (.record r) →
      ∀ d ∈ r.fields, cx.arena.KnownDeclaration cx.table d) ∧ s' = s := by
  induction ids generalizing s with
  | nil =>
    obtain ⟨-, rfl⟩ := succeeds_pure.1 h
    exact ⟨by simp, rfl⟩
  | cons id rest ih =>
    obtain ⟨_, t, hid, hrest⟩ := succeeds_bind.1 h
    obtain ⟨hothers, rfl⟩ := ih hrest
    simp only [checkRecord, succeeds_bind, succeeds_node] at hid
    obtain ⟨n, s, ⟨hn, rfl⟩, hid⟩ := hid
    split at hid
    · next r hr =>
      obtain ⟨hfields, rfl⟩ := checkDeclarations_cases hid
      refine ⟨fun i hi r' hr' => ?_, rfl⟩
      rcases List.mem_cons.1 hi with rfl | hi
      · obtain ⟨span, hnode⟩ := Arena.kind_eq_ok_iff.1 hr'
        cases Except.ok.inj (hnode.symm.trans hn)
        cases hr
        exact hfields
      · exact hothers i hi r' hr'
    · next hr =>
      obtain ⟨-, rfl⟩ := succeeds_pure.1 hid
      refine ⟨fun i hi r' hr' => ?_, rfl⟩
      rcases List.mem_cons.1 hi with rfl | hi
      · obtain ⟨span, hnode⟩ := Arena.kind_eq_ok_iff.1 hr'
        cases Except.ok.inj (hnode.symm.trans hn)
        cases hr
      · exact hothers i hi r' hr'

theorem checkFunction_sound {lo id : Nat} {f : FunctionNode}
    (htable : Binding.TableSound cx.arena u cx.table) (hk : cx.arena.kind id = .ok (.function f))
    (htree : cx.arena.Tree lo id) (hsized : s.Sized cx)
    (h : Succeeds (checkFunction id) cx s () s') :
    cx.arena.WellTypedFunction u cx.table (s'.info cx) f ∧ Keeps (Interval lo id) s s' := by
  obtain ⟨span, hnode⟩ := Arena.kind_eq_ok_iff.1 hk
  simp only [checkFunction, succeeds_bind, succeeds_node] at h
  obtain ⟨n, s, ⟨hn, rfl⟩, h⟩ := h
  cases Except.ok.inj (hnode.symm.trans hn)
  simp only [NodeKind.function?, succeeds_bind, succeeds_read] at h
  obtain ⟨_, t, htype, _, t', hparams, cx, _, ⟨rfl, rfl⟩, hbody⟩ := h
  obtain ⟨hresult, rfl⟩ := checkType_cases htype
  obtain ⟨hknown, rfl⟩ := checkDeclarations_cases hparams
  obtain ⟨start, parts, hstart, hback, htiles, htrees, hroles⟩ := htree.exists_body hk
  rw [← hback] at hbody
  obtain ⟨hparts, hkeeps⟩ := checkStatements_sound htiles htrees
    (fun p hp s s' hs h => checkStatement_sound htable (htrees p hp) (hroles p hp) hs h)
      hsized hbody
  refine ⟨⟨hresult, hknown, fun r hr => ?_⟩, hkeeps.mono fun i hi => ?_⟩
  · rw [← hback] at hr
    obtain ⟨p, hp, rfl⟩ := List.mem_map.1 hr
    exact hparts p hp
  · exact hi.mono (by omega) (Nat.le_refl _)

theorem wellTypedFunction_stable {lo id : Nat} {f : FunctionNode} {info info' : SemanticInfo}
    (h : cx.arena.WellTypedFunction u cx.table info f) (hk : cx.arena.kind id = .ok (.function f))
    (htree : cx.arena.Tree lo id) (hagree : SemanticInfo.Agree lo id info info') :
    cx.arena.WellTypedFunction u cx.table info' f := by
  refine ⟨h.result, h.params, fun r hr => ?_⟩
  obtain ⟨start, hr', hag⟩ := htree.agree_child hagree hk (List.mem_append_right _ hr)
  exact (h.body r hr).stable hr' hag

theorem checkFunctions_sound {lo : Nat} {parts : List (Nat × Nat)}
    (htable : Binding.TableSound cx.arena u cx.table) (hasc : Arena.Ascends lo parts)
    (hparts : ∀ p ∈ parts, (∃ f, cx.arena.kind p.1 = .ok (.function f)) ∧ cx.arena.Tree p.2 p.1)
    (hsized : s.Sized cx) (h : Succeeds ((parts.map Prod.fst).forM checkFunction) cx s () s') :
    (∀ p ∈ parts, ∀ f, cx.arena.kind p.1 = .ok (.function f) →
      cx.arena.WellTypedFunction u cx.table (s'.info cx) f) ∧ Keeps (lo < ·) s s' := by
  induction parts generalizing lo s with
  | nil =>
    obtain ⟨-, rfl⟩ := succeeds_pure.1 h
    exact ⟨by simp, .refl _ _⟩
  | cons p rest ih =>
    obtain ⟨hlo, hasc⟩ := hasc
    obtain ⟨_, t, hfirst, hrest⟩ := succeeds_bind.1 h
    obtain ⟨⟨f, hf⟩, htree⟩ := hparts p (by simp)
    have hlt := htree.lt
    obtain ⟨hwell, hkeeps⟩ := checkFunction_sound htable hf htree hsized hfirst
    obtain ⟨hothers, hkeeps'⟩ := ih hasc (fun q hq => hparts q (by simp [hq]))
      (hsized.keeps hkeeps) hrest
    refine ⟨fun q hq g hg => ?_, (hkeeps.mono fun i hi => ?_).trans (hkeeps'.mono fun i hi => ?_)⟩
    · rcases List.mem_cons.1 hq with rfl | hq
      · cases Except.ok.inj (hf.symm.trans hg)
        exact wellTypedFunction_stable hwell hf htree
          (hkeeps'.agree fun i _ hi hin => absurd hin (by omega))
      · exact hothers q hq g hg
    · exact Nat.lt_of_le_of_lt hlo hi.1
    · omega

end Typing

/-- A program that passes the checker is well typed. -/
theorem Arena.check_sound {a : Arena} {u : UnitNode} {table table' : SymbolTable}
    {info info' : SemanticInfo} (hu : a.unit? = some u) (hlayout : a.Layout 1 u)
    (htable : Binding.TableSound a u table)
    (hsized : info.types.size = a.size ∧ info.targets.size = a.size)
    (h : a.check table info = (.ok (), table', info')) :
    a.WellTyped u table info' ∧ info'.resolved = info.resolved ∧
    table' = table.withoutBuiltins := by
  have hcheck : a.check table info =
      let r := Typing.outcome Typing.checkUnit ⟨a, table, info.scopes, info.resolved⟩
        ⟨info.types, info.targets⟩
      (r.1, table.withoutBuiltins, { info with types := r.2.types, targets := r.2.targets }) := rfl
  simp only [hcheck, Prod.mk.injEq] at h
  obtain ⟨hok, rfl, rfl⟩ := h
  refine ⟨?_, rfl, rfl⟩
  obtain ⟨s', hrun, hs'⟩ : ∃ s', Typing.Succeeds Typing.checkUnit
      ⟨a, table, info.scopes, info.resolved⟩ ⟨info.types, info.targets⟩ () s' ∧
      s' = (Typing.outcome Typing.checkUnit ⟨a, table, info.scopes, info.resolved⟩
        ⟨info.types, info.targets⟩).2 := ⟨_, Prod.ext hok rfl, rfl⟩
  rw [← hs']
  obtain ⟨span, hnode⟩ := Arena.node_root_of_unit? hu
  simp only [Typing.checkUnit, Typing.succeeds_bind, Typing.succeeds_node] at hrun
  obtain ⟨n, _, ⟨hn, rfl⟩, hrun⟩ := hrun
  cases Except.ok.inj (hnode.symm.trans hn)
  simp only [Typing.succeeds_bind] at hrun
  obtain ⟨_, t, hglobals, _, t', hrecords, hfunctions⟩ := hrun
  obtain ⟨hknown, rfl⟩ := Typing.checkDeclarations_cases hglobals
  obtain ⟨hfields, rfl⟩ := Typing.checkRecords_cases hrecords
  obtain ⟨parts, hparts, hasc, htrees⟩ := hlayout.functions
  rw [← hparts] at hfunctions
  obtain ⟨hwell, -⟩ := Typing.checkFunctions_sound htable hasc htrees (by exact hsized) hfunctions
  refine ⟨hknown, hfields, fun id hid f hf => ?_⟩
  rw [← hparts] at hid
  obtain ⟨p, hp, rfl⟩ := List.mem_map.1 hid
  exact hwell p hp f hf

end MiniJ
