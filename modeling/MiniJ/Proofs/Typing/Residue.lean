import MiniJ.Proofs.Typing.Tandem

/-!
# Trial checks leave no residue

While the overload of a call is chosen, its arguments that are calls are checked against the
parameters of one candidate after the other, and each trial leaves its notes. Once the call is
settled each argument has been checked for a last time, against the parameter of the overload that
was taken, and that check has overwritten every row of its subtree. So the tables of a checked
expression do not depend on what they held before.

## Main definitions

* `Typing.select` — the first half of the check of a call.
* `Typing.Visited` — the rows of a subtree are those that one check of its root left.
* `Typing.Same` — equal types and targets in a subtree.

## Main statements

* `Typing.plain_visited`, `Typing.call_visited` — every part of a checked expression was visited for
  a last time.
* `Typing.checkExpression_same` — a successful check determines the rows of the subtree.
* `Typing.checkExpression_own_type` — expecting the type an expression has changes none of them.
-/
namespace MiniJ

/-- Whether a node is a call. -/
def Arena.isCall (a : Arena) (id : NodeId) : Bool :=
  match a.kind id with
  | .ok k => k.isCall
  | .error _ => false

theorem Arena.isCall_of_kind {a : Arena} {id : NodeId} {k : NodeKind} (h : a.kind id = .ok k) :
    a.isCall id = k.isCall := by
  rw [isCall, h]

namespace Typing

variable {α : Type} {cx : Context} {u : UnitNode} {s s' t t' : State} {check : Checker}

/-! ### Results and tables -/

/-- The tables are of no consequence for the result. -/
abbrev Indifferent (cx : Context) (x : CheckM α) : Prop := Tandem (fun _ _ => True) cx cx x x

theorem stays_true : Stays fun _ _ => True := ⟨fun _ _ _ _ _ => trivial, fun _ _ _ _ _ => trivial⟩

theorem Indifferent.succeeds {x : CheckM α} {v : α} (h : Indifferent cx x)
    (hx : Succeeds x cx s v s') (t : State) : ∃ t', Succeeds x cx t v t' := by
  obtain ⟨t', ht, -⟩ := Tandem.succeeds h (t := t) trivial hx
  exact ⟨t', ht⟩

theorem Indifferent.eq {x : CheckM α} {v w : α} (h : Indifferent cx x)
    (hx : Succeeds x cx s v s') (hy : Succeeds x cx t w t') : v = w := by
  obtain ⟨t'', ht⟩ := h.succeeds hx t
  have heq : (Except.ok v, t'') = (Except.ok w, t') := ht.symm.trans hy
  cases heq
  rfl

theorem indifferent_checkExpression {depth id : Nat} (hdepth : cx.arena.Within depth id)
    (expected : Option Ty) : Indifferent cx (checkExpression depth id expected) :=
  tandem_checkExpression stays_true (.refl cx fun _ => True) (fun _ _ => trivial) hdepth hdepth _

/-- The rows of the subtree at `c` stay. -/
def Rests (cx : Context) (c : Nat) (s s' : State) : Prop :=
  ∀ i, cx.arena.Below c i → SemanticInfo.row s'.types i = SemanticInfo.row s.types i ∧
    SemanticInfo.row s'.targets i = SemanticInfo.row s.targets i

theorem Rests.trans {c : Nat} (h : Rests cx c s t) (h' : Rests cx c t s') : Rests cx c s s' :=
  fun i hi => ⟨(h' i hi).1.trans (h i hi).1, (h' i hi).2.trans (h i hi).2⟩

theorem Keeps.rests {lo c : Nat} {S : Nat → Prop} (h : Keeps S s s') (htree : cx.arena.Tree lo c)
    (hS : ∀ i, lo < i → i ≤ c → ¬S i) : Rests cx c s s' := by
  intro i hi
  obtain ⟨start, hstart, hlo, hle⟩ := htree.sub hi
  have hlt := hstart.lt
  exact ⟨h.types i (by omega) (hS i (by omega) hle), h.targets i (by omega) (hS i (by omega) hle)⟩

/-- The rows of the subtree at `c` are the ones that a check against `e` left. -/
def Visited (cx : Context) (check : Checker) (c : Nat) (e : Option Ty) (s : State) : Prop :=
  ∃ r ty r', r.Sized cx ∧ Succeeds (check c e) cx r ty r' ∧ Rests cx c r' s

theorem Visited.rests {c : Nat} {e : Option Ty} (h : Visited cx check c e s)
    (hrests : Rests cx c s s') : Visited cx check c e s' := by
  obtain ⟨r, ty, r', hr, hrun, hrows⟩ := h
  exact ⟨r, ty, r', hr, hrun, hrows.trans hrests⟩

theorem visited_of_succeeds {c : Nat} {e : Option Ty} {ty : Ty} (hsized : s.Sized cx)
    (h : Succeeds (check c e) cx s ty s') : Visited cx check c e s' :=
  ⟨s, ty, s', hsized, h, fun _ _ => ⟨rfl, rfl⟩⟩

/-- A checker that stays in the subtree of the expression it checks. -/
def Checker.Local (cx : Context) (check : Checker) : Prop :=
  ∀ lo id expected, cx.arena.Tree lo id → Within (Interval lo id) (check id expected) cx

theorem local_checkExpression (depth : Nat) : (checkExpression depth).Local cx :=
  fun _ _ expected htree => within_checkExpression htree expected

/-! ### Selecting an overload -/

/-- The types of the arguments of a call that are no calls, and the overload it takes. -/
def select (check : Checker) (id : NodeId) (name : String) (args : List NodeId)
    (expected : Option Ty) : CheckM (List (NodeId × Option Ty) × Option Signature) := do
  let cx ← read
  let overloads := (← cx.overloads id name).getD []
  let typed ← argumentTypes check args
  return (typed, ← choose check typed expected overloads)

/-- A call after an overload has been looked for. -/
def conclude (check : Checker) (id : NodeId) (span : Span) (name : String)
    (typed : List (NodeId × Option Ty)) : Option Signature → CheckM Ty
  | none => do fail (.noMatchingFunction name (← describe check typed)) span
  | some signature => do
    settle check typed signature.params
    setTarget id (target name signature)
    return signature.returnType

theorem checkCall_eq (check : Checker) (id : NodeId) (span : Span) (name : String)
    (args : List NodeId) (expected : Option Ty) : checkCall check id span name args expected =
      select check id name args expected >>= fun p => conclude check id span name p.1 p.2 := by
  simp only [checkCall, select, bind_assoc, pure_bind]
  rfl

theorem succeeds_select {id : NodeId} {name : String} {args : List NodeId} {expected : Option Ty}
    {typed : List (NodeId × Option Ty)} {chosen : Option Signature} :
    Succeeds (select check id name args expected) cx s (typed, chosen) s' ↔
      ∃ found t, cx.overloads id name = .ok found ∧
        Succeeds (argumentTypes check args) cx s typed t ∧
        Succeeds (choose check typed expected (found.getD [])) cx t chosen s' := by
  simp only [select, succeeds_bind, succeeds_read, succeeds_lift, succeeds_pure, Prod.mk.injEq]
  constructor
  · rintro ⟨_, _, ⟨rfl, rfl⟩, found, _, ⟨hfound, rfl⟩, _, t, htyped, _, _, hchosen, ⟨rfl, rfl⟩, rfl⟩
    exact ⟨found, t, hfound, htyped, hchosen⟩
  · rintro ⟨found, t, hfound, htyped, hchosen⟩
    exact ⟨cx, s, ⟨rfl, rfl⟩, found, s, ⟨hfound, rfl⟩, typed, t, htyped, chosen, s', hchosen,
      ⟨rfl, rfl⟩, rfl⟩

/-- A call succeeds when an overload is selected and its arguments settle on it. -/
theorem succeeds_checkCall {id : NodeId} {span : Span} {name : String} {args : List NodeId}
    {expected : Option Ty} {ty : Ty} :
    Succeeds (checkCall check id span name args expected) cx s ty s' ↔
      ∃ typed sig r r', Succeeds (select check id name args expected) cx s (typed, some sig) r ∧
        Succeeds (settle check typed sig.params) cx r () r' ∧ ty = sig.returnType ∧
        s' = { r' with targets := SemanticInfo.setRow r'.targets id (target name sig) } := by
  rw [checkCall_eq, succeeds_bind]
  constructor
  · rintro ⟨⟨typed, _ | sig⟩, r, hselect, h⟩
    · simp [conclude, succeeds_bind, succeeds_fail] at h
    · simp only [conclude, setTarget, succeeds_bind, succeeds_modify, succeeds_pure] at h
      obtain ⟨_, r', hsettle, _, _, rfl, rfl, rfl⟩ := h
      exact ⟨typed, sig, r, r', hselect, hsettle, rfl, rfl⟩
  · rintro ⟨typed, sig, r, r', hselect, hsettle, rfl, rfl⟩
    refine ⟨(typed, some sig), r, hselect, ?_⟩
    simp only [conclude, setTarget, succeeds_bind, succeeds_modify, succeeds_pure]
    exact ⟨(), r', hsettle, ⟨⟩, _, rfl, trivial, rfl⟩

theorem indifferent_select {id : NodeId} {name : String} {args : List NodeId}
    {expected : Option Ty} (h : ∀ arg ∈ args, ∀ e, Indifferent cx (check arg e)) :
    Indifferent cx (select check id name args expected) := by
  refine tandem_read (tandem_bind (tandem_lift rfl) fun found => ?_)
  refine tandem_bind_of (tandem_argumentTypes (fun _ _ => rfl) h) fun s typed s' htyped => ?_
  refine tandem_bind (tandem_choose fun p hp e => ?_) fun chosen => tandem_pure _
  obtain ⟨arg, harg, rfl, -⟩ := Outcome.exists_of_forall₂_right (argumentTypes_cases htyped) hp
  exact h _ harg e

/-- The overload that a call takes in any context it also takes where its own type is expected. -/
theorem choose_own_type {args : List (NodeId × Option Ty)} {overloads : List Signature}
    {sig : Signature} (h : ∀ p ∈ args, ∀ e, Indifferent cx (check p.1 e))
    (hchoose : Succeeds (choose check args none overloads) cx s (some sig) s') (t : State) :
    ∃ t', Succeeds (choose check args (some sig.returnType) overloads) cx t (some sig) t' := by
  induction overloads generalizing s t with
  | nil => cases (succeeds_pure.1 hchoose).1
  | cons candidate rest ih =>
    unfold choose at hchoose ⊢
    split at hchoose
    · next harity =>
      rw [if_pos harity]
      exact ih hchoose t
    · next harity =>
      rw [if_neg harity]
      simp only [Option.any_none, Bool.false_eq_true, if_false] at hchoose
      obtain ⟨fit, r, hfit, hlast⟩ := succeeds_bind.1 hchoose
      obtain ⟨r', hfit'⟩ := Indifferent.succeeds (tandem_allFit h) hfit t
      by_cases hexpected : (some sig.returnType).any (· ≠ candidate.returnType) = true
      · rw [if_pos hexpected]
        split at hlast
        · obtain ⟨hsig, -⟩ := succeeds_pure.1 hlast
          cases hsig
          simp at hexpected
        · exact ih hlast t
      · rw [if_neg hexpected]
        cases fit with
        | true =>
          obtain ⟨hsig, -⟩ := succeeds_pure.1 hlast
          exact ⟨r', succeeds_bind.2 ⟨true, r', hfit', succeeds_pure.2 ⟨hsig, rfl⟩⟩⟩
        | false =>
          obtain ⟨t', hrest⟩ := ih hlast r'
          exact ⟨t', succeeds_bind.2 ⟨false, r', hfit', hrest⟩⟩

theorem argumentTypes_mem {id : NodeId} {name : String} {args : List NodeId} {expected : Option Ty}
    {typed : List (NodeId × Option Ty)} {chosen : Option Signature}
    (h : Succeeds (select check id name args expected) cx s (typed, chosen) s') :
    ∀ p ∈ typed, p.1 ∈ args := by
  intro p hp
  obtain ⟨found, t, -, htyped, -⟩ := succeeds_select.1 h
  obtain ⟨arg, harg, hp, -⟩ := Outcome.exists_of_forall₂_right (argumentTypes_cases htyped) hp
  exact hp ▸ harg

theorem select_own_type {id : NodeId} {name : String} {args : List NodeId} {expected : Option Ty}
    {typed : List (NodeId × Option Ty)} {sig : Signature}
    (h : ∀ arg ∈ args, ∀ e, Indifferent cx (check arg e))
    (hselect : Succeeds (select check id name args expected) cx s (typed, some sig) s')
    (t : State) :
    ∃ t', Succeeds (select check id name args (some sig.returnType)) cx t (typed, some sig) t' := by
  have hmem := argumentTypes_mem hselect
  cases expected with
  | some ty =>
    obtain ⟨found, r, -, -, hchoose⟩ := succeeds_select.1 hselect
    obtain rfl := (choose_cases hchoose).2.2.1 ty rfl
    exact (indifferent_select h).succeeds hselect t
  | none =>
    obtain ⟨found, r, hfound, htyped, hchoose⟩ := succeeds_select.1 hselect
    obtain ⟨t₁, htyped'⟩ := Indifferent.succeeds (tandem_argumentTypes (fun _ _ => rfl) h) htyped t
    obtain ⟨t₂, hchoose'⟩ := choose_own_type (fun p hp => h p.1 (hmem p hp)) hchoose t₁
    exact ⟨t₂, succeeds_select.2 ⟨found, t₁, hfound, htyped', hchoose'⟩⟩

/-! ### Last visits to the arguments of a call -/

/-- The type that an argument of a call is checked against when the call is settled. Arguments that
are no calls have been checked without one. -/
def argumentExpectation (a : Arena) (arg : NodeId) (param : Binder) : Option Ty :=
  if a.isCall arg then some param.ty else none

/-- The rows of the arguments that are calls. -/
def CallRows (cx : Context) (parts : List (Nat × Nat)) (i : Nat) : Prop :=
  ∃ p ∈ parts, cx.arena.isCall p.1 = true ∧ Interval p.2 p.1 i

theorem not_callRows {lo id : Nat} {parts : List (Nat × Nat)} {p : Nat × Nat} {i : Nat}
    (hargs : Arguments cx lo parts id) (hp : p ∈ parts) (hcall : cx.arena.isCall p.1 = false)
    (hi : Interval p.2 p.1 i) : ¬CallRows cx parts i := by
  rintro ⟨q, hq, hq', hiq⟩
  obtain rfl := hargs.tiles.eq_of_overlap (fun r hr => (hargs.trees r hr).lt) hp hq hi hiq
  simp [hcall] at hq'

theorem argumentTypes_visited {lo id : Nat} {parts : List (Nat × Nat)}
    {typed : List (NodeId × Option Ty)} (hlocal : check.Local cx)
    (hargs : Arguments cx lo parts id) (hsized : s.Sized cx)
    (h : Succeeds (argumentTypes check (parts.map Prod.fst)) cx s typed s') :
    (∀ p ∈ parts, cx.arena.isCall p.1 = false → Visited cx check p.1 none s') ∧
      Keeps (lo < ·) s s' := by
  induction parts generalizing lo s typed with
  | nil =>
    obtain ⟨-, rfl⟩ := succeeds_pure.1 h
    exact ⟨by simp, .refl _ _⟩
  | cons p rest ih =>
    obtain ⟨hlo, htree, -, hlt⟩ := hargs.head
    unfold argumentTypes at h
    rw [List.map_cons, List.mapM_cons] at h
    simp only [succeeds_bind, succeeds_node, succeeds_pure] at h
    obtain ⟨q, t, ⟨n, s, ⟨hn, rfl⟩, hq⟩, others, t', hrest, rfl, rfl⟩ := h
    have hk : cx.arena.kind p.1 = .ok n.kind := Arena.kind_eq_ok_iff.2 ⟨n.span, hn⟩
    have hfirst : (cx.arena.isCall p.1 = false → Visited cx check p.1 none t) ∧
        Keeps (Interval p.2 p.1) s t := by
      rw [Arena.isCall_of_kind hk]
      split at hq
      · next hcall =>
        obtain ⟨rfl, rfl⟩ := succeeds_pure.1 hq
        exact ⟨by simp [hcall], .refl _ _⟩
      · simp only [succeeds_bind, succeeds_pure] at hq
        obtain ⟨ty, _, hty, rfl, rfl⟩ := hq
        exact ⟨fun _ => visited_of_succeeds hsized hty, (hlocal _ _ _ htree).keeps hty⟩
    obtain ⟨hothers, hkeeps⟩ := ih hargs.tail (hsized.keeps hfirst.2) hrest
    refine ⟨fun r hr hcall => ?_, (hfirst.2.mono fun i hi => hlo ▸ hi.1).trans
      (hkeeps.mono fun i hi => by omega)⟩
    rcases List.mem_cons.1 hr with rfl | hr
    · exact (hfirst.1 hcall).rests (hkeeps.rests htree fun i _ hi => by simpa using hi)
    · exact hothers r hr hcall

/-- Trying overloads changes only the rows of the arguments that are calls. -/
theorem choose_callRows {lo id : Nat} {parts : List (Nat × Nat)} {typed : List (NodeId × Option Ty)}
    {expected : Option Ty} {overloads : List Signature} {chosen : Option Signature} {t₀ t₁ : State}
    (hlocal : check.Local cx) (hargs : Arguments cx lo parts id)
    (htyped : Succeeds (argumentTypes check (parts.map Prod.fst)) cx t₀ typed t₁)
    (h : Succeeds (choose check typed expected overloads) cx s chosen s') :
    Keeps (CallRows cx parts) s s' := by
  refine (within_choose fun q hq hnone e => ?_).keeps h
  obtain ⟨arg, harg, hqp, k, hk, hcall⟩ :=
    Outcome.exists_of_forall₂_right (argumentTypes_cases htyped) hq
  obtain ⟨p, hp, rfl⟩ := List.mem_map.1 harg
  rw [hqp]
  refine (hlocal _ _ _ (hargs.trees p hp)).mono fun i hi => ⟨p, hp, ?_, hi⟩
  rw [Arena.isCall_of_kind hk, hcall hnone]

/-- Settling visits every argument that is a call once, against the type of its parameter. -/
theorem settle_visited {lo id : Nat} {parts : List (Nat × Nat)}
    {typed : List (NodeId × Option Ty)} {params : List Binder} (hlocal : check.Local cx)
    (hargs : Arguments cx lo parts id) (hsized : s.Sized cx)
    (htyped : typed.map Prod.fst = parts.map Prod.fst)
    (h : Succeeds (settle check typed params) cx s () s') :
    (∀ q ∈ parts.zip params, cx.arena.isCall q.1.1 = true →
      Visited cx check q.1.1 (some q.2.ty) s') ∧ Keeps (CallRows cx parts) s s' := by
  induction parts generalizing lo s typed params with
  | nil =>
    obtain rfl : typed = [] := by simpa using htyped
    obtain ⟨-, rfl⟩ := succeeds_pure.1 h
    exact ⟨by simp, .refl _ _⟩
  | cons p rest ih =>
    obtain ⟨⟨arg, o⟩, typed, rfl, rfl, htail⟩ := List.map_eq_cons_iff.1 htyped
    cases params with
    | nil =>
      obtain ⟨-, rfl⟩ := succeeds_pure.1 h
      exact ⟨by simp, .refl _ _⟩
    | cons param params =>
      obtain ⟨hlo, htree, -, hlt⟩ := hargs.head
      simp only [settle, succeeds_bind, succeeds_node] at h
      obtain ⟨n, s, ⟨hn, rfl⟩, h⟩ := h
      have hk : cx.arena.kind p.1 = .ok n.kind := Arena.kind_eq_ok_iff.2 ⟨n.span, hn⟩
      have hfirst : ∃ t, (cx.arena.isCall p.1 = true → Visited cx check p.1 (some param.ty) t) ∧
          Keeps (CallRows cx (p :: rest)) s t ∧ Succeeds (do
            if param.isReference && !n.kind.isPlace then
              fail (.referenceToNonPlace param.name) n.span
            settle check typed params) cx t () s' := by
        rw [Arena.isCall_of_kind hk]
        split at h
        · next hcall =>
          obtain ⟨ty, t, hty, h⟩ := succeeds_bind.1 h
          refine ⟨t, fun _ => visited_of_succeeds hsized hty, ?_, h⟩
          exact ((hlocal _ _ _ htree).keeps hty).mono fun i hi =>
            ⟨p, by simp, by rw [Arena.isCall_of_kind hk, hcall], hi⟩
        · next hcall => exact ⟨s, fun hcall' => absurd hcall' hcall, .refl _ _, h⟩
      obtain ⟨t, hvisit, hkeeps, h⟩ := hfirst
      rw [succeeds_guard (fun _ _ _ => succeeds_fail.1)] at h
      obtain ⟨hothers, hkeeps'⟩ := ih hargs.tail (hsized.keeps hkeeps) htail h.2
      refine ⟨fun q hq hcall => ?_, hkeeps.trans (hkeeps'.mono fun i hi => ?_)⟩
      · rcases List.mem_cons.1 hq with rfl | hq
        · refine (hvisit hcall).rests (hkeeps'.rests htree ?_)
          rintro i - hi ⟨r, hr, -, hir⟩
          have hstart := hargs.tail.le_start hr
          have := hir.1
          omega
        · exact hothers q hq hcall
      · obtain ⟨r, hr, hcall, hi⟩ := hi
        exact ⟨r, by simp [hr], hcall, hi⟩

/-- Once a call is settled, every argument has been visited for a last time. -/
theorem arguments_visited {lo id : Nat} {name : String} {parts : List (Nat × Nat)}
    {expected : Option Ty} {typed : List (NodeId × Option Ty)} {sig : Signature} {r : State}
    (hlocal : check.Local cx) (hargs : Arguments cx lo parts id) (hsized : s.Sized cx)
    (hselect : Succeeds (select check id name (parts.map Prod.fst) expected) cx s
      (typed, some sig) r)
    (hsettle : Succeeds (settle check typed sig.params) cx r () s') :
    parts.length = sig.params.length ∧ s'.Sized cx ∧ ∀ q ∈ parts.zip sig.params,
      Visited cx check q.1.1 (argumentExpectation cx.arena q.1.1 q.2) s' := by
  obtain ⟨found, t, -, htyped, hchoose⟩ := succeeds_select.1 hselect
  have hcases := argumentTypes_cases htyped
  have hlength := hcases.length_eq
  rw [List.length_map] at hlength
  have hfirst : typed.map Prod.fst = parts.map Prod.fst := by
    rw [← List.forall₂_eq_eq_eq, List.forall₂_map_left_iff]
    exact hcases.flip.imp fun q arg hq => hq.1
  obtain ⟨hplain, hkeeps⟩ := argumentTypes_visited hlocal hargs hsized htyped
  have hkeeps' := choose_callRows hlocal hargs htyped hchoose
  have hsized' := (hsized.keeps hkeeps).keeps hkeeps'
  obtain ⟨hcalls, hkeeps''⟩ := settle_visited hlocal hargs hsized' hfirst hsettle
  refine ⟨hlength.trans (choose_cases hchoose).2.1, hsized'.keeps hkeeps'', fun q hq => ?_⟩
  have hp : q.1 ∈ parts := (List.of_mem_zip hq).1
  unfold argumentExpectation
  split
  · next hcall => exact hcalls q hq hcall
  · next hcall =>
    rw [Bool.not_eq_true] at hcall
    have hrows := (hkeeps'.trans hkeeps'').rests (hargs.trees q.1 hp) fun i hlo hi =>
      not_callRows hargs hp hcall ⟨hlo, hi⟩
    exact (hplain q.1 hp hcall).rests hrows

/-! ### Last visits to the parts of an expression -/

/-- The type that a part is checked against if its expression is no call. -/
def asked (k : NodeKind) (c : NodeId) : Option Ty :=
  match k with
  | .element _ index => if c = index then some .int else none
  | _ => none

theorem checkKind_visited {lo id : Nat} {e : Option Ty} {n : Node} {ty : Ty}
    (hlocal : check.Local cx) (hn : cx.arena.node id = .ok n) (htree : cx.arena.Tree lo id)
    (hrole : n.kind.role = .expression) (hcall : n.kind.isCall = false) (hsized : s.Sized cx)
    (h : Succeeds (checkKind check id e n) cx s ty s') :
    ∀ c ∈ n.kind.children, Visited cx check c (asked n.kind c) s' := by
  have hk : cx.arena.kind id = .ok n.kind := Arena.kind_eq_ok_iff.2 ⟨n.span, hn⟩
  obtain ⟨k, span⟩ := n
  cases k with
  | field base name =>
    obtain ⟨hbase, -⟩ := htree.only_child hk rfl
    obtain ⟨found, t, hfound, h⟩ := succeeds_bind.1 h
    have hstate : s' = t := by
      split at h
      · simp only [fieldType, succeeds_bind, succeeds_read, succeeds_lift] at h
        obtain ⟨_, _, ⟨rfl, rfl⟩, fields, _, ⟨hfields, rfl⟩, h⟩ := h
        split at h
        · exact (succeeds_fail.1 h).elim
        · split at h
          · exact (succeeds_pure.1 h).2
          · exact (succeeds_fail.1 h).elim
      · exact (succeeds_fail.1 h).elim
    subst hstate
    simpa [NodeKind.children, asked] using visited_of_succeeds hsized hfound
  | element base index =>
    obtain ⟨hbase, hindex, -⟩ := htree.two_children hk rfl
    have hne : base ≠ index := Nat.ne_of_lt hindex.lt
    obtain ⟨found, t, hfound, h⟩ := succeeds_bind.1 h
    have hsized' := hsized.keeps ((hlocal _ _ _ hbase).keeps hfound)
    split at h
    · obtain ⟨found', t', hfound', h⟩ := succeeds_bind.1 h
      have hkeeps := (hlocal _ _ _ hindex).keeps hfound'
      have hrests : Rests cx base t t' :=
        hkeeps.rests hbase fun i _ hi hin => absurd hin.1 (by omega)
      split at h
      · simp only [succeeds_bind, succeeds_fail, false_and, and_false, exists_false] at h
      · obtain ⟨-, rfl⟩ := succeeds_pure.1 h
        simp only [NodeKind.children, asked, List.mem_cons, List.not_mem_nil, or_false]
        rintro c (rfl | rfl)
        · rw [if_neg hne]
          exact (visited_of_succeeds hsized hfound).rests hrests
        · rw [if_pos rfl]
          exact visited_of_succeeds hsized' hfound'
    · exact (succeeds_fail.1 h).elim
  | unary op operand =>
    obtain ⟨found, t, hfound, h⟩ := succeeds_bind.1 h
    split at h
    · exact (succeeds_fail.1 h).elim
    · simp only [succeeds_bind, succeeds_node] at h
      obtain ⟨n, _, ⟨hn', rfl⟩, h⟩ := h
      rw [succeeds_guard fun _ _ _ => succeeds_fail.1] at h
      obtain ⟨-, rfl⟩ := succeeds_pure.1 h.2
      simpa [NodeKind.children, asked] using visited_of_succeeds hsized hfound
  | binary op left right =>
    obtain ⟨hleft, hright, -⟩ := htree.two_children hk rfl
    obtain ⟨l, t, hl, h⟩ := succeeds_bind.1 h
    have hsized' := hsized.keeps ((hlocal _ _ _ hleft).keeps hl)
    obtain ⟨r, t', hr, h⟩ := succeeds_bind.1 h
    have hkeeps := (hlocal _ _ _ hright).keeps hr
    have hrests : Rests cx left t t' := hkeeps.rests hleft fun i _ hi hin => absurd hin.1 (by omega)
    split at h
    · exact (succeeds_fail.1 h).elim
    · obtain ⟨-, rfl⟩ := succeeds_pure.1 h
      simp only [NodeKind.children, asked, List.mem_cons, List.not_mem_nil, or_false]
      rintro c (rfl | rfl)
      · exact (visited_of_succeeds hsized hl).rests hrests
      · exact visited_of_succeeds hsized' hr
  | call name args => simp [NodeKind.isCall] at hcall
  | int _ | text _ | bool _ | var _ => simp [NodeKind.children]
  | _ => cases hrole

/-- The expected type matters only to calls. -/
theorem checkKind_congr_expected {id : NodeId} {e e' : Option Ty} {n : Node}
    (h : n.kind.isCall = false) : checkKind check id e n = checkKind check id e' n := by
  obtain ⟨k, span⟩ := n
  cases k with
  | call name args => cases h
  | _ => rfl

theorem succeeds_checkExpression {depth id : Nat} {e : Option Ty} {ty : Ty} :
    Succeeds (checkExpression (depth + 1) id e) cx s ty s' ↔
      ∃ n r, cx.arena.node id = .ok n ∧
        Succeeds (checkKind (checkExpression depth) id e n) cx s ty r ∧ s' = r.note id ty := by
  simp only [checkExpression, setType, succeeds_bind, succeeds_node, succeeds_modify, succeeds_pure]
  constructor
  · rintro ⟨n, _, ⟨hn, rfl⟩, _, r, hkind, _, _, rfl, rfl, rfl⟩
    exact ⟨n, r, hn, hkind, rfl⟩
  · rintro ⟨n, r, hn, hkind, rfl⟩
    exact ⟨n, s, ⟨hn, rfl⟩, ty, r, hkind, ⟨⟩, _, rfl, rfl, rfl⟩

/-- Notes about a node leave the rows of its parts. -/
theorem rests_of_child {lo id c : Nat} {k : NodeKind} {S : Nat → Prop}
    (htree : cx.arena.Tree lo id) (hk : cx.arena.kind id = .ok k) (hc : c ∈ k.children)
    (h : Keeps S s s') (hS : ∀ i, S i → i = id) : Rests cx c s s' := by
  obtain ⟨start, hstart, -, hlt⟩ := htree.child hk hc
  exact h.rests hstart fun i _ hi hSi => by have := hS i hSi; omega

theorem keeps_note {id : Nat} (hpos : 0 < id) (ty : Ty) : Keeps (· = id) s (s.note id ty) :=
  ⟨⟨SemanticInfo.size_setRow id ty, rfl⟩,
    fun _ hi hne => SemanticInfo.row_setRow_of_ne hpos hi hne ty, fun _ _ _ => rfl⟩

theorem keeps_noteTarget {id : Nat} (hpos : 0 < id) (target : CallTarget) :
    Keeps (· = id) s { s with targets := SemanticInfo.setRow s.targets id target } :=
  ⟨⟨rfl, SemanticInfo.size_setRow id target⟩, fun _ _ _ => rfl,
    fun _ hi hne => SemanticInfo.row_setRow_of_ne hpos hi hne target⟩

/-- The parts of an expression are expressions. -/
theorem hasRole_part {lo id c : Nat} {k : NodeKind} (htree : cx.arena.Tree lo id)
    (hk : cx.arena.kind id = .ok k) (hrole : k.role = .expression) (hc : c ∈ k.children) :
    cx.arena.HasRole .expression c := by
  obtain ⟨role, hmem, hhas⟩ := Outcome.exists_of_forall₂_right (htree.roles hk) hc
  obtain rfl : role = .expression := by
    cases k <;> simp_all [NodeKind.partRoles, NodeKind.role]
  exact hhas

/-- A successful check notes the type of the expression. -/
theorem checkExpression_noted {depth lo id : Nat} {e : Option Ty} {ty : Ty}
    (htree : cx.arena.Tree lo id) (hsized : s.Sized cx)
    (h : Succeeds (checkExpression depth id e) cx s ty s') :
    SemanticInfo.row s'.types id = some ty := by
  cases depth with
  | zero => exact (succeeds_throw.1 h).elim
  | succ depth =>
    have hsized' := hsized.keeps ((within_checkExpression htree e).keeps h)
    obtain ⟨n, r, hn, -, rfl⟩ := succeeds_checkExpression.1 h
    have hbounds := Arena.bounds_of_kind (Arena.kind_eq_ok_iff.2 ⟨n.span, hn⟩)
    have hsize : r.types.size = cx.arena.size := by
      rw [← hsized'.1, State.note, SemanticInfo.size_setRow]
    exact SemanticInfo.row_setRow_self hbounds.1 (by rw [hsize]; exact hbounds.2) ty

/-- What a successful check of an expression that is no call has done. -/
theorem plain_visited {depth lo id : Nat} {e : Option Ty} {k : NodeKind} {ty : Ty}
    (htree : cx.arena.Tree lo id) (hk : cx.arena.kind id = .ok k) (hrole : k.role = .expression)
    (hcall : k.isCall = false) (hsized : s.Sized cx)
    (h : Succeeds (checkExpression (depth + 1) id e) cx s ty s') :
    ∀ c ∈ k.children, Visited cx (checkExpression depth) c (asked k c) s' := by
  obtain ⟨n, r, hn, hkind, rfl⟩ := succeeds_checkExpression.1 h
  obtain rfl := Except.ok.inj (hk.symm.trans (Arena.kind_eq_ok_iff.2 ⟨n.span, hn⟩))
  intro c hc
  have hvisit := checkKind_visited (local_checkExpression depth) hn htree hrole hcall hsized
    hkind c hc
  exact hvisit.rests (rests_of_child htree hk hc
    (keeps_note (Arena.bounds_of_kind hk).1 ty) fun i hi => hi)

/-- What a successful check of a call has done. -/
theorem call_visited {depth lo id : Nat} {e : Option Ty} {name : String} {args : List NodeId}
    {ty : Ty} (htree : cx.arena.Tree lo id) (hk : cx.arena.kind id = .ok (.call name args))
    (hsized : s.Sized cx) (h : Succeeds (checkExpression (depth + 1) id e) cx s ty s') :
    ∃ typed sig r, Succeeds (select (checkExpression depth) id name args e) cx s
      (typed, some sig) r ∧ ty = sig.returnType ∧ args.length = sig.params.length ∧
      SemanticInfo.row s'.targets id = some (target name sig) ∧ ∀ q ∈ args.zip sig.params,
        Visited cx (checkExpression depth) q.1 (argumentExpectation cx.arena q.1 q.2) s' := by
  obtain ⟨n, r, hn, hkind, rfl⟩ := succeeds_checkExpression.1 h
  obtain ⟨span, hnode⟩ := Arena.kind_eq_ok_iff.1 hk
  obtain rfl := Except.ok.inj (hnode.symm.trans hn)
  obtain ⟨typed, sig, r, r', hselect, hsettle, rfl, rfl⟩ := succeeds_checkCall.1 hkind
  obtain ⟨parts, rfl, hargs⟩ := exists_arguments htree hk
  obtain ⟨hlength, hsized', hvisits⟩ :=
    arguments_visited (local_checkExpression depth) hargs hsized hselect hsettle
  have hbounds := Arena.bounds_of_kind hk
  refine ⟨typed, sig, r, hselect, rfl, by simpa using hlength, ?_, fun q hq => ?_⟩
  · exact SemanticInfo.row_setRow_self hbounds.1 (by rw [hsized'.2]; exact hbounds.2) _
  · rw [List.zip_map_left] at hq
    obtain ⟨p, hp, rfl⟩ := List.mem_map.1 hq
    have hchild : p.1.1 ∈ (NodeKind.call name (parts.map Prod.fst)).children :=
      List.mem_map_of_mem (List.of_mem_zip hp).1
    refine (hvisits p hp).rests (rests_of_child htree hk hchild (S := (· = id)) ?_ fun i hi => hi)
    exact (keeps_noteTarget hbounds.1 (target name sig)).trans
      (keeps_note hbounds.1 sig.returnType)

/-! ### Two runs on one expression -/

/-- Equal types in the subtree at `c`, and equal targets of its calls. -/
def Same (cx : Context) (c : Nat) (s t : State) : Prop :=
  ∀ i, cx.arena.Below c i → SemanticInfo.row s.types i = SemanticInfo.row t.types i ∧
    (cx.arena.isCall i = true → SemanticInfo.row s.targets i = SemanticInfo.row t.targets i)

/-- Two visits against one type leave the same rows. -/
theorem same_of_visited {depth c : Nat} {e : Option Ty}
    (ih : ∀ s ty s' t ty' t', s.Sized cx → t.Sized cx →
      Succeeds (checkExpression depth c e) cx s ty s' →
      Succeeds (checkExpression depth c e) cx t ty' t' → Same cx c s' t')
    (h : Visited cx (checkExpression depth) c e s) (h' : Visited cx (checkExpression depth) c e t) :
    Same cx c s t := by
  obtain ⟨r, ty, r', hr, hrun, hrests⟩ := h
  obtain ⟨q, ty', q', hq, hrun', hrests'⟩ := h'
  intro i hi
  obtain ⟨htypes, htargets⟩ := ih r ty r' q ty' q' hr hq hrun hrun' i hi
  exact ⟨(hrests i hi).1.trans (htypes.trans (hrests' i hi).1.symm), fun hcall =>
    (hrests i hi).2.trans ((htargets hcall).trans (hrests' i hi).2.symm)⟩

/-- Runs on one node that give the same type and take the same overload, and leave equal rows in the
parts, leave equal rows. -/
theorem same_of_parts {depth lo id : Nat} {e e' : Option Ty} {ty : Ty}
    (htree : cx.arena.Tree lo id) (hrole : cx.arena.HasRole .expression id)
    (hs : s.Sized cx) (ht : t.Sized cx)
    (hrun : Succeeds (checkExpression (depth + 1) id e) cx s ty s')
    (hrun' : Succeeds (checkExpression (depth + 1) id e') cx t ty t')
    (hselect : ∀ name args typed typed' sig sig' r r', cx.arena.kind id = .ok (.call name args) →
      Succeeds (select (checkExpression depth) id name args e) cx s (typed, some sig) r →
      Succeeds (select (checkExpression depth) id name args e') cx t (typed', some sig') r' →
      sig = sig')
    (hparts : ∀ k c e start, cx.arena.kind id = .ok k → c ∈ k.children →
      cx.arena.HasRole .expression c → cx.arena.Tree start c →
      Visited cx (checkExpression depth) c e s' → Visited cx (checkExpression depth) c e t' →
      Same cx c s' t') : Same cx id s' t' := by
  obtain ⟨k, hk, hrole⟩ := hrole
  have hself : SemanticInfo.row s'.types id = SemanticInfo.row t'.types id :=
    (checkExpression_noted htree hs hrun).trans (checkExpression_noted htree ht hrun').symm
  intro i hi
  cases hcall : k.isCall with
  | false =>
    have hvisits := plain_visited htree hk hrole hcall hs hrun
    have hvisits' := plain_visited htree hk hrole hcall ht hrun'
    cases hi with
    | self =>
      refine ⟨hself, fun hcall' => ?_⟩
      rw [Arena.isCall_of_kind hk, hcall] at hcall'
      cases hcall'
    | child hk' hc hi =>
      obtain rfl := Except.ok.inj (hk.symm.trans hk')
      have hr := hasRole_part htree hk hrole hc
      obtain ⟨start, hstart, -⟩ := htree.child hk hc
      exact hparts k _ _ start hk hc hr hstart (hvisits _ hc) (hvisits' _ hc) i hi
  | true =>
    obtain ⟨name, args, rfl⟩ := NodeKind.exists_of_isCall hcall
    obtain ⟨typed, sig, r, hsel, -, hlength, htarget, hvisits⟩ := call_visited htree hk hs hrun
    obtain ⟨typed', sig', r', hsel', -, -, htarget', hvisits'⟩ := call_visited htree hk ht hrun'
    obtain rfl := hselect name args typed typed' sig sig' r r' hk hsel hsel'
    cases hi with
    | self => exact ⟨hself, fun _ => htarget.trans htarget'.symm⟩
    | child hk' hc hi =>
      obtain rfl := Except.ok.inj (hk.symm.trans hk')
      have hr := hasRole_part htree hk hrole hc
      obtain ⟨start, hstart, -⟩ := htree.child hk hc
      -- every argument has a parameter, which gives the type that both runs checked it against
      have hzip : (args.zip sig.params).map Prod.fst = args :=
        List.map_fst_zip (Nat.le_of_eq hlength)
      obtain ⟨q, hq, rfl⟩ := List.mem_map.1 (hzip.symm ▸ hc)
      exact hparts _ _ _ start hk hc hr hstart (hvisits _ hq) (hvisits' _ hq) i hi

/-- A successful check determines the rows of the subtree. -/
theorem checkExpression_same {depth lo id : Nat} {e : Option Ty} {ty ty' : Ty}
    (htree : cx.arena.Tree lo id) (hrole : cx.arena.HasRole .expression id)
    (hdepth : cx.arena.Within depth id) (hs : s.Sized cx) (ht : t.Sized cx)
    (hrun : Succeeds (checkExpression depth id e) cx s ty s')
    (hrun' : Succeeds (checkExpression depth id e) cx t ty' t') : Same cx id s' t' := by
  induction depth generalizing lo id e s s' t t' ty ty' with
  | zero => exact absurd hdepth Arena.not_within_zero
  | succ depth ih =>
    obtain rfl := (indifferent_checkExpression hdepth e).eq hrun hrun'
    refine same_of_parts htree hrole hs ht hrun hrun' ?_ fun k c x start hk hc hr hstart => ?_
    · intro name args typed typed' sig sig' r r' hk hsel hsel'
      have hsame := (indifferent_select fun arg harg x =>
        indifferent_checkExpression (hdepth.child hk harg) x).eq hsel hsel'
      exact Option.some.inj (congrArg Prod.snd hsame)
    · exact same_of_visited fun _ _ _ _ _ _ hs ht hrun hrun' =>
        ih hstart hr (hdepth.child hk hc) hs ht hrun hrun'

/-- An expression that a check accepts is accepted where its own type is expected, and its rows are
the same then. -/
theorem checkExpression_own_type {depth lo id : Nat} {e : Option Ty} {ty : Ty}
    (htree : cx.arena.Tree lo id) (hrole : cx.arena.HasRole .expression id)
    (hdepth : cx.arena.Within depth id) (hs : s.Sized cx) (ht : t.Sized cx)
    (hrun : Succeeds (checkExpression depth id e) cx s ty s') :
    ∃ t', Succeeds (checkExpression depth id (some ty)) cx t ty t' ∧ Same cx id s' t' := by
  cases depth with
  | zero => exact absurd hdepth Arena.not_within_zero
  | succ depth =>
    obtain ⟨n, r, hn, hkind, rfl⟩ := succeeds_checkExpression.1 hrun
    have hk : cx.arena.kind id = .ok n.kind := Arena.kind_eq_ok_iff.2 ⟨n.span, hn⟩
    have hparts : ∀ c ∈ n.kind.children, ∀ x, Indifferent cx (checkExpression depth c x) :=
      fun c hc x => indifferent_checkExpression (hdepth.child hk hc) x
    cases hcall : n.kind.isCall with
    | false =>
      have hrun' : Succeeds (checkExpression (depth + 1) id (some ty)) cx s ty (r.note id ty) := by
        refine succeeds_checkExpression.2 ⟨n, r, hn, ?_, rfl⟩
        rwa [checkKind_congr_expected hcall]
      obtain ⟨t', ht'⟩ := (indifferent_checkExpression hdepth _).succeeds hrun' t
      exact ⟨t', ht', checkExpression_same htree hrole hdepth hs ht hrun' ht'⟩
    | true =>
      obtain ⟨k, span⟩ := n
      obtain ⟨name, args, rfl⟩ := NodeKind.exists_of_isCall hcall
      obtain ⟨typed, sig, q, q', hselect, hsettle, rfl, rfl⟩ := succeeds_checkCall.1 hkind
      obtain ⟨t₁, hselect'⟩ := select_own_type hparts hselect t
      have hargs := argumentTypes_mem hselect
      obtain ⟨t₂, hsettle'⟩ := Indifferent.succeeds (tandem_settle (fun _ _ => rfl)
        fun p hp => hparts p.1 (hargs p hp)) hsettle t₁
      have hrun' := succeeds_checkExpression.2 ⟨_, _, hn, succeeds_checkCall.2
        ⟨typed, sig, t₁, t₂, hselect', hsettle', rfl, rfl⟩, rfl⟩
      refine ⟨_, hrun', same_of_parts htree hrole hs ht hrun hrun' ?_ ?_⟩
      · intro name' args' typed₁ typed₂ sig₁ sig₂ r₁ r₂ hk' hsel hsel'
        obtain ⟨rfl, rfl⟩ := NodeKind.call.inj (Except.ok.inj (hk.symm.trans hk'))
        have h₁ := (indifferent_select hparts).eq hsel hselect
        have h₂ := (indifferent_select hparts).eq hsel' hselect'
        exact Option.some.inj (congrArg Prod.snd (h₁.trans h₂.symm))
      · exact fun k c x start hk' hc hr hstart =>
          same_of_visited fun _ _ _ _ _ _ hs ht hrun hrun' =>
          checkExpression_same hstart hr (hdepth.child hk' hc) hs ht hrun hrun'

end Typing

end MiniJ
