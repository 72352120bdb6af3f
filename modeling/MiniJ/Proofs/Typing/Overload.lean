import MiniJ.Proofs.Typing.Faultless

/-!
# The overload a call takes

A call takes the first overload of its name that qualifies: it has as many parameters as there are
arguments, it returns the type that is expected, the arguments that are no calls have the types of
their parameters, and the arguments that are calls resolve, by the same rule, where the types of
their parameters are expected. The rule says nothing of tables; the checker follows it from
whatever the tables hold.

## Main definitions

* `Typing.Qualifies`, `Typing.Resolves` — the rule.
* `Typing.Gives` — a part of the pass gives a value from any tables.

## Main statements

* `Typing.callFollows` — one call, whose arguments are understood already.
* `Typing.accepts_iff_resolvesWithin` — nested calls.
* `Arena.call_takes_first_match` — the calls of a bound program.
-/
namespace MiniJ

namespace Typing

variable {α β : Type} {cx : Context} {s s' : State}

/-! ### The rule -/

/-- `x` is the first of `xs` with property `P`. -/
def First (P : α → Prop) (xs : List α) (x : α) : Prop :=
  ∃ front back, xs = front ++ x :: back ∧ P x ∧ ∀ y ∈ front, ¬P y

theorem first_congr {P Q : α → Prop} {xs : List α} {x : α} (h : ∀ y ∈ xs, P y ↔ Q y) :
    First P xs x ↔ First Q xs x := by
  unfold First
  constructor <;> rintro ⟨front, back, rfl, hx, hfront⟩
  · exact ⟨front, back, rfl, (h x (by simp)).1 hx, fun y hy hQ =>
      hfront y hy ((h y (by simp [hy])).2 hQ)⟩
  · exact ⟨front, back, rfl, (h x (by simp)).2 hx, fun y hy hP =>
      hfront y hy ((h y (by simp [hy])).1 hP)⟩

theorem first_cons_of_pos {P : α → Prop} {x y : α} {xs : List α} (h : P x) :
    First P (x :: xs) y ↔ x = y := by
  constructor
  · rintro ⟨_ | ⟨z, front⟩, back, heq, -, hfront⟩
    · exact (List.cons.inj heq).1
    · obtain ⟨rfl, -⟩ := List.cons.inj heq
      exact absurd h (hfront x (by simp))
  · rintro rfl
    exact ⟨[], xs, rfl, h, by simp⟩

theorem first_cons_of_neg {P : α → Prop} {x y : α} {xs : List α} (h : ¬P x) :
    First P (x :: xs) y ↔ First P xs y := by
  constructor
  · rintro ⟨_ | ⟨z, front⟩, back, heq, hy, hfront⟩
    · obtain ⟨rfl, -⟩ := List.cons.inj heq
      exact absurd hy h
    · exact ⟨front, back, (List.cons.inj heq).2, hy, fun z hz => hfront z (by simp [hz])⟩
  · rintro ⟨front, back, rfl, hy, hfront⟩
    exact ⟨x :: front, back, rfl, hy, by simpa [h] using hfront⟩

theorem First.mem {P : α → Prop} {xs : List α} {x : α} (h : First P xs x) : x ∈ xs ∧ P x := by
  obtain ⟨front, back, rfl, hx, -⟩ := h
  exact ⟨by simp, hx⟩

theorem exists_first {P : α → Prop} {xs : List α} {x : α} (hx : x ∈ xs) (h : P x) :
    ∃ y, First P xs y := by
  induction xs with
  | nil => cases hx
  | cons z xs ih =>
    by_cases hz : P z
    · exact ⟨z, (first_cons_of_pos hz).2 rfl⟩
    · rcases List.mem_cons.1 hx with rfl | hx
      · exact absurd h hz
      · obtain ⟨y, hy⟩ := ih hx
        exact ⟨y, (first_cons_of_neg hz).2 hy⟩

theorem First.iff_eq {P : α → Prop} {xs : List α} {x y : α} (hx : First P xs x) :
    First P xs y ↔ x = y := by
  refine ⟨fun hy => ?_, fun heq => heq ▸ hx⟩
  induction xs with
  | nil => simpa using hx.mem.1
  | cons z xs ih =>
    by_cases hz : P z
    · exact ((first_cons_of_pos hz).1 hx).symm.trans ((first_cons_of_pos hz).1 hy)
    · exact ih ((first_cons_of_neg hz).1 hx) ((first_cons_of_neg hz).1 hy)

/-- Every run of `x` gives `v`, whatever the tables hold. -/
def Gives (cx : Context) (x : CheckM α) (v : α) : Prop := ∀ s, (outcome x cx s).1 = .ok v

/-- The type of an expression that stands on its own. -/
abbrev Context.HasType (cx : Context) (e : NodeId) (ty : Ty) : Prop :=
  Gives cx (checkRoot e none) ty

/-- An overload qualifies for arguments and an expected type; `resolves` tells which calls resolve
where a type is expected. -/
structure Qualifies (cx : Context) (resolves : NodeId → Ty → Prop) (args : List NodeId)
    (expected : Option Ty) (sig : Signature) : Prop where
  arity : sig.params.length = args.length
  result : ∀ ty, expected = some ty → sig.returnType = ty
  plain : ∀ p ∈ args.zip sig.params, cx.arena.isCall p.1 = false → cx.HasType p.1 p.2.ty
  calls : ∀ p ∈ args.zip sig.params, cx.arena.isCall p.1 = true → resolves p.1 p.2.ty

/-- Reference parameters get places. -/
def PlacesGiven (a : Arena) (args : List NodeId) (params : List Binder) : Prop :=
  ∀ p ∈ args.zip params, p.2.isReference = true → a.IsPlace p.1

/-- A call nested at most `depth` deep resolves where a type is expected: an overload is first to
qualify, and its reference parameters get places. -/
def ResolvesWithin (cx : Context) (overloads : String → List Signature) : Nat → NodeId → Ty → Prop
  | 0, _, _ => False
  | depth + 1, id, ty => ∃ name args sig, cx.arena.kind id = .ok (.call name args) ∧
      First (Qualifies cx (ResolvesWithin cx overloads depth) args (some ty)) (overloads name) sig ∧
      PlacesGiven cx.arena args sig.params

/-- A call resolves where a type is expected. -/
def Resolves (cx : Context) (overloads : String → List Signature) : NodeId → Ty → Prop :=
  ResolvesWithin cx overloads cx.arena.depthLimit

theorem qualifies_congr {resolves resolves' : NodeId → Ty → Prop} {args : List NodeId}
    {expected : Option Ty} {sig : Signature}
    (h : ∀ arg ∈ args, cx.arena.isCall arg = true → ∀ ty, resolves arg ty ↔ resolves' arg ty) :
    Qualifies cx resolves args expected sig ↔ Qualifies cx resolves' args expected sig := by
  have hcalls : ∀ p ∈ args.zip sig.params, cx.arena.isCall p.1 = true →
      (resolves p.1 p.2.ty ↔ resolves' p.1 p.2.ty) :=
    fun p hp hcall => h p.1 (List.of_mem_zip hp).1 hcall p.2.ty
  constructor
  · rintro ⟨harity, hresult, hplain, hresolves⟩
    exact ⟨harity, hresult, hplain, fun p hp hcall => (hcalls p hp hcall).1 (hresolves p hp hcall)⟩
  · rintro ⟨harity, hresult, hplain, hresolves⟩
    exact ⟨harity, hresult, hplain, fun p hp hcall => (hcalls p hp hcall).2 (hresolves p hp hcall)⟩

/-! ### Results from any tables -/

theorem Gives.succeeds {x : CheckM α} {v : α} (h : Gives cx x v) (s : State) :
    ∃ s', Succeeds x cx s v s' := ⟨_, Prod.ext (h s) rfl⟩

theorem Indifferent.gives {x : CheckM α} {v : α} (h : Indifferent cx x)
    (hx : Succeeds x cx s v s') : Gives cx x v := by
  intro t
  obtain ⟨t', ht⟩ := h.succeeds hx t
  exact congrArg Prod.fst ht

theorem Gives.unique {x : CheckM α} {v w : α} (h : Gives cx x v) (h' : Gives cx x w) : v = w :=
  Except.ok.inj ((h ⟨#[], #[]⟩).symm.trans (h' ⟨#[], #[]⟩))

theorem gives_pure (v : α) : Gives cx (pure v) v := fun _ => rfl

theorem gives_bind {x : CheckM α} {f : α → CheckM β} {v : α} {w : β} (hx : Gives cx x v)
    (hf : Gives cx (f v) w) : Gives cx (x >>= f) w := by
  intro s
  obtain ⟨s', hs⟩ := hx.succeeds s
  obtain ⟨t, ht⟩ := hf.succeeds s'
  exact congrArg Prod.fst (succeeds_bind.2 ⟨v, s', hs, ht⟩)

theorem gives_node {id : NodeId} {n : Node} (h : cx.arena.node id = .ok n) : Gives cx (node id) n :=
  fun _ => congrArg Prod.fst (succeeds_node.2 ⟨h, rfl⟩)

/-- A trial tells whether a check gives a value, if the check never faults. -/
theorem exists_gives_attempt {x : CheckM α} (hx : Indifferent cx x) (hfault : Faultless cx x) :
    ∃ found, Gives cx (attempt x) found ∧ ∀ v, found = some v ↔ Gives cx x v := by
  have hattempt : Indifferent cx (attempt x) := tandem_attempt hx
  have hrun : outcome (attempt x) cx ⟨#[], #[]⟩ = _ := outcome_attempt
  rcases hr : outcome x cx ⟨#[], #[]⟩ with ⟨(e | f) | v, t⟩ <;> rw [hr] at hrun
  rotate_left
  · exact absurd (congrArg Prod.fst hr) (hfault _ f)
  rotate_left
  · refine ⟨none, Indifferent.gives hattempt hrun, fun v => ⟨nofun, fun hv => ?_⟩⟩
    have hok := hv ⟨#[], #[]⟩
    rw [hr] at hok
    cases hok
  · have hgives : Gives cx x v := Indifferent.gives hx hr
    refine ⟨some v, Indifferent.gives hattempt hrun, fun w => ⟨?_, fun hw => ?_⟩⟩
    · rintro ⟨⟩
      exact hgives
    · rw [hgives.unique hw]

/-! ### Choosing -/

/-- What the checker knows of an argument before it looks at the overloads. -/
structure Known (cx : Context) (arg : NodeId) (p : NodeId × Option Ty) : Prop where
  id : p.1 = arg
  call : cx.arena.isCall arg = true → p.2 = none
  plain : cx.arena.isCall arg = false → ∃ ty, p.2 = some ty ∧ cx.HasType arg ty

/-- An argument is as good as a parameter of this type asks for. -/
def Fit (cx : Context) (p : NodeId × Option Ty) (ty : Ty) : Prop :=
  match p.2 with
  | some found => found = ty
  | none => Gives cx (checkRoot p.1 (some ty)) ty

/-- Whether an argument resolves where the type of a parameter is expected. -/
abbrev Accepts (cx : Context) (arg : NodeId) (ty : Ty) : Prop :=
  Gives cx (checkRoot arg (some ty)) ty

theorem Known.fit_iff {arg : NodeId} {p : NodeId × Option Ty} (h : Known cx arg p) (ty : Ty) :
    Fit cx p ty ↔ (cx.arena.isCall arg = false → cx.HasType arg ty) ∧
      (cx.arena.isCall arg = true → Accepts cx arg ty) := by
  obtain ⟨arg', found⟩ := p
  obtain rfl : arg' = arg := h.id
  cases hcall : cx.arena.isCall arg' with
  | true =>
    obtain rfl : found = none := h.call hcall
    simp [Fit]
  | false =>
    obtain ⟨ty', hfound, hty'⟩ := h.plain hcall
    obtain rfl : found = some ty' := hfound
    have hiff : ty' = ty ↔ cx.HasType arg' ty := ⟨fun heq => heq ▸ hty', hty'.unique⟩
    simpa [Fit] using hiff

/-- The checks of an argument depend on no table and do not fault, and the tables keep their
sizes. -/
structure Sound (cx : Context) (arg : NodeId) : Prop where
  indifferent : ∀ e, Indifferent cx (checkRoot arg e)
  faultless : ∀ e, Faultless cx (checkRoot arg e)
  sized : ∀ e, Within (fun _ => True) (checkRoot arg e) cx

theorem exists_gives_argumentTypes {args : List NodeId}
    (hkind : ∀ arg ∈ args, ∃ k, cx.arena.kind arg = .ok k)
    (hwell : ∀ arg ∈ args, cx.arena.isCall arg = false → ∃ ty, cx.HasType arg ty) :
    ∃ typed, Gives cx (argumentTypes checkRoot args) typed ∧
    List.Forall₂ (Known cx) args typed := by
  induction args with
  | nil => exact ⟨[], gives_pure [], .nil⟩
  | cons arg args ih =>
    obtain ⟨k, hk⟩ := hkind arg (.head _)
    obtain ⟨span, hnode⟩ := Arena.kind_eq_ok_iff.1 hk
    obtain ⟨typed, htyped, hknown⟩ := ih (fun x hx => hkind x (.tail _ hx))
      fun x hx => hwell x (.tail _ hx)
    obtain ⟨p, hp, hknown'⟩ : ∃ p, Gives cx (do
        if (← node arg).kind.isCall then return (arg, none)
        else return (arg, some (← checkRoot arg none))) p ∧ Known cx arg p := by
      cases hcall : k.isCall with
      | true =>
        refine ⟨(arg, none), gives_bind (gives_node hnode) ?_, rfl, fun _ => rfl, ?_⟩
        · rw [if_pos hcall]
          exact gives_pure _
        · simp [Arena.isCall_of_kind hk, hcall]
      | false =>
        obtain ⟨ty, hty⟩ := hwell arg (.head _) (by rw [Arena.isCall_of_kind hk, hcall])
        refine ⟨(arg, some ty), gives_bind (gives_node hnode) ?_, rfl, ?_, fun _ => ⟨ty, rfl, hty⟩⟩
        · rw [if_neg (by simp [hcall])]
          exact gives_bind hty (gives_pure _)
        · simp [Arena.isCall_of_kind hk, hcall]
    refine ⟨p :: typed, ?_, .cons hknown' hknown⟩
    unfold argumentTypes
    rw [List.mapM_cons]
    exact gives_bind hp (gives_bind htyped (gives_pure _))

theorem exists_gives_fits {p : NodeId × Option Ty} (h : Sound cx p.1) (ty : Ty) :
    ∃ b, Gives cx (fits checkRoot ty p) b ∧ (b = true ↔ Fit cx p ty) := by
  obtain ⟨arg, _ | found⟩ := p
  · obtain ⟨found, hfound, hiff⟩ := exists_gives_attempt (h.indifferent (some ty)) (h.faultless _)
    refine ⟨decide (found = some ty), gives_bind hfound (gives_pure _), ?_⟩
    rw [decide_eq_true_iff]
    exact hiff ty
  · exact ⟨decide (found = ty), gives_pure _, by simp [Fit]⟩

theorem exists_gives_allFit {typed : List (NodeId × Option Ty)} (h : ∀ p ∈ typed, Sound cx p.1)
    (params : List Binder) : ∃ b, Gives cx (allFit checkRoot typed params) b ∧
      (b = true ↔ ∀ q ∈ typed.zip params, Fit cx q.1 q.2.ty) := by
  induction typed generalizing params with
  | nil => exact ⟨true, gives_pure _, by simp⟩
  | cons p typed ih =>
    cases params with
    | nil => exact ⟨true, gives_pure _, by simp⟩
    | cons param params =>
      obtain ⟨b, hb, hfit⟩ := exists_gives_fits (h p (.head _)) param.ty
      obtain ⟨b', hb', hrest⟩ := ih (fun q hq => h q (.tail _ hq)) params
      rw [List.zip_cons_cons, List.forall_mem_cons]
      cases b with
      | false => exact ⟨false, gives_bind hb (gives_pure _), by simp [← hfit]⟩
      | true => exact ⟨b', gives_bind hb hb', by simp [← hfit, hrest]⟩

/-- The condition under which a candidate is taken. -/
def Taken (cx : Context) (typed : List (NodeId × Option Ty)) (expected : Option Ty)
    (sig : Signature) : Prop :=
  sig.params.length = typed.length ∧ (∀ ty, expected = some ty → sig.returnType = ty) ∧
    ∀ q ∈ typed.zip sig.params, Fit cx q.1 q.2.ty

theorem any_ne_iff {expected : Option Ty} {ty : Ty} :
    expected.any (· ≠ ty) = true ↔ ∃ found, expected = some found ∧ ty ≠ found := by
  cases expected with
  | none => simp
  | some found => simpa using ne_comm

theorem exists_gives_choose {typed : List (NodeId × Option Ty)} (h : ∀ p ∈ typed, Sound cx p.1)
    (expected : Option Ty) (overloads : List Signature) :
    ∃ chosen, Gives cx (choose checkRoot typed expected overloads) chosen ∧
      ∀ sig, chosen = some sig ↔ First (Taken cx typed expected) overloads sig := by
  induction overloads with
  | nil => exact ⟨none, gives_pure _, fun sig => ⟨nofun, fun hfirst => nomatch hfirst.mem.1⟩⟩
  | cons candidate rest ih =>
    obtain ⟨chosen, hchosen, hfirst⟩ := ih
    have hskip (hneg : ¬Taken cx typed expected candidate) (sig : Signature) :
        chosen = some sig ↔ First (Taken cx typed expected) (candidate :: rest) sig := by
      rw [hfirst, first_cons_of_neg hneg]
    unfold choose
    split
    · next harity => exact ⟨chosen, hchosen, hskip fun htaken => harity htaken.1⟩
    · next harity =>
      split
      · next hexpected =>
        refine ⟨chosen, hchosen, hskip fun htaken => ?_⟩
        obtain ⟨ty, rfl, hne⟩ := any_ne_iff.1 hexpected
        exact hne (htaken.2.1 ty rfl)
      · next hexpected =>
        obtain ⟨b, hb, hfits⟩ := exists_gives_allFit h candidate.params
        cases b with
        | false =>
          refine ⟨chosen, gives_bind hb hchosen, hskip fun htaken => ?_⟩
          exact absurd (hfits.2 htaken.2.2) (by simp)
        | true =>
          refine ⟨some candidate, gives_bind hb (gives_pure _), fun sig => ?_⟩
          have htaken : Taken cx typed expected candidate := by
            refine ⟨not_not.1 harity, fun ty hty => ?_, hfits.1 rfl⟩
            exact not_not.1 fun hne => hexpected (any_ne_iff.2 ⟨ty, hty, hne⟩)
          rw [first_cons_of_pos htaken, Option.some.injEq]

theorem exists_gives_describe {typed : List (NodeId × Option Ty)} (h : ∀ p ∈ typed, Sound cx p.1) :
    ∃ types, Gives cx (describe checkRoot typed) types := by
  induction typed with
  | nil => exact ⟨[], gives_pure []⟩
  | cons p typed ih =>
    obtain ⟨types, htypes⟩ := ih fun q hq => h q (.tail _ hq)
    unfold describe
    rw [List.mapM_cons]
    obtain ⟨arg, _ | ty⟩ := p
    · have hsound := h (arg, none) (.head _)
      obtain ⟨ty, hty, -⟩ :=
        exists_gives_attempt (hsound.indifferent none) (hsound.faultless none)
      exact ⟨ty :: types, gives_bind hty (gives_bind htypes (gives_pure _))⟩
    · exact ⟨some ty :: types, gives_bind (gives_pure _) (gives_bind htypes (gives_pure _))⟩

/-! ### One call -/

theorem Known.taken_iff {args : List NodeId} {typed : List (NodeId × Option Ty)}
    (h : List.Forall₂ (Known cx) args typed) (expected : Option Ty) (sig : Signature) :
    Taken cx typed expected sig ↔ Qualifies cx (Accepts cx) args expected sig := by
  have hlength : args.length = typed.length := h.length_eq
  have hfit : (∀ q ∈ typed.zip sig.params, Fit cx q.1 q.2.ty) ↔ ∀ p ∈ args.zip sig.params,
      (cx.arena.isCall p.1 = false → cx.HasType p.1 p.2.ty) ∧
        (cx.arena.isCall p.1 = true → Accepts cx p.1 p.2.ty) := by
    generalize sig.params = params
    clear hlength
    induction h generalizing params with
    | nil => simp
    | cons hknown _ ih =>
      cases params with
      | nil => simp
      | cons param params =>
        rw [List.zip_cons_cons, List.zip_cons_cons, List.forall_mem_cons, List.forall_mem_cons, ih,
          hknown.fit_iff]
  rw [Taken, hfit, ← hlength]
  constructor
  · rintro ⟨harity, hresult, hargs⟩
    exact ⟨harity, hresult, fun p hp => (hargs p hp).1, fun p hp => (hargs p hp).2⟩
  · rintro ⟨harity, hresult, hplain, hcalls⟩
    exact ⟨harity, hresult, fun p hp => ⟨hplain p hp, hcalls p hp⟩⟩

/-- A reference parameter requires a place before the rest is settled. -/
def requirePlace (param : Binder) (argument : Node) (rest : CheckM Unit) : CheckM Unit := do
  if param.isReference && !argument.kind.isPlace then
    fail (.referenceToNonPlace param.name) argument.span
  rest

theorem settle_cons (check : Checker) (p : NodeId × Option Ty) (args : List (NodeId × Option Ty))
    (param : Binder) (params : List Binder) : settle check (p :: args) (param :: params) = (do
      let argument ← node p.1
      if argument.kind.isCall then
        let _ ← check p.1 (some param.ty)
      requirePlace param argument (settle check args params)) := rfl

theorem outcome_requirePlace {param : Binder} {argument : Node} {rest : CheckM Unit} :
    outcome (requirePlace param argument rest) cx s =
      if param.isReference = true → argument.kind.isPlace = true then outcome rest cx s
      else (.error (.reported ⟨.referenceToNonPlace param.name, argument.span⟩), s) := by
  cases hreference : param.isReference <;> cases hplace : argument.kind.isPlace <;>
    simp only [requirePlace, hreference, hplace] <;> rfl

theorem Arena.isPlace_iff {a : Arena} {id : NodeId} {k : NodeKind} (hk : a.kind id = .ok k) :
    a.IsPlace id ↔ k.isPlace = true := by
  constructor
  · rintro ⟨k', hk', hplace⟩
    rwa [Except.ok.inj (hk.symm.trans hk')] at *
  · exact fun hplace => ⟨k, hk, hplace⟩

/-- Settling a call whose arguments fit checks them for a last time without an error, unless a
reference parameter does not get a place. -/
theorem settle_follows {args : List NodeId} {typed : List (NodeId × Option Ty)}
    (h : List.Forall₂ (Known cx) args typed) (hkind : ∀ arg ∈ args, ∃ k, cx.arena.kind arg = .ok k)
    {params : List Binder} (haccepts : ∀ p ∈ args.zip params, cx.arena.isCall p.1 = true →
      Accepts cx p.1 p.2.ty) (s : State) :
    (PlacesGiven cx.arena args params → ∃ s', Succeeds (settle checkRoot typed params) cx s () s') ∧
    (¬PlacesGiven cx.arena args params → ∃ name span,
      (outcome (settle checkRoot typed params) cx s).1 =
        .error (.reported ⟨.referenceToNonPlace name, span⟩)) := by
  induction h generalizing params s with
  | nil => exact ⟨fun _ => ⟨s, rfl⟩, fun hno => absurd (by simp [PlacesGiven]) hno⟩
  | @cons arg p args typed hknown hrest ih =>
    cases params with
    | nil => exact ⟨fun _ => ⟨s, rfl⟩, fun hno => absurd (by simp [PlacesGiven]) hno⟩
    | cons param params =>
      obtain ⟨k, hk⟩ := hkind arg (.head _)
      obtain ⟨span, hnode⟩ := Arena.kind_eq_ok_iff.1 hk
      rw [List.zip_cons_cons, List.forall_mem_cons] at haccepts
      have hplaces : PlacesGiven cx.arena (arg :: args) (param :: params) ↔
          (param.isReference = true → k.isPlace = true) ∧ PlacesGiven cx.arena args params := by
        rw [PlacesGiven, List.zip_cons_cons, List.forall_mem_cons, Arena.isPlace_iff hk]
        rfl
      -- the place is required behind the last check of the argument, if it is a call
      obtain ⟨t, ht⟩ : ∃ t, outcome (settle checkRoot (p :: typed) (param :: params)) cx s =
          outcome (requirePlace param ⟨k, span⟩ (settle checkRoot typed params)) cx t := by
        rw [settle_cons, hknown.id, outcome_bind, succeeds_node.2 ⟨hnode, rfl⟩]
        cases hcall : k.isCall with
        | true =>
          obtain ⟨t, ht⟩ := (haccepts.1 (by rw [Arena.isCall_of_kind hk, hcall])).succeeds s
          refine ⟨t, ?_⟩
          dsimp only
          rw [if_pos hcall, outcome_bind, ht]
        | false => exact ⟨s, by simp only [hcall, Bool.false_eq_true, if_false]⟩
      obtain ⟨hok, herror⟩ := ih (fun x hx => hkind x (.tail _ hx)) haccepts.2 t
      rw [hplaces, ht, outcome_requirePlace]
      unfold Succeeds
      rw [ht, outcome_requirePlace]
      by_cases hplace : param.isReference = true → k.isPlace = true
      · rw [if_pos hplace]
        exact ⟨fun hall => hok hall.2, fun hnot => herror fun hall => hnot ⟨hplace, hall⟩⟩
      · rw [if_neg hplace]
        exact ⟨fun hall => absurd hall.1 hplace, fun _ => ⟨_, _, rfl⟩⟩

/-- The check of a call whose arguments that are no calls are well typed: no overload qualifies, or
the call is settled on the first that does. -/
theorem checkCall_cases_of_wellTyped {id : NodeId} (span : Span) {name : String}
    {args : List NodeId}
    {found : Option (List Signature)} (hfound : cx.overloads id name = .ok found)
    (hkind : ∀ arg ∈ args, ∃ k, cx.arena.kind arg = .ok k) (hsound : ∀ arg ∈ args, Sound cx arg)
    (hwell : ∀ arg ∈ args, cx.arena.isCall arg = false → ∃ ty, cx.HasType arg ty)
    (expected : Option Ty) (s : State) :
    ((∀ sig ∈ found.getD [], ¬Qualifies cx (Accepts cx) args expected sig) → ∃ types,
      (outcome (checkCall checkRoot id span name args expected) cx s).1 =
        .error (.reported ⟨.noMatchingFunction name types, span⟩)) ∧
    ∀ sig, First (Qualifies cx (Accepts cx) args expected) (found.getD []) sig →
      (PlacesGiven cx.arena args sig.params →
        ∃ r : State, Succeeds (checkCall checkRoot id span name args
        expected) cx s sig.returnType
          { r with targets := SemanticInfo.setRow r.targets id (target name sig) }) ∧
      (¬PlacesGiven cx.arena args sig.params → ∃ param place,
        (outcome (checkCall checkRoot id span name args expected) cx s).1 =
          .error (.reported ⟨.referenceToNonPlace param, place⟩)) := by
  obtain ⟨typed, htyped, hknown⟩ := exists_gives_argumentTypes hkind hwell
  have hsound' : ∀ p ∈ typed, Sound cx p.1 := by
    intro p hp
    obtain ⟨arg, harg, hp⟩ := Outcome.exists_of_forall₂_right hknown hp
    exact hp.id ▸ hsound arg harg
  obtain ⟨chosen, hchosen, hfirst⟩ := exists_gives_choose hsound' expected (found.getD [])
  obtain ⟨t, ht⟩ := htyped.succeeds s
  obtain ⟨t', ht'⟩ := hchosen.succeeds t
  have hselect : Succeeds (select checkRoot id name args expected) cx s (typed, chosen) t' :=
    succeeds_select.2 ⟨found, t, hfound, ht, ht'⟩
  have hrun : outcome (checkCall checkRoot id span name args expected) cx s =
      outcome (conclude checkRoot id span name typed chosen) cx t' := by
    unfold Succeeds at hselect
    simp only [checkCall_eq, outcome_bind, hselect]
  have htaken : ∀ sig, First (Taken cx typed expected) (found.getD []) sig ↔
      First (Qualifies cx (Accepts cx) args expected) (found.getD []) sig :=
    fun sig => first_congr fun y _ => Known.taken_iff hknown expected y
  unfold Succeeds
  rw [hrun]
  refine ⟨fun hnone => ?_, fun sig hsig => ?_⟩
  · obtain rfl : chosen = none := by
      refine Option.eq_none_iff_forall_ne_some.2 fun sig hsig => ?_
      have hmem := ((htaken sig).1 ((hfirst sig).1 hsig)).mem
      exact hnone sig hmem.1 hmem.2
    obtain ⟨types, htypes⟩ := exists_gives_describe hsound'
    obtain ⟨r, hr⟩ := htypes.succeeds t'
    refine ⟨types, ?_⟩
    rw [conclude, outcome_bind, hr]
    rfl
  · obtain rfl : chosen = some sig := (hfirst sig).2 ((htaken sig).2 hsig)
    obtain ⟨hok, herror⟩ := settle_follows hknown hkind hsig.mem.2.calls t'
    refine ⟨fun hplaces => ?_, fun hplaces => ?_⟩
    · obtain ⟨r, hr⟩ := hok hplaces
      refine ⟨r, ?_⟩
      rw [conclude, outcome_bind, hr]
      rfl
    · obtain ⟨param, place, herror⟩ := herror hplaces
      refine ⟨param, place, ?_⟩
      rw [conclude, outcome_bind]
      generalize outcome (settle checkRoot typed sig.params) cx t' = r at herror ⊢
      obtain ⟨r, t''⟩ := r
      obtain rfl : r = _ := herror
      rfl

/-- The check of a call follows the rule: how it ends, and what it notes. -/
structure CallFollows (cx : Context) (qualifies : Signature → Prop) (candidates : List Signature)
    (id : NodeId) (span : Span) (name : String) (args : List NodeId) (expected : Option Ty)
    (s : State) : Prop where
  /-- A call has the type of the first overload that qualifies. -/
  accepted : ∀ ty, (outcome (checkCall checkRoot id span name args expected) cx s).1 = .ok ty ↔
    ∃ sig, First qualifies candidates sig ∧
      PlacesGiven cx.arena args sig.params ∧ sig.returnType = ty
  /-- This is the overload that it calls. -/
  target : ∀ sig, First qualifies candidates sig →
    PlacesGiven cx.arena args sig.params →
      SemanticInfo.row (outcome (checkCall checkRoot id span name args expected) cx s).2.targets
        id = some (target name sig)
  noMatch : (∃ types, (outcome (checkCall checkRoot id span name args expected) cx s).1 =
      .error (.reported ⟨.noMatchingFunction name types, span⟩)) ↔
    ∀ sig ∈ candidates, ¬qualifies sig
  notAssignable : (∃ param place, (outcome (checkCall checkRoot id span name args expected) cx
      s).1 = .error (.reported ⟨.referenceToNonPlace param, place⟩)) ↔
    ∃ sig, First qualifies candidates sig ∧
      ¬PlacesGiven cx.arena args sig.params
  /-- The arguments that are calls settle on the parameters of this overload. -/
  settled : ∀ sig, First qualifies candidates sig →
    ∀ p ∈ args.zip sig.params, cx.arena.isCall p.1 = true →
      ∀ t, ∃ t', Succeeds (checkRoot p.1 (some p.2.ty)) cx t p.2.ty t'

theorem callFollows {id : NodeId} {span : Span} {name : String} {args : List NodeId}
    {found : Option (List Signature)} (hfound : cx.overloads id name = .ok found)
    (hkind : ∀ arg ∈ args, ∃ k, cx.arena.kind arg = .ok k) (hsound : ∀ arg ∈ args, Sound cx arg)
    (hwell : ∀ arg ∈ args, cx.arena.isCall arg = false → ∃ ty, cx.HasType arg ty)
    (hid : 0 < id ∧ id ≤ cx.arena.size) (expected : Option Ty) (hsized : s.Sized cx) :
    CallFollows cx (Qualifies cx (Accepts cx) args expected) (found.getD []) id span name args
      expected s := by
  obtain ⟨hnone, hfirst⟩ := checkCall_cases_of_wellTyped span hfound hkind hsound hwell expected s
  have hwithin : Within (fun _ => True) (checkCall checkRoot id span name args expected) cx :=
    within_checkCall trivial hid.1 fun arg harg => (hsound arg harg).sized
  have hsize := (hwithin s).size.2.trans hsized.2
  have hsettled : ∀ sig, First (Qualifies cx (Accepts cx) args expected) (found.getD []) sig →
      ∀ p ∈ args.zip sig.params, cx.arena.isCall p.1 = true →
        ∀ t, ∃ t', Succeeds (checkRoot p.1 (some p.2.ty)) cx t p.2.ty t' :=
    fun sig hsig p hp hcall t => (hsig.mem.2.calls p hp hcall).succeeds t
  by_cases hex : ∃ sig ∈ found.getD [], Qualifies cx (Accepts cx) args expected sig
  · obtain ⟨_, hmem, hqualifies⟩ := hex
    obtain ⟨sig, hsig⟩ := exists_first hmem hqualifies
    have hunique := fun sig' => hsig.iff_eq (y := sig')
    have hsome : ¬∀ sig ∈ found.getD [], ¬Qualifies cx (Accepts cx) args expected sig :=
      fun hno => hno sig hsig.mem.1 hsig.mem.2
    by_cases hplaces : PlacesGiven cx.arena args sig.params
    · obtain ⟨r, hr⟩ := (hfirst sig hsig).1 hplaces
      have hend : outcome (checkCall checkRoot id span name args expected) cx s = _ := hr
      rw [hend, SemanticInfo.size_setRow] at hsize
      have hnoted : SemanticInfo.row (SemanticInfo.setRow r.targets id (target name sig)) id =
          some (target name sig) := SemanticInfo.row_setRow_self hid.1 (hsize ▸ hid.2) _
      refine ⟨fun ty => ?_, ?_, ?_, ?_, hsettled⟩ <;> simp only [hend, hunique] <;> grind
    · obtain ⟨param, place, hend⟩ := (hfirst sig hsig).2 hplaces
      refine ⟨fun ty => ?_, ?_, ?_, ?_, hsettled⟩ <;> simp only [hend, hunique] <;> grind
  · have hno : ∀ sig ∈ found.getD [], ¬Qualifies cx (Accepts cx) args expected sig :=
      fun sig hmem hsig => hex ⟨sig, hmem, hsig⟩
    have hnever : ∀ sig, ¬First (Qualifies cx (Accepts cx) args expected) (found.getD []) sig :=
      fun sig hsig => hno sig hsig.mem.1 hsig.mem.2
    obtain ⟨types, hend⟩ := hnone hno
    refine ⟨fun ty => ?_, fun sig hsig => absurd hsig (hnever sig), ?_, ?_, hsettled⟩ <;>
      simp only [hend] <;> grind

/-! ### Nested calls -/

theorem outcome_checkRoot (id : NodeId) (e : Option Ty) (s : State) :
    outcome (checkRoot id e) cx s = outcome (checkExpression cx.arena.depthLimit id e) cx s := by
  rw [checkRoot, outcome_bind, (succeeds_read.2 ⟨rfl, rfl⟩ : Succeeds read cx s cx s)]

/-- The check of an expression that is a call ends as the check of the call does. -/
theorem outcome_checkRoot_call {lo id : Nat} {span : Span} {name : String} {args : List NodeId}
    (htree : cx.arena.Tree lo id) (hn : cx.arena.node id = .ok ⟨.call name args, span⟩)
    (e : Option Ty) (s : State) : (outcome (checkRoot id e) cx s).1 =
      (outcome (checkCall checkRoot id span name args e) cx s).1 := by
  have hk : cx.arena.kind id = .ok (.call name args) := Arena.kind_eq_ok_iff.2 ⟨span, hn⟩
  rw [outcome_checkRoot]
  have hdepth := htree.within
  cases hlimit : cx.arena.depthLimit with
  | zero => exact absurd (hlimit ▸ hdepth) Arena.not_within_zero
  | succ depth =>
    have hparts : ∀ arg ∈ args, ∀ x, Tandem Eq cx cx (checkExpression depth arg x)
        (checkRoot arg x) := by
      intro arg harg x s t hst
      rw [hlimit] at hdepth
      obtain ⟨start, harg', -⟩ := hdepth.child hk harg
      rw [outcome_checkRoot]
      exact tandem_checkExpression stays_eq (.refl cx fun _ => True) (fun _ _ => trivial)
        (hdepth.child hk harg) harg'.within x s t hst
    have hcall : Tandem Eq cx cx (checkCall (checkExpression depth) id span name args e)
        (checkCall checkRoot id span name args e) :=
      tandem_checkCall stays_eq rfl (fun _ _ => rfl) hparts
    have hlevel : outcome (checkExpression (depth + 1) id e) cx s = outcome (do
        let ty ← checkCall (checkExpression depth) id span name args e
        setType id ty
        return ty) cx s := by
      rw [checkExpression, outcome_bind, succeeds_node.2 ⟨hn, rfl⟩]
      rfl
    rw [← (hcall s s rfl).1, hlevel, outcome_bind]
    rcases outcome (checkCall (checkExpression depth) id span name args e) cx s with
      ⟨_ | ty, t⟩ <;> rfl

/-- What is known of every call at or below some nodes. -/
structure Overloaded (cx : Context) (overloads : String → List Signature)
    (P : Nat → Prop) : Prop where
  readable : cx.Readable P
  sets : ∀ i name args found, P i → cx.arena.kind i = .ok (.call name args) →
    cx.overloads i name = .ok found → found.getD [] = overloads name

theorem Overloaded.sound {P : Nat → Prop} {overloads : String → List Signature} {lo id : Nat}
    (h : Overloaded cx overloads P) (hP : ∀ i, cx.arena.Below id i → P i)
    (htree : cx.arena.Tree lo id) : Sound cx id where
  indifferent := tandem_checkRoot stays_true (.refl cx fun _ => True) rfl (fun _ _ => trivial) htree
  faultless := faultless_checkRoot h.readable hP htree
  sized := fun e => (within_checkRoot htree e).mono fun _ _ => trivial

/-- Arguments that are no calls are well typed in a call that is accepted. -/
theorem wellTyped_of_checkCall {id : NodeId} {span : Span} {name : String} {args : List NodeId}
    {e : Option Ty} {ty : Ty} (hsound : ∀ arg ∈ args, Sound cx arg)
    (h : Succeeds (checkCall checkRoot id span name args e) cx s ty s') :
    ∀ arg ∈ args, cx.arena.isCall arg = false → ∃ ty, cx.HasType arg ty := by
  intro arg harg hcall
  obtain ⟨typed, sig, r, r', hselect, -⟩ := succeeds_checkCall.1 h
  obtain ⟨found, t, -, htyped, -⟩ := succeeds_select.1 hselect
  obtain ⟨p, -, r, r', hp⟩ := Outcome.exists_of_forall₂_left (succeeds_mapM htyped) harg
  simp only [succeeds_bind, succeeds_node] at hp
  obtain ⟨n, _, ⟨hn, rfl⟩, hp⟩ := hp
  rw [Arena.isCall_of_kind (Arena.kind_eq_ok_iff.2 ⟨n.span, hn⟩)] at hcall
  rw [if_neg (by simp [hcall])] at hp
  obtain ⟨ty, _, hty, -⟩ := succeeds_bind.1 hp
  exact ⟨ty, ((hsound arg harg).indifferent none).gives hty⟩

/-- So they are where an overload qualifies. -/
theorem Qualifies.wellTyped {resolves : NodeId → Ty → Prop} {args : List NodeId}
    {expected : Option Ty} {sig : Signature} (h : Qualifies cx resolves args expected sig) :
    ∀ arg ∈ args, cx.arena.isCall arg = false → ∃ ty, cx.HasType arg ty := by
  intro arg harg hcall
  have hzip : (args.zip sig.params).map Prod.fst = args :=
    List.map_fst_zip (Nat.le_of_eq h.arity.symm)
  obtain ⟨p, hp, rfl⟩ := List.mem_map.1 (hzip.symm ▸ harg)
  exact ⟨p.2.ty, h.plain p hp hcall⟩

theorem exists_sized (cx : Context) : ∃ s : State, s.Sized cx :=
  ⟨⟨Array.replicate cx.arena.size none, Array.replicate cx.arena.size none⟩, by simp [State.Sized]⟩

/-- One level of the rule. -/
theorem accepts_iff {P : Nat → Prop} {overloads : String → List Signature} {lo id : Nat}
    {name : String} {args : List NodeId} (h : Overloaded cx overloads P)
    (hP : ∀ i, cx.arena.Below id i → P i) (htree : cx.arena.Tree lo id)
    (hk : cx.arena.kind id = .ok (.call name args)) (ty : Ty) : Accepts cx id ty ↔
      ∃ sig, First (Qualifies cx (Accepts cx) args (some ty)) (overloads name) sig ∧
        PlacesGiven cx.arena args sig.params := by
  obtain ⟨span, hn⟩ := Arena.kind_eq_ok_iff.1 hk
  obtain ⟨found, hfound⟩ := h.readable.overloads id name args (hP id (.self id)) hk
  have hsound : ∀ arg ∈ args, Sound cx arg := by
    intro arg harg
    obtain ⟨start, hstart, -⟩ := htree.child hk harg
    exact h.sound (fun i hi => hP i (.child hk harg hi)) hstart
  have hkind : ∀ arg ∈ args, ∃ k, cx.arena.kind arg = .ok k := fun arg harg => by
    obtain ⟨start, hstart, -⟩ := htree.child hk harg
    exact hstart.within.kind
  rw [← h.sets id name args found (hP id (.self id)) hk hfound]
  unfold Accepts Gives
  simp only [outcome_checkRoot_call htree hn]
  constructor
  · intro hok
    obtain ⟨s, hs⟩ := exists_sized cx
    have hrun : Succeeds (checkCall checkRoot id span name args (some ty)) cx s ty _ :=
      Prod.ext (hok s) rfl
    have hwell := wellTyped_of_checkCall hsound hrun
    obtain ⟨sig, hsig, hplaces, -⟩ := ((callFollows hfound hkind hsound hwell
      (Arena.bounds_of_kind hk) (some ty) hs).accepted ty).1 (hok s)
    exact ⟨sig, hsig, hplaces⟩
  · rintro ⟨sig, hsig, hplaces⟩ s
    obtain ⟨r, hr⟩ := ((checkCall_cases_of_wellTyped span hfound hkind hsound hsig.mem.2.wellTyped
      (some ty) s).2 sig hsig).1 hplaces
    rw [hr, hsig.mem.2.result ty rfl]

/-- A call is accepted where a type is expected if it resolves by the rule. -/
theorem accepts_iff_resolvesWithin {P : Nat → Prop} {overloads : String → List Signature}
    {depth id : Nat} (h : Overloaded cx overloads P) (hP : ∀ i, cx.arena.Below id i → P i)
    (hdepth : cx.arena.Within depth id) (hcall : cx.arena.isCall id = true) (ty : Ty) :
    Accepts cx id ty ↔ ResolvesWithin cx overloads depth id ty := by
  induction depth generalizing id ty with
  | zero => exact absurd hdepth Arena.not_within_zero
  | succ depth ih =>
    obtain ⟨k, hk⟩ := hdepth.kind
    obtain ⟨name, args, rfl⟩ :=
      NodeKind.exists_of_isCall ((Arena.isCall_of_kind hk).symm.trans hcall)
    obtain ⟨lo, htree, hle⟩ := hdepth
    have hdepth : cx.arena.Within (depth + 1) id := ⟨lo, htree, hle⟩
    have hlevel : ∀ sig ∈ overloads name, Qualifies cx (Accepts cx) args (some ty) sig ↔
        Qualifies cx (ResolvesWithin cx overloads depth) args (some ty) sig :=
      fun sig _ => qualifies_congr fun arg harg hcall' ty' =>
        ih (fun i hi => hP i (.child hk harg hi)) (hdepth.child hk harg) hcall' ty'
    rw [accepts_iff h hP htree hk]
    constructor
    · rintro ⟨sig, hsig, hplaces⟩
      exact ⟨name, args, sig, hk, (first_congr hlevel).1 hsig, hplaces⟩
    · rintro ⟨name', args', sig, hk', hsig, hplaces⟩
      obtain ⟨rfl, rfl⟩ := NodeKind.call.inj (Except.ok.inj (hk.symm.trans hk'))
      exact ⟨sig, (first_congr hlevel).2 hsig, hplaces⟩

/-- Nested calls resolve by the rule that the call around them follows. -/
theorem resolves_iff {P : Nat → Prop} {overloads : String → List Signature} {lo id : Nat}
    {name : String} {args : List NodeId} (h : Overloaded cx overloads P)
    (hP : ∀ i, cx.arena.Below id i → P i) (htree : cx.arena.Tree lo id)
    (hk : cx.arena.kind id = .ok (.call name args)) (ty : Ty) : Resolves cx overloads id ty ↔
      ∃ sig, First (Qualifies cx (Resolves cx overloads) args (some ty)) (overloads name) sig ∧
        PlacesGiven cx.arena args sig.params := by
  rw [Resolves, ← accepts_iff_resolvesWithin h hP htree.within (Arena.isCall_of_kind hk),
    accepts_iff h hP htree hk]
  refine exists_congr fun sig => and_congr_left fun _ => first_congr fun sig _ =>
    qualifies_congr fun arg harg hcall ty' => ?_
  obtain ⟨start, hstart, -⟩ := htree.child hk harg
  exact accepts_iff_resolvesWithin h (fun i hi => hP i (.child hk harg hi)) hstart.within hcall ty'

end Typing

/-! ### The calls of a program -/

namespace Arena

open Typing

variable {source : SourceId} {bytes : List UInt8} {a : Arena} {u : UnitNode} {table : SymbolTable}
  {info : SemanticInfo}

/-- From everywhere in a bound program a name has the same overloads. -/
theorem overloaded_of_bind (hu : a.unit? = some u) (hspread : a.Spread u)
    (hbind : a.bind {} = (.ok (), table, info)) {d r : Nat} {f : FunctionNode}
    (hd : d ∈ u.functions) (hf : a.kind d = .ok (.function f)) (hr : r ∈ f.body) :
    Overloaded (a.context table info)
      (Binding.signaturesOf (Builtin.overloads ++ a.overloads u.functions)) (a.Below r) := by
  obtain ⟨hrecords, hbodies⟩ := readable_of_bind hu hspread hbind
  have hbody := hbodies d hd f hf r hr
  refine ⟨⟨hrecords, fun i name hi hk fault hheld => ?_, fun i name args hi hk => ?_⟩, ?_⟩
  · obtain ⟨ty, hty⟩ := (hbody i hi).1 name hk
    rw [hty] at hheld
    cases hheld
  · exact ⟨_, (hbody i hi).2 name args hk⟩
  · intro i name args found hi hk hfound
    cases ((hbody i hi).2 name args hk).symm.trans hfound
    exact Binding.getD_overloadSet _ name

/-- The check of an expression of a bound program that succeeds once always does. -/
theorem gives_of_run (hparse : Arena.ofBytes source bytes = .ok a)
    (hbind : a.bind {} = (.ok (), table, info)) {e : Nat} (he : a.HasRole .expression e)
    {expected : Option Ty} {s : State} {ty : Ty}
    (h : (outcome (checkRoot e expected) (a.context table info) s).1 = .ok ty) :
    Gives (a.context table info) (checkRoot e expected) ty := by
  obtain ⟨u, hu, hcomplete⟩ := exists_complete_ofBytes hparse
  obtain ⟨lo, htree, d, hd, f, hf, r, hr, hbelow⟩ := hcomplete.exists_tree hu he
  have hsound := (overloaded_of_bind hu hcomplete.spread hbind hd hf hr).sound
    (fun i hi => hbelow.trans hi) htree
  exact (hsound.indifferent expected).gives (Prod.ext h rfl)

/-- A call of a bound program whose arguments that are no calls are well typed takes the first of
the overloads of its name, builtins first and then the functions of the program in their order, that
qualifies. Its arguments that are calls do so by the same rule, and the check of the call as an
expression ends in the same way. -/
theorem call_takes_first_match (hparse : Arena.ofBytes source bytes = .ok a) (hu : a.unit? = some u)
    (hbind : a.bind {} = (.ok (), table, info)) {id : Nat} {span : Span} {name : String}
    {args : List NodeId} (hn : a.node id = .ok ⟨.call name args, span⟩)
    (hwell : ∀ arg ∈ args, a.isCall arg = false → ∃ ty, (a.context table info).HasType arg ty)
    (expected : Option Ty) {s : State} (hs : s.Sized (a.context table info)) :
    let cx := a.context table info
    let overloads := Binding.signaturesOf (Builtin.overloads ++ a.overloads u.functions)
    (∃ found, cx.overloads id name = .ok found ∧ found.getD [] = overloads name) ∧
    CallFollows cx (Qualifies cx (Resolves cx overloads) args expected) (overloads name) id
      span name
      args expected s ∧
    (outcome (checkRoot id expected) cx s).1 =
      (outcome (checkCall checkRoot id span name args expected) cx s).1 ∧
    ∀ arg name' args', a.kind arg = .ok (.call name' args') → ∀ ty,
      Resolves cx overloads arg ty ↔ ∃ sig,
        First (Qualifies cx (Resolves cx overloads) args' (some ty)) (overloads name') sig ∧
          PlacesGiven a args' sig.params := by
  intro cx overloads
  obtain ⟨u', hu', hcomplete⟩ := exists_complete_ofBytes hparse
  cases hu.symm.trans hu'
  have hk : a.kind id = .ok (.call name args) := kind_eq_ok_iff.2 ⟨span, hn⟩
  refine and_assoc.1 ⟨?_, ?_, fun arg name' args' hk' ty => ?_⟩
  · obtain ⟨lo, htree, d, hd, f, hf, r, hr, hbelow⟩ := hcomplete.exists_tree hu ⟨_, hk, rfl⟩
    have hover := overloaded_of_bind hu hcomplete.spread hbind hd hf hr
    obtain ⟨found, hfound⟩ := hover.readable.overloads id name args hbelow hk
    have hset : found.getD [] = overloads name := hover.sets id name args found hbelow hk hfound
    have hargs : ∀ arg ∈ args, (∃ start, a.Tree start arg) ∧ ∀ i, a.Below arg i → a.Below r i := by
      intro arg harg
      obtain ⟨start, hstart, -⟩ := htree.child hk harg
      exact ⟨⟨start, hstart⟩, fun i hi => hbelow.trans (.child hk harg hi)⟩
    have hrule : Qualifies cx (Accepts cx) args expected = Qualifies cx (Resolves cx overloads) args
        expected := by
      refine funext fun sig => propext (qualifies_congr fun arg harg hcall ty => ?_)
      obtain ⟨⟨start, hstart⟩, hin⟩ := hargs arg harg
      exact accepts_iff_resolvesWithin hover hin hstart.within hcall ty
    refine ⟨⟨found, hfound, hset⟩, ?_⟩
    rw [← hrule, ← hset]
    refine callFollows hfound (fun arg harg => ?_) (fun arg harg => ?_) hwell (bounds_of_kind hk)
      expected hs
    · obtain ⟨⟨start, hstart⟩, -⟩ := hargs arg harg
      exact hstart.within.kind
    · obtain ⟨⟨start, hstart⟩, hin⟩ := hargs arg harg
      exact hover.sound hin hstart
  · obtain ⟨lo, htree, -⟩ := hcomplete.exists_tree hu ⟨_, hk, rfl⟩
    exact outcome_checkRoot_call htree hn expected s
  · obtain ⟨lo, htree, d, hd, f, hf, r, hr, hbelow⟩ := hcomplete.exists_tree hu ⟨_, hk', rfl⟩
    exact resolves_iff (overloaded_of_bind hu hcomplete.spread hbind hd hf hr)
      (fun i hi => hbelow.trans hi) htree hk' ty

end Arena

namespace Nested

/-- Tables without a note. -/
def blank : Typing.State := ⟨Array.replicate bound.1.size none, Array.replicate bound.1.size none⟩

def span : Span := ((bound.1.node 16).toOption.map (·.span)).getD Span.empty

/-- The arguments of the call of `f`, and what its check and that of its literal give from empty
tables. -/
theorem runs :
    let call := Typing.outcome (Typing.checkCall Typing.checkRoot 16 span "f" [14, 15] none)
      (bound.1.context bound.2.1 bound.2.2) blank
    let literal := Typing.outcome (Typing.checkRoot 15 none) (bound.1.context bound.2.1 bound.2.2)
      blank
    bound.1.kind 15 = .ok (.int 1) ∧ bound.1.kind 16 = .ok (.call "f" [14, 15]) ∧
      literal.1.toOption = some .int ∧ call.1.toOption = some .void ∧
      SemanticInfo.row call.2.targets 16 = some (.function 13) := by
  decide +kernel

theorem node_call : bound.1.node 16 = .ok ⟨.call "f" [14, 15], span⟩ := by
  obtain ⟨at₀, hn⟩ := Arena.kind_eq_ok_iff.1 runs.2.1
  rw [span, hn]
  rfl

theorem sized_blank : blank.Sized (bound.1.context bound.2.1 bound.2.2) := by
  simp [Typing.State.Sized, blank, Arena.context]

attribute [irreducible] blank span

end Nested

/-- The call of `f` passes over the first overload, whose parameters are no integers. -/
theorem first_match_of_nested_call : ∃ u sig, Nested.bound.1.unit? = some u ∧
    let cx := Nested.bound.1.context Nested.bound.2.1 Nested.bound.2.2
    let overloads :=
      Binding.signaturesOf (Builtin.overloads ++ Nested.bound.1.overloads u.functions)
    Typing.First (Typing.Qualifies cx (Typing.Resolves cx overloads) [14, 15] none)
      (overloads "f") sig ∧ sig.definition = some 13 ∧
    ∀ s, s.Sized cx → SemanticInfo.row (Typing.outcome
      (Typing.checkCall Typing.checkRoot 16 Nested.span "f" [14, 15] none) cx s).2.targets 16 =
        some (.function 13) := by
  obtain ⟨hparse, hbind⟩ := of_bind? Nested.bind?_bytes
  obtain ⟨u, hu, -⟩ := Arena.exists_complete_ofBytes hparse
  obtain ⟨hliteral, -, hint, hok, hrow⟩ := Nested.runs
  have hwell : ∀ arg ∈ [14, 15], Nested.bound.1.isCall arg = false →
      ∃ ty, (Nested.bound.1.context Nested.bound.2.1 Nested.bound.2.2).HasType arg ty := by
    intro arg harg hcall
    obtain rfl | rfl : arg = 14 ∨ arg = 15 := by simpa using harg
    · rw [Arena.isCall_of_kind Nested.facts.2.1] at hcall
      cases hcall
    · exact ⟨.int, Arena.gives_of_run hparse hbind ⟨_, hliteral, rfl⟩
        (Outcome.eq_ok_of_toOption hint)⟩
  have hfollows := fun (s : Typing.State)
    (hs : s.Sized (Nested.bound.1.context Nested.bound.2.1 Nested.bound.2.2)) =>
    (Arena.call_takes_first_match hparse hu hbind Nested.node_call hwell none hs).2.1
  obtain ⟨sig, hsig, hplaces, -⟩ := ((hfollows _ Nested.sized_blank).accepted .void).1
    (Outcome.eq_ok_of_toOption hok)
  have htarget : Typing.target "f" sig = .function 13 := by
    have hnoted := (hfollows _ Nested.sized_blank).target sig hsig hplaces
    exact Option.some.inj (hnoted.symm.trans hrow)
  refine ⟨u, sig, hu, hsig, ?_, fun s hs => ?_⟩
  · unfold Typing.target at htarget
    split at htarget <;> simp_all
  · rw [(hfollows s hs).target sig hsig hplaces, htarget]

end MiniJ
