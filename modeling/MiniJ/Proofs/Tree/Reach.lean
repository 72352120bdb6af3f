import MiniJ.Proofs.Tree.Nesting
import MiniJ.Proofs.Tree.Reading

/-!
# How far readers get

A reader gives a part whose span lies behind what was read before and in front of what is left. So
the spans of a parsed program are nested.

## Main definitions

* `Parser.Advances` — where a reader stops.
* `Parser.Lays` — what a reader gives is nested, and lies where it has read.

## Main statements

* `Parser.lays_expression`, `Parser.lays_statement`, `Parser.lays_member` — the main readers.
* `Program.nested_of_parse` — the spans of a parsed program are nested.
-/
namespace MiniJ

open MiniJ.Span

variable {source : SourceId} {tokens : List Token}

/-! ### Tokens -/

/-- Tokens behind each other, all of them behind `lo`. -/
def Ahead (source : SourceId) (tokens : List Token) : Nat → List Token → Prop
  | _, [] => True
  | lo, t :: rest => lo ≤ t.span.offset ∧ t.span.Cut source tokens ∧
  Ahead source tokens t.span.stop rest

namespace Parser

variable {α β : Type} {x : ParseM α} {f : α → ParseM β} {lo : Nat} {Q : Nat → α → Prop}
  {R : Nat → β → Prop} {t : Token}

/-! ### Readers -/

/-- A reader that starts behind the offset `lo` stops behind some other offset, and what it gives
has to do with that one. -/
def Advances (source : SourceId) (tokens : List Token) (lo : Nat) (x : ParseM α)
    (Q : Nat → α → Prop) : Prop :=
  ∀ cx ts v ts', Ahead source tokens lo ts → (x.run cx).run ts = .ok (v, ts') →
    ∃ hi, lo ≤ hi ∧ Ahead source tokens hi ts' ∧ Q hi v

/-- How far a reader gets if some token comes next. -/
def AdvancesAt (source : SourceId) (tokens : List Token) (lo : Nat) (t : Token) (x : ParseM α)
    (Q : Nat → α → Prop) : Prop :=
  ∀ cx ts v ts', Ahead source tokens lo (t :: ts) → (x.run cx).run (t :: ts) = .ok (v, ts') →
    ∃ hi, lo ≤ hi ∧ Ahead source tokens hi ts' ∧ Q hi v

/-- A reader that consumes nothing. -/
def Peeks (x : ParseM α) : Prop := ∀ cx ts v ts', (x.run cx).run ts = .ok (v, ts') → ts' = ts

theorem Advances.at (h : Advances source tokens lo x Q) : AdvancesAt source tokens lo t x Q :=
  fun cx ts => h cx (t :: ts)

theorem Advances.pure {v : α} (h : Q lo v) : Advances source tokens lo (pure v) Q := by
  rintro cx ts w ts' hts ⟨⟩
  exact ⟨lo, Nat.le_refl _, hts, h⟩

theorem Advances.throw (e : Failure ParseError) :
    Advances source tokens lo (throw e : ParseM α) Q := by
  rintro cx ts w ts' - ⟨⟩

theorem Advances.bind (hx : Advances source tokens lo x Q)
    (hf : ∀ mid v, lo ≤ mid → Q mid v → Advances source tokens mid (f v) R) :
    Advances source tokens lo (x >>= f) R := by
  intro cx ts w ts' hts hrun
  rw [run_bind] at hrun
  obtain ⟨⟨v, ts₁⟩, hv, hrun⟩ := Outcome.bind_eq_ok.1 hrun
  obtain ⟨mid, hmid, hts₁, hQ⟩ := hx cx ts v ts₁ hts hv
  obtain ⟨hi, hhi, hts', hR⟩ := hf mid v hmid hQ cx ts₁ w ts' hts₁ hrun
  exact ⟨hi, hmid.trans hhi, hts', hR⟩

theorem AdvancesAt.bind (hx : AdvancesAt source tokens lo t x Q)
    (hf : ∀ mid v, lo ≤ mid → Q mid v → Advances source tokens mid (f v) R) :
    AdvancesAt source tokens lo t (x >>= f) R := by
  intro cx ts w ts' hts hrun
  rw [run_bind] at hrun
  obtain ⟨⟨v, ts₁⟩, hv, hrun⟩ := Outcome.bind_eq_ok.1 hrun
  obtain ⟨mid, hmid, hts₁, hQ⟩ := hx cx ts v ts₁ hts hv
  obtain ⟨hi, hhi, hts', hR⟩ := hf mid v hmid hQ cx ts₁ w ts' hts₁ hrun
  exact ⟨hi, hmid.trans hhi, hts', hR⟩

theorem Advances.mono {Q' : Nat → α → Prop} (h : Advances source tokens lo x Q)
    (hQ : ∀ hi v, lo ≤ hi → Q hi v → Q' hi v) : Advances source tokens lo x Q' := by
  intro cx ts v ts' hts hrun
  obtain ⟨hi, hhi, hts', hv⟩ := h cx ts v ts' hts hrun
  exact ⟨hi, hhi, hts', hQ hi v hhi hv⟩

theorem AdvancesAt.mono {Q' : Nat → α → Prop} (h : AdvancesAt source tokens lo t x Q)
    (hQ : ∀ hi v, lo ≤ hi → Q hi v → Q' hi v) : AdvancesAt source tokens lo t x Q' := by
  intro cx ts v ts' hts hrun
  obtain ⟨hi, hhi, hts', hv⟩ := h cx ts v ts' hts hrun
  exact ⟨hi, hhi, hts', hQ hi v hhi hv⟩

/-- A reader that needs a token. -/
theorem Advances.of_at (h : ∀ t, AdvancesAt source tokens lo t x Q)
    (hnil : ∀ cx v ts', (x.run cx).run [] ≠ .ok (v, ts')) : Advances source tokens lo x Q := by
  intro cx ts v ts' hts hrun
  cases ts with
  | nil => exact absurd hrun (hnil cx v ts')
  | cons t ts => exact h t cx ts v ts' hts hrun

theorem Advances.ite {c : Prop} [Decidable c] {y : ParseM α} (hx : Advances source tokens lo x Q)
    (hy : Advances source tokens lo y Q) : Advances source tokens lo (if c then x else y) Q := by
  split <;> assumption

theorem AdvancesAt.ite {c : Prop} [Decidable c] {y : ParseM α}
    (hx : AdvancesAt source tokens lo t x Q) (hy : AdvancesAt source tokens lo t y Q) :
    AdvancesAt source tokens lo t (if c then x else y) Q := by
  split <;> assumption

/-- The next reader starts with the same tokens. -/
theorem Peeks.run {cx : Context} {ts ts' : List Token} {w : β} (hx : Peeks x)
    (hrun : ((x >>= f).run cx).run ts = .ok (w, ts')) : ∃ v, ((f v).run cx).run ts =
    .ok (w, ts') := by
  rw [run_bind] at hrun
  obtain ⟨⟨v, ts₁⟩, hv, hrun⟩ := Outcome.bind_eq_ok.1 hrun
  cases hx cx ts v ts₁ hv
  exact ⟨v, hrun⟩

theorem Peeks.bind (hx : Peeks x) (hf : ∀ v, Advances source tokens lo (f v) R) :
    Advances source tokens lo (x >>= f) R := by
  intro cx ts w ts' hts hrun
  obtain ⟨v, hrun⟩ := hx.run hrun
  exact hf v cx ts w ts' hts hrun

theorem Peeks.bind_at (hx : Peeks x) (hf : ∀ v, AdvancesAt source tokens lo t (f v) R) :
    AdvancesAt source tokens lo t (x >>= f) R := by
  intro cx ts w ts' hts hrun
  obtain ⟨v, hrun⟩ := hx.run hrun
  exact hf v cx ts w ts' hts hrun

theorem Peeks.then (hx : Peeks x) (hf : ∀ v, Peeks (f v)) : Peeks (x >>= f) := by
  intro cx ts w ts' hrun
  obtain ⟨v, hrun⟩ := hx.run hrun
  exact hf v cx ts w ts' hrun

theorem peeks_pure (v : α) : Peeks (pure v) := by
  rintro cx ts w ts' ⟨⟩
  rfl

theorem peeks_read : Peeks read := by
  rintro cx ts v ts' ⟨⟩
  rfl

theorem peeks_get : Peeks get := by
  rintro cx ts v ts' ⟨⟩
  rfl

theorem peeks_ahead (distance : Nat) : Peeks (ahead distance) := by
  rintro cx ts v ts' ⟨⟩
  rfl

theorem peeks_next (s : Punctuator) : Peeks (next s) := by
  rintro cx ts v ts' ⟨⟩
  rfl

theorem advances_exhausted : Advances source tokens lo (exhausted : ParseM α) Q := .throw _

theorem advances_current_bind {f : Token → ParseM β}
    (hf : ∀ t, AdvancesAt source tokens lo t (f t) R) : Advances source tokens lo
    (current >>= f) R := by
  intro cx ts w ts' hts hrun
  cases ts with
  | nil => cases hrun
  | cons t ts => exact hf t cx ts w ts' hts hrun

theorem advancesAt_current_bind {f : Token → ParseM β}
    (hf : AdvancesAt source tokens lo t (f t) R) :
    AdvancesAt source tokens lo t (current >>= f) R :=
  fun cx ts w ts' hts hrun => hf cx ts w ts' hts hrun

theorem advances_unexpected (expected : String) :
    Advances source tokens lo (unexpected expected : ParseM α) Q :=
  advances_current_bind fun _ => (Advances.throw _).at

/-- The next token is consumed. -/
theorem advancesAt_advance_bind {f : Unit → ParseM β} (hf : lo ≤ t.span.offset →
      t.span.Cut source tokens → Advances source tokens t.span.stop (f ()) R) :
    AdvancesAt source tokens lo t (advance >>= f) R := by
  intro cx ts w ts' hts hrun
  obtain ⟨hi, hhi, hts', hR⟩ := hf hts.1 hts.2.1 cx ts w ts' hts.2.2 hrun
  exact ⟨hi, hts.1.trans (t.span.offset_le_stop.trans hhi), hts', hR⟩

/-- The next token decides, if there is one. -/
theorem advances_get_bind {f : List Token → ParseM β}
    (hcons : ∀ t ts, AdvancesAt source tokens lo t (f (t :: ts)) R)
    (hnil : Advances source tokens lo (f []) R) : Advances source tokens lo (get >>= f) R := by
  intro cx ts w ts' hts hrun
  cases ts with
  | nil => exact hnil cx [] w ts' hts hrun
  | cons t ts => exact hcons t ts cx ts w ts' hts hrun

theorem advances_ahead_bind {f : Option TokenKind → ParseM β}
    (hsome : ∀ t, AdvancesAt source tokens lo t (f (some t.kind)) R)
    (hnone : Advances source tokens lo (f none) R) : Advances source tokens lo
    (ahead 0 >>= f) R := by
  intro cx ts w ts' hts hrun
  cases ts with
  | nil => exact hnone cx [] w ts' hts hrun
  | cons t ts => exact hsome t cx ts w ts' hts hrun

theorem advances_accept_bind {s : Punctuator} {f : Bool → ParseM β}
    (hthere : ∀ mid, lo ≤ mid → Advances source tokens mid (f true) R)
    (hmissing : Advances source tokens lo (f false) R) :
    Advances source tokens lo (accept s >>= f) R := by
  intro cx ts w ts' hts hrun
  rw [run_bind, run_accept] at hrun
  split at hrun
  · next hhead =>
    cases ts with
    | nil => cases hhead
    | cons t rest =>
      have hle : lo ≤ t.span.stop := hts.1.trans t.span.offset_le_stop
      obtain ⟨hi, hhi, hts', hR⟩ := hthere t.span.stop hle cx rest w ts' hts.2.2 hrun
      exact ⟨hi, hle.trans hhi, hts', hR⟩
  · exact hmissing cx ts w ts' hts hrun

/-- A span between two offsets. -/
structure Between (source : SourceId) (tokens : List Token) (lo hi : Nat) (s : Span) : Prop where
  cut : s.Cut source tokens
  behind : lo ≤ s.offset
  before : s.stop ≤ hi

theorem advances_expect (s : Punctuator) :
    Advances source tokens lo (expect s) (Between source tokens lo) := by
  refine advances_current_bind fun t => ?_
  split
  · exact advancesAt_advance_bind fun hlo hcut => .pure ⟨hcut, hlo, Nat.le_refl _⟩
  · exact (advances_unexpected _).at

theorem advances_name :
    Advances source tokens lo name fun hi r => Between source tokens lo hi r.2 := by
  refine advances_current_bind fun t => ?_
  split
  · exact advancesAt_advance_bind fun hlo hcut => .pure ⟨hcut, hlo, Nat.le_refl _⟩
  · exact (advances_unexpected _).at

theorem advancesAt_name : AdvancesAt source tokens lo t name fun hi r =>
    r.2 = t.span ∧ Between source tokens lo hi t.span := by
  refine advancesAt_current_bind ?_
  split
  · exact advancesAt_advance_bind fun hlo hcut => .pure ⟨rfl, hcut, hlo, Nat.le_refl _⟩
  · exact (advances_unexpected _).at

/-- What a reader gives is nested, and its spans lie where it has read. -/
def Lays (source : SourceId) (tokens : List Token) (x : ParseM α) (N : α → Prop)
    (spans : α → List Span) : Prop :=
  ∀ lo, Advances source tokens lo x fun hi v => N v ∧ Arranged lo hi (spans v)

section

variable {N : α → Prop} {spans : α → List Span} {item : ParseM α}

theorem lays_manyWhile {more : ParseM Bool} (hmore : Peeks more)
    (hitem : Lays source tokens item N spans)
    (limit : Nat) : Lays source tokens (manyWhile more item limit) (fun l => ∀ v ∈ l, N v)
      (fun l => l.flatMap spans) := by
  induction limit with
  | zero => exact fun _ => advances_exhausted
  | succ limit ih =>
    refine fun lo => hmore.bind fun _ => Advances.ite ?_ (.pure ⟨by simp, Nat.le_refl _⟩)
    refine (hitem lo).bind fun mid v _ hv => (ih mid).bind fun hi l hhi hl => .pure ?_
    exact ⟨List.forall_mem_cons.2 ⟨hv.1, hl.1⟩, hv.2.append hl.2⟩

theorem lays_commaSeparated (hitem : Lays source tokens item N spans) (limit : Nat) :
    Lays source tokens (commaSeparated item limit) (fun l => ∀ v ∈ l, N v)
      (fun l => l.flatMap spans) := by
  induction limit with
  | zero => exact fun _ => advances_exhausted
  | succ limit ih =>
    refine fun lo => (hitem lo).bind fun mid v _ hv => advances_accept_bind (fun mid' hmid => ?_) ?_
    · refine (ih mid').bind fun hi l hhi hl => .pure ?_
      exact ⟨List.forall_mem_cons.2 ⟨hv.1, hl.1⟩, hv.2.append (hl.2.mono hmid (Nat.le_refl _))⟩
    · exact .pure (by simpa using hv)

theorem lays_untilBrace (hitem : Lays source tokens item N spans) :
    Lays source tokens (untilBrace item) (fun l => ∀ v ∈ l, N v) (fun l => l.flatMap spans) :=
  fun lo => peeks_read.bind fun _ =>
    lays_manyWhile ((peeks_next _).then fun _ => peeks_pure _) hitem _ lo

theorem advances_parenthesised (hitem : Lays source tokens item N spans) :
    Advances source tokens lo (parenthesised item) fun hi r => (∀ v ∈ r.1, N v) ∧
      ∃ mid, Arranged lo mid (r.1.flatMap spans) ∧ Between source tokens mid hi r.2 := by
  refine (advances_expect _).bind fun mid _ hmid _ => (peeks_next _).bind fun _ =>
    Advances.ite ?_ ?_
  · exact (advances_expect _).bind fun hi stop _ hstop => .pure ⟨by simp, mid, hmid, hstop⟩
  · refine peeks_read.bind fun cx => (lays_commaSeparated hitem _ mid).bind fun mid' l _ hl => ?_
    exact (advances_expect _).bind fun hi stop _ hstop =>
      .pure ⟨hl.1, mid', hl.2.mono hmid (Nat.le_refl _), hstop⟩

end

/-! ### Expressions -/

/-- Expressions that lie where a reader has read. -/
abbrev LaysExpr (source : SourceId) (tokens : List Token) (x : ParseM Expr) : Prop :=
  Lays source tokens x (Expr.Nested source tokens) fun e => [e.span]

section

variable {e : ParseM Expr}

/-- A call starts with the next token. -/
theorem advancesAt_call (h : LaysExpr source tokens e) : AdvancesAt source tokens lo t (call e)
    fun hi v => (v.Nested source tokens ∧ Arranged lo hi [v.span]) ∧
      Between source tokens lo hi t.span ∧ t.span.offset ≤ v.span.offset := by
  refine advancesAt_name.bind fun mid head _ ⟨heq, hhead⟩ => ?_
  refine (advances_parenthesised h).bind fun hi r hhi ⟨hparts, mid', hargs, hstop⟩ => .pure ?_
  have hargs := hargs.of_flatMap
  have hstart := t.span.offset_le_stop
  have hend := r.2.offset_le_stop
  have hbefore := hhead.before
  have hbehind := hstop.behind
  have hle := hargs.le
  have hmerged := Frames.merge _ hhead.cut hstop.cut (Nat.le_refl _) (by omega) hstop.before
    (hargs.mono (by omega) (by omega))
  rw [← heq] at hmerged
  exact ⟨⟨.intro hmerged.1 hparts, hmerged.2.mono (heq ▸ hhead.behind) (Nat.le_refl _)⟩,
    ⟨hhead.cut, hhead.behind, hbefore.trans hhi⟩, heq ▸ hmerged.2.1⟩

theorem lays_call (h : LaysExpr source tokens e) : LaysExpr source tokens (call e) :=
  fun lo => Advances.of_at (fun t => (advancesAt_call h).mono fun _ _ _ hcall => hcall.1)
    (by rintro cx v ts' ⟨⟩)

theorem advances_accesses (h : LaysExpr source tokens e) (limit : Nat) {base : Expr} {mid : Nat}
    (hbase : base.Nested source tokens ∧ Arranged lo mid [base.span]) :
    Advances source tokens mid (accesses e limit base) fun hi e => e.Nested source tokens ∧
      Arranged lo hi [e.span] := by
  induction limit generalizing base mid with
  | zero => exact advances_exhausted
  | succ limit ih =>
    obtain ⟨hlo, hmid⟩ := arranged_singleton.1 hbase.2
    have hcut := hbase.1.frames.cut
    refine advances_accept_bind (fun mid₁ hmid₁ => ?_) (advances_accept_bind
      (fun mid₁ hmid₁ => ?_) ?_)
    · refine advances_name.bind fun hi r _ hname => ih ?_
      have hend := r.2.offset_le_stop
      have hbehind := hname.behind
      have hmerged := Frames.merge [base.span] hcut hname.cut hlo (by omega) hname.before
        (arranged_singleton.2 (by omega))
      exact ⟨.intro hmerged.1 (by simpa [Expr.parts] using hbase.1), hmerged.2⟩
    · refine (h mid₁).bind fun mid₂ index _ hindex => ?_
      refine (advances_expect _).bind fun hi stop _ hstop => ih ?_
      obtain ⟨hlo₂, hmid₂⟩ := arranged_singleton.1 hindex.2
      have hstart := index.span.offset_le_stop
      have hend := stop.offset_le_stop
      have hbehind := hstop.behind
      have hmerged := Frames.merge [base.span, index.span] hcut hstop.cut hlo (by omega)
        hstop.before (arranged_pair.2 (by omega))
      exact ⟨.intro hmerged.1 (by simpa [Expr.parts] using ⟨hbase.1, hindex.1⟩), hmerged.2⟩
    · exact .pure hbase

theorem lays_place (h : LaysExpr source tokens e) : LaysExpr source tokens (place e) := by
  refine fun lo => advances_name.bind fun mid r _ hname => peeks_read.bind fun cx => ?_
  exact advances_accesses h _ ⟨.leaf hname.cut rfl, hname.behind, hname.before⟩

/-- A token that is an expression. -/
theorem advancesAt_leaf {inner : Expr} (hspan : inner.span = t.span) (hparts : inner.parts = []) :
    AdvancesAt source tokens lo t (advance >>= fun _ => pure inner) fun hi e =>
      e.Nested source tokens ∧ Arranged lo hi [e.span] := by
  refine advancesAt_advance_bind fun hlo hcut => .pure ⟨.leaf (hspan ▸ hcut) hparts, ?_⟩
  rw [hspan]
  exact ⟨hlo, Nat.le_refl _⟩

theorem lays_primary (h : LaysExpr source tokens e) : LaysExpr source tokens (primary e) := by
  refine fun lo => advances_current_bind fun t => ?_
  obtain ⟨kind, span⟩ := t
  cases kind with
  | integer | text => exact advancesAt_leaf rfl rfl
  | keyword word =>
    cases word with
    | true | false => exact advancesAt_leaf rfl rfl
    | _ => exact (advances_unexpected _).at
  | punctuator s =>
    cases s with
    | leftParen =>
      refine advancesAt_advance_bind fun hlo _ => (h _).bind fun mid inner _ hinner => ?_
      refine (advances_expect _).bind fun hi stop _ hstop => .pure ⟨hinner.1, hinner.2.mono ?_ ?_⟩
      · exact hlo.trans (Span.offset_le_stop _)
      · exact hstop.behind.trans (stop.offset_le_stop.trans hstop.before)
    | _ => exact (advances_unexpected _).at
  | identifier text =>
    exact Advances.at ((peeks_ahead 1).bind fun _ => Advances.ite (lays_call h lo)
      (lays_place h lo))

variable {expression : Nat → ParseM Expr}

theorem lays_operand (h : ∀ bound, LaysExpr source tokens (expression bound)) :
    LaysExpr source tokens (operand expression) := by
  refine fun lo => advances_current_bind fun t => ?_
  cases hop : leadingOp? t.kind with
  | some op =>
    refine advancesAt_advance_bind fun hlo hcut => (h _ _).bind fun hi inner _ hinner => .pure ?_
    have hmerged := Frames.merge_last (l := []) hcut hinner.1.frames.cut hlo hinner.2
    exact ⟨.intro hmerged.1 (by simpa [Expr.parts] using hinner.1), hmerged.2⟩
  | none =>
    refine Advances.at ((lays_primary (h 0) lo).bind fun mid inner _ hinner => ?_)
    refine advances_get_bind (fun u ts => ?_) (.pure hinner)
    cases hop : trailingOp? u.kind with
    | some op =>
      simp only [List.head?_cons, hop]
      refine advancesAt_advance_bind fun hmid hcut => .pure ?_
      obtain ⟨hbehind, hbefore⟩ := arranged_singleton.1 hinner.2
      have hend := u.span.offset_le_stop
      have hmerged := Frames.merge [inner.span] hinner.1.frames.cut hcut hbehind (by omega)
        (Nat.le_refl _) (arranged_singleton.2 (by omega))
      exact ⟨.intro hmerged.1 (by simpa [Expr.parts] using hinner.1), hmerged.2⟩
    | none =>
      simp only [List.head?_cons, hop]
      exact (Advances.pure hinner).at

theorem advances_operators (h : ∀ bound, LaysExpr source tokens (expression bound))
    (bound limit : Nat) {left : Expr} {mid : Nat}
    (hleft : left.Nested source tokens ∧ Arranged lo mid [left.span]) :
    Advances source tokens mid (operators expression bound limit left) fun hi e =>
      e.Nested source tokens ∧ Arranged lo hi [e.span] := by
  induction limit generalizing left mid with
  | zero => exact advances_exhausted
  | succ limit ih =>
    refine advances_ahead_bind (fun t => ?_) (.pure hleft)
    rw [Option.bind_some]
    split
    · split
      · refine advancesAt_advance_bind fun hlo _ => (h _ _).bind fun hi right _ hright => ih ?_
        obtain ⟨hbehind, hbefore⟩ := arranged_singleton.1 hleft.2
        obtain ⟨hbehind', hbefore'⟩ := arranged_singleton.1 hright.2
        have hstart := t.span.offset_le_stop
        have hmerged := Frames.merge [left.span, right.span] hleft.1.frames.cut
          hright.1.frames.cut hbehind (by omega) hbefore' (arranged_pair.2 (by omega))
        exact ⟨.intro hmerged.1 (by simpa [Expr.parts] using ⟨hleft.1, hright.1⟩), hmerged.2⟩
      · exact (Advances.pure hleft).at
    · exact (Advances.pure hleft).at

end

theorem lays_expressionAt (depth bound : Nat) :
    LaysExpr source tokens (expressionAt depth bound) := by
  induction depth generalizing bound with
  | zero => exact fun _ => advances_exhausted
  | succ depth ih =>
    exact fun lo => (lays_operand ih lo).bind fun mid left _ hleft => peeks_read.bind fun _ =>
      advances_operators ih bound _ hleft

theorem lays_expression : LaysExpr source tokens expression :=
  fun lo => peeks_read.bind fun _ => lays_expressionAt _ _ lo

/-! ### Declarations -/

theorem advances_brackets (limit : Nat) (ty : Ty) :
    Advances source tokens lo (brackets limit ty) fun _ _ => True := by
  induction limit generalizing lo ty with
  | zero => exact advances_exhausted
  | succ limit ih =>
    refine advances_accept_bind (fun mid _ => ?_) (.pure trivial)
    exact (advances_expect _).bind fun mid' _ _ _ => ih (.array ty)

/-- A type starts with the next token. -/
theorem advancesAt_type :
    AdvancesAt source tokens lo t type fun hi _ => Between source tokens lo hi t.span := by
  refine advancesAt_current_bind ?_
  split
  · refine advancesAt_advance_bind fun hlo hcut => peeks_read.bind fun cx => ?_
    exact (advances_brackets _ _).mono fun hi _ hhi _ => ⟨hcut, hlo, hhi⟩
  · exact (advances_unexpected _).at

theorem advances_declarationRest {ty : Ty} {start : Span} {mid : Nat}
    (hstart : Between source tokens lo mid start) :
    Advances source tokens mid (declarationRest ty start) fun hi d => d.Nested source tokens ∧
      Arranged lo hi [d.span] := by
  refine advances_name.bind fun mid' _ hmid _ => (advances_expect _).bind fun hi stop _ hstop => ?_
  have hbefore := hstart.before
  have hbehind := hstop.behind
  have hle := start.offset_le_stop
  have hmerged := Frames.merge [] hstart.cut hstop.cut hstart.behind (by omega) hstop.before
    (show start.offset ≤ stop.stop by have := stop.offset_le_stop; omega)
  exact .pure ⟨hmerged.1.cut, hmerged.2⟩

/-- Declarations that lie where a reader has read. -/
abbrev LaysDeclaration (source : SourceId) (tokens : List Token) (x : ParseM Declaration) : Prop :=
  Lays source tokens x (Declaration.Nested source tokens) fun d => [d.span]

theorem lays_declaration : LaysDeclaration source tokens declaration := fun _ =>
  advances_current_bind fun _ => advancesAt_type.bind fun _ _ _ hstart =>
    advances_declarationRest hstart

theorem lays_parameter : LaysDeclaration source tokens parameter := by
  refine fun lo => advances_current_bind fun t => advancesAt_type.bind fun mid ty _ hstart => ?_
  have hbefore := hstart.before
  have hle := t.span.offset_le_stop
  -- the sign of a reference only moves the name further away
  have hrest : ∀ mid' isReference, mid ≤ mid' → Advances source tokens mid'
      (name >>= fun r => pure (⟨t.span.merge r.2, ty, r.1, isReference⟩ : Declaration)) fun hi d =>
        d.Nested source tokens ∧ Arranged lo hi [d.span] := by
    intro mid' isReference hmid
    refine advances_name.bind fun hi r _ hname => .pure ?_
    have hbehind := hname.behind
    have hend := r.2.offset_le_stop
    have hmerged := Frames.merge [] hstart.cut hname.cut hstart.behind (by omega) hname.before
      (show t.span.offset ≤ r.2.stop by omega)
    exact ⟨hmerged.1.cut, hmerged.2⟩
  exact advances_accept_bind (fun mid' hmid => hrest mid' true hmid)
    (hrest mid false (Nat.le_refl _))

theorem peeks_startsDeclaration : Peeks startsDeclaration := by
  refine (peeks_ahead 0).then fun first => ?_
  split
  · exact peeks_pure _
  · exact peeks_pure _
  · exact peeks_pure _
  · refine (peeks_ahead 1).then fun second => ?_
    split
    · exact peeks_pure _
    · exact (peeks_ahead 2).then fun _ => peeks_pure _
    · exact peeks_pure _
  · exact peeks_pure _

theorem lays_declarations : Lays source tokens declarations
    (fun l => ∀ d ∈ l, d.Nested source tokens) fun l => l.map (·.span) := by
  refine fun lo => peeks_read.bind fun cx => ?_
  exact (lays_manyWhile peeks_startsDeclaration lays_declaration _ lo).mono fun _ _ _ hl =>
    ⟨hl.1, hl.2.of_flatMap⟩

/-! ### Statements -/

/-- Statements that lie where a reader has read. -/
abbrev LaysStatement (source : SourceId) (tokens : List Token) (x : ParseM Statement) : Prop :=
  Lays source tokens x (Statement.Nested source tokens) fun s => [s.span]

section

variable {statement : ParseM Statement}

theorem lays_block (h : LaysStatement source tokens statement) :
    LaysStatement source tokens (block statement) := by
  refine fun lo => (advances_expect _).bind fun mid start _ hstart => ?_
  refine (lays_untilBrace h _).bind fun mid' body _ hbody => ?_
  refine (advances_expect _).bind fun hi stop _ hstop => .pure ?_
  obtain ⟨hnested, hbody⟩ := hbody
  have hbody := hbody.of_flatMap
  have hbefore := hstart.before
  have hbehind := hstop.behind
  have hoffset := start.offset_le_stop
  have hend := stop.offset_le_stop
  have hle := hbody.le
  have hmerged := Frames.merge _ hstart.cut hstop.cut hstart.behind (by omega) hstop.before
    (hbody.mono (by omega) (by omega))
  exact ⟨.intro hmerged.1 (by simp [Statement.exprs]) hnested, hmerged.2⟩

theorem lays_body (h : LaysStatement source tokens statement) :
    LaysStatement source tokens (body statement) := by
  refine fun lo => (peeks_next _).bind fun _ => Advances.ite (lays_block h lo) ?_
  refine (h lo).bind fun hi inner _ hinner => .pure ⟨?_, hinner.2⟩
  exact .intro ⟨hinner.1.frames.cut, Nat.le_refl _, Nat.le_refl _⟩ (by simp [Statement.exprs])
    (by simpa [Statement.statements] using hinner.1)

theorem lays_condition : LaysExpr source tokens condition := by
  refine fun lo => (advances_expect _).bind fun mid _ hmid _ => ?_
  refine (lays_expression mid).bind fun mid' inner _ hinner => ?_
  refine (advances_expect _).bind fun hi stop hhi _ => .pure ?_
  exact ⟨hinner.1, hinner.2.mono hmid hhi⟩

theorem lays_alternative (h : LaysStatement source tokens statement) :
    Lays source tokens (alternative statement) (fun o => ∀ s ∈ o, s.Nested source tokens)
      fun o => o.toList.map (·.span) := by
  refine fun lo => advances_ahead_bind (fun t => ?_) (.pure ⟨by simp, Nat.le_refl _⟩)
  split
  · refine advancesAt_advance_bind fun hlo _ => (lays_body h _).bind fun hi s _ hs => .pure ?_
    refine ⟨by simpa using hs.1, hs.2.mono ?_ (Nat.le_refl _)⟩
    exact hlo.trans t.span.offset_le_stop
  · exact (Advances.pure ⟨by simp, Nat.le_refl _⟩).at

theorem lays_assignment : LaysStatement source tokens assignment := by
  refine fun lo => (lays_place lays_expression lo).bind fun mid target _ htarget => ?_
  refine (advances_expect _).bind fun mid₁ _ hmid₁ _ => ?_
  refine (lays_expression _).bind fun mid₂ value _ hvalue => ?_
  refine (advances_expect _).bind fun hi stop _ hstop => .pure ?_
  obtain ⟨hlo, hmid⟩ := arranged_singleton.1 htarget.2
  obtain ⟨hlo₂, hmid₂⟩ := arranged_singleton.1 hvalue.2
  have hbehind := hstop.behind
  have hle := value.span.offset_le_stop
  have hend := stop.offset_le_stop
  have hmerged := Frames.merge [target.span, value.span] htarget.1.frames.cut hstop.cut hlo
    (by omega)
    hstop.before (arranged_pair.2 (by omega))
  refine ⟨.intro hmerged.1 ?_ (by simp [Statement.statements]), hmerged.2⟩
  simpa [Statement.exprs] using ⟨htarget.1, hvalue.1⟩

theorem lays_returned : Lays source tokens returned (fun o => ∀ e ∈ o, e.Nested source tokens)
    fun o => o.toList.map (·.span) := by
  refine fun lo => (peeks_next _).bind fun _ => Advances.ite (.pure ⟨by simp, Nat.le_refl _⟩) ?_
  exact (lays_expression lo).bind fun hi e _ he => .pure ⟨by simpa using he.1, he.2⟩

end

theorem lays_statementAt (depth : Nat) : LaysStatement source tokens (statementAt depth) := by
  induction depth with
  | zero => exact fun _ => advances_exhausted
  | succ depth ih =>
    refine fun lo => advances_current_bind fun t => ?_
    have hstart := t.span.offset_le_stop
    split
    · exact (lays_block ih lo).at
    · refine advancesAt_advance_bind fun hlo hcut => ?_
      refine (lays_condition _).bind fun mid condition _ hcondition => ?_
      refine (lays_body ih _).bind fun mid' onTrue _ htrue => ?_
      refine (lays_alternative ih _).bind fun hi onFalse _ hfalse => .pure ?_
      have hparts := (hcondition.2.append htrue.2).append hfalse.2
      have hcut' : (onFalse.getD onTrue).span.Cut source tokens := by
        cases onFalse with
        | none => exact htrue.1.frames.cut
        | some other => exact (hfalse.1 other rfl).frames.cut
      -- the last branch ends the statement
      obtain ⟨front, hfront⟩ : ∃ front, [condition.span] ++ [onTrue.span] ++
          onFalse.toList.map (·.span) = front ++ [(onFalse.getD onTrue).span] := by
        cases onFalse with
        | none => exact ⟨[condition.span], rfl⟩
        | some other => exact ⟨[condition.span, onTrue.span], rfl⟩
      have hmerged := Frames.merge_last hcut hcut' hlo (hfront ▸ hparts)
      rw [← hfront] at hmerged
      refine ⟨.intro hmerged.1 ?_ ?_, hmerged.2⟩
      · simpa [Statement.exprs] using hcondition.1
      · simpa [Statement.statements] using ⟨htrue.1, hfalse.1⟩
    · refine advancesAt_advance_bind fun hlo hcut => ?_
      refine (lays_condition _).bind fun mid condition _ hcondition => ?_
      refine (lays_body ih _).bind fun hi inner _ hinner => .pure ?_
      have hmerged := Frames.merge_last hcut hinner.1.frames.cut hlo (hcondition.2.append hinner.2)
      refine ⟨.intro hmerged.1 ?_ ?_, hmerged.2⟩
      · simpa [Statement.exprs] using hcondition.1
      · simpa [Statement.statements] using hinner.1
    · refine advancesAt_advance_bind fun hlo hcut => ?_
      refine (lays_returned _).bind fun mid value _ hvalue => ?_
      refine (advances_expect _).bind fun hi stop _ hstop => .pure ?_
      have hle := hvalue.2.le
      have hbehind := hstop.behind
      have hend := stop.offset_le_stop
      have hmerged := Frames.merge _ hcut hstop.cut hlo (by omega) hstop.before
        (hvalue.2.mono (by omega) (by omega))
      refine ⟨.intro ?_ ?_ (by simp [Statement.statements]), hmerged.2⟩
      · simpa [Statement.span, Statement.exprs, Statement.statements] using hmerged.1
      · simpa [Statement.exprs] using hvalue.1
    · refine advancesAt_advance_bind fun hlo hcut => .pure ⟨.intro hcut.frames ?_ ?_, hlo,
        Nat.le_refl _⟩
      · simp [Statement.exprs]
      · simp [Statement.statements]
    · refine (peeks_ahead 1).bind_at fun _ => AdvancesAt.ite ?_ (lays_assignment lo).at
      refine (advancesAt_call lays_expression).bind fun mid callee _ hcallee => ?_
      obtain ⟨hcallee, hhead, hoffset⟩ := hcallee
      refine (advances_expect _).bind fun hi stop _ hstop => .pure ?_
      have hbefore := hhead.before
      have hbehind := hstop.behind
      have hend := stop.offset_le_stop
      obtain ⟨-, hmid⟩ := arranged_singleton.1 hcallee.2
      have hmerged := Frames.merge [callee.span] hhead.cut hstop.cut hhead.behind (by omega)
        hstop.before (arranged_singleton.2 (by omega))
      refine ⟨.intro hmerged.1 ?_ (by simp [Statement.statements]), hmerged.2⟩
      simpa [Statement.exprs] using hcallee.1
    · exact (advances_unexpected _).at

theorem lays_statement : LaysStatement source tokens statement :=
  fun lo => peeks_read.bind fun _ => lays_statementAt _ lo

/-! ### Members -/

theorem advances_recordRest {start : Span} {mid : Nat}
    (hstart : Between source tokens lo mid start) :
    Advances source tokens mid (recordRest start) fun hi r => r.Nested source tokens ∧
      Arranged lo hi [r.span] := by
  refine advances_name.bind fun mid₁ _ hmid₁ _ => (advances_expect _).bind fun mid₂ _ hmid₂ _ => ?_
  refine (lays_untilBrace lays_declaration _).bind fun mid₃ fields _ hfields => ?_
  refine (advances_expect _).bind fun hi stop _ hstop => .pure ?_
  obtain ⟨hnested, hfields⟩ := hfields
  have hfields := hfields.of_flatMap
  have hbefore := hstart.before
  have hbehind := hstop.behind
  have hoffset := start.offset_le_stop
  have hend := stop.offset_le_stop
  have hle := hfields.le
  have hmerged := Frames.merge _ hstart.cut hstop.cut hstart.behind (by omega) hstop.before
    (hfields.mono (by omega) (by omega))
  exact ⟨⟨hmerged.1, hnested⟩, hmerged.2⟩

theorem advances_functionRest {ty : Ty} {start : Span} {mid : Nat}
    (hstart : Between source tokens lo mid start) :
    Advances source tokens mid (functionRest ty start) fun hi f => f.Nested source tokens ∧
      Arranged lo hi [f.span] := by
  refine advances_name.bind fun mid₁ _ hmid₁ _ => ?_
  refine (advances_parenthesised lays_parameter).bind fun mid₂ params _ hparams => ?_
  obtain ⟨hparams, mid₃, harranged, hclose⟩ := hparams
  refine (lays_declarations _).bind fun mid₄ outer _ houter => ?_
  refine (advances_expect _).bind fun mid₅ _ hmid₅ _ => ?_
  refine (lays_declarations _).bind fun mid₆ inner _ hinner => ?_
  refine (lays_untilBrace lays_statement _).bind fun mid₇ body _ hbody => ?_
  refine (advances_expect _).bind fun hi stop _ hstop => .pure ?_
  have hmid₃ : mid₃ ≤ mid₂ := hclose.behind.trans (params.2.offset_le_stop.trans hclose.before)
  have hlocals := (houter.2.mono hmid₃ hmid₅).append hinner.2
  have hparts := (harranged.of_flatMap.append hlocals).append hbody.2.of_flatMap
  have hbefore := hstart.before
  have hbehind := hstop.behind
  have hoffset := start.offset_le_stop
  have hend := stop.offset_le_stop
  have hle := hparts.le
  have hmerged := Frames.merge _ hstart.cut hstop.cut hstart.behind (by omega) hstop.before
    (hparts.mono (by omega) (by omega))
  refine ⟨⟨?_, hparams, fun d hd => ?_, hbody.1⟩, hmerged.2⟩
  · rw [List.map_append]
    exact hmerged.1
  · exact (List.mem_append.1 hd).elim (houter.1 d) (hinner.1 d)

theorem lays_member : Lays source tokens member (fun o => ∀ m ∈ o, m.Nested source tokens)
    fun o => o.toList.map (·.span) := by
  refine fun lo => advances_current_bind fun t => ?_
  have hle := t.span.offset_le_stop
  split
  · exact advancesAt_advance_bind fun hlo _ => .pure ⟨by simp, by show lo ≤ _; omega⟩
  · refine advancesAt_advance_bind fun hlo hcut => ?_
    refine (advances_recordRest ⟨hcut, hlo, Nat.le_refl _⟩).bind fun hi r _ hr => .pure ?_
    exact ⟨by simpa [Member.Nested] using hr.1, hr.2⟩
  · refine advancesAt_advance_bind fun hlo hcut => ?_
    refine (advances_functionRest ⟨hcut, hlo, Nat.le_refl _⟩).bind fun hi f _ hf => .pure ?_
    exact ⟨by simpa [Member.Nested] using hf.1, hf.2⟩
  · split
    · refine advancesAt_type.bind fun mid ty _ hstart => (peeks_ahead 1).bind fun _ =>
        Advances.ite ?_ ?_
      · refine (advances_functionRest hstart).bind fun hi f _ hf => .pure ?_
        exact ⟨by simpa [Member.Nested] using hf.1, hf.2⟩
      · refine (advances_declarationRest hstart).bind fun hi d _ hd => .pure ?_
        exact ⟨by simpa [Member.Nested] using hd.1, hd.2⟩
    · exact (advances_unexpected _).at

theorem lays_members : Lays source tokens members (fun l => ∀ m ∈ l, m.Nested source tokens)
    fun l => l.map (·.span) := by
  refine fun lo => peeks_read.bind fun cx => ?_
  refine (lays_manyWhile (peeks_get.then fun _ => peeks_pure _) lays_member _ lo).bind
    fun hi l _ hl => .pure ⟨fun m hm => ?_, ?_⟩
  · obtain ⟨o, ho, rfl⟩ := List.mem_filterMap.1 hm
    exact hl.1 _ ho m rfl
  · dsimp only
    rw [List.filterMap_eq_flatMap_toList, List.map_flatMap]
    exact hl.2

end Parser

theorem Ahead.cut {lo : Nat} {ts : List Token} (h : Ahead source tokens lo ts) :
    ∀ t ∈ ts, t.span.Cut source tokens := by
  induction ts generalizing lo with
  | nil => simp
  | cons t rest ih => exact List.forall_mem_cons.2 ⟨h.2.1, ih h.2.2⟩

/-- The last of some tokens is behind the others. -/
theorem Ahead.le_last {lo : Nat} {first : Token} {rest : List Token}
    (h : Ahead source tokens lo (first :: rest)) :
    first.span.offset ≤ (rest.getLast?.getD first).span.offset ∧
      ∀ t ∈ first :: rest, t.span.stop ≤ (rest.getLast?.getD first).span.stop := by
  induction rest generalizing lo first with
  | nil => simp
  | cons second rest ih =>
    obtain ⟨hoffset, hstop⟩ := ih h.2.2
    have hfirst := first.span.offset_le_stop
    have hsecond := second.span.offset_le_stop
    have hle := h.2.2.1
    have hlast := hstop second (by simp)
    rw [List.getLast?_cons, Option.getD_some]
    refine ⟨by omega, List.forall_mem_cons.2 ⟨by omega, hstop⟩⟩

/-- The spans of a parsed program are nested. -/
theorem Program.nested_of_parse {p : Program} (hne : tokens ≠ [])
    (htokens : Ahead source tokens 0 tokens) (h : Program.parse tokens = .ok p) :
    p.Nested source tokens := by
  have hcut := htokens.cut
  simp only [Program.parse, Outcome.bind_eq_ok, Outcome.pure_eq_ok] at h
  obtain ⟨⟨members, rest⟩, hm, rfl⟩ := h
  obtain ⟨first, others, rfl⟩ := List.exists_cons_of_ne_nil hne
  have hahead : Ahead source (first :: others) first.span.offset (first :: others) :=
    ⟨Nat.le_refl _, htokens.2⟩
  obtain ⟨hi, -, -, hnested, hparts⟩ := Parser.lays_members _ _ _ _ _ hahead hm
  obtain ⟨hoffset, hstop⟩ := htokens.le_last
  have hlast : others.getLast?.getD first ∈ first :: others := by
    cases hother : others.getLast? with
    | none => simp
    | some t => simpa [hother] using .inr (List.mem_of_getLast? hother)
  obtain ⟨hextent, hstart, hend⟩ := (hcut first (by simp)).merge (hcut _ hlast) hoffset
    (hstop first (by simp))
  refine ⟨⟨hextent, ?_⟩, hnested⟩
  show Span.Arranged (first.span.merge _).offset (first.span.merge _).stop _
  rw [hstart, hend]
  refine hparts.until (hoffset.trans (Span.offset_le_stop _)) fun s hs => ?_
  obtain ⟨m, hm, rfl⟩ := List.mem_map.1 hs
  obtain ⟨t, ht, heq⟩ := (hnested m hm).cut.stops
  exact heq ▸ hstop t ht

end MiniJ
