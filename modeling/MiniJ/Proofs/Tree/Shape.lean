import MiniJ.Proofs.Arena.Tree
import MiniJ.Tree.Parser

/-!
# Shapes of parsed programs

The grammar allows more trees than the data types show: what a field or an element belongs to and
what an assignment writes to are places, a call statement holds a call, and nothing is declared
with type `void`. `Program.parse` only gives programs of this shape.

## Main statements

* `Program.shaped_of_parse` — every parsed program is shaped.
-/
namespace MiniJ

def Expr.IsPlace : Expr → Prop
  | .var .. | .field .. | .element .. => True
  | _ => False

/-- Fields and elements belong to places. -/
inductive Expr.Shaped : Expr → Prop
  | int (s : Span) (value : Int64) : Shaped (.int s value)
  | text (s : Span) (value : String) : Shaped (.text s value)
  | bool (s : Span) (value : Bool) : Shaped (.bool s value)
  | var (s : Span) (name : String) : Shaped (.var s name)
  | field (s : Span) {base : Expr} (name : String) (place : base.IsPlace) (shaped : Shaped base) :
      Shaped (.field s base name)
  | element (s : Span) {base index : Expr} (place : base.IsPlace) (shaped : Shaped base)
      (indexShaped : Shaped index) : Shaped (.element s base index)
  | unary (s : Span) (op : UnaryOp) {operand : Expr} (shaped : Shaped operand) :
      Shaped (.unary s op operand)
  | binary (s : Span) (op : BinaryOp) {left right : Expr} (leftShaped : Shaped left)
      (rightShaped : Shaped right) : Shaped (.binary s op left right)
  | call (s : Span) (name : String) {args : List Expr} (shaped : ∀ e ∈ args, Shaped e) :
      Shaped (.call s name args)

/-- Assignments write to places, and call statements call. -/
inductive Statement.Shaped : Statement → Prop
  | block (s : Span) {body : List Statement} (shaped : ∀ t ∈ body, Shaped t) :
      Shaped (.block s body)
  | assign (s : Span) {target value : Expr} (place : target.IsPlace) (shaped : target.Shaped)
      (valueShaped : value.Shaped) : Shaped (.assign s target value)
  | call (s t : Span) (name : String) {args : List Expr} (shaped : (Expr.call t name args).Shaped) :
      Shaped (.call s (.call t name args))
  | branch (s : Span) {condition : Expr} {onTrue : Statement} {onFalse : Option Statement}
      (conditionShaped : condition.Shaped) (shaped : Shaped onTrue)
      (otherShaped : ∀ t ∈ onFalse, Shaped t) : Shaped (.branch s condition onTrue onFalse)
  | loop (s : Span) {condition : Expr} {body : Statement} (conditionShaped : condition.Shaped)
      (shaped : Shaped body) : Shaped (.loop s condition body)
  | ret (s : Span) {value : Option Expr} (shaped : ∀ e ∈ value, e.Shaped) : Shaped (.ret s value)
  | empty (s : Span) : Shaped (.empty s)

def Declaration.Shaped (d : Declaration) : Prop := d.ty.Declarable

structure FunctionDef.Shaped (f : FunctionDef) : Prop where
  returnType : f.returnType = .void ∨ f.returnType.Declarable
  params : ∀ d ∈ f.params, d.Shaped
  locals : ∀ d ∈ f.locals, d.Shaped ∧ d.isReference = false
  body : ∀ s ∈ f.body, s.Shaped

def Member.Shaped : Member → Prop
  | .global d => d.Shaped
  | .record r => ∀ d ∈ r.fields, d.Shaped
  | .function f => f.Shaped

def Program.Shaped (p : Program) : Prop := ∀ m ∈ p.members, m.Shaped

namespace Parser

variable {α β : Type}

/-- Whatever a reader gives has a property. -/
def Yields (x : ParseM α) (P : α → Prop) : Prop :=
  ∀ cx ts v ts', (x.run cx).run ts = .ok (v, ts') → P v

theorem Yields.trivial (x : ParseM α) : Yields x fun _ => True := fun _ _ _ _ _ => True.intro

theorem Yields.mono {x : ParseM α} {P Q : α → Prop} (h : Yields x P) (hPQ : ∀ v, P v → Q v) :
    Yields x Q := fun cx ts v ts' hv => hPQ v (h cx ts v ts' hv)

theorem Yields.pure {v : α} {P : α → Prop} (h : P v) : Yields (pure v) P := by
  intro cx ts w ts' hw
  cases hw
  exact h

theorem Yields.throw {e : Failure ParseError} {P : α → Prop} : Yields (throw e) P := by
  intro cx ts w ts' hw
  cases hw

theorem Yields.bind {x : ParseM α} {f : α → ParseM β} {P : α → Prop} {Q : β → Prop}
    (hx : Yields x P) (hf : ∀ v, P v → Yields (f v) Q) : Yields (x >>= f) Q := by
  intro cx ts w ts' hw
  change ((x.run cx).run ts >>= fun r => ((f r.1).run cx).run r.2) = _ at hw
  obtain ⟨⟨v, ts''⟩, hv, hw⟩ := Outcome.bind_eq_ok.1 hw
  exact hf v (hx cx ts v ts'' hv) cx ts'' w ts' hw

/-- A step whose result does not matter. -/
theorem Yields.next {x : ParseM α} {f : α → ParseM β} {Q : β → Prop}
    (hf : ∀ v, Yields (f v) Q) : Yields (x >>= f) Q := (Yields.trivial x).bind fun v _ => hf v

theorem yields_exhausted {P : α → Prop} : Yields exhausted P := Yields.throw

theorem yields_unexpected {s : String} {P : α → Prop} : Yields (unexpected s) P :=
  Yields.next fun _ => Yields.throw

theorem Yields.ite {c : Prop} [Decidable c] {x y : ParseM α} {P : α → Prop} (hx : Yields x P)
    (hy : Yields y P) : Yields (if c then x else y) P := by
  split <;> assumption

theorem yields_manyWhile {more : ParseM Bool} {item : ParseM α} {P : α → Prop}
    (h : Yields item P) (limit : Nat) : Yields (manyWhile more item limit) fun l =>
    ∀ v ∈ l, P v := by
  induction limit with
  | zero => exact yields_exhausted
  | succ limit ih =>
    refine Yields.next fun _ => Yields.ite ?_ (Yields.pure (by simp))
    refine h.bind fun v hv => ih.bind fun rest hrest => Yields.pure ?_
    simpa using ⟨hv, hrest⟩

theorem yields_commaSeparated {item : ParseM α} {P : α → Prop} (h : Yields item P) (limit : Nat) :
    Yields (commaSeparated item limit) fun l => ∀ v ∈ l, P v := by
  induction limit with
  | zero => exact yields_exhausted
  | succ limit ih =>
    refine h.bind fun v hv => Yields.next fun _ => Yields.ite ?_ (Yields.pure (by simpa using hv))
    exact ih.bind fun rest hrest => Yields.pure (by simpa using ⟨hv, hrest⟩)

theorem yields_untilBrace {item : ParseM α} {P : α → Prop} (h : Yields item P) :
    Yields (untilBrace item) fun l => ∀ v ∈ l, P v :=
  Yields.next fun _ => yields_manyWhile h _

theorem yields_parenthesised {item : ParseM α} {P : α → Prop} (h : Yields item P) :
    Yields (parenthesised item) fun r => ∀ v ∈ r.1, P v := by
  refine Yields.next fun _ => Yields.next fun _ => Yields.ite ?_ ?_
  · exact Yields.next fun _ => Yields.pure (by simp)
  · exact Yields.next fun _ => (yields_commaSeparated h _).bind fun l hl =>
      Yields.next fun _ => Yields.pure hl

/-! ### Expressions -/

theorem yields_call {expression : ParseM Expr} (h : Yields expression Expr.Shaped) :
    Yields (call expression) fun e => ∃ s name args, e = .call s name args ∧ e.Shaped := by
  refine Yields.next fun head => (yields_parenthesised h).bind fun tail htail => Yields.pure ?_
  exact ⟨_, _, _, rfl, .call _ _ htail⟩

/-- Shaped places. -/
def ShapedPlace (e : Expr) : Prop := e.IsPlace ∧ e.Shaped

theorem yields_accesses {expression : ParseM Expr} (h : Yields expression Expr.Shaped)
    (limit : Nat) (base : Expr) (hb : ShapedPlace base) :
    Yields (accesses expression limit base) ShapedPlace := by
  induction limit generalizing base with
  | zero => exact yields_exhausted
  | succ limit ih =>
    refine Yields.next fun _ => Yields.ite ?_ (Yields.next fun _ => Yields.ite ?_ (Yields.pure hb))
    · exact Yields.next fun _ => ih _ ⟨True.intro, .field _ _ hb.1 hb.2⟩
    · exact h.bind fun index hi => Yields.next fun _ => ih _ ⟨True.intro, .element _ hb.1 hb.2 hi⟩

theorem yields_place {expression : ParseM Expr} (h : Yields expression Expr.Shaped) :
    Yields (place expression) ShapedPlace :=
  Yields.next fun _ => Yields.next fun _ => yields_accesses h _ _ ⟨True.intro, .var _ _⟩

theorem yields_primary {expression : ParseM Expr} (h : Yields expression Expr.Shaped) :
    Yields (primary expression) Expr.Shaped := by
  refine Yields.next fun token => ?_
  cases token.kind with
  | integer value => exact Yields.next fun _ => Yields.pure (.int _ _)
  | text value => exact Yields.next fun _ => Yields.pure (.text _ _)
  | keyword word =>
    cases word with
    | true | false => exact Yields.next fun _ => Yields.pure (.bool _ _)
    | _ => exact yields_unexpected
  | punctuator mark =>
    cases mark with
    | leftParen => exact Yields.next fun _ => h.bind fun e he => Yields.next fun _ => Yields.pure he
    | _ => exact yields_unexpected
  | identifier name =>
    refine Yields.next fun _ => Yields.ite ?_ ?_
    · exact (yields_call h).mono fun e ⟨_, _, _, _, he⟩ => he
    · exact (yields_place h).mono fun e he => he.2

theorem yields_operand {expression : Nat → ParseM Expr}
    (h : ∀ bound, Yields (expression bound) Expr.Shaped) :
    Yields (operand expression) Expr.Shaped := by
  refine Yields.next fun token => ?_
  split
  · exact Yields.next fun _ => (h _).bind fun e he => Yields.pure (.unary _ _ he)
  · refine (yields_primary (h 0)).bind fun e he => Yields.next fun rest => ?_
    split
    · split
      · exact Yields.next fun _ => Yields.pure (.unary _ _ he)
      · exact Yields.pure he
    · exact Yields.pure he

theorem yields_operators {expression : Nat → ParseM Expr}
    (h : ∀ bound, Yields (expression bound) Expr.Shaped) (bound limit : Nat) (left : Expr)
    (hl : left.Shaped) : Yields (operators expression bound limit left) Expr.Shaped := by
  induction limit generalizing left with
  | zero => exact yields_exhausted
  | succ limit ih =>
    refine Yields.next fun token => ?_
    split
    · refine Yields.ite ?_ (Yields.pure hl)
      exact Yields.next fun _ => (h _).bind fun right hr => ih _ (.binary _ _ hl hr)
    · exact Yields.pure hl

theorem yields_expressionAt (depth bound : Nat) :
    Yields (expressionAt depth bound) Expr.Shaped := by
  induction depth generalizing bound with
  | zero => exact yields_exhausted
  | succ depth ih =>
    exact (yields_operand ih).bind fun left hl => Yields.next fun _ =>
      yields_operators ih bound _ left hl

theorem yields_expression : Yields expression Expr.Shaped :=
  Yields.next fun _ => yields_expressionAt _ _

/-! ### Declarations -/

theorem yields_brackets (limit : Nat) (ty : Ty) (h : ty.Declarable) :
    Yields (brackets limit ty) Ty.Declarable := by
  induction limit generalizing ty with
  | zero => exact yields_exhausted
  | succ limit ih =>
    refine Yields.next fun _ => Yields.ite ?_ (Yields.pure h)
    exact Yields.next fun _ => ih (.array ty) h

theorem yields_type : Yields type Ty.Declarable := by
  refine Yields.next fun token => ?_
  split
  · next ty h =>
    refine Yields.next fun _ => Yields.next fun _ => yields_brackets _ _ ?_
    unfold typeOf? at h
    split at h <;> cases h <;> simp [Ty.Declarable, Ty.base]
  · exact yields_unexpected

theorem yields_declarationRest {ty : Ty} (h : ty.Declarable) (start : Span) :
    Yields (declarationRest ty start) fun d => d.Shaped ∧ d.isReference = false :=
  Yields.next fun _ => Yields.next fun _ => Yields.pure ⟨h, rfl⟩

theorem yields_declaration : Yields declaration fun d => d.Shaped ∧ d.isReference = false :=
  Yields.next fun _ => yields_type.bind fun _ hty => yields_declarationRest hty _

theorem yields_parameter : Yields parameter Declaration.Shaped :=
  Yields.next fun _ => yields_type.bind fun _ hty => Yields.next fun _ => Yields.next fun _ =>
    Yields.pure hty

theorem yields_declarations :
    Yields declarations fun l => ∀ d ∈ l, d.Shaped ∧ d.isReference = false :=
  Yields.next fun _ => yields_manyWhile yields_declaration _

/-! ### Statements -/

theorem yields_block {statement : ParseM Statement} (h : Yields statement Statement.Shaped) :
    Yields (block statement) Statement.Shaped :=
  Yields.next fun _ => (yields_untilBrace h).bind fun _ hb => Yields.next fun _ =>
    Yields.pure (.block _ hb)

theorem yields_body {statement : ParseM Statement} (h : Yields statement Statement.Shaped) :
    Yields (body statement) Statement.Shaped := by
  refine Yields.next fun _ => Yields.ite (yields_block h) ?_
  exact h.bind fun s hs => Yields.pure (.block _ (by simpa using hs))

theorem yields_condition : Yields condition Expr.Shaped :=
  Yields.next fun _ => yields_expression.bind fun _ he => Yields.next fun _ => Yields.pure he

theorem yields_alternative {statement : ParseM Statement} (h : Yields statement Statement.Shaped) :
    Yields (alternative statement) fun o => ∀ s ∈ o, s.Shaped := by
  refine Yields.next fun _ => Yields.ite ?_ (Yields.pure (by simp))
  exact Yields.next fun _ => (yields_body h).bind fun s hs => Yields.pure (by simpa using hs)

theorem yields_assignment : Yields assignment Statement.Shaped :=
  (yields_place yields_expression).bind fun _ ht => Yields.next fun _ =>
    yields_expression.bind fun _ hv => Yields.next fun _ => Yields.pure (.assign _ ht.1 ht.2 hv)

theorem yields_returned : Yields returned fun o => ∀ e ∈ o, e.Shaped := by
  refine Yields.next fun _ => Yields.ite (Yields.pure (by simp)) ?_
  exact yields_expression.bind fun e he => Yields.pure (by simpa using he)

theorem yields_statementAt (depth : Nat) : Yields (statementAt depth) Statement.Shaped := by
  induction depth with
  | zero => exact yields_exhausted
  | succ depth ih =>
    refine Yields.next fun token => ?_
    split
    · exact yields_block ih
    · exact Yields.next fun _ => yields_condition.bind fun c hc => (yields_body ih).bind
        fun t ht => (yields_alternative ih).bind fun o ho => Yields.pure (.branch _ hc ht ho)
    · exact Yields.next fun _ => yields_condition.bind fun c hc => (yields_body ih).bind
        fun t ht => Yields.pure (.loop _ hc ht)
    · exact Yields.next fun _ => yields_returned.bind fun v hv => Yields.next fun _ =>
        Yields.pure (.ret _ hv)
    · exact Yields.next fun _ => Yields.pure (.empty _)
    · refine Yields.next fun _ => Yields.ite ?_ yields_assignment
      refine (yields_call yields_expression).bind fun e he => Yields.next fun _ => Yields.pure ?_
      obtain ⟨t, name, args, rfl, hs⟩ := he
      exact .call _ _ _ hs
    · exact yields_unexpected

theorem yields_statement : Yields statement Statement.Shaped :=
  Yields.next fun _ => yields_statementAt _

/-! ### Members -/

theorem yields_recordRest (start : Span) :
    Yields (recordRest start) fun r => ∀ d ∈ r.fields, d.Shaped :=
  Yields.next fun _ => Yields.next fun _ => (yields_untilBrace yields_declaration).bind
    fun _ hf => Yields.next fun _ => Yields.pure fun d hd => (hf d hd).1

theorem yields_functionRest {ty : Ty} (h : ty = .void ∨ ty.Declarable) (start : Span) :
    Yields (functionRest ty start) FunctionDef.Shaped := by
  refine Yields.next fun _ => (yields_parenthesised yields_parameter).bind fun params hp => ?_
  refine yields_declarations.bind fun outer ho => Yields.next fun _ => ?_
  refine yields_declarations.bind fun inner hi => ?_
  refine (yields_untilBrace yields_statement).bind fun body hb => Yields.next fun _ => ?_
  refine Yields.pure ⟨h, hp, fun d hd => ?_, hb⟩
  rcases List.mem_append.1 hd with hd | hd
  · exact ho d hd
  · exact hi d hd

theorem yields_member : Yields member fun o => ∀ m ∈ o, m.Shaped := by
  refine Yields.next fun token => ?_
  split
  · exact Yields.next fun _ => Yields.pure (by simp)
  · exact Yields.next fun _ => (yields_recordRest _).bind fun r hr =>
      Yields.pure (by simpa [Member.Shaped] using hr)
  · exact Yields.next fun _ => (yields_functionRest (.inl rfl) _).bind fun f hf =>
      Yields.pure (by simpa [Member.Shaped] using hf)
  · refine Yields.ite ?_ yields_unexpected
    refine yields_type.bind fun ty hty => Yields.next fun _ => Yields.ite ?_ ?_
    · exact (yields_functionRest (.inr hty) _).bind fun f hf =>
        Yields.pure (by simpa [Member.Shaped] using hf)
    · exact (yields_declarationRest hty _).bind fun d hd =>
        Yields.pure (by simpa [Member.Shaped] using hd.1)

theorem yields_members : Yields members fun l => ∀ m ∈ l, m.Shaped := by
  refine Yields.next fun _ => (yields_manyWhile yields_member _).bind fun l hl => Yields.pure ?_
  intro m hm
  obtain ⟨o, ho, rfl⟩ := List.mem_filterMap.1 hm
  exact hl _ ho m rfl

end Parser

/-- Every parsed program is shaped. -/
theorem Program.shaped_of_parse {tokens : List Token} {p : Program}
    (h : Program.parse tokens = .ok p) : p.Shaped := by
  simp only [Program.parse, Outcome.bind_eq_ok, Outcome.pure_eq_ok] at h
  obtain ⟨⟨members, rest⟩, hm, rfl⟩ := h
  exact Parser.yields_members _ _ _ _ hm

end MiniJ
