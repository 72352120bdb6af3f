import MiniJ.Proofs.Token.Origin
import MiniJ.Tree.Parser

/-!
# Where the parts of a program come from

The names in a parsed program are identifiers among its tokens, and the span of each part starts
where one of the tokens starts. The same holds for what the parser complains about.

## Main definitions

* `Expr.From`, `Statement.From`, `Member.From` — trees whose names and spans have an origin.

## Main statements

* `Program.settles_parse` — programs and errors come from their tokens.
-/
namespace MiniJ

open Outcome Text

variable {o : Origin}

/-! ### Trees -/

/-- The record that a type is about is named like this. -/
def Ty.From (o : Origin) (ty : Ty) : Prop := ∀ name, ty.base = .record name → o.name name

inductive Expr.From (o : Origin) : Expr → Prop
  | int {s : Span} (value : Int64) (span : o.span s) : From o (.int s value)
  | text {s : Span} (value : String) (span : o.span s) : From o (.text s value)
  | bool {s : Span} (value : Bool) (span : o.span s) : From o (.bool s value)
  | var {s : Span} {x : String} (span : o.span s) (name : o.name x) : From o (.var s x)
  | field {s : Span} {base : Expr} {x : String} (span : o.span s) (name : o.name x)
      (part : From o base) : From o (.field s base x)
  | element {s : Span} {base index : Expr} (span : o.span s) (part : From o base)
      (part' : From o index) : From o (.element s base index)
  | unary {s : Span} (op : UnaryOp) {operand : Expr} (span : o.span s) (part : From o operand) :
      From o (.unary s op operand)
  | binary {s : Span} (op : BinaryOp) {left right : Expr} (span : o.span s) (part : From o left)
      (part' : From o right) : From o (.binary s op left right)
  | call {s : Span} {x : String} {args : List Expr} (span : o.span s) (name : o.name x)
      (parts : ∀ e ∈ args, From o e) : From o (.call s x args)

theorem Expr.From.span_from {e : Expr} (h : e.From o) : o.span e.span := by
  cases h <;> assumption

structure Declaration.From (o : Origin) (d : Declaration) : Prop where
  span : o.span d.span
  ty : d.ty.From o
  name : o.name d.name

inductive Statement.From (o : Origin) : Statement → Prop
  | block {s : Span} {body : List Statement} (span : o.span s) (parts : ∀ t ∈ body, From o t) :
      From o (.block s body)
  | assign {s : Span} {target value : Expr} (span : o.span s) (part : target.From o)
      (part' : value.From o) : From o (.assign s target value)
  | call {s : Span} {callee : Expr} (span : o.span s) (part : callee.From o) :
      From o (.call s callee)
  | branch {s : Span} {condition : Expr} {onTrue : Statement} {onFalse : Option Statement}
      (span : o.span s) (test : condition.From o) (part : From o onTrue)
      (part' : ∀ t ∈ onFalse, From o t) : From o (.branch s condition onTrue onFalse)
  | loop {s : Span} {condition : Expr} {body : Statement} (span : o.span s)
      (test : condition.From o) (part : From o body) : From o (.loop s condition body)
  | ret {s : Span} {value : Option Expr} (span : o.span s) (parts : ∀ e ∈ value, e.From o) :
      From o (.ret s value)
  | empty {s : Span} (span : o.span s) : From o (.empty s)

theorem Statement.From.span_from {s : Statement} (h : s.From o) : o.span s.span := by
  cases h <;> assumption

structure RecordDef.From (o : Origin) (r : RecordDef) : Prop where
  span : o.span r.span
  name : o.name r.name
  fields : ∀ d ∈ r.fields, d.From o

structure FunctionDef.From (o : Origin) (f : FunctionDef) : Prop where
  span : o.span f.span
  returnType : f.returnType.From o
  name : o.name f.name
  params : ∀ d ∈ f.params, d.From o
  locals : ∀ d ∈ f.locals, d.From o
  body : ∀ s ∈ f.body, s.From o

def Member.From (o : Origin) : Member → Prop
  | .global d => d.From o
  | .record r => r.From o
  | .function f => f.From o

structure Program.From (o : Origin) (p : Program) : Prop where
  span : o.span p.span
  members : ∀ m ∈ p.members, m.From o

/-- A complaint about a token, or about the end of the program. -/
structure ParseError.From (o : Origin) (e : ParseError) : Prop where
  span : o.span e.span
  cause : e.cause = .unexpectedEnd ∨
    ∃ (expected : String) (t : Token), IsLine expected ∧ t.From o ∧
      e.cause = .unexpectedToken expected t.kind

/-- What is reported has the origin of the tokens. -/
def Failure.From (o : Origin) : Failure ParseError → Prop
  | .reported e => e.From o
  | .fault _ => True

theorem Punctuator.isLine_name (s : Punctuator) : IsLine s.name := by cases s <;> decide

theorem TokenKind.isLine_describe (k : TokenKind) : IsLine k.describe := by
  unfold TokenKind.describe
  cases k with
  | integer value | text value | identifier name =>
    simp only [isLine_append, isLine_toString_int, isLine_quote, and_true]
    decide
  | keyword word => cases word <;> decide
  | punctuator sign => exact sign.isLine_name

theorem ParseError.From.isLine {e : ParseError} (h : e.From o) : IsLine e.message := by
  obtain ⟨cause, span⟩ := e
  rcases h.cause with rfl | ⟨expected, t, hexpected, -, rfl⟩
  · simp only [ParseError.message]
    decide
  · simp only [ParseError.message, isLine_append]
    exact ⟨⟨⟨by decide, hexpected⟩, by decide⟩, t.kind.isLine_describe⟩

namespace Parser

variable {α β : Type} {x : ParseM α} {f : α → ParseM β} {P : α → Prop} {Q : β → Prop}

/-- What a reader gives has a property, and whatever it leaves or complains about has the origin of
the tokens. -/
def Keeps (o : Origin) (x : ParseM α) (P : α → Prop) : Prop :=
  ∀ cx ts, o.span cx.last → (∀ t ∈ ts, t.From o) →
    Settles ((x.run cx).run ts) (fun r => P r.1 ∧ ∀ t ∈ r.2, t.From o) (Failure.From o)

namespace Keeps

theorem pure {v : α} (h : P v) : Keeps o (pure v) P := fun _ _ _ hts => ⟨h, hts⟩

theorem bind (hx : Keeps o x P) (hf : ∀ v, P v → Keeps o (f v) Q) : Keeps o (x >>= f) Q := by
  intro cx ts hlast hts
  have hfirst := hx cx ts hlast hts
  have hrun : ((x >>= f).run cx).run ts =
      (x.run cx).run ts >>= fun r => ((f r.1).run cx).run r.2 := rfl
  rw [hrun]
  exact hfirst.bind fun r hr => hf r.1 hr.1 cx r.2 hlast hr.2

theorem ite {c : Prop} [Decidable c] {y : ParseM α} (hx : Keeps o x P) (hy : Keeps o y P) :
    Keeps o (if c then x else y) P := by
  split <;> assumption

end Keeps

/-! ### Tokens -/

theorem keeps_get : Keeps o get fun ts => ∀ t ∈ ts, t.From o := fun _ _ _ hts => ⟨hts, hts⟩

theorem keeps_read : Keeps o read fun cx => o.span cx.last := fun _ _ hlast hts => ⟨hlast, hts⟩

theorem keeps_atEnd : Keeps o atEnd P := fun _ _ hlast _ => ⟨hlast, .inl rfl⟩

theorem keeps_exhausted : Keeps o exhausted P := fun _ _ _ _ => trivial

theorem keeps_ahead (distance : Nat) : Keeps o (ahead distance) fun _ => True :=
  keeps_get.bind fun _ _ => .pure trivial

theorem keeps_current : Keeps o current (Token.From o) := by
  refine keeps_get.bind fun ts hts => ?_
  cases ts with
  | nil => exact keeps_atEnd
  | cons t ts => exact .pure (hts t (by simp))

theorem keeps_advance : Keeps o advance fun _ => True :=
  fun _ _ _ hts => ⟨trivial, fun t ht => hts t (List.mem_of_mem_drop ht)⟩

theorem keeps_unexpected {expected : String} (h : IsLine expected) :
    Keeps o (unexpected expected) P := by
  refine keeps_current.bind fun t ht => ?_
  exact fun _ _ _ _ => ⟨ht.span, .inr ⟨expected, t, h, ht, rfl⟩⟩

theorem keeps_next (s : Punctuator) : Keeps o (next s) fun _ => True :=
  (keeps_ahead 0).bind fun _ _ => .pure trivial

theorem keeps_accept (s : Punctuator) : Keeps o (accept s) fun _ => True :=
  (keeps_next s).bind fun _ _ => .ite (keeps_advance.bind fun _ _ => .pure trivial) (.pure trivial)

theorem keeps_expect (s : Punctuator) : Keeps o (expect s) o.span :=
  keeps_current.bind fun _ ht => .ite (keeps_advance.bind fun _ _ => .pure ht.span)
    (keeps_unexpected s.isLine_name)

theorem keeps_name : Keeps o name fun r => o.name r.1 ∧ o.span r.2 := by
  refine keeps_current.bind fun t ht => ?_
  split
  · next text hkind => exact keeps_advance.bind fun _ _ => .pure ⟨ht.name text hkind, ht.span⟩
  · exact keeps_unexpected (by decide)

/-! ### Lists -/

theorem keeps_manyWhile {more : ParseM Bool} (hmore : Keeps o more fun _ => True)
    (hx : Keeps o x P) (limit : Nat) : Keeps o (manyWhile more x limit) fun l => ∀ v ∈ l, P v := by
  induction limit with
  | zero => exact keeps_exhausted
  | succ limit ih =>
    refine hmore.bind fun _ _ => .ite ?_ (.pure (by simp))
    refine hx.bind fun v hv => ih.bind fun rest hrest => .pure ?_
    simpa using ⟨hv, hrest⟩

theorem keeps_commaSeparated (hx : Keeps o x P) (limit : Nat) :
    Keeps o (commaSeparated x limit) fun l => ∀ v ∈ l, P v := by
  induction limit with
  | zero => exact keeps_exhausted
  | succ limit ih =>
    refine hx.bind fun v hv => (keeps_accept .comma).bind fun _ _ =>
      .ite ?_ (.pure (by simpa using hv))
    exact ih.bind fun rest hrest => .pure (by simpa using ⟨hv, hrest⟩)

theorem keeps_untilBrace (hx : Keeps o x P) : Keeps o (untilBrace x) fun l => ∀ v ∈ l, P v :=
  keeps_read.bind fun _ _ =>
    keeps_manyWhile ((keeps_next .rightBrace).bind fun _ _ => .pure trivial) hx _

theorem keeps_parenthesised (hx : Keeps o x P) :
    Keeps o (parenthesised x) fun r => (∀ v ∈ r.1, P v) ∧ o.span r.2 := by
  refine (keeps_expect .leftParen).bind fun _ _ => (keeps_next .rightParen).bind fun _ _ =>
    .ite ?_ ?_
  · exact (keeps_expect .rightParen).bind fun stop hstop => .pure ⟨by simp, hstop⟩
  · exact keeps_read.bind fun _ _ => (keeps_commaSeparated hx _).bind fun items hitems =>
      (keeps_expect .rightParen).bind fun stop hstop => .pure ⟨hitems, hstop⟩

/-! ### Expressions -/

section Expressions

variable {expression : ParseM Expr} {e : Expr}

theorem keeps_call (h : Keeps o expression (Expr.From o)) :
    Keeps o (call expression) (Expr.From o) :=
  keeps_name.bind fun _ hname => (keeps_parenthesised h).bind fun _ hargs =>
    .pure (.call (o.merge hname.2 _) hname.1 hargs.1)

theorem keeps_accesses (h : Keeps o expression (Expr.From o)) (limit : Nat) (he : e.From o) :
    Keeps o (accesses expression limit e) (Expr.From o) := by
  induction limit generalizing e with
  | zero => exact keeps_exhausted
  | succ limit ih =>
    have hspan := fun t => o.merge he.span_from t
    refine (keeps_accept .dot).bind fun _ _ => .ite ?_
      ((keeps_accept .leftBracket).bind fun _ _ => .ite ?_ (.pure he))
    · exact keeps_name.bind fun _ hname => ih (.field (hspan _) hname.1 he)
    · exact h.bind fun _ hindex => (keeps_expect .rightBracket).bind fun _ _ =>
        ih (.element (hspan _) he hindex)

theorem keeps_place (h : Keeps o expression (Expr.From o)) :
    Keeps o (place expression) (Expr.From o) :=
  keeps_name.bind fun _ hname => keeps_read.bind fun _ _ =>
    keeps_accesses h _ (.var hname.2 hname.1)

theorem keeps_primary (h : Keeps o expression (Expr.From o)) :
    Keeps o (primary expression) (Expr.From o) := by
  refine keeps_current.bind fun token htoken => ?_
  have hunexpected : Keeps o (unexpected "expression") (Expr.From o) := keeps_unexpected (by decide)
  cases token.kind with
  | integer value => exact keeps_advance.bind fun _ _ => .pure (.int _ htoken.span)
  | text value => exact keeps_advance.bind fun _ _ => .pure (.text _ htoken.span)
  | identifier name => exact (keeps_ahead 1).bind fun _ _ => .ite (keeps_call h) (keeps_place h)
  | keyword word =>
    cases word with
    | true | false => exact keeps_advance.bind fun _ _ => .pure (.bool _ htoken.span)
    | _ => exact hunexpected
  | punctuator sign =>
    cases sign with
    | leftParen =>
      exact keeps_advance.bind fun _ _ => h.bind fun _ he =>
        (keeps_expect .rightParen).bind fun _ _ => .pure he
    | _ => exact hunexpected

variable {expressions : Nat → ParseM Expr}

theorem keeps_operand (h : ∀ bound, Keeps o (expressions bound) (Expr.From o)) :
    Keeps o (operand expressions) (Expr.From o) := by
  refine keeps_current.bind fun token htoken => ?_
  split
  · exact keeps_advance.bind fun _ _ => (h _).bind fun _ he =>
      .pure (.unary _ (o.merge htoken.span _) he)
  · refine (keeps_primary (h 0)).bind fun inner hinner => keeps_get.bind fun ts hts => ?_
    split
    · split
      · exact keeps_advance.bind fun _ _ => .pure (.unary _ (o.merge hinner.span_from _) hinner)
      · exact .pure hinner
    · exact .pure hinner

theorem keeps_operators (h : ∀ bound, Keeps o (expressions bound) (Expr.From o)) (bound limit : Nat)
    (he : e.From o) : Keeps o (operators expressions bound limit e) (Expr.From o) := by
  induction limit generalizing e with
  | zero => exact keeps_exhausted
  | succ limit ih =>
    refine (keeps_ahead 0).bind fun found _ => ?_
    split
    · refine .ite ?_ (.pure he)
      exact keeps_advance.bind fun _ _ => (h _).bind fun _ hright =>
        ih (.binary _ (o.merge he.span_from _) he hright)
    · exact .pure he

theorem keeps_expressionAt (depth bound : Nat) :
    Keeps o (expressionAt depth bound) (Expr.From o) := by
  induction depth generalizing bound with
  | zero => exact keeps_exhausted
  | succ depth ih =>
    exact (keeps_operand ih).bind fun _ hleft => keeps_read.bind fun _ _ =>
      keeps_operators ih bound _ hleft

theorem keeps_expression : Keeps o Parser.expression (Expr.From o) :=
  keeps_read.bind fun _ _ => keeps_expressionAt _ _

end Expressions

/-! ### Declarations -/

theorem keeps_brackets (limit : Nat) {ty : Ty} (h : ty.From o) :
    Keeps o (brackets limit ty) (Ty.From o) := by
  induction limit generalizing ty with
  | zero => exact keeps_exhausted
  | succ limit ih =>
    refine (keeps_accept .leftBracket).bind fun _ _ => .ite ?_ (.pure h)
    have harray : (Ty.array ty).From o := h
    exact (keeps_expect .rightBracket).bind fun _ _ => ih harray

theorem from_typeOf? {t : Token} {ty : Ty} (ht : t.From o) (h : typeOf? t.kind = some ty) :
    ty.From o := by
  intro name hname
  unfold typeOf? at h
  split at h <;> cases h
  · cases hname
  · cases hname
  · cases hname
  · next text hkind =>
    cases hname
    exact ht.name _ hkind

theorem keeps_type : Keeps o type (Ty.From o) := by
  refine keeps_current.bind fun token htoken => ?_
  split
  · next ty hty => exact keeps_advance.bind fun _ _ => keeps_read.bind fun _ _ =>
      keeps_brackets _ (from_typeOf? htoken hty)
  · exact keeps_unexpected (by decide)

theorem keeps_declarationRest {ty : Ty} {start : Span} (hty : ty.From o) (hstart : o.span start) :
    Keeps o (declarationRest ty start) (Declaration.From o) :=
  keeps_name.bind fun _ hname => (keeps_expect .semicolon).bind fun _ _ =>
    .pure ⟨o.merge hstart _, hty, hname.1⟩

theorem keeps_declaration : Keeps o declaration (Declaration.From o) :=
  keeps_current.bind fun _ htoken => keeps_type.bind fun _ hty =>
    keeps_declarationRest hty htoken.span

theorem keeps_parameter : Keeps o parameter (Declaration.From o) :=
  keeps_current.bind fun _ htoken => keeps_type.bind fun _ hty =>
    (keeps_accept .ampersand).bind fun _ _ => keeps_name.bind fun _ hname =>
      .pure ⟨o.merge htoken.span _, hty, hname.1⟩

theorem keeps_startsDeclaration : Keeps o startsDeclaration fun _ => True := by
  refine (keeps_ahead 0).bind fun found _ => ?_
  split
  any_goals exact .pure trivial
  refine (keeps_ahead 1).bind fun found _ => ?_
  split
  · exact .pure trivial
  · exact (keeps_ahead 2).bind fun _ _ => .pure trivial
  · exact .pure trivial

theorem keeps_declarations : Keeps o declarations fun l => ∀ d ∈ l, d.From o :=
  keeps_read.bind fun _ _ => keeps_manyWhile keeps_startsDeclaration keeps_declaration _

/-! ### Statements -/

section Statements

variable {statement : ParseM Statement}

theorem keeps_block (h : Keeps o statement (Statement.From o)) :
    Keeps o (block statement) (Statement.From o) :=
  (keeps_expect .leftBrace).bind fun _ hstart => (keeps_untilBrace h).bind fun _ hbody =>
    (keeps_expect .rightBrace).bind fun _ _ => .pure (.block (o.merge hstart _) hbody)

theorem keeps_body (h : Keeps o statement (Statement.From o)) :
    Keeps o (body statement) (Statement.From o) := by
  refine (keeps_next .leftBrace).bind fun _ _ => .ite (keeps_block h) ?_
  exact h.bind fun _ hs => .pure (.block hs.span_from (by simpa using hs))

theorem keeps_condition : Keeps o condition (Expr.From o) :=
  (keeps_expect .leftParen).bind fun _ _ => keeps_expression.bind fun _ he =>
    (keeps_expect .rightParen).bind fun _ _ => .pure he

theorem keeps_alternative (h : Keeps o statement (Statement.From o)) :
    Keeps o (alternative statement) fun other => ∀ s ∈ other, s.From o := by
  refine (keeps_ahead 0).bind fun _ _ => .ite ?_ (.pure (by simp))
  exact keeps_advance.bind fun _ _ => (keeps_body h).bind fun _ hs => .pure (by simpa using hs)

theorem keeps_assignment : Keeps o assignment (Statement.From o) :=
  (keeps_place keeps_expression).bind fun _ htarget => (keeps_expect .assign).bind fun _ _ =>
    keeps_expression.bind fun _ hvalue => (keeps_expect .semicolon).bind fun _ _ =>
      .pure (.assign (o.merge htarget.span_from _) htarget hvalue)

theorem keeps_returned : Keeps o returned fun value => ∀ e ∈ value, e.From o := by
  refine (keeps_next .semicolon).bind fun _ _ => .ite (.pure (by simp)) ?_
  exact keeps_expression.bind fun _ he => .pure (by simpa using he)

theorem keeps_statementAt (depth : Nat) : Keeps o (statementAt depth) (Statement.From o) := by
  induction depth with
  | zero => exact keeps_exhausted
  | succ depth ih =>
    refine keeps_current.bind fun token htoken => ?_
    have hspan := fun t => o.merge htoken.span t
    split
    · exact keeps_block ih
    · exact keeps_advance.bind fun _ _ => keeps_condition.bind fun _ htest =>
        (keeps_body ih).bind fun _ hbody => (keeps_alternative ih).bind fun _ hother =>
          .pure (.branch (hspan _) htest hbody hother)
    · exact keeps_advance.bind fun _ _ => keeps_condition.bind fun _ htest =>
        (keeps_body ih).bind fun _ hbody => .pure (.loop (hspan _) htest hbody)
    · exact keeps_advance.bind fun _ _ => keeps_returned.bind fun _ hvalue =>
        (keeps_expect .semicolon).bind fun _ _ => .pure (.ret (hspan _) hvalue)
    · exact keeps_advance.bind fun _ _ => .pure (.empty htoken.span)
    · refine (keeps_ahead 1).bind fun _ _ => .ite ?_ keeps_assignment
      exact (keeps_call keeps_expression).bind fun _ hcall =>
        (keeps_expect .semicolon).bind fun _ _ => .pure (.call (hspan _) hcall)
    · exact keeps_unexpected (by decide)

theorem keeps_statement : Keeps o Parser.statement (Statement.From o) :=
  keeps_read.bind fun _ _ => keeps_statementAt _

end Statements

/-! ### Members -/

theorem keeps_recordRest {start : Span} (hstart : o.span start) :
    Keeps o (recordRest start) (RecordDef.From o) :=
  keeps_name.bind fun _ hname => (keeps_expect .leftBrace).bind fun _ _ =>
    (keeps_untilBrace keeps_declaration).bind fun _ hfields =>
      (keeps_expect .rightBrace).bind fun _ _ => .pure ⟨o.merge hstart _, hname.1, hfields⟩

theorem keeps_functionRest {ty : Ty} {start : Span} (hty : ty.From o) (hstart : o.span start) :
    Keeps o (functionRest ty start) (FunctionDef.From o) := by
  refine keeps_name.bind fun _ hname => (keeps_parenthesised keeps_parameter).bind
    fun _ hparams => ?_
  refine keeps_declarations.bind fun outer houter => (keeps_expect .leftBrace).bind fun _ _ => ?_
  refine keeps_declarations.bind fun inner hinner => ?_
  refine (keeps_untilBrace keeps_statement).bind fun _ hbody => ?_
  refine (keeps_expect .rightBrace).bind fun _ _ => .pure ?_
  refine ⟨o.merge hstart _, hty, hname.1, hparams.1, fun d hd => ?_, hbody⟩
  rcases List.mem_append.1 hd with hd | hd
  · exact houter d hd
  · exact hinner d hd

theorem keeps_member : Keeps o member fun found => ∀ m ∈ found, m.From o := by
  refine keeps_current.bind fun token htoken => ?_
  split
  · exact keeps_advance.bind fun _ _ => .pure (by simp)
  · exact keeps_advance.bind fun _ _ => (keeps_recordRest htoken.span).bind fun _ hr =>
      .pure (by simpa [Member.From] using hr)
  · exact keeps_advance.bind fun _ _ => (keeps_functionRest (by simp [Ty.From, Ty.base])
      htoken.span).bind fun _ hf => .pure (by simpa [Member.From] using hf)
  · refine .ite ?_ (keeps_unexpected (by decide))
    refine keeps_type.bind fun ty hty => (keeps_ahead 1).bind fun _ _ => .ite ?_ ?_
    · exact (keeps_functionRest hty htoken.span).bind fun _ hf =>
        .pure (by simpa [Member.From] using hf)
    · exact (keeps_declarationRest hty htoken.span).bind fun _ hd =>
        .pure (by simpa [Member.From] using hd)

theorem keeps_members : Keeps o members fun l => ∀ m ∈ l, m.From o := by
  refine keeps_read.bind fun _ _ => (keeps_manyWhile (keeps_get.bind fun _ _ => .pure trivial)
    keeps_member _).bind fun found hfound => .pure fun m hm => ?_
  obtain ⟨other, hother, rfl⟩ := List.mem_filterMap.1 hm
  exact hfound _ hother m rfl

end Parser

/-- Programs and errors come from their tokens, of which there is one at least. -/
theorem Program.settles_parse {tokens : List Token} (hne : tokens ≠ [])
    (h : ∀ t ∈ tokens, t.From o) :
    Settles (Program.parse tokens) (Program.From o) (Failure.From o) := by
  have hlast : o.span ((tokens.getLast?.map (·.span)).getD Span.empty) := by
    rw [List.getLast?_eq_some_getLast hne]
    exact (h _ (List.getLast_mem hne)).span
  refine (Parser.keeps_members _ tokens hlast h).bind fun r hr => ?_
  refine ⟨?_, hr.1⟩
  obtain ⟨first, rest, rfl⟩ := List.exists_cons_of_ne_nil hne
  exact o.merge (h first (by simp)).span _

end MiniJ
