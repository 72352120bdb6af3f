import MiniJ.Proofs.Tree.Shape

/-!
# Printing programs

A program as the kinds of tokens that spell it. Parentheses stand only around an operand that would
be grouped otherwise: a left operand that is weaker than its operator, a right operand that is not
stronger, a binary operand of an operator in front of it, and an operand with an operator of its own
in front of one behind it. Declarations of locals come first in the braces of a function.

## Main definitions

* `Expr.print`, `Statement.print`, `Program.print` — the tokens of the main parts.
* `Expr.bare`, `Statement.bare`, `Program.bare` — trees without their spans.
* `Program.Printable` — the shapes that printing is meant for.

## Main statements

* `Program.printable_of_parse` — every parsed program has such a shape.
-/
namespace MiniJ

/-! ### Operators -/

def BinaryOp.sign : BinaryOp → Punctuator
  | plus => .plus
  | minus => .minus
  | times => .star
  | div => .slash
  | mod => .percent
  | equal => .equal
  | unequal => .notEqual
  | lesser => .less
  | lesserEq => .lessEqual
  | greater => .greater
  | greaterEq => .greaterEqual
  | and => .logicAnd
  | or => .logicOr

namespace UnaryOp

def sign : UnaryOp → Punctuator
  | minus => .minus
  | not => .not
  | preIncrement | postIncrement => .increment
  | preDecrement | postDecrement => .decrement

/-- Whether the operator stands behind its operand. -/
def trails : UnaryOp → Bool
  | postIncrement | postDecrement => true
  | _ => false

end UnaryOp

namespace Parser

@[simp] theorem binaryOp?_sign (op : BinaryOp) : binaryOp? (.punctuator op.sign) = some op := by
  cases op <;> rfl

theorem leadingOp?_sign {op : UnaryOp} (h : op.trails = false) :
    leadingOp? (.punctuator op.sign) = some op := by
  cases op <;> first | rfl | cases h

theorem trailingOp?_sign {op : UnaryOp} (h : op.trails = true) :
    trailingOp? (.punctuator op.sign) = some op := by
  cases op <;> first | rfl | cases h

end Parser

/-! ### Tokens of a program -/

/-- Parentheses where they are needed. -/
def enclosed (needed : Prop) [Decidable needed] (w : List TokenKind) : List TokenKind :=
  if needed then .punctuator .leftParen :: (w ++ [.punctuator .rightParen]) else w

/-- Words with commas between them. -/
def listed (words : List (List TokenKind)) : List TokenKind :=
  [.punctuator .comma].intercalate words

@[simp] theorem listed_nil : listed [] = [] := rfl

@[simp] theorem listed_singleton (w : List TokenKind) : listed [w] = w := by
  simp [listed]

theorem listed_cons_cons (w v : List TokenKind) (words : List (List TokenKind)) :
    listed (w :: v :: words) = w ++ .punctuator .comma :: listed (v :: words) := by
  simp [listed, List.intercalate]

/-- How strongly an expression holds together: by its outermost operator, if it has one. -/
def Expr.strength : Expr → Nat
  | .binary _ op _ _ => op.strength
  | .unary .. => UnaryOp.strength
  | _ => UnaryOp.strength + 1

mutual

def Expr.print : Expr → List TokenKind
  | .int _ value => [.integer value]
  | .text _ value => [.text value]
  | .bool _ value => [.keyword (if value then .true else .false)]
  | .var _ name => [.identifier name]
  | .field _ base name => base.print ++ [.punctuator .dot, .identifier name]
  | .element _ base index =>
    base.print ++ .punctuator .leftBracket :: (index.print ++ [.punctuator .rightBracket])
  | .unary _ op operand =>
    if op.trails then
      enclosed (operand.strength ≤ UnaryOp.strength) operand.print ++ [.punctuator op.sign]
    else
      .punctuator op.sign :: enclosed (operand.strength < UnaryOp.strength) operand.print
  | .binary _ op left right =>
    enclosed (left.strength < op.strength) left.print ++
      .punctuator op.sign :: enclosed (right.strength ≤ op.strength) right.print
  | .call _ name args =>
    .identifier name :: .punctuator .leftParen ::
      (listed (Expr.printAll args) ++ [.punctuator .rightParen])

def Expr.printAll : List Expr → List (List TokenKind)
  | [] => []
  | e :: rest => e.print :: Expr.printAll rest

end

/-- Nothing is declared with type `void`, but a function may return it. -/
def Ty.print : Ty → List TokenKind
  | .void => [.keyword .void]
  | .bool => [.keyword .bool]
  | .int => [.keyword .int]
  | .text => [.keyword .text]
  | .record name => [.identifier name]
  | .array element => element.print ++ [.punctuator .leftBracket, .punctuator .rightBracket]

namespace Declaration

def print (d : Declaration) : List TokenKind :=
  d.ty.print ++ [.identifier d.name, .punctuator .semicolon]

def printParameter (d : Declaration) : List TokenKind :=
  d.ty.print ++ (if d.isReference then [.punctuator .ampersand] else []) ++ [.identifier d.name]

end Declaration

/-- A condition in its parentheses. -/
def Expr.printCondition (e : Expr) : List TokenKind :=
  .punctuator .leftParen :: (e.print ++ [.punctuator .rightParen])

mutual

def Statement.print : Statement → List TokenKind
  | .block _ body =>
    .punctuator .leftBrace :: ((Statement.printAll body).flatten ++ [.punctuator .rightBrace])
  | .assign _ target value =>
    target.print ++ .punctuator .assign :: (value.print ++ [.punctuator .semicolon])
  | .call _ callee => callee.print ++ [.punctuator .semicolon]
  | .branch _ condition onTrue onFalse =>
    .keyword .if :: (condition.printCondition ++ (onTrue.print ++ Statement.printElse onFalse))
  | .loop _ condition body => .keyword .while :: (condition.printCondition ++ body.print)
  | .ret _ value =>
    .keyword .return :: ((value.map Expr.print).getD [] ++ [.punctuator .semicolon])
  | .empty _ => [.punctuator .semicolon]

def Statement.printElse : Option Statement → List TokenKind
  | none => []
  | some s => .keyword .else :: s.print

def Statement.printAll : List Statement → List (List TokenKind)
  | [] => []
  | s :: rest => s.print :: Statement.printAll rest

end

def RecordDef.print (r : RecordDef) : List TokenKind :=
  .keyword .record :: .identifier r.name :: .punctuator .leftBrace ::
    ((r.fields.map Declaration.print).flatten ++ [.punctuator .rightBrace])

namespace FunctionDef

/-- What stands behind the return type. -/
def printRest (f : FunctionDef) : List TokenKind :=
  .identifier f.name :: .punctuator .leftParen ::
    (listed (f.params.map Declaration.printParameter) ++
      .punctuator .rightParen :: .punctuator .leftBrace ::
        ((f.locals.map Declaration.print).flatten ++ ((f.body.map Statement.print).flatten ++
          [.punctuator .rightBrace])))

def print (f : FunctionDef) : List TokenKind := f.returnType.print ++ f.printRest

end FunctionDef

def Member.print : Member → List TokenKind
  | .global d => d.print
  | .record r => r.print
  | .function f => f.print

/-- The tokens of a program. -/
def Program.print (p : Program) : List TokenKind := (p.members.map Member.print).flatten

@[simp] theorem Expr.printAll_eq_map (es : List Expr) : Expr.printAll es = es.map Expr.print := by
  induction es with
  | nil => rfl
  | cons e es ih => rw [Expr.printAll, ih, List.map_cons]

@[simp] theorem Statement.printAll_eq_map (ss : List Statement) :
    Statement.printAll ss = ss.map Statement.print := by
  induction ss with
  | nil => rfl
  | cons s ss ih => rw [Statement.printAll, ih, List.map_cons]

/-! ### Trees without spans -/

mutual

def Expr.bare : Expr → Expr
  | .int _ value => .int Span.empty value
  | .text _ value => .text Span.empty value
  | .bool _ value => .bool Span.empty value
  | .var _ name => .var Span.empty name
  | .field _ base name => .field Span.empty base.bare name
  | .element _ base index => .element Span.empty base.bare index.bare
  | .unary _ op operand => .unary Span.empty op operand.bare
  | .binary _ op left right => .binary Span.empty op left.bare right.bare
  | .call _ name args => .call Span.empty name (Expr.bareAll args)

def Expr.bareAll : List Expr → List Expr
  | [] => []
  | e :: rest => e.bare :: Expr.bareAll rest

end

def Declaration.bare (d : Declaration) : Declaration := { d with span := Span.empty }

mutual

def Statement.bare : Statement → Statement
  | .block _ body => .block Span.empty (Statement.bareAll body)
  | .assign _ target value => .assign Span.empty target.bare value.bare
  | .call _ callee => .call Span.empty callee.bare
  | .branch _ condition onTrue onFalse =>
    .branch Span.empty condition.bare onTrue.bare (Statement.bare? onFalse)
  | .loop _ condition body => .loop Span.empty condition.bare body.bare
  | .ret _ value => .ret Span.empty (value.map Expr.bare)
  | .empty _ => .empty Span.empty

def Statement.bare? : Option Statement → Option Statement
  | none => none
  | some s => some s.bare

def Statement.bareAll : List Statement → List Statement
  | [] => []
  | s :: rest => s.bare :: Statement.bareAll rest

end

def RecordDef.bare (r : RecordDef) : RecordDef :=
  ⟨Span.empty, r.name, r.fields.map Declaration.bare⟩

def FunctionDef.bare (f : FunctionDef) : FunctionDef :=
  ⟨Span.empty, f.returnType, f.name, f.params.map Declaration.bare, f.locals.map Declaration.bare,
    f.body.map Statement.bare⟩

def Member.bare : Member → Member
  | .global d => .global d.bare
  | .record r => .record r.bare
  | .function f => .function f.bare

/-- A program without the spans it was read from. -/
def Program.bare (p : Program) : Program := ⟨Span.empty, p.members.map Member.bare⟩

@[simp] theorem Expr.bareAll_eq_map (es : List Expr) : Expr.bareAll es = es.map Expr.bare := by
  induction es with
  | nil => rfl
  | cons e es ih => rw [Expr.bareAll, ih, List.map_cons]

@[simp] theorem Statement.bareAll_eq_map (ss : List Statement) :
    Statement.bareAll ss = ss.map Statement.bare := by
  induction ss with
  | nil => rfl
  | cons s ss ih => rw [Statement.bareAll, ih, List.map_cons]

/-! ### Printable programs -/

def Statement.IsBlock : Statement → Prop
  | .block .. => True
  | _ => False

/-- Branches and loop bodies are blocks. -/
inductive Statement.Braced : Statement → Prop
  | block (s : Span) {body : List Statement} (braced : ∀ t ∈ body, Braced t) :
  Braced (.block s body)
  | assign (s : Span) (target value : Expr) : Braced (.assign s target value)
  | call (s : Span) (call : Expr) : Braced (.call s call)
  | branch (s : Span) (condition : Expr) {onTrue : Statement} {onFalse : Option Statement}
      (isBlock : onTrue.IsBlock) (braced : Braced onTrue)
      (otherIsBlock : ∀ t ∈ onFalse, t.IsBlock) (otherBraced : ∀ t ∈ onFalse, Braced t) :
      Braced (.branch s condition onTrue onFalse)
  | loop (s : Span) (condition : Expr) {body : Statement} (isBlock : body.IsBlock)
      (braced : Braced body) : Braced (.loop s condition body)
  | ret (s : Span) (value : Option Expr) : Braced (.ret s value)
  | empty (s : Span) : Braced (.empty s)

/-- The bodies of a member are blocks, and only parameters are references. -/
def Member.Plain : Member → Prop
  | .global d => d.isReference = false
  | .record r => ∀ d ∈ r.fields, d.isReference = false
  | .function f => ∀ s ∈ f.body, s.Braced

/-- The shapes a parser can build. -/
structure Program.Printable (p : Program) : Prop where
  shaped : p.Shaped
  plain : ∀ m ∈ p.members, m.Plain

namespace Parser

variable {statement : ParseM Statement}

/-- A block of statements that are braced. -/
def BracedBlock (s : Statement) : Prop := s.IsBlock ∧ s.Braced

theorem yields_block_braced (h : Yields statement Statement.Braced) :
    Yields (block statement) BracedBlock :=
  Yields.next fun _ => (yields_untilBrace h).bind fun _ hb => Yields.next fun _ =>
    Yields.pure ⟨True.intro, .block _ hb⟩

theorem yields_body_braced (h : Yields statement Statement.Braced) :
    Yields (body statement) BracedBlock := by
  refine Yields.next fun _ => Yields.ite (yields_block_braced h) ?_
  exact h.bind fun s hs => Yields.pure ⟨True.intro, .block _ (by simpa using hs)⟩

theorem yields_alternative_braced (h : Yields statement Statement.Braced) :
    Yields (alternative statement) fun o => ∀ s ∈ o, BracedBlock s := by
  refine Yields.next fun _ => Yields.ite ?_ (Yields.pure (by simp))
  exact Yields.next fun _ => (yields_body_braced h).bind fun s hs => Yields.pure (by simpa using hs)

theorem yields_assignment_braced : Yields assignment Statement.Braced :=
  Yields.next fun _ => Yields.next fun _ => Yields.next fun _ => Yields.next fun _ =>
    Yields.pure (.assign _ _ _)

theorem yields_statementAt_braced (depth : Nat) : Yields (statementAt depth) Statement.Braced := by
  induction depth with
  | zero => exact yields_exhausted
  | succ depth ih =>
    refine Yields.next fun token => ?_
    split
    · exact (yields_block_braced ih).mono fun _ h => h.2
    · exact Yields.next fun _ => Yields.next fun _ => (yields_body_braced ih).bind fun t ht =>
        (yields_alternative_braced ih).bind fun o ho =>
          Yields.pure (.branch _ _ ht.1 ht.2 (fun s hs => (ho s hs).1) fun s hs => (ho s hs).2)
    · exact Yields.next fun _ => Yields.next fun _ => (yields_body_braced ih).bind fun t ht =>
        Yields.pure (.loop _ _ ht.1 ht.2)
    · exact Yields.next fun _ => Yields.next fun _ => Yields.next fun _ => Yields.pure (.ret _ _)
    · exact Yields.next fun _ => Yields.pure (.empty _)
    · refine Yields.next fun _ => Yields.ite ?_ yields_assignment_braced
      exact Yields.next fun _ => Yields.next fun _ => Yields.pure (.call _ _)
    · exact yields_unexpected

theorem yields_functionRest_braced (ty : Ty) (start : Span) :
    Yields (functionRest ty start) fun f => ∀ s ∈ f.body, s.Braced := by
  refine Yields.next fun _ => Yields.next fun _ => Yields.next fun _ => Yields.next fun _ =>
    Yields.next fun _ => ?_
  refine (yields_untilBrace ?_).bind fun body hb => Yields.next fun _ => Yields.pure hb
  exact Yields.next fun _ => yields_statementAt_braced _

theorem yields_member_plain : Yields member fun o => ∀ m ∈ o, m.Plain := by
  refine Yields.next fun token => ?_
  split
  · exact Yields.next fun _ => Yields.pure (by simp)
  · refine Yields.next fun _ => Yields.bind (P := fun r => ∀ d ∈ r.fields, d.isReference = false) ?_
      fun r hr => Yields.pure (by simpa [Member.Plain] using hr)
    exact Yields.next fun _ => Yields.next fun _ => (yields_untilBrace yields_declaration).bind
      fun _ hf => Yields.next fun _ => Yields.pure fun d hd => (hf d hd).2
  · exact Yields.next fun _ => (yields_functionRest_braced _ _).bind fun f hf =>
      Yields.pure (by simpa [Member.Plain] using hf)
  · refine Yields.ite ?_ yields_unexpected
    refine Yields.next fun ty => Yields.next fun _ => Yields.ite ?_ ?_
    · exact (yields_functionRest_braced _ _).bind fun f hf =>
        Yields.pure (by simpa [Member.Plain] using hf)
    · refine Yields.bind (P := fun d => d.isReference = false) ?_ fun d hd =>
        Yields.pure (by simpa [Member.Plain] using hd)
      exact Yields.next fun _ => Yields.next fun _ => Yields.pure rfl

end Parser

/-- Every parsed program is printable. -/
theorem Program.printable_of_parse {tokens : List Token} {p : Program}
    (h : Program.parse tokens = .ok p) : p.Printable := by
  refine ⟨Program.shaped_of_parse h, ?_⟩
  simp only [Program.parse, Outcome.bind_eq_ok, Outcome.pure_eq_ok] at h
  obtain ⟨⟨members, rest⟩, hm, rfl⟩ := h
  have hplain : Parser.Yields Parser.members fun l => ∀ m ∈ l, m.Plain :=
    Parser.Yields.next fun _ => (Parser.yields_manyWhile Parser.yields_member_plain _).bind
      fun l hl => Parser.Yields.pure fun m hm => by
        obtain ⟨o, ho, rfl⟩ := List.mem_filterMap.1 hm
        exact hl _ ho m rfl
  exact hplain _ _ _ _ hm

end MiniJ
