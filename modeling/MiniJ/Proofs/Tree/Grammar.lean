import MiniJ.Token
import Mathlib

/-!
# Grammar

The grammar of MiniJ as languages over the kinds of tokens, one per nonterminal. Expressions and
statements contain themselves: their languages are least fixed points. Binary operators are grouped
by their strength, the weakest first, and those of one strength group to the left.

## Main definitions

* `Grammar.level` — expressions whose operators are stronger than a bound.
* `Grammar.expression`, `Grammar.statement`, `Grammar.program` — the languages of the main parts.

## Main statements

* `Grammar.unary_eq`, `Grammar.binary_eq` — expressions, one operator at a time.
* `Grammar.append_mem_binary` — an operator may follow whatever is weaker or as strong.
-/
namespace MiniJ

namespace Grammar

open scoped Computability

def sign (s : Punctuator) : Language TokenKind := {[.punctuator s]}

def keyword (k : Keyword) : Language TokenKind := {[.keyword k]}

def identifier : Language TokenKind := {w | ∃ name, w = [.identifier name]}

/-- Constants with a value. -/
def constant : Language TokenKind := {w | (∃ v, w = [.integer v]) ∨ ∃ v, w = [.text v]}

def oneOf (signs : List Punctuator) : Language TokenKind := {w | ∃ s ∈ signs, w = [.punctuator s]}

section

variable {w : List TokenKind}

@[simp] theorem mem_sign {s : Punctuator} : w ∈ sign s ↔ w = [.punctuator s] := Iff.rfl

@[simp] theorem mem_keyword {k : Keyword} : w ∈ keyword k ↔ w = [.keyword k] := Iff.rfl

@[simp] theorem mem_identifier : w ∈ identifier ↔ ∃ name, w = [.identifier name] := Iff.rfl

@[simp] theorem mem_constant :
    w ∈ constant ↔ (∃ v, w = [.integer v]) ∨ ∃ v, w = [.text v] := Iff.rfl

@[simp] theorem mem_oneOf {signs : List Punctuator} :
    w ∈ oneOf signs ↔ ∃ s ∈ signs, w = [.punctuator s] := Iff.rfl

end

/-- Items with commas between them, or none. -/
def separated (item : Language TokenKind) : Language TokenKind := 1 + item * (sign .comma * item)∗

/-! ### Expressions -/

section

variable (e : Language TokenKind)

/-- `call := ID '(' [expression (',' expression)*] ')'` -/
def call : Language TokenKind :=
  identifier * sign .leftParen * separated e * sign .rightParen

def access : Language TokenKind :=
  sign .dot * identifier + sign .leftBracket * e * sign .rightBracket

/-- `memoryAccess := ID ('.' ID | '[' expression ']')*` -/
def place : Language TokenKind := identifier * (access e)∗

/-- `primary := '(' expression ')' | call | 'true' | 'false' | INTEGER | STRING | memoryAccess` -/
def primary : Language TokenKind :=
  sign .leftParen * e * sign .rightParen + call e + keyword .true + keyword .false + constant +
    place e

def leading : List Punctuator := [.minus, .not, .increment, .decrement]

def trailing : List Punctuator := [.increment, .decrement]

/-- `unary := ('-' | '!' | '++' | '--') unary | primary ['++' | '--']` -/
def unary : Language TokenKind := (oneOf leading)∗ * (primary e * (1 + oneOf trailing))

/-- Operands and the operators between them, from the weakest operators to the strongest. -/
def binary : List (List Punctuator) → Language TokenKind
  | [] => unary e
  | signs :: stronger => binary stronger * (oneOf signs * binary stronger)∗

end

/-- The binary operators, those of strength 1 first. -/
def strengths : List (List Punctuator) :=
  [[.logicOr], [.logicAnd], [.equal, .notEqual], [.less, .lessEqual, .greater, .greaterEqual],
    [.plus, .minus], [.star, .slash, .percent]]

/-- Expressions whose operators are all stronger than `bound`. -/
def level (e : Language TokenKind) (bound : Nat) : Language TokenKind :=
  binary e (strengths.drop bound)

section Monotone

variable {e e' : Language TokenKind}

theorem separated_mono (h : e ≤ e') : separated e ≤ separated e' := by
  unfold separated
  gcongr

theorem access_mono (h : e ≤ e') : access e ≤ access e' := by
  unfold access
  gcongr

theorem primary_mono (h : e ≤ e') : primary e ≤ primary e' := by
  have hseparated := separated_mono h
  have haccess := access_mono h
  unfold primary call place
  gcongr

theorem binary_mono (h : e ≤ e') (signs : List (List Punctuator)) :
    binary e signs ≤ binary e' signs := by
  induction signs with
  | nil =>
    have hprimary := primary_mono h
    unfold binary unary
    gcongr
  | cons first rest ih =>
    unfold binary
    gcongr

end Monotone

/-- Any expression. -/
def expression : Language TokenKind := OrderHom.lfp ⟨(level · 0), fun _ _ h => binary_mono h _⟩

theorem expression_eq : level expression 0 = expression :=
  OrderHom.map_lfp ⟨(level · 0), fun _ _ h => binary_mono h _⟩

section

variable {e : Language TokenKind} {w r : List TokenKind} {p : Punctuator}

/-- Accesses, the first one first. -/
theorem access_kstar : (access e)∗ = sign .dot * (identifier * (access e)∗) +
    (sign .leftBracket * (e * (sign .rightBracket * (access e)∗)) + 1) := by
  calc (access e)∗
      = 1 + (sign .dot * identifier + sign .leftBracket * e * sign .rightBracket) * (access e)∗ :=
        (Language.one_add_self_mul_kstar_eq_kstar (access e)).symm
    _ = sign .dot * (identifier * (access e)∗) +
          (sign .leftBracket * (e * (sign .rightBracket * (access e)∗)) + 1) := by
        rw [add_mul, add_comm, add_assoc]
        simp only [mul_assoc]

/-- Operands, one sign at a time. -/
theorem unary_eq : unary e = oneOf leading * unary e + primary e * (1 + oneOf trailing) :=
  (Language.self_eq_mul_add_iff (by simp)).2 rfl

/-- Operators of one strength, one at a time from the left. -/
theorem binary_eq (signs : List Punctuator) (stronger : List (List Punctuator)) :
    binary e (signs :: stronger) =
      binary e stronger + binary e (signs :: stronger) * (oneOf signs * binary e stronger) := by
  calc binary e (signs :: stronger)
      = binary e stronger * (1 + (oneOf signs * binary e stronger)∗ *
          (oneOf signs * binary e stronger)) := by
        rw [Language.one_add_kstar_mul_self_eq_kstar, binary]
    _ = binary e stronger + binary e (signs :: stronger) * (oneOf signs * binary e stronger) := by
        rw [mul_add, mul_one, ← mul_assoc, binary]

/-- An operator may follow whatever is weaker or as strong. -/
theorem append_mem_binary {signs : List Punctuator} {weaker stronger : List (List Punctuator)}
    (hw : w ∈ binary e (weaker ++ signs :: stronger)) (hp : p ∈ signs)
    (hr : r ∈ binary e stronger) :
    w ++ .punctuator p :: r ∈ binary e (weaker ++ signs :: stronger) := by
  have hright : .punctuator p :: r ∈ oneOf signs * binary e stronger :=
    Language.append_mem_mul (mem_oneOf.2 ⟨p, hp, rfl⟩) hr
  induction weaker generalizing w with
  | nil =>
    rw [List.nil_append, binary_eq]
    exact .inr (Language.append_mem_mul hw hright)
  | cons first weaker ih =>
    rw [List.cons_append, binary_eq] at hw ⊢
    rcases hw with hw | hw
    · exact .inl (ih hw)
    · -- the operator extends the last operand of the weaker ones
      obtain ⟨front, hfront, _, ⟨q, hq, last, hlast, rfl⟩, rfl⟩ := hw
      have hextended := Language.append_mem_mul hfront (Language.append_mem_mul hq (ih hlast))
      exact (Language.mem_add _ _ _).2 (.inr (by simpa using hextended))

end

/-! ### Types and declarations -/

/-- `type := ('int' | 'bool' | 'text' | ID) ('[' ']')*` -/
def type : Language TokenKind :=
  (keyword .int + keyword .bool + keyword .text + identifier) *
    (sign .leftBracket * sign .rightBracket)∗

/-- `declaration := type ID ';'` -/
def declaration : Language TokenKind := type * identifier * sign .semicolon

/-- `parameter := type ['&'] ID` -/
def parameter : Language TokenKind := type * (1 + sign .ampersand) * identifier

/-! ### Statements -/

def condition : Language TokenKind := sign .leftParen * expression * sign .rightParen

/-- `assignment := memoryAccess '=' expression ';'` -/
def assignment : Language TokenKind :=
  place expression * sign .assign * expression * sign .semicolon

/-- `callStatement := call ';'` -/
def callStatement : Language TokenKind := call expression * sign .semicolon

/-- `return := 'return' [expression] ';'` -/
def returned : Language TokenKind := keyword .return * (1 + expression) * sign .semicolon

/-- Statements without statements in them. -/
def simple : Language TokenKind := assignment + callStatement + returned + sign .semicolon

section

variable (s : Language TokenKind)

/-- `if := 'if' '(' expression ')' statement ['else' statement]` -/
def branch : Language TokenKind := keyword .if * condition * s * (1 + keyword .else * s)

/-- `while := 'while' '(' expression ')' statement` -/
def loop : Language TokenKind := keyword .while * condition * s

/-- `block := '{' statement* '}'` -/
def block : Language TokenKind := sign .leftBrace * s∗ * sign .rightBrace

/-- `statement := assignment | callStatement | return | if | while | block | ';'` -/
def statementOf : Language TokenKind := simple + branch s + loop s + block s

end

theorem statementOf_mono {s s' : Language TokenKind} (h : s ≤ s') :
    statementOf s ≤ statementOf s' := by
  unfold statementOf branch loop block
  gcongr

/-- Any statement. -/
def statement : Language TokenKind := OrderHom.lfp ⟨statementOf, fun _ _ h => statementOf_mono h⟩

theorem statement_eq : statementOf statement = statement :=
  OrderHom.map_lfp ⟨statementOf, fun _ _ h => statementOf_mono h⟩

/-! ### Programs -/

/-- `record := 'record' ID '{' declaration* '}'` -/
def record : Language TokenKind :=
  keyword .record * identifier * sign .leftBrace * declaration∗ * sign .rightBrace

/-- `function := ('void' | type) ID '(' [parameter (',' parameter)*] ')' declaration*
'{' declaration* statement* '}'` -/
def function : Language TokenKind :=
  (keyword .void + type) * identifier * sign .leftParen * separated parameter * sign .rightParen *
    declaration∗ * sign .leftBrace * declaration∗ * statement∗ * sign .rightBrace

/-- `member := declaration | record | function | ';'` -/
def member : Language TokenKind := declaration + record + function + sign .semicolon

/-- `unit := member*` -/
def program : Language TokenKind := member∗

end Grammar

end MiniJ
