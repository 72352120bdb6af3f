import MiniJ.Fault
import MiniJ.ParseError
import MiniJ.Tree

/-!
# Parser

`Program.parse` reads a program by recursive descent with at most two tokens of lookahead. Binary
operators are grouped by their binding strength. Every loop and every nested call of an expression
or statement consumes a token first, so the number of tokens bounds them all. Going beyond that
bound would be a fault, which is told apart from every error of a program.

## Main definitions

* `Parser.expression`, `Parser.statement`, `Parser.member` — readers for the main parts.
* `Program.parse` — the program a list of tokens makes up.
-/
namespace MiniJ

namespace Parser

/-- What stays fixed while a program is read. -/
structure Context where
  /-- Where the program ends: the span of its last token. -/
  last : Span
  /-- More than the number of tokens; no loop runs longer. -/
  limit : Nat

/-- Readers consume tokens from the front of a list. -/
abbrev ParseM := ReaderT Context (StateT (List Token) (Except (Failure ParseError)))

/-- The error of a program that ends too early. -/
def atEnd {α : Type} : ParseM α := do throw (.reported ⟨.unexpectedEnd, (← read).last⟩)

/-- The fault of a loop or a nesting that goes beyond its limit. -/
def exhausted {α : Type} : ParseM α := throw (.fault .endlessLoop)

/-- Kind of the token `distance` places ahead. -/
def ahead (distance : Nat) : ParseM (Option TokenKind) := do
  return (← get)[distance]?.map (·.kind)

/-- The next token, which must exist. -/
def current : ParseM Token := do
  match ← get with
  | token :: _ => pure token
  | [] => atEnd

/-- Consumes one token. -/
def advance : ParseM Unit := modify (·.drop 1)

/-- Complains about the next token. -/
def unexpected {α : Type} (expected : String) : ParseM α := do
  let token ← current
  throw (.reported ⟨.unexpectedToken expected token.kind, token.span⟩)

/-- Whether the next token is this sign. -/
def next (sign : Punctuator) : ParseM Bool := do
  return (← ahead 0) == some (.punctuator sign)

/-- Consumes this sign if it comes next. -/
def accept (sign : Punctuator) : ParseM Bool := do
  if ← next sign then
    advance
    return true
  return false

/-- Consumes this sign, which must come next. -/
def expect (sign : Punctuator) : ParseM Span := do
  let token ← current
  if token.kind = .punctuator sign then
    advance
    return token.span
  unexpected sign.name

/-- Consumes an identifier. -/
def name : ParseM (String × Span) := do
  let token ← current
  match token.kind with
  | .identifier text =>
    advance
    return (text, token.span)
  | _ => unexpected "identifier"

/-- Reads items while `more` holds. -/
def manyWhile {α : Type} (more : ParseM Bool) (item : ParseM α) : Nat → ParseM (List α)
  | 0 => exhausted
  | limit + 1 => do
    if ← more then
      let first ← item
      let rest ← manyWhile more item limit
      return first :: rest
    return []

/-- Reads one or more items with commas between them. -/
def commaSeparated {α : Type} (item : ParseM α) : Nat → ParseM (List α)
  | 0 => exhausted
  | limit + 1 => do
    let first ← item
    if ← accept .comma then
      let rest ← commaSeparated item limit
      return first :: rest
    return [first]

/-- Reads items up to a closing brace, which stays. -/
def untilBrace {α : Type} (item : ParseM α) : ParseM (List α) := do
  manyWhile (return !(← next .rightBrace)) item (← read).limit

/-- Reads a list in parentheses; gives the span of the closing one. -/
def parenthesised {α : Type} (item : ParseM α) : ParseM (List α × Span) := do
  let _ ← expect .leftParen
  if ← next .rightParen then
    return ([], ← expect .rightParen)
  let items ← commaSeparated item (← read).limit
  return (items, ← expect .rightParen)

/-! ### Expressions -/

/-- The binary operator a token stands for. -/
def binaryOp? : TokenKind → Option BinaryOp
  | .punctuator .logicOr => some .or
  | .punctuator .logicAnd => some .and
  | .punctuator .equal => some .equal
  | .punctuator .notEqual => some .unequal
  | .punctuator .less => some .lesser
  | .punctuator .lessEqual => some .lesserEq
  | .punctuator .greater => some .greater
  | .punctuator .greaterEqual => some .greaterEq
  | .punctuator .plus => some .plus
  | .punctuator .minus => some .minus
  | .punctuator .star => some .times
  | .punctuator .slash => some .div
  | .punctuator .percent => some .mod
  | _ => none

/-- The operator a token stands for in front of an operand. -/
def leadingOp? : TokenKind → Option UnaryOp
  | .punctuator .minus => some .minus
  | .punctuator .not => some .not
  | .punctuator .increment => some .preIncrement
  | .punctuator .decrement => some .preDecrement
  | _ => none

/-- The operator a token stands for behind an operand. -/
def trailingOp? : TokenKind → Option UnaryOp
  | .punctuator .increment => some .postIncrement
  | .punctuator .decrement => some .postDecrement
  | _ => none

/-- `call: ID '(' (expression (',' expression)*)? ')'` -/
def call (expression : ParseM Expr) : ParseM Expr := do
  let (callee, start) ← name
  let (args, stop) ← parenthesised expression
  return .call (start.merge stop) callee args

/-- `('.' ID | '[' expression ']')*` behind a place. -/
def accesses (expression : ParseM Expr) : Nat → Expr → ParseM Expr
  | 0, _ => exhausted
  | limit + 1, base => do
    if ← accept .dot then
      let (field, stop) ← name
      accesses expression limit (.field (base.span.merge stop) base field)
    else if ← accept .leftBracket then
      let index ← expression
      let stop ← expect .rightBracket
      accesses expression limit (.element (base.span.merge stop) base index)
    else
      return base

/-- `place: ID ('.' ID | '[' expression ']')*` -/
def place (expression : ParseM Expr) : ParseM Expr := do
  let (text, span) ← name
  accesses expression (← read).limit (.var span text)

/-- Constants, places, calls and expressions in parentheses. -/
def primary (expression : ParseM Expr) : ParseM Expr := do
  let token ← current
  match token.kind with
  | .integer value => advance; return .int token.span value
  | .text value => advance; return .text token.span value
  | .keyword .true => advance; return .bool token.span true
  | .keyword .false => advance; return .bool token.span false
  | .punctuator .leftParen =>
    advance
    let inner ← expression
    let _ ← expect .rightParen
    return inner
  | .identifier _ =>
    if (← ahead 1) == some (.punctuator .leftParen) then call expression else place expression
  | _ => unexpected "expression"

/-- `operand: ('-' | '!' | '++' | '--') operand | primary ('++' | '--')?`, where `expression`
reads an expression whose operators are stronger than the given strength. -/
def operand (expression : Nat → ParseM Expr) : ParseM Expr := do
  let token ← current
  match leadingOp? token.kind with
  | some op =>
    advance
    let inner ← expression UnaryOp.strength
    return .unary (token.span.merge inner.span) op inner
  | none =>
    let inner ← primary (expression 0)
    match (← get).head? with
    | some token =>
      match trailingOp? token.kind with
      | some op =>
        advance
        return .unary (inner.span.merge token.span) op inner
      | none => return inner
    | none => return inner

/-- Extends `left` by the operators stronger than `bound` that follow it. -/
def operators (expression : Nat → ParseM Expr) (bound : Nat) : Nat → Expr → ParseM Expr
  | 0, _ => exhausted
  | limit + 1, left => do
    match (← ahead 0).bind binaryOp? with
    | some op =>
      if bound < op.strength then
        advance
        let right ← expression op.strength
        operators expression bound limit (.binary (left.span.merge right.span) op left right)
      else
        return left
    | none => return left

/-- An expression whose operators are all stronger than `bound`, nested at most `depth` deep. -/
def expressionAt : Nat → Nat → ParseM Expr
  | 0, _ => exhausted
  | depth + 1, bound => do
    let left ← operand (expressionAt depth)
    operators (expressionAt depth) bound (← read).limit left

/-- Any expression. -/
def expression : ParseM Expr := do expressionAt (← read).limit 0

/-! ### Types and declarations -/

/-- `('[' ']')*` behind the type of the elements. -/
def brackets : Nat → Ty → ParseM Ty
  | 0, _ => exhausted
  | limit + 1, ty => do
    if ← accept .leftBracket then
      let _ ← expect .rightBracket
      brackets limit (.array ty)
    else
      return ty

/-- The type a token begins. -/
def typeOf? : TokenKind → Option Ty
  | .keyword .int => some .int
  | .keyword .bool => some .bool
  | .keyword .text => some .text
  | .identifier text => some (.record text)
  | _ => none

/-- `type: ('int' | 'bool' | 'text' | ID) ('[' ']')*` -/
def type : ParseM Ty := do
  let token ← current
  match typeOf? token.kind with
  | some ty =>
    advance
    brackets (← read).limit ty
  | none => unexpected "type"

/-- `ID ';'` behind a type. -/
def declarationRest (ty : Ty) (start : Span) : ParseM Declaration := do
  let (text, _) ← name
  let stop ← expect .semicolon
  return ⟨start.merge stop, ty, text, false⟩

/-- `declaration: type ID ';'` -/
def declaration : ParseM Declaration := do
  let start := (← current).span
  declarationRest (← type) start

/-- `parameter: type '&'? ID` -/
def parameter : ParseM Declaration := do
  let start := (← current).span
  let ty ← type
  let isReference ← accept .ampersand
  let (text, stop) ← name
  return ⟨start.merge stop, ty, text, isReference⟩

/-- Whether a declaration comes next rather than a statement: a built-in type always starts one,
an identifier does in front of another identifier or of `[]`. -/
def startsDeclaration : ParseM Bool := do
  match ← ahead 0 with
  | some (.keyword .int) | some (.keyword .bool) | some (.keyword .text) => return true
  | some (.identifier _) =>
    match ← ahead 1 with
    | some (.identifier _) => return true
    | some (.punctuator .leftBracket) => return (← ahead 2) == some (.punctuator .rightBracket)
    | _ => return false
  | _ => return false

/-- `declaration*` -/
def declarations : ParseM (List Declaration) := do
  manyWhile startsDeclaration declaration (← read).limit

/-! ### Statements -/

/-- `block: '{' statement* '}'` -/
def block (statement : ParseM Statement) : ParseM Statement := do
  let start ← expect .leftBrace
  let body ← untilBrace statement
  let stop ← expect .rightBrace
  return .block (start.merge stop) body

/-- A branch or a loop body; a lone statement becomes a block. -/
def body (statement : ParseM Statement) : ParseM Statement := do
  if ← next .leftBrace then
    block statement
  else
    let inner ← statement
    return .block inner.span [inner]

/-- `'(' expression ')'` -/
def condition : ParseM Expr := do
  let _ ← expect .leftParen
  let inner ← expression
  let _ ← expect .rightParen
  return inner

/-- `('else' statement)?` -/
def alternative (statement : ParseM Statement) : ParseM (Option Statement) := do
  if (← ahead 0) == some (.keyword .else) then
    advance
    return some (← body statement)
  return none

/-- `place '=' expression ';'` -/
def assignment : ParseM Statement := do
  let target ← place expression
  let _ ← expect .assign
  let value ← expression
  let stop ← expect .semicolon
  return .assign (target.span.merge stop) target value

/-- `expression?` in front of a semicolon. -/
def returned : ParseM (Option Expr) := do
  if ← next .semicolon then
    return none
  return some (← expression)

/-- A statement with statements nested at most `depth` deep. -/
def statementAt : Nat → ParseM Statement
  | 0 => exhausted
  | depth + 1 => do
    let token ← current
    match token.kind with
    | .punctuator .leftBrace => block (statementAt depth)
    | .keyword .if =>
      advance
      let test ← condition
      let onTrue ← body (statementAt depth)
      let onFalse ← alternative (statementAt depth)
      return .branch (token.span.merge (onFalse.getD onTrue).span) test onTrue onFalse
    | .keyword .while =>
      advance
      let test ← condition
      let inner ← body (statementAt depth)
      return .loop (token.span.merge inner.span) test inner
    | .keyword .return =>
      advance
      let value ← returned
      let stop ← expect .semicolon
      return .ret (token.span.merge stop) value
    | .punctuator .semicolon =>
      advance
      return .empty token.span
    | .identifier _ =>
      if (← ahead 1) == some (.punctuator .leftParen) then
        let callee ← call expression
        let stop ← expect .semicolon
        return .call (token.span.merge stop) callee
      else
        assignment
    | _ => unexpected "statement"

/-- `statement: block | if | while | return | ';' | call ';' | assignment` -/
def statement : ParseM Statement := do statementAt (← read).limit

/-! ### Members -/

/-- `record: 'record' ID '{' declaration* '}'`, from the identifier on. -/
def recordRest (start : Span) : ParseM RecordDef := do
  let (text, _) ← name
  let _ ← expect .leftBrace
  let fields ← untilBrace declaration
  let stop ← expect .rightBrace
  return ⟨start.merge stop, text, fields⟩

/-- `ID '(' parameters ')' declaration* '{' declaration* statement* '}'` behind the return type. -/
def functionRest (returnType : Ty) (start : Span) : ParseM FunctionDef := do
  let (text, _) ← name
  let (params, _) ← parenthesised parameter
  let outer ← declarations
  let _ ← expect .leftBrace
  let inner ← declarations
  let statements ← untilBrace statement
  let stop ← expect .rightBrace
  return ⟨start.merge stop, returnType, text, params, outer ++ inner, statements⟩

/-- One member of a program, or nothing for a lone semicolon. -/
def member : ParseM (Option Member) := do
  let token ← current
  match token.kind with
  | .punctuator .semicolon =>
    advance
    return none
  | .keyword .record =>
    advance
    return some (.record (← recordRest token.span))
  | .keyword .void =>
    advance
    return some (.function (← functionRest .void token.span))
  | kind =>
    if kind.isTypeStart then
      let ty ← type
      if (← ahead 1) == some (.punctuator .leftParen) then
        return some (.function (← functionRest ty token.span))
      else
        return some (.global (← declarationRest ty token.span))
    else
      unexpected "declaration, record or function"

/-- All members of a program. -/
def members : ParseM (List Member) := do
  let found ← manyWhile (return !(← get).isEmpty) member (← read).limit
  return found.filterMap id

end Parser

/-- The span from the first to the last of some tokens. -/
def Token.extent : List Token → Span
  | [] => Span.empty
  | first :: rest => first.span.merge ((rest.getLast?.getD first).span)

/-- The program some tokens make up. -/
def Program.parse (tokens : List Token) : Except (Failure ParseError) Program := do
  let last := (tokens.getLast?.map (·.span)).getD Span.empty
  let (members, _) ← (Parser.members.run ⟨last, tokens.length + 1⟩).run tokens
  return ⟨Token.extent tokens, members⟩

end MiniJ
