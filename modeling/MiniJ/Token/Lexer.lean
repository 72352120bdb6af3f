import MiniJ.ParseError
import MiniJ.Text.Decode

/-!
# Lexer

`Token.scan` splits the bytes of a program into tokens. White space and comments separate tokens
and are skipped; the longest punctuator wins; an integer constant extends over all letters, digits
and underscores that follow its first digit. The first error ends the scan.
-/
namespace MiniJ

namespace Lexer

/-- Space, tab, newline, form feed and carriage return. -/
def isBlank (b : UInt8) : Bool := b == 32 || b == 9 || b == 10 || b == 12 || b == 13

def isDigit (b : UInt8) : Bool := 48 ≤ b && b ≤ 57

/-- Bytes a word can start with: letters and the underscore. -/
def isWordStart (b : UInt8) : Bool := 65 ≤ b && b ≤ 90 || 97 ≤ b && b ≤ 122 || b == 95

/-- Bytes a word continues with. -/
def isWordByte (b : UInt8) : Bool := isWordStart b || isDigit b

/-- What the bytes between two tokens are part of. -/
inductive Gap where
  | blank
  | lineComment
  /-- A block comment that was opened at this offset. -/
  | blockComment (start : Nat)
  deriving DecidableEq, Repr

/-- Skips white space and comments from offset `pos` on; gives the offset of the next token and the
input from there. -/
def skipGap (source : SourceId) : Gap → Nat → List UInt8 → Except ParseError (Nat × List UInt8)
  | .blank, pos, [] => .ok (pos, [])
  | .blank, pos, 47 :: 47 :: rest => skipGap source .lineComment (pos + 2) rest
  | .blank, pos, 47 :: 42 :: rest => skipGap source (.blockComment pos) (pos + 2) rest
  | .blank, pos, b :: rest =>
    if isBlank b then skipGap source .blank (pos + 1) rest else .ok (pos, b :: rest)
  | .lineComment, pos, [] => .ok (pos, [])
  | .lineComment, pos, b :: rest =>
    skipGap source (if b == 10 then .blank else .lineComment) (pos + 1) rest
  | .blockComment start, pos, [] =>
    .error ⟨.unterminatedComment, Span.ofRange source start (pos - start)⟩
  | .blockComment _, pos, 42 :: 47 :: rest => skipGap source .blank (pos + 2) rest
  | .blockComment start, pos, _ :: rest => skipGap source (.blockComment start) (pos + 1) rest

/-- A token kind, the number of bytes it takes, and the input after it. -/
structure Lexeme where
  kind : TokenKind
  length : Nat
  rest : List UInt8
  deriving DecidableEq, Repr

/-- A text of ASCII bytes. -/
def asciiText (bytes : List UInt8) : String :=
  String.ofList (bytes.map fun b => Char.ofNat b.toNat)

/-- A keyword or an identifier. -/
def scanWord (input : List UInt8) : Lexeme :=
  let (word, rest) := input.span isWordByte
  let text := asciiText word
  let kind := match Keyword.ofSpelling? text with
    | some keyword => .keyword keyword
    | none => .identifier text
  ⟨kind, word.length, rest⟩

/-- One more than the largest integer constant. -/
def integerLimit : Nat := 9223372036854775808

/-- Value of a decimal number below the limit; leading zeros are allowed. -/
def decimal? (word : List UInt8) : Option Int64 :=
  if word.all isDigit then
    let value := word.foldl (fun n b => n * 10 + (b.toNat - 48)) 0
    if value < integerLimit then some (Int64.ofNat value) else none
  else none

def scanInteger (source : SourceId) (pos : Nat) (input : List UInt8) :
    Except ParseError Lexeme :=
  let (word, rest) := input.span isWordByte
  match decimal? word with
  | some value => .ok ⟨.integer value, word.length, rest⟩
  | none => .error ⟨.invalidInteger (asciiText word), Span.ofRange source pos word.length⟩

/-- The byte an escaped byte stands for. -/
def unescape (b : UInt8) : UInt8 :=
  if b == 110 then 10 else if b == 116 then 9 else if b == 48 then 0 else b

/-- Reads a text constant up to its closing quote. `value` holds the bytes read so far, last one
first, and `length` counts the bytes consumed. A raw newline or the end of input is an error. -/
def scanText (source : SourceId) (start length : Nat) (value : List UInt8) :
    List UInt8 → Except ParseError Lexeme
  | 34 :: rest => .ok ⟨.text (Text.decodeLossy value.reverse), length + 1, rest⟩
  | 92 :: b :: rest => scanText source start (length + 2) (unescape b :: value) rest
  | [] | [92] | 10 :: _ => .error ⟨.unterminatedText, Span.ofRange source start length⟩
  | b :: rest => scanText source start (length + 1) (b :: value) rest

/-- The longest punctuator a byte and its successor spell, with its length. -/
def punctuator? (b : UInt8) (next : Option UInt8) : Option (Punctuator × Nat) :=
  match b, next with
  | 43, some 43 => some (.increment, 2)
  | 45, some 45 => some (.decrement, 2)
  | 61, some 61 => some (.equal, 2)
  | 33, some 61 => some (.notEqual, 2)
  | 60, some 61 => some (.lessEqual, 2)
  | 62, some 61 => some (.greaterEqual, 2)
  | 38, some 38 => some (.logicAnd, 2)
  | 124, some 124 => some (.logicOr, 2)
  | 43, _ => some (.plus, 1)
  | 45, _ => some (.minus, 1)
  | 42, _ => some (.star, 1)
  | 47, _ => some (.slash, 1)
  | 37, _ => some (.percent, 1)
  | 33, _ => some (.not, 1)
  | 38, _ => some (.ampersand, 1)
  | 60, _ => some (.less, 1)
  | 62, _ => some (.greater, 1)
  | 61, _ => some (.assign, 1)
  | 46, _ => some (.dot, 1)
  | 58, _ => some (.colon, 1)
  | 44, _ => some (.comma, 1)
  | 59, _ => some (.semicolon, 1)
  | 40, _ => some (.leftParen, 1)
  | 41, _ => some (.rightParen, 1)
  | 91, _ => some (.leftBracket, 1)
  | 93, _ => some (.rightBracket, 1)
  | 123, _ => some (.leftBrace, 1)
  | 125, _ => some (.rightBrace, 1)
  | _, _ => none

/-- A sign, or the error for a character no token starts with. The span of that character is as
long as its UTF-8 form, also when it replaces ill-formed bytes. -/
def scanSign (source : SourceId) (pos : Nat) (b : UInt8) (rest : List UInt8) :
    Except ParseError Lexeme :=
  match punctuator? b rest.head? with
  | some (sign, length) => .ok ⟨.punctuator sign, length, rest.drop (length - 1)⟩
  | none =>
    let c := (Text.decodeNext b rest).1.getD Text.replacement
    .error ⟨.unexpectedCharacter c, Span.ofRange source pos c.utf8Size⟩

/-- The token that starts with byte `b` at offset `pos`. -/
def scanLexeme (source : SourceId) (pos : Nat) (b : UInt8) (rest : List UInt8) :
    Except ParseError Lexeme :=
  if isWordStart b then .ok (scanWord (b :: rest))
  else if isDigit b then scanInteger source pos (b :: rest)
  else if b == 34 then scanText source pos 1 [] rest
  else scanSign source pos b rest

/-- The tokens from offset `pos` on, at most `limit` of them. -/
def scanFrom (source : SourceId) : Nat → Nat → List UInt8 → Except ParseError (List Token)
  | 0, _, _ => .ok []
  | limit + 1, pos, input => do
    match ← skipGap source .blank pos input with
    | (_, []) => pure []
    | (pos, b :: rest) =>
      let lexeme ← scanLexeme source pos b rest
      let tokens ← scanFrom source limit (pos + lexeme.length) lexeme.rest
      pure (⟨lexeme.kind, Span.ofRange source pos lexeme.length⟩ :: tokens)

end Lexer

/-- The tokens of a program. Every token takes a byte, so there are at most as many as bytes. -/
def Token.scan (source : SourceId) (bytes : List UInt8) : Except ParseError (List Token) :=
  Lexer.scanFrom source (bytes.length + 1) 0 bytes

end MiniJ
