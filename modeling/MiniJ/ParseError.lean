import MiniJ.Token

/-!
# Errors of reading a program

What the lexer and the parser report, with the place it concerns.
-/
namespace MiniJ

/-- Why a text is not a program. -/
inductive ParseError.Cause where
  | unexpectedToken (expected : String) (found : TokenKind)
  | unexpectedEnd
  | invalidInteger (text : String)
  | unterminatedText
  | unterminatedComment
  | unexpectedCharacter (c : Char)
  deriving DecidableEq, Repr

/-- A cause and the place it was found at. -/
structure ParseError where
  cause : ParseError.Cause
  span : Span
  deriving DecidableEq, Repr

namespace ParseError

def message (e : ParseError) : String :=
  match e.cause with
  | .unexpectedToken expected found =>
    "Unexpected token: expected " ++ expected ++ ", found " ++ found.describe
  | .unexpectedEnd => "Unexpected End of File"
  | .invalidInteger text => "Invalid integer constant: " ++ text
  | .unterminatedText => "Unterminated string constant"
  | .unterminatedComment => "Unterminated block comment"
  | .unexpectedCharacter c => "Unexpected character '" ++ c.toString ++ "'"

end ParseError

end MiniJ
