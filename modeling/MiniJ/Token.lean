import MiniJ.Source.Span
import MiniJ.Text.Quoted

/-!
# Tokens

The words and signs a MiniJ program is made of. Keywords and punctuators are closed sets with a
spelling each; constants and identifiers carry their value.
-/
namespace MiniJ

/-- Words that are not identifiers. -/
inductive Keyword where
  | void | int | bool | text | record | if | else | while | return | true | false
  deriving DecidableEq, Repr

namespace Keyword

def all : List Keyword :=
  [.void, .int, .bool, .text, .record, .if, .else, .while, .return, .true, .false]

def spelling : Keyword → String
  | void => "void"
  | int => "int"
  | bool => "bool"
  | text => "text"
  | record => "record"
  | «if» => "if"
  | «else» => "else"
  | «while» => "while"
  | «return» => "return"
  | true => "true"
  | false => "false"

/-- Name used in messages. -/
def name : Keyword → String
  | void => "Void"
  | int => "Int"
  | bool => "Bool"
  | text => "Text"
  | record => "Record"
  | «if» => "If"
  | «else» => "Else"
  | «while» => "While"
  | «return» => "Return"
  | true => "True"
  | false => "False"

/-- The keyword spelled like `word`. -/
def ofSpelling? (word : String) : Option Keyword := all.find? (·.spelling == word)

end Keyword

/-- Operators and other signs. -/
inductive Punctuator where
  | plus | minus | star | slash | percent | increment | decrement | not | ampersand
  | less | greater | lessEqual | greaterEqual | equal | notEqual | logicAnd | logicOr | assign | dot
  | colon | comma | semicolon | leftParen | rightParen | leftBracket | rightBracket
  | leftBrace | rightBrace
  deriving DecidableEq, Repr

namespace Punctuator

/-- All punctuators, those of two characters first. -/
def all : List Punctuator :=
  [.increment, .decrement, .equal, .notEqual, .lessEqual, .greaterEqual, .logicAnd, .logicOr,
    .plus, .minus, .star, .slash, .percent, .not, .ampersand, .less, .greater, .assign, .dot,
    .colon, .comma, .semicolon, .leftParen, .rightParen, .leftBracket, .rightBracket,
    .leftBrace, .rightBrace]

def spelling : Punctuator → String
  | plus => "+"
  | minus => "-"
  | star => "*"
  | slash => "/"
  | percent => "%"
  | increment => "++"
  | decrement => "--"
  | not => "!"
  | ampersand => "&"
  | less => "<"
  | greater => ">"
  | lessEqual => "<="
  | greaterEqual => ">="
  | equal => "=="
  | notEqual => "!="
  | logicAnd => "&&"
  | logicOr => "||"
  | assign => "="
  | dot => "."
  | colon => ":"
  | comma => ","
  | semicolon => ";"
  | leftParen => "("
  | rightParen => ")"
  | leftBracket => "["
  | rightBracket => "]"
  | leftBrace => "\x7b"
  | rightBrace => "\x7d"

/-- Name used in messages. -/
def name : Punctuator → String
  | plus => "Plus"
  | minus => "Minus"
  | star => "Star"
  | slash => "Slash"
  | percent => "Percent"
  | increment => "Increment"
  | decrement => "Decrement"
  | not => "Not"
  | ampersand => "Ampersand"
  | less => "Less"
  | greater => "Greater"
  | lessEqual => "LessEqual"
  | greaterEqual => "GreaterEqual"
  | equal => "Equal"
  | notEqual => "NotEqual"
  | logicAnd => "LogicAnd"
  | logicOr => "LogicOr"
  | assign => "Assign"
  | dot => "Dot"
  | colon => "Colon"
  | comma => "Comma"
  | semicolon => "Semicolon"
  | leftParen => "LeftParen"
  | rightParen => "RightParen"
  | leftBracket => "LeftBracket"
  | rightBracket => "RightBracket"
  | leftBrace => "LeftBrace"
  | rightBrace => "RightBrace"

end Punctuator

/-- What a token stands for. Escapes of a text constant are already decoded. -/
inductive TokenKind where
  | integer (value : Int64)
  | text (value : String)
  | identifier (name : String)
  | keyword (word : Keyword)
  | punctuator (sign : Punctuator)
  deriving DecidableEq, Repr

namespace TokenKind

/-- Tokens that can begin the type of a declaration. -/
def isTypeStart : TokenKind → Bool
  | keyword .int | keyword .bool | keyword .text | identifier _ => true
  | _ => false

/-- Form used in messages. -/
def describe : TokenKind → String
  | integer value => "IntegerConstant(" ++ toString value.toInt ++ ")"
  | text value => "StringConstant(" ++ Text.quote value ++ ")"
  | identifier name => "Identifier(" ++ Text.quote name ++ ")"
  | keyword word => word.name
  | punctuator sign => sign.name

end TokenKind

/-- A token and where it stands. -/
structure Token where
  kind : TokenKind
  span : Span
  deriving DecidableEq, Repr

end MiniJ
