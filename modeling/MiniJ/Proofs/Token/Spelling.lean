import MiniJ.Token

/-!
# Written forms of tokens

How tokens can be written as text. Integer constants may have leading zeros, the characters of a
text constant can be escaped, and tokens are separated by white space that comments may follow.

## Main definitions

* `TokenKind.Spelled` — the written forms of a token.
* `Written.Gap` — what can stand between two tokens.
* `Written.Printed` — the written forms of a list of tokens.
-/
namespace MiniJ

namespace Written

/-- Space, tab, newline, form feed and carriage return. -/
def blanks : List Char := [' ', '\t', '\n', '\x0c', '\r']

/-- White space and complete comments. -/
inductive Gap : List Char → Prop
  | nil : Gap []
  | blank {c : Char} {gap : List Char} (white : c ∈ blanks) (rest : Gap gap) : Gap (c :: gap)
  | line {body gap : List Char} (inside : '\n' ∉ body) (rest : Gap gap) :
      Gap ('/' :: '/' :: (body ++ '\n' :: gap))
  | block {body gap : List Char} (inside : ¬['*', '/'] <:+: body) (rest : Gap gap) :
      Gap ('/' :: '*' :: (body ++ '*' :: '/' :: gap))

/-- Letters, and the underscore among them. -/
def isLetter (c : Char) : Bool := c.isAlpha || c == '_'

/-- What identifiers look like. -/
def isWord : List Char → Bool
  | [] => false
  | c :: rest => isLetter c && rest.all fun d => isLetter d || d.isDigit

/-- Characters with an escape, and the character that follows the backslash. -/
def escapes : List (Char × Char) :=
  [('"', '"'), ('\\', '\\'), ('\n', 'n'), ('\t', 't'), ('\x00', '0')]

/-- Characters that must be escaped. -/
def escaped : List Char := ['"', '\\', '\n']

/-- A text and what stands for it between quotes. -/
inductive Quoted : List Char → List Char → Prop
  | nil : Quoted [] []
  | raw {c : Char} {value written : List Char} (plain : c ∉ escaped) (rest : Quoted value written) :
      Quoted (c :: value) (c :: written)
  | escape {c e : Char} {value written : List Char} (known : (c, e) ∈ escapes)
      (rest : Quoted value written) : Quoted (c :: value) ('\\' :: e :: written)

end Written

/-- A token and a text that spells it. -/
inductive TokenKind.Spelled : TokenKind → List Char → Prop
  | integer {n : Nat} (zeros : Nat) (small : n < 9223372036854775808) :
      Spelled (.integer (Int64.ofNat n)) (List.replicate zeros '0' ++ Nat.toDigits 10 n)
  | text {value : String} {written : List Char} (quoted : Written.Quoted value.toList written) :
      Spelled (.text value) ('"' :: (written ++ ['"']))
  | identifier {name : String} (word : Written.isWord name.toList = true)
      (free : ∀ k : Keyword, name ≠ k.spelling) : Spelled (.identifier name) name.toList
  | keyword (k : Keyword) : Spelled (.keyword k) k.spelling.toList
  | punctuator (p : Punctuator) : Spelled (.punctuator p) p.spelling.toList

/-- Tokens behind each other, each two of them with white space between them and possibly comments
behind it. The text may end in such a gap, and in a line comment that nothing ends. -/
inductive Written.Printed : List TokenKind → List Char → Prop
  | nil : Printed [] []
  | comment {body : List Char} (inside : '\n' ∉ body) : Printed [] ('/' :: '/' :: body)
  | last {kind : TokenKind} {word : List Char} (first : kind.Spelled word) : Printed [kind] word
  | cons {kind : TokenKind} {kinds : List TokenKind} {c : Char} {word gap rest : List Char}
      (first : kind.Spelled word) (white : c ∈ blanks) (between : Gap gap)
      (others : Printed kinds rest) : Printed (kind :: kinds) (word ++ c :: (gap ++ rest))

end MiniJ
