/-!
# Reading UTF-8

Program text arrives as bytes that need not be well-formed UTF-8. `decodeLossy` reads every byte
sequence: each maximal ill-formed part becomes one replacement character. `decode?` accepts
well-formed sequences only.
-/
namespace MiniJ.Text

/-- U+FFFD, which stands for bytes that cannot be read. -/
def replacement : Char := '\uFFFD'

/-- Bytes `80..BF`, which continue a longer sequence. -/
def isContinuation (b : UInt8) : Bool := 0x80 ≤ b && b ≤ 0xBF

/-- Bytes allowed right after the first byte of a sequence: the ranges exclude overlong forms,
surrogates and values above U+10FFFF. -/
def isSecond (first second : UInt8) : Bool :=
  if first == 0xE0 then 0xA0 ≤ second && second ≤ 0xBF
  else if first == 0xED then 0x80 ≤ second && second ≤ 0x9F
  else if first == 0xF0 then 0x90 ≤ second && second ≤ 0xBF
  else if first == 0xF4 then 0x80 ≤ second && second ≤ 0x8F
  else isContinuation second

/-- Low six bits of a continuation byte. -/
def payload (b : UInt8) : Nat := b.toNat % 64

/-- Reads the sequence that starts with `first`. The number counts the bytes of `rest` that belong
to it; no character is returned when the sequence is ill-formed. -/
def decodeNext (first : UInt8) (rest : List UInt8) : Option Char × Nat :=
  if first < 0x80 then (some (Char.ofNat first.toNat), 0)
  else if 0xC2 ≤ first && first ≤ 0xDF then
    match rest with
    | b :: _ =>
      if isContinuation b then
        (some (Char.ofNat ((first.toNat - 0xC0) * 64 + payload b)), 1)
      else (none, 0)
    | [] => (none, 0)
  else if 0xE0 ≤ first && first ≤ 0xEF then
    match rest with
    | b :: c :: _ =>
      if !isSecond first b then (none, 0)
      else if isContinuation c then
        (some (Char.ofNat (((first.toNat - 0xE0) * 64 + payload b) * 64 + payload c)), 2)
      else (none, 1)
    | [b] => (none, if isSecond first b then 1 else 0)
    | [] => (none, 0)
  else if 0xF0 ≤ first && first ≤ 0xF4 then
    match rest with
    | b :: c :: d :: _ =>
      if !isSecond first b then (none, 0)
      else if !isContinuation c then (none, 1)
      else if isContinuation d then
        (some (Char.ofNat
          ((((first.toNat - 0xF0) * 64 + payload b) * 64 + payload c) * 64 + payload d)), 3)
      else (none, 2)
    | [b, c] => (none, if !isSecond first b then 0 else if isContinuation c then 2 else 1)
    | [b] => (none, if isSecond first b then 1 else 0)
    | [] => (none, 0)
  else (none, 0)

/-- Reads one character after another, where the first `skip` bytes belong to the character read
before. Ill-formed parts give `none`. -/
def decodeParts : Nat → List UInt8 → List (Option Char)
  | _, [] => []
  | skip + 1, _ :: rest => decodeParts skip rest
  | 0, b :: rest =>
    let (c, taken) := decodeNext b rest
    c :: decodeParts taken rest

/-- Reads any bytes; each maximal ill-formed part becomes one replacement character. -/
def decodeLossy (bytes : List UInt8) : String :=
  String.ofList ((decodeParts 0 bytes).map (·.getD replacement))

/-- Reads well-formed bytes. -/
def decode? (bytes : List UInt8) : Option String :=
  ((decodeParts 0 bytes).mapM id).map String.ofList

/-- UTF-8 form of a text. -/
def encode (s : String) : List UInt8 := s.toList.flatMap String.utf8EncodeChar

end MiniJ.Text
