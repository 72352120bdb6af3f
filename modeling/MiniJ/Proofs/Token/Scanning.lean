import MiniJ.Token.Lexer
import MiniJ.Proofs.Outcome
import MiniJ.Proofs.Text.Decode
import MiniJ.Proofs.Token.Spelling
import Mathlib.Data.List.TakeDrop

/-!
# Scanning inverts printing

Every written form of a list of tokens is scanned into exactly these tokens. A gap is skipped as a
whole, and each token ends where its spelling ends, because white space or the end of the text
follows it.

## Main statements

* `Lexer.skipGap_gap` — gaps are skipped.
* `TokenKind.Spelled.scanLexeme` — a spelled token is scanned as itself.
* `Token.scan_printed` — a printed list of tokens is scanned as itself.
-/
namespace MiniJ

open Text

namespace Lexer

variable {source : SourceId} {pos start : Nat} {b : UInt8} {rest : List UInt8}

/-! ### Gaps -/

theorem skipGap_blank (h : isBlank b = true) :
    skipGap source .blank pos (b :: rest) = skipGap source .blank (pos + 1) rest := by
  have hslash : b ≠ 47 := by
    rintro rfl
    cases h
  rw [skipGap, if_pos h] <;> simp [hslash]

/-- A token begins here. -/
theorem skipGap_stop (hblank : isBlank b = false)
    (hcomment : b = 47 → rest.head? ≠ some 47 ∧ rest.head? ≠ some 42) :
    skipGap source .blank pos (b :: rest) = .ok (pos, b :: rest) := by
  rw [skipGap]
  · simp [hblank]
  · rintro rest' rfl rfl
    exact (hcomment rfl).1 rfl
  · rintro rest' rfl rfl
    exact (hcomment rfl).2 rfl

theorem skipGap_lineByte (h : b ≠ 10) :
    skipGap source .lineComment pos (b :: rest) = skipGap source .lineComment (pos + 1) rest := by
  show skipGap source (if b == 10 then .blank else .lineComment) (pos + 1) rest = _
  rw [if_neg (by simpa using h)]

theorem skipGap_blockByte (h : b = 42 → rest.head? ≠ some 47) :
    skipGap source (.blockComment start) pos (b :: rest) =
      skipGap source (.blockComment start) (pos + 1) rest := by
  rw [skipGap]
  rintro rest' rfl rfl
  exact h rfl rfl

theorem skipGap_lineBytes {body : List UInt8} (h : 10 ∉ body) :
    skipGap source .lineComment pos (body ++ rest) =
      skipGap source .lineComment (pos + body.length) rest := by
  induction body generalizing pos with
  | nil => rfl
  | cons b body ih =>
    rw [List.mem_cons, not_or] at h
    rw [List.cons_append, skipGap_lineByte (Ne.symm h.1), ih h.2, List.length_cons]
    congr 1
    omega

theorem skipGap_blockBytes {body : List UInt8} (h : 42 ∉ body) :
    skipGap source (.blockComment start) pos (body ++ rest) =
      skipGap source (.blockComment start) (pos + body.length) rest := by
  induction body generalizing pos with
  | nil => rfl
  | cons b body ih =>
    rw [List.mem_cons, not_or] at h
    rw [List.cons_append, skipGap_blockByte fun heq => absurd heq.symm h.1, ih h.2,
      List.length_cons]
    congr 1
    omega

/-- A line comment is skipped with the newline that ends it. -/
theorem skipGap_line {body : List Char} (h : '\n' ∉ body) :
    skipGap source .lineComment pos (bytes body ++ 10 :: rest) =
      skipGap source .blank (pos + ((bytes body).length + 1)) rest := by
  have hbytes : (10 : UInt8) ∉ bytes body := fun hmem =>
    h ((mem_bytes_iff (c := '\n') (by decide)).1 hmem)
  rw [skipGap_lineBytes hbytes]
  rfl

/-- A block comment is skipped up to the first place that ends it. -/
theorem skipGap_block {body : List Char} (h : ¬['*', '/'] <:+: body) :
    skipGap source (.blockComment start) pos (bytes body ++ 42 :: 47 :: rest) =
      skipGap source .blank (pos + ((bytes body).length + 2)) rest := by
  induction body generalizing pos with
  | nil => rfl
  | cons c body ih =>
    rw [List.infix_cons_iff, not_or] at h
    obtain ⟨hhere, hlater⟩ := h
    have hform : skipGap source (.blockComment start) pos
        (String.utf8EncodeChar c ++ (bytes body ++ 42 :: 47 :: rest)) =
          skipGap source (.blockComment start) (pos + (String.utf8EncodeChar c).length)
            (bytes body ++ 42 :: 47 :: rest) := by
      by_cases hstar : c = '*'
      · subst hstar
        refine skipGap_blockByte fun _ hhead => ?_
        cases body with
        | nil => cases hhead
        | cons d body =>
          have hslash := head?_bytes_append (c := '/') (by decide) (by simp) hhead
          rw [List.head?_cons, Option.some_inj] at hslash
          exact hhere ⟨body, by simp [hslash]⟩
      · refine skipGap_blockBytes fun hmem => hstar ?_
        exact (mem_encodeChar_iff (c := '*') (by decide)).1 hmem
    rw [bytes_cons, List.append_assoc, hform, ih hlater, List.length_append]
    congr 1
    omega

theorem isBlank_of_mem {c : Char} (h : c ∈ Written.blanks) :
    IsAscii c ∧ isBlank (UInt8.ofNat c.toNat) = true := by
  simp only [Written.blanks, List.mem_cons, List.not_mem_nil, or_false] at h
  rcases h with rfl | rfl | rfl | rfl | rfl <;> decide

/-- Gaps are skipped. -/
theorem skipGap_gap {gap : List Char} (h : Written.Gap gap) :
    skipGap source .blank pos (bytes gap ++ rest) =
      skipGap source .blank (pos + (bytes gap).length) rest := by
  induction h generalizing pos with
  | nil => rfl
  | @blank c gap white _ ih =>
    obtain ⟨hascii, hblank⟩ := isBlank_of_mem white
    rw [bytes_cons_of_isAscii gap hascii, List.cons_append, skipGap_blank hblank, ih,
      List.length_cons]
    congr 1
    omega
  | @line body gap inside _ ih =>
    have hbytes : bytes ('/' :: '/' :: (body ++ '\n' :: gap)) =
        47 :: 47 :: (bytes body ++ 10 :: bytes gap) := by
      rw [bytes_cons_of_isAscii _ (by decide), bytes_cons_of_isAscii _ (by decide), bytes_append,
        bytes_cons_of_isAscii _ (by decide)]
      rfl
    rw [hbytes, List.cons_append, List.cons_append, List.append_assoc, List.cons_append, skipGap,
      skipGap_line inside, ih]
    congr 1
    simp only [List.length_cons, List.length_append]
    omega
  | @block body gap inside _ ih =>
    have hbytes : bytes ('/' :: '*' :: (body ++ '*' :: '/' :: gap)) =
        47 :: 42 :: (bytes body ++ 42 :: 47 :: bytes gap) := by
      rw [bytes_cons_of_isAscii _ (by decide), bytes_cons_of_isAscii _ (by decide), bytes_append,
        bytes_cons_of_isAscii _ (by decide), bytes_cons_of_isAscii _ (by decide)]
      rfl
    rw [hbytes, List.cons_append, List.cons_append, List.append_assoc, List.cons_append,
      List.cons_append, skipGap, skipGap_block inside, ih]
    congr 1
    simp only [List.length_cons, List.length_append]
    omega

/-! ### Words and numbers -/

/-- White space or the end of the text comes next. -/
def Ends (rest : List UInt8) : Prop := ∀ b ∈ rest.head?, isBlank b = true

theorem isWordByte_of_isBlank (h : isBlank b = true) : isWordByte b = false := by
  simp only [isBlank, Bool.or_eq_true, beq_iff_eq] at h
  obtain (((rfl | rfl) | rfl) | rfl) | rfl := h <;> rfl

/-- A run of word bytes ends at white space. -/
theorem span_isWordByte {word : List UInt8} (hword : ∀ b ∈ word, isWordByte b = true)
    (hrest : Ends rest) : (word ++ rest).span isWordByte = (word, rest) := by
  have hstop : rest.takeWhile isWordByte = [] ∧ rest.dropWhile isWordByte = rest := by
    cases rest with
    | nil => exact ⟨rfl, rfl⟩
    | cons b rest =>
      have hb := isWordByte_of_isBlank (hrest b rfl)
      simp [hb]
  rw [List.span_eq_takeWhile_dropWhile, List.takeWhile_append_of_pos hword,
    List.dropWhile_append_of_pos hword, hstop.1, hstop.2, List.append_nil]

theorem isWordStart_of_isLetter {c : Char} (h : Written.isLetter c = true) :
    IsAscii c ∧ isWordStart (UInt8.ofNat c.toNat) = true := by
  change (decide (c.val ≥ 65 ∧ c.val ≤ 90) || (c.val ≥ 97 && c.val ≤ 122) || c == '_') = true at h
  simp only [Bool.or_eq_true, Bool.and_eq_true, decide_eq_true_eq, ge_iff_le,
    UInt32.le_iff_toNat_le, beq_iff_eq] at h
  have hrange : 65 ≤ c.toNat ∧ c.toNat ≤ 90 ∨ 97 ≤ c.toNat ∧ c.toNat ≤ 122 ∨ c.toNat = 95 := by
    obtain (h | h) | rfl := h
    · exact .inl h
    · exact .inr (.inl h)
    · exact .inr (.inr rfl)
  have hnat : (UInt8.ofNat c.toNat).toNat = c.toNat := by
    rw [UInt8.toNat_ofNat']
    omega
  refine ⟨show c.toNat < 128 by omega, ?_⟩
  simp only [isWordStart, Bool.or_eq_true, Bool.and_eq_true, decide_eq_true_eq,
    UInt8.le_iff_toNat_le, beq_iff_eq, ← UInt8.toNat_inj, hnat, UInt8.reduceToNat]
  omega

/-- The byte of a digit. -/
theorem digitByte {c : Char} (h : c.isDigit = true) :
    IsAscii c ∧ isDigit (UInt8.ofNat c.toNat) = true ∧ (UInt8.ofNat c.toNat).toNat = c.toNat := by
  simp only [Char.isDigit, Bool.and_eq_true, decide_eq_true_eq, ge_iff_le,
    UInt32.le_iff_toNat_le] at h
  have hrange : 48 ≤ c.toNat ∧ c.toNat ≤ 57 := h
  have hnat : (UInt8.ofNat c.toNat).toNat = c.toNat := by
    rw [UInt8.toNat_ofNat']
    omega
  refine ⟨show c.toNat < 128 by omega, ?_, hnat⟩
  simpa [isDigit, UInt8.le_iff_toNat_le, hnat] using hrange

theorem isWordStart_of_isDigit (h : isDigit b = true) : isWordStart b = false := by
  simp only [isDigit, Bool.and_eq_true, decide_eq_true_eq, UInt8.le_iff_toNat_le] at h
  obtain ⟨hlow, hhigh⟩ : 48 ≤ b.toNat ∧ b.toNat ≤ 57 := h
  simp only [isWordStart, Bool.or_eq_false_iff, Bool.and_eq_false_iff, decide_eq_false_iff_not,
    UInt8.le_iff_toNat_le, beq_eq_false_iff_ne, ne_eq, ← UInt8.toNat_inj, UInt8.reduceToNat]
  omega

/-- The byte and the characters of a word. -/
theorem wordBytes {cs : List Char} (h : Written.isWord cs = true) :
    (∀ c ∈ cs, IsAscii c) ∧ (∀ b ∈ bytes cs, isWordByte b = true) ∧
      ∃ b rest, bytes cs = b :: rest ∧ isWordStart b = true := by
  cases cs with
  | nil => cases h
  | cons c cs =>
    simp only [Written.isWord, Bool.and_eq_true, List.all_eq_true, Bool.or_eq_true] at h
    obtain ⟨hfirst, hothers⟩ := h
    have hall : ∀ d ∈ c :: cs, IsAscii d ∧ isWordByte (UInt8.ofNat d.toNat) = true := by
      intro d hd
      have hd' : Written.isLetter d = true ∨ d.isDigit = true := by
        rcases List.mem_cons.1 hd with rfl | hd
        · exact .inl hfirst
        · exact hothers d hd
      rcases hd' with hletter | hdigit
      · obtain ⟨hascii, hstart⟩ := isWordStart_of_isLetter hletter
        exact ⟨hascii, by simp [isWordByte, hstart]⟩
      · obtain ⟨hascii, hdigit, -⟩ := digitByte hdigit
        exact ⟨hascii, by simp [isWordByte, hdigit]⟩
    have hbytes := bytes_of_forall_isAscii fun d hd => (hall d hd).1
    refine ⟨fun d hd => (hall d hd).1, ?_, UInt8.ofNat c.toNat, _, hbytes,
      (isWordStart_of_isLetter hfirst).2⟩
    intro b hb
    rw [hbytes, List.mem_map] at hb
    obtain ⟨d, hd, rfl⟩ := hb
    exact (hall d hd).2

theorem asciiText_bytes {cs : List Char} (h : ∀ c ∈ cs, IsAscii c) :
    asciiText (bytes cs) = String.ofList cs := by
  rw [asciiText, bytes_of_forall_isAscii h, List.map_map]
  congr 1
  conv => rhs; rw [← List.map_id cs]
  refine List.map_congr_left fun c hc => ?_
  have hsmall : c.toNat < 128 := h c hc
  rw [Function.comp_apply, UInt8.toNat_ofNat', Nat.mod_eq_of_lt (by omega), Char.ofNat_toNat]
  rfl

/-- A word is scanned as a whole. -/
theorem scanWord_bytes {cs : List Char} {found : Option Keyword} (h : Written.isWord cs = true)
    (hfound : Keyword.ofSpelling? (String.ofList cs) = found) (hrest : Ends rest) :
    scanWord (bytes cs ++ rest) =
      ⟨found.elim (.identifier (String.ofList cs)) .keyword, (bytes cs).length, rest⟩ := by
  obtain ⟨hascii, hword, -⟩ := wordBytes h
  rw [scanWord, span_isWordByte hword hrest]
  dsimp only
  rw [asciiText_bytes hascii, hfound]
  cases found <;> rfl

/-- The value of decimal digits. -/
theorem foldl_digits {cs : List Char} (h : ∀ c ∈ cs, c.isDigit = true) (n : Nat) :
    (bytes cs).foldl (fun n b => n * 10 + (b.toNat - 48)) n = Nat.ofDigitChars 10 cs n := by
  induction cs generalizing n with
  | nil => rfl
  | cons c cs ih =>
    obtain ⟨hascii, -, hnat⟩ := digitByte (h c (by simp))
    rw [bytes_cons_of_isAscii cs hascii, List.foldl_cons, hnat, ih fun d hd => h d (by simp [hd]),
      Nat.ofDigitChars_cons, Nat.mul_comm]
    rfl

theorem decimal?_digits {n : Nat} (zeros : Nat) (h : n < 9223372036854775808) :
    decimal? (bytes (List.replicate zeros '0' ++ Nat.toDigits 10 n)) = some (Int64.ofNat n) := by
  have hdigits : ∀ c ∈ List.replicate zeros '0' ++ Nat.toDigits 10 n, c.isDigit = true := by
    intro c hc
    rcases List.mem_append.1 hc with hc | hc
    · rw [(List.mem_replicate.1 hc).2]
      rfl
    · exact Nat.isDigit_of_mem_toDigits (by omega) (by omega) hc
  have hall : (bytes (List.replicate zeros '0' ++ Nat.toDigits 10 n)).all isDigit = true := by
    rw [bytes_of_forall_isAscii fun c hc => (digitByte (hdigits c hc)).1, List.all_map,
      List.all_eq_true]
    exact fun c hc => (digitByte (hdigits c hc)).2.1
  have hvalue : Nat.ofDigitChars 10 (List.replicate zeros '0' ++ Nat.toDigits 10 n) 0 = n := by
    rw [Nat.ofDigitChars_append, Nat.ofDigitChars_replicate_zero, Nat.mul_zero,
      Nat.ofDigitChars_ten_toDigits]
  rw [decimal?, if_pos hall, foldl_digits hdigits, hvalue]
  exact if_pos h

/-! ### Text constants -/

/-- Bytes that stand for themselves between quotes. -/
theorem scanText_plain {length : Nat} {value plain : List UInt8}
    (h : ∀ b ∈ plain, b ≠ 34 ∧ b ≠ 92 ∧ b ≠ 10) :
    scanText source start length value (plain ++ rest) =
      scanText source start (length + plain.length) (plain.reverse ++ value) rest := by
  induction plain generalizing length value with
  | nil => rfl
  | cons b plain ih =>
    obtain ⟨hquote, hslash, hnewline⟩ := h b (by simp)
    rw [List.cons_append, scanText, ih fun d hd => h d (by simp [hd]), List.length_cons,
      List.reverse_cons, List.append_assoc]
    · congr 1
      omega
    · simp [hquote]
    · simp [hslash]
    · simp [hslash]
    · simp [hnewline]

theorem scanText_escape {length : Nat} {value : List UInt8} :
    scanText source start length value (92 :: b :: rest) =
      scanText source start (length + 2) (unescape b :: value) rest := by
  rw [scanText]

theorem unescape_of_mem {c e : Char} (h : (c, e) ∈ Written.escapes) :
    IsAscii c ∧ IsAscii e ∧ unescape (UInt8.ofNat e.toNat) = UInt8.ofNat c.toNat := by
  have hall : ∀ p ∈ Written.escapes,
      IsAscii p.1 ∧ IsAscii p.2 ∧ unescape (UInt8.ofNat p.2.toNat) = UInt8.ofNat p.1.toNat := by
    decide
  exact hall _ h

/-- What stands for a text between quotes is read as its bytes. -/
theorem scanText_quoted {text written : List Char} {length : Nat} {value : List UInt8}
    (h : Written.Quoted text written) :
    scanText source start length value (bytes written ++ 34 :: rest) =
      .ok ⟨.text (decodeLossy (value.reverse ++ bytes text)), length + (bytes written).length + 1,
        rest⟩ := by
  induction h generalizing length value with
  | nil => simp [scanText]
  | @raw c text written plain _ ih =>
    have hplain : ∀ b ∈ String.utf8EncodeChar c, b ≠ 34 ∧ b ≠ 92 ∧ b ≠ 10 := by
      intro b hb
      have hne : ∀ d ∈ Written.escaped, IsAscii d ∧ c ≠ d := by
        intro d hd
        refine ⟨?_, fun heq => plain (heq ▸ hd)⟩
        simp only [Written.escaped, List.mem_cons, List.not_mem_nil, or_false] at hd
        rcases hd with rfl | rfl | rfl <;> decide
      refine ⟨?_, ?_, ?_⟩ <;> rintro rfl
      · exact (hne '"' (by decide)).2 ((mem_encodeChar_iff (c := '"') (by decide)).1 hb)
      · exact (hne '\\' (by decide)).2 ((mem_encodeChar_iff (c := '\\') (by decide)).1 hb)
      · exact (hne '\n' (by decide)).2 ((mem_encodeChar_iff (c := '\n') (by decide)).1 hb)
    rw [bytes_cons, List.append_assoc, scanText_plain hplain, ih, bytes_cons]
    simp [Nat.add_assoc]
  | @escape c e text written known _ ih =>
    obtain ⟨hc, he, hunescape⟩ := unescape_of_mem known
    have hbytes : bytes ('\\' :: e :: written) = 92 :: UInt8.ofNat e.toNat :: bytes written := by
      rw [bytes_cons_of_isAscii _ (by decide), bytes_cons_of_isAscii _ he]
      rfl
    rw [hbytes, List.cons_append, List.cons_append, scanText_escape, hunescape, ih,
      bytes_cons_of_isAscii text hc]
    simp
    omega

end Lexer

/-! ### Tokens -/

open Lexer

/-- A token begins with this byte and is no comment. -/
structure Lexer.Begins (b : UInt8) (rest : List UInt8) : Prop where
  solid : isBlank b = false
  noComment : b = 47 → rest.head? ≠ some 47 ∧ rest.head? ≠ some 42

theorem Lexer.begins_of_isWordByte {b : UInt8} {rest : List UInt8} (h : isWordByte b = true) :
    Begins b rest := by
  refine ⟨?_, ?_⟩
  · by_contra hblank
    rw [Bool.not_eq_false] at hblank
    rw [isWordByte_of_isBlank hblank] at h
    cases h
  · rintro rfl
    cases h

theorem Keyword.ofSpelling?_spelling (k : Keyword) : Keyword.ofSpelling? k.spelling = some k := by
  cases k <;> decide

theorem Keyword.isWord_spelling (k : Keyword) : Written.isWord k.spelling.toList := by
  cases k <;> decide

theorem Keyword.ofSpelling?_eq_none {name : String} (h : ∀ k : Keyword, name ≠ k.spelling) :
    Keyword.ofSpelling? name = none := by
  rw [Keyword.ofSpelling?, List.find?_eq_none]
  intro k _
  simpa using (h k).symm

theorem Lexer.scanLexeme_word {word : List Char} {found : Option Keyword} {source : SourceId}
    {pos : Nat} {rest : List UInt8} (h : Written.isWord word = true)
    (hfound : Keyword.ofSpelling? (String.ofList word) = found) (hrest : Ends rest) :
    ∃ b tail, bytes word = b :: tail ∧ Begins b (tail ++ rest) ∧
      scanLexeme source pos b (tail ++ rest) =
        .ok ⟨found.elim (.identifier (String.ofList word)) .keyword,
          (bytes word).length, rest⟩ := by
  obtain ⟨-, hword, b, tail, hbytes, hstart⟩ := wordBytes h
  refine ⟨b, tail, hbytes, begins_of_isWordByte (hword b (by simp [hbytes])), ?_⟩
  rw [scanLexeme, if_pos hstart, ← List.cons_append, ← hbytes, scanWord_bytes h hfound hrest]

theorem Lexer.scanLexeme_integer {n : Nat} {source : SourceId} {pos : Nat} {rest : List UInt8}
    (zeros : Nat) (small : n < 9223372036854775808) (hrest : Ends rest) :
    ∃ b tail, bytes (List.replicate zeros '0' ++ Nat.toDigits 10 n) = b :: tail ∧
      Begins b (tail ++ rest) ∧
      scanLexeme source pos b (tail ++ rest) = .ok ⟨.integer (Int64.ofNat n),
        (bytes (List.replicate zeros '0' ++ Nat.toDigits 10 n)).length, rest⟩ := by
  have hvalue := decimal?_digits zeros small
  have hne : List.replicate zeros '0' ++ Nat.toDigits 10 n ≠ [] := by
    simp [Nat.toDigits_ne_nil]
  generalize List.replicate zeros '0' ++ Nat.toDigits 10 n = word at hvalue hne ⊢
  have hdigits : ∀ b ∈ bytes word, isDigit b = true := by
    unfold decimal? at hvalue
    split at hvalue
    · next hall => exact List.all_eq_true.1 hall
    · cases hvalue
  obtain ⟨c, word, rfl⟩ := List.exists_cons_of_ne_nil hne
  obtain ⟨b, tail, hform⟩ := List.exists_cons_of_ne_nil (String.utf8EncodeChar_ne_nil (c := c))
  have hbytes : bytes (c :: word) = b :: (tail ++ bytes word) := by
    rw [bytes_cons, hform, List.cons_append]
  have hb := hdigits b (by simp [hbytes])
  have hword : ∀ b ∈ bytes (c :: word), isWordByte b = true := by
    intro b hb
    simp [isWordByte, hdigits b hb]
  refine ⟨b, _, hbytes, begins_of_isWordByte (hword b (by simp [hbytes])), ?_⟩
  rw [scanLexeme, if_neg (by simp [isWordStart_of_isDigit hb]), if_pos hb, ← List.cons_append,
    ← hbytes, scanInteger, span_isWordByte hword hrest]
  dsimp only
  rw [hvalue]

/-- The bytes of a sign, and what is scanned when one of these bytes or nothing follows it. White
space continues no sign. -/
theorem Lexer.punctuator?_bytes (p : Punctuator) :
    ∃ b tail, bytes p.spelling.toList = b :: tail ∧ isWordStart b = false ∧ isDigit b = false ∧
      b ≠ 34 ∧ isBlank b = false ∧ ∀ next ∈ [none, some 32, some 9, some 10, some 12, some 13],
        punctuator? b (tail.head?.or next) = some (p, tail.length + 1) ∧
          (b = 47 → tail.head?.or next ≠ some 47 ∧ tail.head?.or next ≠ some 42) := by
  cases p <;> refine ⟨_, _, rfl, by decide, by decide, by decide, by decide, fun next hnext => ?_⟩
  all_goals
    simp only [List.mem_cons, List.not_mem_nil, or_false] at hnext
    rcases hnext with rfl | rfl | rfl | rfl | rfl | rfl <;> decide

theorem Lexer.Ends.head?_mem {rest : List UInt8} (h : Ends rest) :
    rest.head? ∈ [none, some 32, some 9, some 10, some 12, some 13] := by
  cases rest with
  | nil => simp
  | cons b rest =>
    have hb := h b rfl
    simp only [isBlank, Bool.or_eq_true, beq_iff_eq] at hb
    obtain (((rfl | rfl) | rfl) | rfl) | rfl := hb <;> simp

theorem Lexer.scanLexeme_sign (p : Punctuator) {source : SourceId} {pos : Nat} {rest : List UInt8}
    (hrest : Ends rest) : ∃ b tail, bytes p.spelling.toList = b :: tail ∧ Begins b (tail ++ rest) ∧
      scanLexeme source pos b (tail ++ rest) =
        .ok ⟨.punctuator p, (bytes p.spelling.toList).length, rest⟩ := by
  obtain ⟨b, tail, hbytes, hword, hdigit, hquote, hblank, hnext⟩ := punctuator?_bytes p
  obtain ⟨hsign, hcomment⟩ := hnext _ hrest.head?_mem
  rw [← List.head?_append] at hsign hcomment
  refine ⟨b, tail, hbytes, ⟨hblank, hcomment⟩, ?_⟩
  rw [scanLexeme, if_neg (by simp [hword]), if_neg (by simp [hdigit]), if_neg (by simp [hquote]),
    scanSign, hsign, hbytes]
  simp

/-- A spelled token is scanned as itself. -/
theorem TokenKind.Spelled.scanLexeme {kind : TokenKind} {word : List Char} {rest : List UInt8}
    (h : kind.Spelled word) (hrest : Ends rest) (source : SourceId) (pos : Nat) :
    ∃ b tail, bytes word = b :: tail ∧ Begins b (tail ++ rest) ∧
      Lexer.scanLexeme source pos b (tail ++ rest) = .ok ⟨kind, (bytes word).length, rest⟩ := by
  cases h with
  | integer zeros small => exact scanLexeme_integer zeros small hrest
  | @text value written quoted =>
    have hbytes : bytes ('"' :: (written ++ ['"'])) = 34 :: (bytes written ++ [34]) := by
      rw [bytes_cons_of_isAscii _ (by decide), bytes_append]
      rfl
    refine ⟨34, bytes written ++ [34], hbytes, ⟨rfl, fun h => absurd h (by decide)⟩, ?_⟩
    rw [Lexer.scanLexeme, if_neg (by decide), if_neg (by decide), if_pos (by decide),
      List.append_assoc, List.singleton_append, scanText_quoted quoted, hbytes, List.reverse_nil,
      List.nil_append, decodeLossy_bytes, String.ofList_toList]
    simp
    omega
  | @identifier name word free =>
    have hfound := Keyword.ofSpelling?_eq_none free
    rw [← String.ofList_toList (s := name)] at hfound
    simpa using scanLexeme_word word hfound hrest
  | keyword k =>
    have hfound := Keyword.ofSpelling?_spelling k
    rw [← String.ofList_toList (s := k.spelling)] at hfound
    exact scanLexeme_word k.isWord_spelling hfound hrest
  | punctuator p => exact scanLexeme_sign p hrest

/-! ### Lists of tokens -/

theorem Lexer.ends_bytes {c : Char} {cs : List Char} (h : c ∈ Written.blanks) :
    Ends (bytes (c :: cs)) := by
  obtain ⟨hascii, hblank⟩ := isBlank_of_mem h
  rw [bytes_cons_of_isAscii cs hascii]
  intro b hb
  cases hb
  exact hblank

/-- One token and the gap before it are scanned. -/
theorem Lexer.scanFrom_spelled {kind : TokenKind} {gap word : List Char} {source : SourceId}
    {limit pos : Nat} {rest : List UInt8} {tokens : List Token} (hgap : Written.Gap gap)
    (h : kind.Spelled word) (hrest : Ends rest)
    (htokens : scanFrom source limit (pos + (bytes gap).length + (bytes word).length) rest =
      .ok tokens) :
    ∃ token, token.kind = kind ∧
      scanFrom source (limit + 1) pos (bytes gap ++ (bytes word ++ rest)) =
        .ok (token :: tokens) := by
  obtain ⟨b, tail, hbytes, hbegins, hlexeme⟩ :=
    h.scanLexeme hrest source (pos + (bytes gap).length)
  have hskip : skipGap source .blank pos (bytes gap ++ (bytes word ++ rest)) =
      .ok (pos + (bytes gap).length, b :: (tail ++ rest)) := by
    rw [skipGap_gap hgap, hbytes, List.cons_append, skipGap_stop hbegins.solid hbegins.noComment]
  refine ⟨⟨kind, Span.ofRange source (pos + (bytes gap).length) (bytes word).length⟩, rfl, ?_⟩
  rw [scanFrom, hskip, Outcome.ok_bind]
  dsimp only
  rw [hlexeme, Outcome.ok_bind]
  dsimp only
  rw [htokens]
  rfl

theorem Lexer.scanFrom_nil {source : SourceId} {limit pos : Nat} :
    scanFrom source limit pos [] = .ok [] := by
  cases limit <;> rfl

/-- A line comment at the end of the text is skipped. -/
theorem Lexer.skipGap_lastLine {source : SourceId} {pos : Nat} {body : List Char}
    (h : '\n' ∉ body) : skipGap source .blank pos (bytes ('/' :: '/' :: body)) =
      .ok (pos + 2 + (bytes body).length, []) := by
  have hbytes : bytes ('/' :: '/' :: body) = 47 :: 47 :: (bytes body ++ []) := by
    rw [bytes_cons_of_isAscii _ (by decide), bytes_cons_of_isAscii _ (by decide), List.append_nil]
    rfl
  have hnewline : (10 : UInt8) ∉ bytes body := fun hmem =>
    h ((mem_bytes_iff (c := '\n') (by decide)).1 hmem)
  rw [hbytes, skipGap, skipGap_lineBytes hnewline]
  rfl

/-- A printed list of tokens is scanned as itself, also behind a gap. -/
theorem Written.Printed.scanFrom {kinds : List TokenKind} {text gap : List Char} {source : SourceId}
    {limit pos : Nat} (h : Printed kinds text) (hgap : Gap gap)
    (hlimit : (bytes gap ++ bytes text).length ≤ limit) :
    ∃ tokens, Lexer.scanFrom source (limit + 1) pos (bytes gap ++ bytes text) = .ok tokens ∧
      tokens.map (·.kind) = kinds := by
  induction h generalizing gap limit pos with
  | nil =>
    refine ⟨[], ?_, rfl⟩
    rw [Lexer.scanFrom, skipGap_gap hgap]
    rfl
  | comment inside =>
    refine ⟨[], ?_, rfl⟩
    rw [Lexer.scanFrom, skipGap_gap hgap, skipGap_lastLine inside]
    rfl
  | @last kind word first =>
    have hend : Ends [] := by simp [Ends]
    obtain ⟨token, hkind, hscan⟩ := scanFrom_spelled hgap first hend scanFrom_nil
    rw [List.append_nil] at hscan
    exact ⟨[token], hscan, by simp [hkind]⟩
  | @cons kind kinds c word gap' rest first white between _ ih =>
    have hbytes : bytes (word ++ c :: (gap' ++ rest)) =
        bytes word ++ (bytes (c :: gap') ++ bytes rest) := by
      rw [bytes_append, ← List.cons_append, bytes_append]
    have hends : Ends (bytes (c :: gap') ++ bytes rest) := by
      rw [← bytes_append]
      exact ends_bytes white
    -- the token takes a byte, so the limit does for the rest
    obtain ⟨b, tail, hword, -⟩ := first.scanLexeme hends source pos
    rw [hbytes, hword] at hlimit
    simp only [List.length_append, List.length_cons] at hlimit
    obtain ⟨limit, rfl⟩ : ∃ n, limit = n + 1 := ⟨limit - 1, by omega⟩
    have hrest : (bytes (c :: gap') ++ bytes rest).length ≤ limit := by
      rw [List.length_append]
      omega
    have hothers : ∃ tokens, Lexer.scanFrom source (limit + 1)
        (pos + (bytes gap).length + (bytes word).length) (bytes (c :: gap') ++ bytes rest) =
          .ok tokens ∧ tokens.map (·.kind) = kinds := ih (.blank white between) hrest
    obtain ⟨tokens, hscan, hkinds⟩ := hothers
    obtain ⟨token, hkind, hscan⟩ := scanFrom_spelled hgap first hends hscan
    refine ⟨token :: tokens, ?_, by simp [hkind, hkinds]⟩
    rw [hbytes]
    exact hscan

/-- Every way to print a list of tokens is scanned into exactly these tokens, also when white space
and comments come first. -/
theorem Token.scan_printed {kinds : List TokenKind} {gap text : List Char} (hgap : Written.Gap gap)
    (h : Written.Printed kinds text) (source : SourceId) :
    ∃ tokens, Token.scan source (encode (String.ofList (gap ++ text))) = .ok tokens ∧
      tokens.map (·.kind) = kinds := by
  rw [encode_ofList, bytes_append, Token.scan]
  exact h.scanFrom hgap (Nat.le_refl _)

namespace Written.Sample

/-- A comment without text. -/
def gap : List Char := "//\n".toList

def kinds : List TokenKind := [.identifier "if0", .punctuator .slash, .text "\"é\n", .integer 7]

/-- A word that begins like a keyword, a division in front of a comment, a text with escapes, and
leading zeros. -/
def text : List Char := "if0\n/ /*/*/\"\\\"é\\n\" 007".toList

theorem gap_gap : Gap gap := by
  have hbody : '\n' ∉ ([] : List Char) := by decide
  exact .line hbody .nil

theorem printed_text : Printed kinds text := by
  have hname : ∀ k : Keyword, "if0" ≠ k.spelling := by
    intro k
    cases k <;> decide
  have hquoted : Quoted "\"é\n".toList ['\\', '"', 'é', '\\', 'n'] :=
    .escape (by decide) (.raw (by decide) (.escape (by decide) .nil))
  have hbody : ¬['*', '/'] <:+: ['/'] := by decide
  have hcomment : Gap "/*/*/".toList := .block hbody .nil
  have hinteger : Printed [.integer 7] "007".toList := .last (.integer (n := 7) 2 (by decide))
  exact .cons (c := '\n') (.identifier (by decide) hname) (by decide) .nil
    (.cons (c := ' ') (.punctuator .slash) (by decide) hcomment
      (.cons (c := ' ') (.text hquoted) (by decide) .nil hinteger))

theorem text_scanned : Gap gap ∧ Printed kinds text ∧
    ∃ tokens, Token.scan 2 (encode (String.ofList (gap ++ text))) = .ok tokens ∧
      tokens.map (·.kind) = kinds :=
  ⟨gap_gap, printed_text, Token.scan_printed gap_gap printed_text 2⟩

end Written.Sample

end MiniJ
