import MiniJ.Proofs.Outcome
import MiniJ.Proofs.Source.Span
import MiniJ.Proofs.Text.Line
import MiniJ.Proofs.Token.Spelling
import MiniJ.Token.Lexer
import Mathlib.Data.List.TakeDrop
import Mathlib.Data.List.TakeWhile

/-!
# Where tokens come from

Tokens start at a byte of the program they were scanned from, and identifiers are words. An error of
the lexer is about a byte of the program as well, and its message is a single line.

## Main definitions

* `Origin` — the names and spans that the parts of a program may have.
* `Located` — an error at a byte of a program.

## Main statements

* `Token.settles_scan` — tokens and errors of a scan.
-/
namespace MiniJ

open Outcome Text

/-- Names that programs can give: words of letters, digits and underscores. -/
def IsName (s : String) : Prop := Written.isWord s.toList = true

/-- The names and the spans that the parts of a program may have. -/
structure Origin where
  name : String → Prop
  span : Span → Prop
  merge : ∀ {s}, span s → ∀ t, span (s.merge t)

/-- Names are words, and spans start in program number `source`, which has `size` bytes. -/
def Origin.program (source : SourceId) (size : Nat) : Origin :=
  ⟨IsName, Span.In source size, Span.In.merge⟩

structure Token.From (o : Origin) (t : Token) : Prop where
  span : o.span t.span
  name : ∀ name, t.kind = .identifier name → o.name name

/-- An error at a byte of a program, with a message on one line. -/
structure Located (source : SourceId) (size : Nat) (span : Span) (message : String) : Prop where
  span : Span.In source size span
  line : IsLine message

abbrev ParseError.Located (source : SourceId) (size : Nat) (e : ParseError) : Prop :=
  MiniJ.Located source size e.span e.message

/-- Two steps behind each other. -/
theorem Outcome.Settles.bind {ε α β : Type} {x : Except ε α} {f : α → Except ε β} {P : α → Prop}
    {Q : β → Prop} {E : ε → Prop} (hx : Settles x P E) (hf : ∀ v, P v → Settles (f v) Q E) :
    Settles (x >>= f) Q E := by
  cases x with
  | error e => exact hx
  | ok v => exact hf v hx

theorem Outcome.Settles.mapError {ε δ α : Type} {x : Except ε α} {f : ε → δ} {P : α → Prop}
    {E : ε → Prop} {E' : δ → Prop} (hx : Settles x P E) (hf : ∀ e, E e → E' (f e)) :
    Settles (x.mapError f) P E' := by
  cases x with
  | error e => exact hf e hx
  | ok v => exact hx

namespace Lexer

variable {source : SourceId} {size pos : Nat} {gap : Gap} {b : UInt8} {input rest word : List UInt8}

/-! ### Between tokens -/

/-- Skipping a gap ends in front of a byte that is no blank, unless everything was skipped. -/
theorem settles_skipGap (hpos : pos + input.length = size)
    (hgap : ∀ start, gap = .blockComment start → start < size) :
    Settles (skipGap source gap pos input)
      (fun r => r.1 + r.2.length = size ∧ ∀ b ∈ r.2.head?, isBlank b = false)
      (ParseError.Located source size) := by
  fun_induction skipGap source gap pos input with
  | case1 pos => exact ⟨hpos, by simp⟩
  | case2 pos rest ih =>
    simp only [List.length_cons] at hpos
    exact ih (by omega) (by simp)
  | case3 pos rest ih =>
    simp only [List.length_cons] at hpos
    refine ih (by omega) fun start hstart => ?_
    cases hstart
    omega
  | case4 pos b rest _ _ _ ih =>
    rw [List.length_cons] at hpos
    exact ih (by omega) (by simp)
  | case5 pos b rest _ _ hblank => exact ⟨hpos, by simpa using hblank⟩
  | case6 pos => exact ⟨hpos, by simp⟩
  | case7 pos b rest ih =>
    rw [List.length_cons] at hpos
    refine ih (by omega) fun start hstart => ?_
    split at hstart <;> cases hstart
  | case8 start pos => exact ⟨Span.in_ofRange (hgap start rfl), isLine_ofList (by decide)⟩
  | case9 start pos rest ih =>
    simp only [List.length_cons] at hpos
    exact ih (by omega) (by simp)
  | case10 start pos b rest _ ih =>
    rw [List.length_cons] at hpos
    exact ih (by omega) hgap

/-! ### Words and numbers -/

theorem isLetter_of_isWordStart (h : isWordStart b = true) :
    Written.isLetter (Char.ofNat b.toNat) = true := by
  simp only [isWordStart, Bool.or_eq_true, Bool.and_eq_true, decide_eq_true_eq,
    UInt8.le_iff_toNat_le, beq_iff_eq, ← UInt8.toNat_inj, UInt8.reduceToNat] at h
  rw [← toNat_ofNat_toNat b] at h
  generalize Char.ofNat b.toNat = c at h ⊢
  change (decide (c.val ≥ 65 ∧ c.val ≤ 90) || (c.val ≥ 97 && c.val ≤ 122) || c == '_') = true
  simp only [Bool.or_eq_true, Bool.and_eq_true, decide_eq_true_eq, ge_iff_le,
    UInt32.le_iff_toNat_le, beq_iff_eq, ← Char.toNat_inj]
  exact h

theorem isDigit_ofNat (h : isDigit b = true) : (Char.ofNat b.toNat).isDigit = true := by
  simp only [isDigit, Bool.and_eq_true, decide_eq_true_eq, UInt8.le_iff_toNat_le,
    UInt8.reduceToNat] at h
  rw [← toNat_ofNat_toNat b] at h
  simp only [Char.isDigit, Bool.and_eq_true, decide_eq_true_eq, ge_iff_le, UInt32.le_iff_toNat_le]
  exact h

theorem isName_asciiText (hstart : isWordStart b = true)
    (hrest : ∀ c ∈ rest, isWordByte c = true) : IsName (asciiText (b :: rest)) := by
  simp only [IsName, asciiText, String.toList_ofList, List.map_cons, Written.isWord,
    Bool.and_eq_true, List.all_eq_true, List.mem_map]
  refine ⟨isLetter_of_isWordStart hstart, ?_⟩
  rintro _ ⟨c, hc, rfl⟩
  have hbyte := hrest c hc
  rw [isWordByte, Bool.or_eq_true] at hbyte
  rw [Bool.or_eq_true]
  exact hbyte.imp isLetter_of_isWordStart isDigit_ofNat

theorem isLine_asciiText (h : ∀ c ∈ word, isWordByte c = true) : IsLine (asciiText word) := by
  simp only [IsLine, asciiText, String.toList_ofList, List.mem_map, not_exists, not_and]
  intro c hc heq
  have hten : c = 10 := by
    rw [← UInt8.toNat_inj, ← toNat_ofNat_toNat, heq]
    rfl
  subst hten
  cases h _ hc

/-- How a token was read: its bytes and those behind it are all there are. -/
structure Lexeme.Takes (n : Nat) (l : Lexeme) : Prop where
  bytes : l.length + l.rest.length = n
  name : ∀ name, l.kind = .identifier name → IsName name

theorem length_span (input : List UInt8) :
    (input.takeWhile isWordByte).length + (input.dropWhile isWordByte).length = input.length := by
  rw [← List.length_append, List.takeWhile_append_dropWhile]

theorem takes_scanWord (h : isWordStart b = true) :
    (scanWord (b :: rest)).Takes (b :: rest).length := by
  have hbyte : isWordByte b = true := by simp [isWordByte, h]
  have hword : (b :: rest).takeWhile isWordByte = b :: rest.takeWhile isWordByte := by
    simp [hbyte]
  unfold scanWord
  rw [List.span_eq_takeWhile_dropWhile]
  refine ⟨length_span (b :: rest), fun name hname => ?_⟩
  dsimp only at hname
  split at hname
  · cases hname
  · rw [hword] at hname
    cases hname
    exact isName_asciiText h fun c hc => List.mem_takeWhile_imp hc

theorem settles_scanInteger (hpos : pos < size) : Settles (scanInteger source pos input)
    (Lexeme.Takes input.length) (ParseError.Located source size) := by
  unfold scanInteger
  rw [List.span_eq_takeWhile_dropWhile]
  dsimp only
  split
  · exact ⟨length_span input, by simp⟩
  · refine ⟨Span.in_ofRange hpos, ?_⟩
    simp only [ParseError.message, isLine_append]
    exact ⟨isLine_ofList (by decide), isLine_asciiText fun c hc => List.mem_takeWhile_imp hc⟩

/-! ### Text constants and signs -/

theorem settles_scanText {start length : Nat} {value : List UInt8} (hstart : start < size) :
    Settles (scanText source start length value input)
      (Lexeme.Takes (length + input.length)) (ParseError.Located source size) := by
  fun_induction scanText source start length value input with
  | case1 length value rest => exact ⟨by simp; omega, by simp⟩
  | case2 length value b rest ih =>
    have hbytes : length + (92 :: b :: rest).length = length + 2 + rest.length := by simp; omega
    rwa [hbytes]
  | case3 | case4 | case5 =>
    exact ⟨Span.in_ofRange hstart, isLine_ofList (by decide)⟩
  | case6 length value b rest _ _ _ _ ih =>
    have hbytes : length + (b :: rest).length = length + 1 + rest.length := by simp; omega
    rwa [hbytes]

/-- A sign takes one byte, or two if there is another one. -/
theorem punctuator?_cases {sign : Punctuator} {length : Nat}
    (h : punctuator? b rest.head? = some (sign, length)) : length = 1 ∨ length = 2 ∧ rest ≠ [] := by
  generalize hnext : rest.head? = next at h
  unfold punctuator? at h
  split at h
  -- the signs of two bytes come first
  iterate 8
    cases h
    refine .inr ⟨rfl, ?_⟩
    rintro rfl
    cases hnext
  all_goals cases h
  all_goals exact .inl rfl

theorem punctuator?_length {sign : Punctuator} {length : Nat}
    (h : punctuator? b rest.head? = some (sign, length)) : 0 < length ∧
    length ≤ rest.length + 1 := by
  rcases punctuator?_cases h with rfl | ⟨rfl, hne⟩
  · omega
  · have hpos := List.length_pos_of_ne_nil hne
    omega

theorem settles_scanSign (hpos : pos < size) (hb : isBlank b = false) :
    Settles (scanSign source pos b rest) (Lexeme.Takes (b :: rest).length)
      (ParseError.Located source size) := by
  unfold scanSign
  split
  · next sign length hsign =>
    obtain ⟨hlow, hhigh⟩ := punctuator?_length hsign
    exact ⟨by simp; omega, by simp⟩
  · refine ⟨Span.in_ofRange hpos, ?_⟩
    simp only [ParseError.message, isLine_append]
    refine ⟨⟨isLine_ofList (by decide), ?_⟩, isLine_ofList (by decide)⟩
    have hb10 : b ≠ 10 := by
      rintro rfl
      cases hb
    have hchar : (decodeNext b rest).1 ≠ some '\n' := decodeNext_ne hb10
    cases hnext : (decodeNext b rest).1 with
    | none => decide
    | some c =>
      rw [hnext] at hchar
      simpa [IsLine, eq_comm] using hchar

theorem settles_scanLexeme (hpos : pos < size) (hb : isBlank b = false) :
    Settles (scanLexeme source pos b rest) (Lexeme.Takes (b :: rest).length)
      (ParseError.Located source size) := by
  unfold scanLexeme
  split
  · next hstart => exact takes_scanWord hstart
  · split
    · exact settles_scanInteger hpos
    · split
      · have htext : Settles (scanText source pos 1 [] rest) (Lexeme.Takes (1 + rest.length))
            (ParseError.Located source size) := settles_scanText hpos
        rwa [Nat.add_comm] at htext
      · exact settles_scanSign hpos hb

/-! ### Programs -/

theorem settles_scanFrom {limit : Nat} (hpos : pos + input.length = size) :
    Settles (scanFrom source limit pos input)
      (fun tokens => ∀ t ∈ tokens, t.From (.program source size))
      (ParseError.Located source size) := by
  induction limit generalizing pos input with
  | zero => simp [scanFrom, Settles]
  | succ limit ih =>
    have hgap := @settles_skipGap source size pos .blank input hpos (by simp)
    rw [scanFrom]
    cases hskip : skipGap source .blank pos input with
    | error e =>
      rw [hskip] at hgap
      exact hgap
    | ok found =>
      obtain ⟨pos', input'⟩ := found
      rw [hskip] at hgap
      obtain ⟨hpos', hblank⟩ := hgap
      dsimp only at hpos' hblank
      cases input' with
      | nil => simp [Settles, ok_bind, pure, Except.pure]
      | cons b rest =>
        have hlt : pos' < size := by
          rw [List.length_cons] at hpos'
          omega
        have hscan : Settles (scanLexeme source pos' b rest) (Lexeme.Takes (b :: rest).length)
            (ParseError.Located source size) := settles_scanLexeme hlt (hblank b rfl)
        rw [ok_bind]
        refine hscan.bind fun lexeme hlexeme => ?_
        refine (ih ?_).bind fun tokens htokens => ?_
        · have hbytes := hlexeme.bytes
          omega
        · intro t ht
          rcases List.mem_cons.1 ht with rfl | ht
          · exact ⟨Span.in_ofRange hlt, hlexeme.name⟩
          · exact htokens t ht

end Lexer

/-- Tokens of a program start inside of it and are named by words; an error is about one of its
bytes. -/
theorem Token.settles_scan (source : SourceId) (bytes : List UInt8) :
    Settles (Token.scan source bytes)
      (fun tokens => ∀ t ∈ tokens, t.From (.program source bytes.length))
      (ParseError.Located source bytes.length) :=
  Lexer.settles_scanFrom (Nat.zero_add _)

end MiniJ
