import MiniJ.Proofs.Token.Origin
import MiniJ.Proofs.Token.Scanning

/-!
# Tokens and gaps

The tokens of a program and the gaps between them split its bytes. Each piece can be told from its
own bytes: those of a token are scanned as this token, those of a gap as none. An error starts where
the bytes in front of it have been split like this.

## Main definitions

* `Lexer.Skips`, `Lexer.Reads` — what is skipped or read does not depend on how much follows it.
* `Lexer.Pieces` — bytes that consist of gaps and tokens.
* `Token.Partitions` — the same by the spans of the tokens.

## Main statements

* `Lexer.settles_pieces` — how far a scan has split its input.
* `Token.scan_partitions` — the spans of tokens partition a program.
-/
namespace MiniJ

open Outcome

namespace Lexer

variable {source : SourceId} {pos limit : Nat} {g : Gap} {b : UInt8}
  {input gap word rest rest' : List UInt8} {kind : TokenKind} {tokens : List Token}

/-! ### Gaps -/

/-- The same kind of gap. Where a block comment was opened only matters for its error. -/
def Gap.Like : Gap → Gap → Prop
  | .blockComment _, .blockComment _ => True
  | g, g' => g = g'

theorem Gap.like_refl (g : Gap) : g.Like g := by
  cases g <;> trivial

/-- In a gap, some bytes are skipped in front of any part of `rest`. -/
def Skips (source : SourceId) (g : Gap) (gap rest : List UInt8) : Prop :=
  ∀ g' pos rest', g.Like g' → rest' <+: rest →
    skipGap source g' pos (gap ++ rest') = .ok (pos + gap.length, rest')

/-- Skipping ends behind the bytes of the gap, in front of bytes that begin no gap. -/
structure Skipped (source : SourceId) (g : Gap) (pos : Nat) (input : List UInt8)
    (r : Nat × List UInt8) (gap : List UInt8) : Prop where
  bytes : input = gap ++ r.2
  pos : r.1 = pos + gap.length
  gap : Skips source g gap r.2
  stops : Skips source .blank [] r.2

/-- A block comment that is never closed begins behind some bytes, or before all of them. -/
def Unclosed (source : SourceId) (g : Gap) (pos : Nat) (input : List UInt8)
    (e : ParseError) : Prop :=
  (∃ start n, g = .blockComment start ∧ e.span = .ofRange source start n) ∨
    ∃ gap rest n, input = gap ++ rest ∧ rest ≠ [] ∧
      e.span = .ofRange source (pos + gap.length) n ∧ Skips source g gap []

/-- Some bytes are skipped, and the others from a gap of some kind on. -/
theorem Skips.step {g₁ : Gap} {first : List UInt8} (h : Skips source g₁ gap rest)
    (hstep : ∀ g' pos tail, g.Like g' → tail <+: gap ++ rest → ∃ g₁', g₁.Like g₁' ∧
      skipGap source g' pos (first ++ tail) = skipGap source g₁' (pos + first.length) tail) :
    Skips source g (first ++ gap) rest := by
  intro g' pos rest' hlike hprefix
  obtain ⟨g₁', hlike₁, hskip⟩ :=
    hstep g' pos (gap ++ rest') hlike ((List.prefix_append_right_inj gap).2 hprefix)
  rw [List.append_assoc, hskip, h g₁' _ rest' hlike₁ hprefix, List.length_append, Nat.add_assoc]

theorem skips_nil (h : ∀ start, g ≠ .blockComment start) : Skips source g [] [] := by
  intro g' pos rest' hlike hprefix
  obtain rfl := List.prefix_nil.1 hprefix
  cases g with
  | blockComment start => exact absurd rfl (h start)
  | blank | lineComment =>
    cases hlike
    rfl

/-- A part of what follows starts as all of it does, unless it is empty. -/
theorem head?_of_prefix (h : rest' <+: rest) : rest'.head? = none ∨ rest'.head? = rest.head? := by
  cases rest' with
  | nil => exact .inl rfl
  | cons c tail =>
    obtain ⟨others, rfl⟩ := h
    exact .inr rfl

/-- No gap begins with the bytes that a token begins with, nor with some of them. -/
theorem skips_token (hblank : isBlank b = false)
    (hcomment : b = 47 → rest.head? ≠ some 47 ∧ rest.head? ≠ some 42) :
    Skips source .blank [] (b :: rest) := by
  intro g' pos rest' hlike hprefix
  cases hlike
  rcases List.prefix_cons_iff.1 hprefix with rfl | ⟨tail, rfl, htail⟩
  · rfl
  · refine skipGap_stop hblank fun hb => ?_
    rcases head?_of_prefix htail with hnone | hsome
    · simp [hnone]
    · rw [hsome]
      exact hcomment hb

/-- The first bytes of a gap, and how far skipping gets behind them. -/
theorem settles_step {g₁ : Gap} (first : List UInt8)
    (hfirst : ∀ g' pos tail, g.Like g' → tail <+: input → ∃ g₁', g₁.Like g₁' ∧
      skipGap source g' pos (first ++ tail) = skipGap source g₁' (pos + first.length) tail)
    (hopen : ∀ start, g₁ = .blockComment start → g = .blockComment start ∨
      start = pos ∧ first ++ input ≠ [] ∧ Skips source g [] [])
    (h : Settles (skipGap source g₁ (pos + first.length) input)
      (fun r => ∃ gap, Skipped source g₁ (pos + first.length) input r gap)
      (Unclosed source g₁ (pos + first.length) input)) :
    Settles (skipGap source g₁ (pos + first.length) input)
      (fun r => ∃ gap, Skipped source g pos (first ++ input) r gap)
      (Unclosed source g pos (first ++ input)) := by
  cases hskip : skipGap source g₁ (pos + first.length) input with
  | ok r =>
    rw [hskip] at h
    obtain ⟨gap, rfl, hpos, hgap, hstops⟩ := h
    exact ⟨first ++ gap, (List.append_assoc ..).symm, by simp [hpos, Nat.add_assoc],
      hgap.step hfirst, hstops⟩
  | error e =>
    rw [hskip] at h
    obtain ⟨start, n, hg, hspan⟩ | ⟨gap, rest, n, rfl, hne, hspan, hgap⟩ := h
    · rcases hopen start hg with rfl | ⟨rfl, hne, hnil⟩
      · exact .inl ⟨start, n, rfl, hspan⟩
      · exact .inr ⟨[], first ++ input, n, rfl, hne, hspan, hnil⟩
    · refine .inr ⟨first ++ gap, rest, n, (List.append_assoc ..).symm, hne, ?_, ?_⟩
      · rw [hspan, List.length_append, Nat.add_assoc]
      · refine hgap.step fun g' pos tail hlike htail => hfirst g' pos tail hlike ?_
        rw [List.append_nil] at htail
        exact htail.trans (List.prefix_append ..)

/-- How far skipping gets from any gap. -/
theorem settles_skips (g : Gap) (pos : Nat) (input : List UInt8) :
    Settles (skipGap source g pos input) (fun r => ∃ gap, Skipped source g pos input r gap)
      (Unclosed source g pos input) := by
  fun_induction skipGap source g pos input with
  | case1 pos => exact ⟨[], rfl, rfl, skips_nil (by simp), skips_nil (by simp)⟩
  | case2 pos rest ih =>
    refine settles_step [47, 47] (fun g' pos tail hlike _ => ⟨.lineComment, rfl, ?_⟩)
      (by simp) ih
    cases hlike
    rfl
  | case3 pos rest ih =>
    refine settles_step [47, 42]
      (fun g' pos tail hlike _ => ⟨.blockComment pos, trivial, ?_⟩) (fun start hstart => ?_) ih
    · cases hlike
      rfl
    · cases hstart
      exact .inr ⟨rfl, by simp, skips_nil (by simp)⟩
  | case4 pos b rest _ _ hblank ih =>
    refine settles_step [b] (fun g' pos tail hlike _ => ⟨.blank, rfl, ?_⟩) (by simp) ih
    cases hlike
    exact skipGap_blank hblank
  | case5 pos b rest hline hblock hblank =>
    refine ⟨[], rfl, rfl, ?_, ?_⟩ <;>
    · refine skips_token (by simpa using hblank) ?_
      rintro rfl
      cases rest with
      | nil => simp
      | cons c rest =>
        refine ⟨?_, ?_⟩
        · rintro ⟨⟩
          exact hline rest rfl rfl
        · rintro ⟨⟩
          exact hblock rest rfl rfl
  | case6 pos => exact ⟨[], rfl, rfl, skips_nil (by simp), skips_nil (by simp)⟩
  | case7 pos b rest ih =>
    refine settles_step [b]
      (fun g' pos tail hlike _ => ⟨if b == 10 then .blank else .lineComment, Gap.like_refl _, ?_⟩)
      (fun start hstart => ?_) ih
    · cases hlike
      rfl
    · split at hstart <;> cases hstart
  | case8 start pos => exact .inl ⟨start, _, rfl, rfl⟩
  | case9 start pos rest ih =>
    refine settles_step [42, 47] (fun g' pos tail hlike _ => ⟨.blank, rfl, ?_⟩) (by simp) ih
    cases g' with
    | blank | lineComment => cases hlike
    | blockComment start' => rfl
  | case10 start pos b rest hclose ih =>
    refine settles_step [b] (fun g' pos tail hlike htail => ⟨g', hlike, ?_⟩)
      (fun _ hstart => .inl hstart) ih
    cases g' with
    | blank | lineComment => cases hlike
    | blockComment start' =>
      refine skipGap_blockByte fun hb hhead => ?_
      obtain ⟨others, rfl⟩ := htail
      cases tail with
      | nil => cases hhead
      | cons c tail =>
        cases hhead
        exact hclose _ hb rfl

/-! ### Tokens -/

/-- A token takes the byte `b` and the bytes of `word`, in front of any part of what follows. -/
structure Reads (source : SourceId) (b : UInt8) (rest : List UInt8) (l : Lexeme)
    (word : List UInt8) : Prop where
  bytes : rest = word ++ l.rest
  length : l.length = word.length + 1
  alone : ∀ pos rest', rest' <+: l.rest →
    scanLexeme source pos b (word ++ rest') = .ok ⟨l.kind, l.length, rest'⟩

/-- The bytes of a word do not depend on what follows it. -/
theorem span_word (hb : isWordByte b = true) (h : rest' <+: rest.dropWhile isWordByte) :
    (b :: (rest.takeWhile isWordByte ++ rest')).span isWordByte =
      (b :: rest.takeWhile isWordByte, rest') := by
  have hword : ∀ c ∈ rest.takeWhile isWordByte, isWordByte c = true := fun c hc =>
    List.mem_takeWhile_imp hc
  have hstop : rest'.takeWhile isWordByte = [] ∧ rest'.dropWhile isWordByte = rest' := by
    cases rest' with
    | nil => exact ⟨rfl, rfl⟩
    | cons c tail =>
      obtain ⟨others, hothers⟩ := h
      have hc := List.head?_dropWhile_not isWordByte rest
      rw [← hothers] at hc
      have hstops : isWordByte c = false := by simpa using hc
      simp [hstops]
  rw [List.span_eq_takeWhile_dropWhile, List.takeWhile_cons_of_pos hb,
    List.dropWhile_cons_of_pos hb,
    List.takeWhile_append_of_pos hword, List.dropWhile_append_of_pos hword, hstop.1, hstop.2,
    List.append_nil]

theorem span_word_self (hb : isWordByte b = true) :
    (b :: rest).span isWordByte = (b :: rest.takeWhile isWordByte, rest.dropWhile isWordByte) := by
  have hspan := span_word hb (List.prefix_refl (rest.dropWhile isWordByte))
  rwa [List.takeWhile_append_dropWhile] at hspan

theorem reads_word (h : isWordStart b = true) :
    Reads source b rest (scanWord (b :: rest)) (rest.takeWhile isWordByte) := by
  have hbyte : isWordByte b = true := by simp [isWordByte, h]
  refine ⟨?_, ?_, fun pos rest' hrest => ?_⟩
  · rw [scanWord, span_word_self hbyte, List.takeWhile_append_dropWhile]
  · rw [scanWord, span_word_self hbyte]
    rfl
  · rw [scanWord, span_word_self hbyte] at hrest ⊢
    rw [scanLexeme, if_pos h, scanWord, span_word hbyte hrest]

theorem reads_integer {l : Lexeme} (hstart : isWordStart b = false) (hb : isDigit b = true)
    (h : scanInteger source pos (b :: rest) = .ok l) :
    Reads source b rest l (rest.takeWhile isWordByte) := by
  have hbyte : isWordByte b = true := by simp [isWordByte, hb]
  rw [scanInteger, span_word_self hbyte] at h
  dsimp only at h
  split at h
  · next value hvalue =>
    cases h
    refine ⟨(List.takeWhile_append_dropWhile ..).symm, rfl, fun pos rest' hrest => ?_⟩
    rw [scanLexeme, if_neg (by simp [hstart]), if_pos hb, scanInteger, span_word hbyte hrest]
    dsimp only
    rw [hvalue]
  · cases h

/-- A text constant ends at its closing quote. -/
theorem scanText_reads {start length : Nat} {value : List UInt8} {l : Lexeme}
    (h : scanText source start length value input = .ok l) :
    ∃ word, input = word ++ l.rest ∧ l.length = length + word.length ∧
      ∀ start rest', scanText source start length value (word ++ rest') =
        .ok ⟨l.kind, l.length, rest'⟩ := by
  fun_induction scanText source start length value input with
  | case1 length value rest =>
    cases h
    exact ⟨[34], rfl, rfl, fun _ _ => rfl⟩
  | case2 length value b rest ih =>
    obtain ⟨word, rfl, hlength, halone⟩ := ih h
    refine ⟨92 :: b :: word, rfl, by simp [hlength]; omega, fun start rest' => ?_⟩
    exact halone start rest'
  | case3 | case4 | case5 => cases h
  | case6 length value b rest hquote hescape hlast hnewline ih =>
    obtain ⟨word, rfl, hlength, halone⟩ := ih h
    have hslash : b ≠ 92 := by
      rintro rfl
      cases hrest : word ++ l.rest with
      | nil => exact hlast rfl hrest
      | cons c tail => exact hescape c tail rfl hrest
    refine ⟨b :: word, rfl, by simp [hlength]; omega, fun start rest' => ?_⟩
    have hplain : ∀ c ∈ [b], c ≠ 34 ∧ c ≠ 92 ∧ c ≠ 10 := by
      simp only [List.mem_singleton, forall_eq]
      exact ⟨fun heq => hquote heq, hslash, fun heq => hnewline heq⟩
    exact (scanText_plain hplain).trans (halone start rest')

/-- A sign of one byte needs nothing behind it. -/
theorem punctuator?_none {sign : Punctuator} {next : Option UInt8}
    (h : punctuator? b next = some (sign, 1)) : punctuator? b none = some (sign, 1) := by
  unfold punctuator? at h
  split at h <;> cases h <;> rfl

theorem reads_sign {sign : Punctuator} {length : Nat} (hstart : isWordStart b = false)
    (hdigit : isDigit b = false) (hquote : (b == 34) = false)
    (h : punctuator? b rest.head? = some (sign, length)) :
    Reads source b rest ⟨.punctuator sign, length, rest.drop (length - 1)⟩
      (rest.take (length - 1)) := by
  obtain ⟨hpos, hle⟩ := punctuator?_length h
  have hlength : (rest.take (length - 1)).length = length - 1 := by
    rw [List.length_take]
    omega
  refine ⟨(List.take_append_drop ..).symm, by simp only [hlength]; omega, fun pos rest' hrest => ?_⟩
  have hsign : punctuator? b (rest.take (length - 1) ++ rest').head? = some (sign, length) := by
    rcases punctuator?_cases h with rfl | ⟨rfl, hne⟩
    · rcases head?_of_prefix hrest with hnone | hsome
      · simpa [hnone] using punctuator?_none h
      · simpa [hsome] using h
    · cases rest with
      | nil => exact absurd rfl hne
      | cons c tail => exact h
  have hdrop : (rest.take (length - 1) ++ rest').drop (length - 1) = rest' := by
    rw [List.drop_append_of_le_length hlength.ge, List.drop_take, Nat.sub_self, List.take_zero,
      List.nil_append]
  rw [scanLexeme, if_neg (by simp [hstart]), if_neg (by simp [hdigit]), if_neg (by simp [hquote]),
    scanSign, hsign]
  dsimp only
  rw [hdrop]

theorem scanText_error {start length : Nat} {value : List UInt8} {e : ParseError}
    (h : scanText source start length value input = .error e) :
    ∃ n, e.span = .ofRange source start n := by
  fun_induction scanText source start length value input with
  | case1 => cases h
  | case2 length value b rest ih | case6 length value b rest _ _ _ _ ih => exact ih h
  | case3 | case4 | case5 =>
    cases h
    exact ⟨_, rfl⟩

/-- Whatever is read can be read alone; an error starts at the first byte. -/
theorem settles_reads (source : SourceId) (pos : Nat) (b : UInt8) (rest : List UInt8) :
    Settles (scanLexeme source pos b rest) (fun l => ∃ word, Reads source b rest l word)
      (fun e => ∃ n, e.span = .ofRange source pos n) := by
  rw [scanLexeme]
  split
  · next hstart => exact ⟨_, reads_word hstart⟩
  · next hstart =>
    rw [Bool.not_eq_true] at hstart
    split
    · next hdigit =>
      cases hscan : scanInteger source pos (b :: rest) with
      | ok l => exact ⟨_, reads_integer hstart hdigit hscan⟩
      | error e =>
        unfold scanInteger at hscan
        dsimp only at hscan
        split at hscan <;> cases hscan
        exact ⟨_, rfl⟩
    · next hdigit =>
      rw [Bool.not_eq_true] at hdigit
      split
      · next hquote =>
        cases hscan : scanText source pos 1 [] rest with
        | ok l =>
          obtain ⟨word, hbytes, hlength, halone⟩ := scanText_reads hscan
          refine ⟨word, hbytes, by omega, fun pos rest' _ => ?_⟩
          rw [scanLexeme, if_neg (by simp [hstart]), if_neg (by simp [hdigit]), if_pos hquote]
          exact halone pos rest'
        | error e => exact scanText_error hscan
      · next hquote =>
        rw [Bool.not_eq_true] at hquote
        unfold scanSign
        split
        · next hsign => exact ⟨_, reads_sign hstart hdigit hquote hsign⟩
        · exact ⟨_, rfl⟩

/-! ### Programs -/

theorem scanFrom_gap {pos' : Nat} (hskip : skipGap source .blank pos input = .ok (pos', [])) :
    scanFrom source (limit + 1) pos input = .ok [] := by
  rw [scanFrom, hskip]
  rfl

theorem scanFrom_token {pos' : Nat} {l : Lexeme}
    (hskip : skipGap source .blank pos input = .ok (pos', b :: rest))
    (hscan : scanLexeme source pos' b rest = .ok l)
    (hlater : scanFrom source limit (pos' + l.length) l.rest = .ok tokens) :
    scanFrom source (limit + 1) pos input =
      .ok (⟨l.kind, .ofRange source pos' l.length⟩ :: tokens) := by
  rw [scanFrom, hskip, ok_bind]
  dsimp only
  rw [hscan, ok_bind, hlater]
  rfl

/-- Bytes from an offset on that consist of gaps and tokens. Scanning the bytes of a gap alone finds
no token, and scanning those of a token finds this token. -/
inductive Pieces (source : SourceId) : Nat → List UInt8 → List Token → Prop
  | gap {pos : Nat} {gap : List UInt8} (empty : Token.scan source gap = .ok []) :
    Pieces source pos gap []
  | token {pos : Nat} {gap word rest : List UInt8} {kind : TokenKind} {tokens : List Token}
    (empty : Token.scan source gap = .ok []) (filled : word ≠ [])
    (alone : Token.scan source word = .ok [⟨kind, .ofRange source 0 word.length⟩])
    (later : Pieces source (pos + gap.length + word.length) rest tokens) :
    Pieces source pos (gap ++ (word ++ rest))
      (⟨kind, .ofRange source (pos + gap.length) word.length⟩ :: tokens)

/-- An error starts behind some bytes that are scanned without one, and before the end. -/
def Breaks (source : SourceId) (pos : Nat) (input : List UInt8) (e : ParseError) : Prop :=
  ∃ before behind n, input = before ++ behind ∧ behind ≠ [] ∧
    e.span = .ofRange source (pos + before.length) n ∧
    ∀ limit, before.length < limit → ∃ tokens, scanFrom source limit pos before = .ok tokens

theorem Skips.scanFrom (h : Skips source .blank gap rest) (hlimit : 0 < limit) :
    scanFrom source limit pos gap = .ok [] := by
  obtain ⟨limit, rfl⟩ := Nat.exists_eq_succ_of_ne_zero hlimit.ne'
  have hskip := h .blank pos [] rfl List.nil_prefix
  rw [List.append_nil] at hskip
  exact scanFrom_gap hskip

theorem Reads.scan {l : Lexeme} (h : Reads source b rest l word)
    (hstops : Skips source .blank [] (b :: rest)) :
    Token.scan source (b :: word) = .ok [⟨l.kind, .ofRange source 0 l.length⟩] := by
  have hword : b :: word <+: b :: rest := ⟨l.rest, by rw [h.bytes, List.cons_append]⟩
  have hskip := hstops .blank 0 (b :: word) rfl hword
  have hscan := h.alone 0 [] List.nil_prefix
  rw [List.append_nil] at hscan
  exact scanFrom_token (l := ⟨l.kind, l.length, []⟩) hskip hscan rfl

/-- A gap, a token and pieces behind it. -/
theorem Pieces.later {l : Lexeme} (hgap : Skips source .blank gap (b :: rest))
    (hstops : Skips source .blank [] (b :: rest)) (hreads : Reads source b rest l word)
    (h : Pieces source (pos + gap.length + l.length) l.rest tokens) :
    Pieces source pos (gap ++ b :: rest)
      (⟨l.kind, .ofRange source (pos + gap.length) l.length⟩ :: tokens) := by
  have hlength : l.length = (b :: word).length := hreads.length
  have hscan := hreads.scan hstops
  rw [hlength] at h hscan ⊢
  rw [hreads.bytes, ← List.cons_append]
  exact .token (hgap.scanFrom (Nat.succ_pos _)) (by simp) hscan h

/-- A gap, a token and an error behind it. -/
theorem Breaks.later {l : Lexeme} {e : ParseError} (hgap : Skips source .blank gap (b :: rest))
    (hreads : Reads source b rest l word)
    (h : Breaks source (pos + gap.length + l.length) l.rest e) :
    Breaks source pos (gap ++ b :: rest) e := by
  obtain ⟨before, behind, n, hsplit, hne, hspan, hbefore⟩ := h
  have hprefix : before <+: l.rest := ⟨behind, hsplit.symm⟩
  refine ⟨gap ++ (b :: (word ++ before)), behind, n, ?_, hne, ?_, fun limit hlimit => ?_⟩
  · rw [hreads.bytes, hsplit]
    simp
  · rw [hspan, hreads.length]
    congr 1
    simp only [List.length_append, List.length_cons]
    omega
  · obtain ⟨limit, rfl⟩ := Nat.exists_eq_succ_of_ne_zero (Nat.ne_zero_of_lt hlimit)
    simp only [List.length_append, List.length_cons] at hlimit
    obtain ⟨tokens, htokens⟩ := hbefore limit (by omega)
    have hskip := hgap .blank pos (b :: (word ++ before)) rfl (by
      rw [hreads.bytes, List.prefix_cons_inj, List.prefix_append_right_inj]
      exact hprefix)
    exact ⟨_, scanFrom_token (l := ⟨l.kind, l.length, before⟩) hskip
      (hreads.alone _ before hprefix) htokens⟩

/-- An error behind a gap. -/
theorem breaks_gap {n : Nat} {e : ParseError} (hgap : Skips source .blank gap rest')
    (hne : rest ≠ [])
    (hspan : e.span = .ofRange source (pos + gap.length) n) : Breaks source pos (gap ++ rest) e :=
  ⟨gap, rest, n, rfl, hne, hspan, fun _ hlimit => ⟨[], hgap.scanFrom (Nat.zero_lt_of_lt hlimit)⟩⟩

/-- How far a scan has split its input. -/
theorem settles_pieces (source : SourceId) (pos : Nat) (hlimit : input.length < limit) :
    Settles (Lexer.scanFrom source limit pos input) (Pieces source pos input)
      (Breaks source pos input) := by
  induction limit generalizing pos input with
  | zero => omega
  | succ limit ih =>
    have hskips := @settles_skips source .blank pos input
    rw [Lexer.scanFrom]
    cases hskip : skipGap source .blank pos input with
    | error e =>
      rw [hskip] at hskips
      obtain ⟨_, _, hg, -⟩ | ⟨gap, rest, n, rfl, hne, hspan, hgap⟩ := hskips
      · cases hg
      · exact breaks_gap hgap hne hspan
    | ok r =>
      obtain ⟨pos', input'⟩ := r
      rw [hskip] at hskips
      obtain ⟨gap, rfl, rfl, hgap, hstops⟩ := hskips
      dsimp only at hgap hstops hlimit ⊢
      rw [ok_bind]
      cases input' with
      | nil =>
        rw [List.append_nil]
        exact .gap (hgap.scanFrom (Nat.succ_pos _))
      | cons b rest =>
        have hreads := settles_reads source (pos + gap.length) b rest
        dsimp only
        cases hscan : scanLexeme source (pos + gap.length) b rest with
        | error e =>
          rw [hscan] at hreads
          obtain ⟨n, hspan⟩ := hreads
          exact breaks_gap hgap (by simp) hspan
        | ok l =>
          rw [hscan] at hreads
          obtain ⟨word, hreads⟩ := hreads
          have hbytes := hreads.bytes
          have hlater := @ih l.rest (pos + gap.length + l.length) (by
            rw [hbytes] at hlimit
            simp only [List.length_append, List.length_cons] at hlimit
            omega)
          rw [ok_bind]
          cases hrest : Lexer.scanFrom source limit (pos + gap.length + l.length) l.rest with
          | ok tokens =>
            rw [hrest] at hlater
            exact Pieces.later hgap hstops hreads hlater
          | error e =>
            rw [hrest] at hlater
            exact Breaks.later hgap hreads hlater

end Lexer

/-! ### Spans -/

namespace Token

variable {source : SourceId} {bytes : List UInt8} {tokens : List Token}

/-- The ranges between some spans, and those before the first and behind the last one. -/
def gaps (start stop : Nat) : List Span → List (Nat × Nat)
  | [] => [(start, stop)]
  | s :: rest => (start, s.offset) :: gaps s.stop stop rest

/-- The spans of tokens lie behind each other in the bytes from `start` on. The bytes of each span
are scanned as this token alone, and those of each gap as no token. -/
structure Splits (source : SourceId) (bytes : List UInt8) (start : Nat) (tokens : List Token) :
    Prop where
  behind : ∀ t ∈ tokens, start ≤ t.span.offset
  filled : ∀ t ∈ tokens, 0 < t.span.length
  inside : ∀ t ∈ tokens, t.span.stop ≤ bytes.length
  ordered : tokens.Pairwise fun t u => t.span.stop ≤ u.span.offset
  alone : ∀ t ∈ tokens, Token.scan source (bytes.extract t.span.offset t.span.stop) =
    .ok [⟨t.kind, .ofRange source 0 t.span.length⟩]
  empty : ∀ gap ∈ gaps start bytes.length (tokens.map (·.span)),
    Token.scan source (bytes.extract gap.1 gap.2) = .ok []

/-- The bytes of a piece. -/
theorem extract_append (before piece behind : List UInt8) :
    (before ++ (piece ++ behind)).extract before.length (before.length + piece.length) = piece := by
  simp [List.extract]

theorem splits_of_pieces {pos : Nat} {before rest : List UInt8}
    (h : Lexer.Pieces source pos rest tokens) (hpos : before.length = pos)
    (hsize : (before ++ rest).length < Span.fieldLimit) :
    Splits source (before ++ rest) pos tokens := by
  induction h generalizing before with
  | @gap pos gap empty =>
    subst hpos
    refine ⟨by simp, by simp, by simp, .nil, by simp, ?_⟩
    have hgap := extract_append before gap []
    rw [List.append_nil] at hgap
    simp only [List.map_nil, gaps, List.mem_singleton, forall_eq, List.length_append, hgap, empty]
  | @token pos gap word rest kind tokens empty filled alone later ih =>
    subst hpos
    have hassoc : before ++ (gap ++ (word ++ rest)) = (before ++ gap ++ word) ++ rest := by simp
    rw [hassoc] at hsize ⊢
    have hrest := @ih (before ++ gap ++ word) (by simp [Nat.add_assoc]) hsize
    simp only [List.length_append] at hsize
    have hstop : (Span.ofRange source (before.length + gap.length) word.length).stop =
        before.length + gap.length + word.length := Span.stop_ofRange (by omega)
    have hoffset : (Span.ofRange source (before.length + gap.length) word.length).offset =
        before.length + gap.length := by rw [Span.offset_ofRange, Span.clamp_of_lt (by omega)]
    have hlength : (Span.ofRange source (before.length + gap.length) word.length).length =
        word.length := by rw [Span.length_ofRange, Span.clamp_of_lt (by omega)]
    refine ⟨?_, ?_, ?_, ?_, ?_, ?_⟩
    · rw [List.forall_mem_cons, hoffset]
      exact ⟨by omega, fun t ht => (Nat.le_add_right ..).trans ((Nat.le_add_right ..).trans
        (hrest.behind t ht))⟩
    · rw [List.forall_mem_cons, hlength]
      exact ⟨List.length_pos_iff.2 filled, hrest.filled⟩
    · rw [List.forall_mem_cons, hstop]
      refine ⟨?_, hrest.inside⟩
      simp only [List.length_append]
      omega
    · rw [List.pairwise_cons, hstop]
      exact ⟨hrest.behind, hrest.ordered⟩
    · rw [List.forall_mem_cons, hoffset, hstop, hlength]
      refine ⟨?_, hrest.alone⟩
      have hword := extract_append (before ++ gap) word rest
      rw [List.length_append, ← List.append_assoc] at hword
      rw [hword, alone]
    · rw [List.map_cons, gaps, List.forall_mem_cons, hoffset, hstop]
      refine ⟨?_, hrest.empty⟩
      have hgap := extract_append before gap (word ++ rest)
      rw [hassoc] at hgap
      rw [hgap, empty]

theorem splits_of_scan (hsize : bytes.length ≤ 4194303) (h : Token.scan source bytes = .ok tokens) :
    Splits source bytes 0 tokens := by
  have hpieces := Lexer.settles_pieces source 0 (Nat.lt_succ_self bytes.length)
  rw [Token.scan] at h
  rw [h] at hpieces
  exact @splits_of_pieces source tokens 0 [] bytes hpieces rfl (Nat.lt_succ_of_le hsize)

/-- The tokens of a program partition it, and so do the tokens in front of an error. -/
theorem scan_partitions (source : SourceId) (bytes : List UInt8) (hsize : bytes.length ≤ 4194303) :
    Settles (Token.scan source bytes) (Splits source bytes 0) fun e =>
      e.span.offset < bytes.length ∧
        ∃ tokens, Token.scan source (bytes.take e.span.offset) = .ok tokens ∧
          Splits source (bytes.take e.span.offset) 0 tokens := by
  cases hscan : Token.scan source bytes with
  | ok tokens => exact splits_of_scan hsize hscan
  | error e =>
    have hpieces := Lexer.settles_pieces source 0 (Nat.lt_succ_self bytes.length)
    rw [Token.scan] at hscan
    rw [hscan] at hpieces
    obtain ⟨before, behind, n, rfl, hne, hspan, hbefore⟩ := hpieces
    have hbehind := List.length_pos_iff.2 hne
    rw [List.length_append] at hsize
    have hoffset : e.span.offset = before.length := by
      rw [hspan, Nat.zero_add, Span.offset_ofRange,
        Span.clamp_of_lt (by unfold Span.fieldLimit; omega)]
    obtain ⟨tokens, htokens⟩ := hbefore _ (Nat.lt_succ_self before.length)
    show e.span.offset < _ ∧ _
    rw [hoffset, List.take_left, List.length_append]
    exact ⟨by omega, tokens, htokens, splits_of_scan (by omega) htokens⟩

/-- In `x=1/*`, the comment that is never closed is behind three tokens. -/
theorem splits_before_comment :
    [120, 61, 49, 47, 42].length ≤ 4194303 ∧
      Token.scan 2 [120, 61, 49, 47, 42] = .error ⟨.unterminatedComment, .ofRange 2 3 2⟩ ∧
      Splits 2 [120, 61, 49] 0 [⟨.identifier "x", .ofRange 2 0 1⟩,
        ⟨.punctuator .assign, .ofRange 2 1 1⟩, ⟨.integer 1, .ofRange 2 2 1⟩] := by
  have hscan : Token.scan 2 [120, 61, 49, 47, 42] =
      .error ⟨.unterminatedComment, .ofRange 2 3 2⟩ := rfl
  have hfront : Token.scan 2 [120, 61, 49] = .ok [⟨.identifier "x", .ofRange 2 0 1⟩,
      ⟨.punctuator .assign, .ofRange 2 1 1⟩, ⟨.integer 1, .ofRange 2 2 1⟩] := by decide +kernel
  have h := scan_partitions 2 [120, 61, 49, 47, 42] (by decide)
  rw [hscan] at h
  obtain ⟨-, tokens, htokens, hsplits⟩ := h
  have htake : [120, 61, 49, 47, 42].take (Span.ofRange 2 3 2).offset =
      ([120, 61, 49] : List UInt8) := rfl
  rw [htake] at htokens hsplits
  cases hfront.symm.trans htokens
  exact ⟨by decide, hscan, hsplits⟩

end Token

end MiniJ
