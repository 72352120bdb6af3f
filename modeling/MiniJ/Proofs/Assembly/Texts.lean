import MiniJ.Assembly.File
import MiniJ.Proofs.Outcome
import MiniJ.Proofs.Text.Decode
import MiniJ.Proofs.Text.Line
import Mathlib.Data.List.Nodup

/-!
# Text constants in the data section

An assembly file is built step by step. The steps that ask for a text constant get the same label
exactly when they ask for the same text, and the data section of the finished file defines each
label once, by a byte list that an assembler reads as the text with a zero byte behind it.

## Main definitions

* `Assembly.Step`, `Assembly.build` — files under construction, and the labels handed out.
* `DataList.read` — what an assembler reads in a byte list.
* `Assembly.dataSection` — the lines of the data section.

## Main statements

* `Assembly.texts_survive` — labels, definitions and bytes of text constants.
-/
namespace MiniJ

/-! ### Labels -/

theorem repr_inj {i j : Nat} : i.repr.toList = j.repr.toList ↔ i = j := by
  refine ⟨fun h => ?_, fun h => h ▸ rfl⟩
  simp only [Nat.repr, String.toList_ofList] at h
  rw [← @Nat.ofDigitChars_ten_toDigits i, h, Nat.ofDigitChars_ten_toDigits]

theorem toList_textLabel (i : Nat) : (textLabel i).toList = ['s', 't', 'r'] ++ i.repr.toList := by
  rw [textLabel, show s!"str{i}" = "str" ++ i.repr from rfl, String.toList_append]
  rfl

theorem textLabel_inj {i j : Nat} : textLabel i = textLabel j ↔ i = j := by
  refine ⟨fun h => ?_, congrArg textLabel⟩
  have hchars := congrArg String.toList h
  rw [toList_textLabel, toList_textLabel] at hchars
  exact repr_inj.1 (List.append_cancel_left hchars)

/-- Digits of a number are decimal digits. -/
theorem isDigit_of_mem_repr {i : Nat} {c : Char} (h : c ∈ i.repr.toList) : c.isDigit = true := by
  rw [Nat.repr, String.toList_ofList] at h
  exact Nat.isDigit_of_mem_toDigits (by decide) (by decide) h

theorem not_mem_textLabel {i : Nat} {c : Char} (hc : c ∉ ['s', 't', 'r'])
    (hdigit : c.isDigit = false) : c ∉ (textLabel i).toList := by
  rw [toList_textLabel, List.mem_append]
  rintro (h | h)
  · exact hc h
  · simp [isDigit_of_mem_repr h] at hdigit

/-! ### Interning -/

section Intern

variable {texts : List String} {value : String}

theorem nodup_internText (h : texts.Nodup) : (internText texts value).2.Nodup := by
  unfold internText
  split
  · exact h
  · next hnew =>
    have hnot : value ∉ texts := by simpa using hnew
    exact List.nodup_append.2
      ⟨h, by simp, by simpa using fun t ht (heq : t = value) => hnot (heq ▸ ht)⟩

theorem prefix_internText : texts <+: (internText texts value).2 := by
  unfold internText
  split
  · exact List.prefix_refl texts
  · exact List.prefix_append texts [value]

theorem getElem?_internText :
    (internText texts value).2[(internText texts value).1]? = some value := by
  unfold internText
  split
  · next hold =>
    have hmem : value ∈ texts := by simpa using hold
    have hlt := List.idxOf_lt_length_of_mem hmem
    rw [List.getElem?_eq_getElem hlt, List.getElem_idxOf]
  · simp

end Intern

/-! ### Byte lists -/

namespace DataList

/-- Where an assembler stands in a byte list. -/
inductive Position where
  /-- In front of an item. -/
  | item
  /-- Inside of a quoted run. -/
  | quoted
  /-- Behind the digits of a number. -/
  | number (value : Nat)
  /-- Behind a complete item. -/
  | complete

/-- Bytes of a list: a quoted run stands for its bytes, a decimal number for one byte. Items are
separated by commas, with blanks around them. -/
@[simp] def read : Position → List Char → Option (List UInt8)
  | .item, [] => none
  | .item, c :: rest =>
    if c = ' ' then read .item rest
    else if c = '"' then read .quoted rest
    else if c.isDigit then read (.number (c.toNat - '0'.toNat)) rest
    else none
  | .quoted, [] => none
  | .quoted, c :: rest =>
    if c = '"' then read .complete rest
    else (read .quoted rest).map (String.utf8EncodeChar c ++ ·)
  | .number n, [] => if n < 256 then some [UInt8.ofNat n] else none
  | .number n, c :: rest =>
    if c.isDigit then read (.number (10 * n + (c.toNat - '0'.toNat))) rest
    else if 256 ≤ n then none
    else if c = ',' then (read .item rest).map (UInt8.ofNat n :: ·)
    else if c = ' ' then (read .complete rest).map (UInt8.ofNat n :: ·)
    else none
  | .complete, [] => some []
  | .complete, c :: rest =>
    if c = ' ' then read .complete rest
    else if c = ',' then read .item rest
    else none

/-- What may follow an item: nothing, or a comma with more items. -/
def Follows (rest : List Char) (bytes : List UInt8) : Prop :=
  (rest = [] ∧ bytes = []) ∨ ∃ more, rest = ',' :: more ∧ read .item more = some bytes

variable {rest : List Char} {bytes : List UInt8}

theorem read_complete (h : Follows rest bytes) : read .complete rest = some bytes := by
  obtain ⟨rfl, rfl⟩ | ⟨more, rfl, hmore⟩ := h
  · rfl
  · simpa [read] using hmore

/-- A quoted run of characters of one byte that are no quotes. -/
theorem read_quoted {run : List Char} (hplain : ∀ c ∈ run, c ≠ '"' ∧ Text.IsAscii c)
    (h : Follows rest bytes) :
    read .quoted (run ++ '"' :: rest) = some (run.map (fun c => UInt8.ofNat c.toNat) ++ bytes) := by
  induction run with
  | nil => simpa [read] using read_complete h
  | cons c run ih =>
    obtain ⟨hquote, hascii⟩ := hplain c (by simp)
    rw [List.cons_append, read, if_neg hquote, ih fun d hd => hplain d (by simp [hd]),
      Option.map_some, Text.encodeChar_of_isAscii hascii, List.map_cons]
    rfl

theorem read_number_end {n : Nat} (hn : n < 256) (h : Follows rest bytes) :
    read (.number n) rest = some (UInt8.ofNat n :: bytes) := by
  obtain ⟨rfl, rfl⟩ | ⟨more, rfl, hmore⟩ := h
  · simp [read, hn]
  · rw [read, if_neg (by decide), if_neg (Nat.not_le.2 hn), if_pos rfl, hmore, Option.map_some]

/-- Digits behind digits that were read already. -/
theorem read_digits {digits : List Char} (hdigits : ∀ c ∈ digits, c.isDigit = true) {n : Nat}
    (hsmall : Nat.ofDigitChars 10 digits n < 256) (h : Follows rest bytes) :
    read (.number n) (digits ++ rest) =
      some (UInt8.ofNat (Nat.ofDigitChars 10 digits n) :: bytes) := by
  induction digits generalizing n with
  | nil => exact read_number_end hsmall h
  | cons c digits ih =>
    rw [Nat.ofDigitChars_cons] at hsmall ⊢
    rw [List.cons_append, read, if_pos (hdigits c (by simp))]
    exact ih (fun d hd => hdigits d (by simp [hd])) hsmall

/-- A number stands for one byte. -/
theorem read_byte (b : UInt8) (h : Follows rest bytes) :
    read .item ((toString b.toNat).toList ++ rest) = some (b :: bytes) := by
  rw [Nat.toString_eq_ofList_toDigits, String.toList_ofList]
  have hvalue : Nat.ofDigitChars 10 (Nat.toDigits 10 b.toNat) 0 = b.toNat :=
    Nat.ofDigitChars_ten_toDigits
  have hdigits : ∀ c ∈ Nat.toDigits 10 b.toNat, c.isDigit = true := fun c hc =>
    Nat.isDigit_of_mem_toDigits (by decide) (by decide) hc
  obtain ⟨c, digits, hform⟩ := List.exists_cons_of_ne_nil
    (l := Nat.toDigits 10 b.toNat) (Nat.toDigits_ne_nil)
  rw [hform] at hvalue hdigits ⊢
  have hc := hdigits c (by simp)
  have hblank : c ≠ ' ' := by
    rintro rfl
    exact absurd hc (by decide)
  have hquote : c ≠ '"' := by
    rintro rfl
    exact absurd hc (by decide)
  rw [Nat.ofDigitChars_cons, Nat.mul_zero, Nat.zero_add] at hvalue
  rw [List.cons_append, read, if_neg hblank, if_neg hquote, if_pos hc,
    read_digits (fun d hd => hdigits d (by simp [hd])) (by rw [hvalue]; exact b.toNat_lt) h, hvalue,
    UInt8.ofNat_toNat]

/-- A run and the items behind it. -/
theorem read_run {run : List Char} (hplain : ∀ c ∈ run, c ≠ '"' ∧ Text.IsAscii c)
    (h : Follows rest bytes) :
    read .item ('"' :: run ++ '"' :: rest) =
      some (run.map (fun c => UInt8.ofNat c.toNat) ++ bytes) := by
  rw [List.cons_append, read, if_neg (by decide), if_pos rfl]
  exact read_quoted hplain h

end DataList

namespace Assembly

open DataList

/-! ### Writing byte lists -/

/-- Characters of a list of items. -/
theorem toList_intercalate_cons {item : String} {items : List String} (h : items ≠ []) :
    (", ".intercalate (item :: items)).toList =
      item.toList ++ (',' :: ' ' :: (", ".intercalate items).toList) := by
  obtain ⟨next, others, rfl⟩ := List.exists_cons_of_ne_nil h
  rw [String.intercalate_cons_cons, String.toList_append, String.toList_append, List.append_assoc]
  rfl

theorem dataItems_ne_nil (run : List Char) (bytes : List UInt8) : dataItems run bytes ≠ [] := by
  induction bytes generalizing run with
  | nil => simp [dataItems]
  | cons b rest ih =>
    rw [dataItems]
    split
    · exact ih _
    · simp

/-- An item that is followed by more items. -/
theorem follows_items {items : List String} {bytes : List UInt8}
    (h : read .item (", ".intercalate items).toList = some bytes) :
    Follows (',' :: ' ' :: (", ".intercalate items).toList) bytes :=
  .inr ⟨_, rfl, by rw [DataList.read, if_pos rfl, h]⟩

/-- Plain bytes are characters of one byte other than the quote. -/
theorem isPlain_char {b : UInt8} (h : isPlain b = true) :
    Char.ofNat b.toNat ≠ '"' ∧ Text.IsAscii (Char.ofNat b.toNat) ∧
      UInt8.ofNat (Char.ofNat b.toNat).toNat = b := by
  simp only [isPlain, Bool.and_eq_true, decide_eq_true_eq, bne_iff_ne, UInt8.le_iff_toNat_le,
    UInt8.lt_iff_toNat_lt] at h
  obtain ⟨⟨-, hlt⟩, hne⟩ := h
  have hlt : b.toNat < 127 := hlt
  have hnat := Text.toNat_ofNat_toNat b
  refine ⟨fun heq => hne ?_, ?_, by rw [hnat, UInt8.ofNat_toNat]⟩
  · have h34 : b.toNat = 34 := by rw [← hnat, heq]; rfl
    exact UInt8.toNat_inj.1 h34
  · show (Char.ofNat b.toNat).toNat < 128
    omega

/-- The items of a byte list are read as the bytes, the pending run first, and a zero byte. -/
theorem read_dataItems {run : List Char} (hplain : ∀ c ∈ run, c ≠ '"' ∧ Text.IsAscii c)
    (bytes : List UInt8) :
    read .item (", ".intercalate (dataItems run bytes)).toList =
      some (run.reverse.map (fun c => UInt8.ofNat c.toNat) ++ bytes ++ [0]) := by
  -- a pending run in front of items that read as `rest`
  have hpending : ∀ {run : List Char} {items : List String} {rest : List UInt8}, items ≠ [] →
      (∀ c ∈ run, c ≠ '"' ∧ Text.IsAscii c) → read .item (", ".intercalate items).toList =
        some rest →
      read .item (", ".intercalate (quotedRun run ++ items)).toList =
        some (run.reverse.map (fun c => UInt8.ofNat c.toNat) ++ rest) := by
    intro run items rest hitems hplain hrest
    cases hrun : run with
    | nil => simpa [quotedRun] using hrest
    | cons c others =>
      rw [← hrun, quotedRun, if_neg (by simp [hrun]), List.singleton_append,
        toList_intercalate_cons hitems, String.toList_append, String.toList_append,
        String.toList_ofList]
      have hreversed : ∀ c ∈ run.reverse, c ≠ '"' ∧ Text.IsAscii c :=
        fun c hc => hplain c (List.mem_reverse.1 hc)
      simpa using read_run hreversed (follows_items hrest)
  induction bytes generalizing run with
  | nil =>
    rw [dataItems, List.append_nil]
    refine hpending (by simp) hplain ?_
    simp
  | cons b rest ih =>
    rw [dataItems]
    split
    · next hb =>
      obtain ⟨hquote, hascii, hbyte⟩ := isPlain_char hb
      rw [ih (by simpa [hquote, hascii] using hplain)]
      simp [hbyte]
    · have hrest : read .item (", ".intercalate (toString b.toNat :: dataItems [] rest)).toList =
          some (b :: (rest ++ [0])) := by
        rw [toList_intercalate_cons (dataItems_ne_nil [] rest)]
        have hnone : ∀ c ∈ ([] : List Char), c ≠ '"' ∧ Text.IsAscii c := by simp
        exact read_byte b (follows_items (by simpa using ih hnone))
      rw [hpending (by simp) hplain hrest]
      simp

/-! ### Files under construction -/

/-- What can be done to a file before it is finished. -/
inductive Step where
  | external (name : String)
  | global (name : String)
  | reserve (name : String) (size : Nat)
  /-- Asks for the label of a text constant. -/
  | text (value : String)
  | line (line : Line)

/-- The file after a step. -/
def Step.apply (a : Assembly) : Step → Assembly
  | external name => a.declareExternal name
  | global name => a.declareGlobal name
  | reserve name size => a.reserve name size
  | text value => (a.intern value).2
  | line l => a.emit l

/-- The file after some steps. -/
def build (a : Assembly) (steps : List Step) : Assembly := steps.foldl Step.apply a

/-- The texts that were asked for, each with the label that was handed out. -/
def handedOut : Assembly → List Step → List (String × String)
  | _, [] => []
  | a, step :: rest =>
    match step with
    | .text value => (value, (a.intern value).1) :: handedOut (a.intern value).2 rest
    | step => handedOut (step.apply a) rest

variable {a : Assembly} {step : Step} {steps : List Step} {value label : String}

/-- A step keeps the text constants in place and apart. -/
theorem Step.texts_apply (h : a.texts.Nodup) :
    (step.apply a).texts.Nodup ∧ a.texts <+: (step.apply a).texts := by
  cases step with
  | text value => exact ⟨nodup_internText h, prefix_internText⟩
  | _ => exact ⟨h, List.prefix_refl _⟩

/-- So do all steps. -/
theorem texts_build (h : a.texts.Nodup) :
    (build a steps).texts.Nodup ∧ a.texts <+: (build a steps).texts := by
  induction steps generalizing a with
  | nil => exact ⟨h, List.prefix_refl _⟩
  | cons step rest ih =>
    obtain ⟨hnodup, hprefix⟩ := step.texts_apply h
    obtain ⟨hlast, hgrown⟩ := ih hnodup
    exact ⟨hlast, hprefix.trans hgrown⟩

/-- A label that was handed out is the one of the position the text has in the end. -/
theorem position_of_handedOut (h : a.texts.Nodup) (hmem : (value, label) ∈ handedOut a steps) :
    ∃ i, label = textLabel i ∧ (build a steps).texts[i]? = some value := by
  induction steps generalizing a with
  | nil => simp [handedOut] at hmem
  | cons step rest ih =>
    have hrest : (value, label) ∈ handedOut (step.apply a) rest →
        ∃ i, label = textLabel i ∧ (build a (step :: rest)).texts[i]? = some value :=
      ih (step.texts_apply h).1
    cases step with
    | text asked =>
      rcases List.mem_cons.1 hmem with heq | hmem
      · obtain ⟨rfl, rfl⟩ := Prod.mk.inj heq
        obtain ⟨more, hmore⟩ : (Step.apply a (.text value)).texts <+:
            (build (Step.apply a (.text value)) rest).texts :=
              (texts_build (Step.texts_apply h).1).2
        refine ⟨(internText a.texts value).1, rfl, ?_⟩
        have hfound : (internText a.texts value).2[(internText a.texts value).1]? = some value :=
          getElem?_internText
        obtain ⟨hlt, -⟩ := List.getElem?_eq_some_iff.1 hfound
        change (build (Step.apply a (.text value)) rest).texts[_]? = _
        rw [← hmore]
        exact (List.getElem?_append_left hlt).trans hfound
      · exact hrest hmem
    | _ => exact hrest hmem

theorem code_build {line : Line} (h : line ∈ (build a steps).code) :
    line ∈ a.code ∨ Step.line line ∈ steps := by
  induction steps generalizing a with
  | nil => exact .inl h
  | cons step rest ih =>
    rcases ih (a := step.apply a) h with h | h
    · cases step with
      | line l =>
        rcases List.mem_append.1 h with h | h
        · exact .inl h
        · exact .inr (by simp [List.mem_singleton.1 h])
      | _ => exact .inl h
    · exact .inr (.tail _ h)

/-! ### The data section -/

/-- Lines behind the directive that opens the data section, up to the blank line that ends it. -/
def dataSection (lines : List String) : List String :=
  ((lines.dropWhile (· != "section .data")).drop 1).takeWhile (· != "")

/-- What a line names in front of its colon. -/
def definedName (line : String) : String := String.ofList (line.toList.takeWhile (· != ':'))

/-- Bytes that a line defines. -/
def definedBytes? (line : String) : Option (List UInt8) :=
  match line.toList.dropWhile (· != ':') with
  | ':' :: ' ' :: 'd' :: 'b' :: ' ' :: items => DataList.read .item items
  | _ => none

/-- The line that defines a text constant. -/
def textLine (index : Nat) (value : String) : String :=
  textLabel index ++ ": db " ++ dataBytes value

theorem textLines_cons (index : Nat) (rest : List String) :
    textLines index (value :: rest) = textLine index value :: textLines (index + 1) rest := rfl

theorem toList_textLine (index : Nat) : (textLine index value).toList =
    (textLabel index).toList ++ ':' :: ([' ', 'd', 'b', ' '] ++ (dataBytes value).toList) := by
  rw [textLine, String.toList_append, String.toList_append, List.append_assoc]
  rfl

theorem definedName_textLine (index : Nat) :
    definedName (textLine index value) = textLabel index := by
  have hcolon : ∀ c ∈ (textLabel index).toList, (c != ':') = true := by
    intro c hc
    rw [bne_iff_ne]
    rintro rfl
    exact not_mem_textLabel (by decide) (by decide) hc
  rw [definedName, toList_textLine, List.takeWhile_append_of_pos hcolon]
  simp

/-- A line of a text constant is read as its text and a zero byte. -/
theorem definedBytes?_textLine (index : Nat) :
    definedBytes? (textLine index value) = some (Text.encode value ++ [0]) := by
  have hcolon : ∀ c ∈ (textLabel index).toList, (c != ':') = true := by
    intro c hc
    rw [bne_iff_ne]
    rintro rfl
    exact not_mem_textLabel (by decide) (by decide) hc
  rw [definedBytes?, toList_textLine, List.dropWhile_append_of_pos hcolon]
  have hnone : ∀ c ∈ ([] : List Char), c ≠ '"' ∧ Text.IsAscii c := by simp
  simpa [dataBytes] using read_dataItems hnone (Text.encode value)

theorem isLine_textLine (index : Nat) : Text.IsLine (textLine index value) := by
  have hrun : ∀ run : List Char, '\n' ∉ run → ∀ item ∈ quotedRun run, Text.IsLine item := by
    intro run hrun item hitem
    unfold quotedRun at hitem
    split at hitem
    · cases hitem
    · rw [List.mem_singleton.1 hitem, Text.isLine_append, Text.isLine_append]
      exact ⟨⟨by decide, by simpa [Text.IsLine] using hrun⟩, by decide⟩
  have hitems : ∀ (bytes : List UInt8) (run : List Char), '\n' ∉ run →
      ∀ item ∈ dataItems run bytes, Text.IsLine item := by
    intro bytes
    induction bytes with
    | nil =>
      intro run hnl item hitem
      rcases List.mem_append.1 hitem with hitem | hitem
      · exact hrun run hnl item hitem
      · rw [List.mem_singleton.1 hitem]
        decide
    | cons b rest ih =>
      intro run hnl item hitem
      rw [dataItems] at hitem
      split at hitem
      · next hb =>
        refine ih _ (fun hmem => ?_) item hitem
        rcases List.mem_cons.1 hmem with heq | hmem
        · obtain ⟨-, -, hbyte⟩ := isPlain_char hb
          rw [← heq] at hbyte
          rw [← hbyte] at hb
          exact absurd hb (by decide)
        · exact hnl hmem
      · rcases List.mem_append.1 hitem with hitem | hitem
        · exact hrun run hnl item hitem
        · rcases List.mem_cons.1 hitem with rfl | hitem
          · exact Text.isLine_toString_nat _
          · exact ih [] (by simp) item hitem
  have hlabel : '\n' ∉ (textLabel index).toList := not_mem_textLabel (by decide) (by decide)
  rw [textLine, Text.isLine_append, Text.isLine_append]
  exact ⟨⟨hlabel, by decide⟩, Text.isLine_intercalate (by decide) (hitems _ [] (by simp))⟩

theorem mem_textLines {index : Nat} {texts : List String} {line : String}
    (h : line ∈ textLines index texts) : ∃ k value, line = textLine k value := by
  induction texts generalizing index with
  | nil => cases h
  | cons value rest ih =>
    rcases List.mem_cons.1 h with rfl | h
    · exact ⟨index, value, rfl⟩
    · exact ih h

/-- Among the definitions of text constants each position occurs once. -/
theorem filter_textLines (texts : List String) (index k : Nat) :
    (textLines index texts).filter (definedName · = textLabel k) =
      if k < index then [] else (texts[k - index]?).toList.map (textLine k) := by
  induction texts generalizing index with
  | nil => simp [textLines]
  | cons value rest ih =>
    rw [textLines_cons, List.filter_cons, definedName_textLine, ih]
    simp only [textLabel_inj, decide_eq_true_eq]
    by_cases heq : index = k
    · subst heq
      simp
    · rw [if_neg heq]
      by_cases hlt : k < index
      · rw [if_pos hlt, if_pos (by omega)]
      · obtain ⟨d, rfl⟩ : ∃ d, k = index + 1 + d := ⟨k - index - 1, by omega⟩
        rw [if_neg (by omega), if_neg hlt]
        have hrest : index + 1 + d - (index + 1) = d := by omega
        have hhere : index + 1 + d - index = d + 1 := by omega
        rw [hrest, hhere, List.getElem?_cons_succ]

theorem dataSection_append {front inside : List String}
    (hfront : ∀ line ∈ front, line ≠ "section .data") (hinside : ∀ line ∈ inside, line ≠ "")
    (back : List String) :
    dataSection (front ++ "section .data" :: (inside ++ "" :: back)) = inside := by
  rw [dataSection, List.dropWhile_append_of_pos (fun l hl => bne_iff_ne.2 (hfront l hl)),
    List.dropWhile_cons_of_neg (by simp), List.drop_one, List.tail_cons,
    List.takeWhile_append_of_pos (fun l hl => bne_iff_ne.2 (hinside l hl)),
    List.takeWhile_cons_of_neg (by simp), List.append_nil]

/-- A line with another first character is not the directive of the data section. -/
theorem ne_directive {start name : String} {c : Char} {rest : List Char}
    (hstart : start.toList = c :: rest) (hc : c ≠ 's') : start ++ name ≠ "section .data" := by
  intro heq
  have hchars := congrArg String.toList heq
  rw [String.toList_append, hstart] at hchars
  exact hc (List.cons.inj hchars).1

/-- The data section holds the definitions of the text constants. -/
theorem dataSection_lines {lines : List String} (h : a.lines = .ok lines) :
    dataSection lines = textLines 0 a.texts := by
  simp only [Assembly.lines, Outcome.bind_eq_ok, Outcome.pure_eq_ok] at h
  obtain ⟨code, -, rfl⟩ := h
  have hfront : ∀ line ∈ ["DEFAULT REL", "bits 64"] ++ a.externals.map ("extern " ++ ·) ++
      a.globals.map ("global " ++ ·) ++ [""], line ≠ "section .data" := by
    intro line hline
    simp only [List.mem_append, List.mem_map, List.mem_cons, List.not_mem_nil, or_false] at hline
    rcases hline with (((rfl | rfl) | ⟨name, -, rfl⟩) | ⟨name, -, rfl⟩) | rfl
    · decide
    · decide
    · exact ne_directive rfl (by decide)
    · exact ne_directive rfl (by decide)
    · decide
  have hinside : ∀ line ∈ textLines 0 a.texts, line ≠ "" := by
    intro line hline heq
    obtain ⟨k, value, rfl⟩ := mem_textLines hline
    have hchars := congrArg String.toList heq
    rw [toList_textLine] at hchars
    simp at hchars
  have hsection := dataSection_append hfront hinside (["section .bss", "alignb 8"] ++
    a.reserved.map (fun r => s!"{r.1}: resb {r.2}") ++ ["", "section .text"] ++ code)
  simpa using hsection

/-- Every file of which the lines can be written can be written. -/
theorem exists_lines (h : ∀ line ∈ a.code, ∃ s, line.render = .ok s) :
    ∃ lines, a.lines = .ok lines ∧ a.render = .ok (String.join (lines.map (· ++ "\n"))) := by
  obtain ⟨code, hcode⟩ := Outcome.exists_mapM h
  obtain ⟨lines, hlines⟩ : ∃ lines, a.lines = .ok lines := by
    simp only [Assembly.lines, hcode]
    exact ⟨_, rfl⟩
  exact ⟨lines, hlines, by rw [render, hlines]; rfl⟩

/-- Text constants survive. Whatever is done to a file, two steps that ask for a text constant get
the same label exactly if they ask for the same text; if the emitted lines can be written, so can
the file, and exactly one line of its data section defines a label that was handed out: it is one
line of the file, and its byte list reads as the bytes of the text and a zero byte. -/
theorem texts_survive (steps : List Step) :
    (∀ c ∈ handedOut {} steps, ∀ d ∈ handedOut {} steps, c.2 = d.2 ↔ c.1 = d.1) ∧
    ((∀ line, Step.line line ∈ steps → ∃ s, line.render = .ok s) →
      ∃ lines, (build {} steps).lines = .ok lines ∧
        (build {} steps).render = .ok (String.join (lines.map (· ++ "\n"))) ∧
        ∀ value label, (value, label) ∈ handedOut {} steps → ∃ line,
          (dataSection lines).filter (definedName · = label) = [line] ∧ Text.IsLine line ∧
          definedBytes? line = some (Text.encode value ++ [0])) := by
  have hnodup : (build {} steps).texts.Nodup := (texts_build List.nodup_nil).1
  refine ⟨fun c hc d hd => ?_, fun writable => ?_⟩
  · obtain ⟨i, hi, hvalue⟩ := position_of_handedOut List.nodup_nil hc
    obtain ⟨j, hj, hvalue'⟩ := position_of_handedOut List.nodup_nil hd
    obtain ⟨hlt, hget⟩ := List.getElem?_eq_some_iff.1 hvalue
    obtain ⟨hlt', hget'⟩ := List.getElem?_eq_some_iff.1 hvalue'
    rw [hi, hj, textLabel_inj, ← hget, ← hget', List.Nodup.getElem_inj_iff hnodup]
  · obtain ⟨lines, hlines, hrender⟩ := exists_lines (a := build {} steps) fun line hline =>
      writable line ((code_build hline).resolve_left (by simp))
    refine ⟨lines, hlines, hrender, fun value label hmem => ?_⟩
    obtain ⟨i, rfl, hvalue⟩ := position_of_handedOut List.nodup_nil hmem
    refine ⟨textLine i value, ?_, isLine_textLine i, definedBytes?_textLine i⟩
    rw [dataSection_lines hlines, filter_textLines, if_neg (Nat.not_lt_zero i),
      Nat.sub_zero, hvalue]
    rfl

/-- Two texts with quotes, a newline and a character of two bytes, one of them asked for twice. -/
def Mixed.requests : List Step :=
  [.text "say \"x\"", .external "f", .text "a\né", .line (.instruction .ret []), .text "say \"x\""]

theorem Mixed.texts_kept :
    (∀ line, Step.line line ∈ requests → ∃ s, line.render = .ok s) ∧
    handedOut {} requests = [("say \"x\"", "str0"), ("a\né", "str1"), ("say \"x\"", "str0")] ∧
    ∃ lines, (build {} requests).lines = .ok lines ∧ ∃ line,
      (dataSection lines).filter (definedName · = "str1") = [line] ∧
      definedBytes? line = some [97, 10, 195, 169, 0] := by
  have hwritable : ∀ line, Step.line line ∈ requests → ∃ s, line.render = .ok s := by
    intro line hline
    simp only [requests, List.mem_cons, reduceCtorEq, Step.line.injEq, List.not_mem_nil, or_false,
      false_or] at hline
    exact ⟨"    ret", hline ▸ rfl⟩
  have hlabels : handedOut {} requests =
      [("say \"x\"", "str0"), ("a\né", "str1"), ("say \"x\"", "str0")] := by decide +kernel
  obtain ⟨lines, hlines, -, hdefined⟩ := (texts_survive requests).2 hwritable
  obtain ⟨line, honce, -, hbytes⟩ := hdefined "a\né" "str1" (by simp [hlabels])
  exact ⟨hwritable, hlabels, lines, hlines, line, honce, hbytes.trans (by decide +kernel)⟩

end Assembly

end MiniJ
