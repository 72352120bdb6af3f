import MiniJ.Source.Span

/-!
# Fields of a span

What is read out of a packed span. Merged spans lie in the program of their parts and start where
the first of them starts, so a place stays a place of the same program.

## Main definitions

* `Span.In` — the start of a span is a byte of a program.

## Main statements

* `Span.In.merge` — merging keeps the program and stays inside of it.
-/
namespace MiniJ.Span

variable {source offset length size : Nat} {s : Span}

theorem offset_ofRange : (ofRange source offset length).offset = clamp offset := by
  simp only [Span.offset, ofRange, clamp, fieldLimit, UInt64.toNat_ofNat']
  omega

theorem length_ofRange : (ofRange source offset length).length = clamp length := by
  simp only [Span.length, ofRange, clamp, fieldLimit, UInt64.toNat_ofNat']
  omega

theorem offset_lt (s : Span) : s.offset < fieldLimit := Nat.mod_lt _ (by decide)

/-- Offsets are words. -/
theorem toNat_offset (s : Span) : s.offset.toUInt32.toNat = s.offset :=
  UInt32.toNat_ofNat_of_lt' (Nat.lt_trans s.offset_lt (by decide))

theorem clamp_of_lt {n : Nat} (h : n < fieldLimit) : clamp n = n :=
  Nat.min_eq_left (Nat.le_sub_one_of_lt h)

/-- A range whose end fits its field ends there. -/
theorem stop_ofRange (h : offset + length < fieldLimit) :
    (ofRange source offset length).stop = offset + length := by
  rw [stop, offset_ofRange, length_ofRange, clamp_of_lt (by omega), clamp_of_lt (by omega)]

/-- The number of a program that fits its field is read back. -/
theorem source_ofRange (hpos : 0 < source) (hlt : source < 1048576) :
    (ofRange source offset length).source = source := by
  have hfield : (ofRange source offset length).word.toNat / fieldLimit / fieldLimit = source := by
    simp only [ofRange, clamp, fieldLimit, UInt64.toNat_ofNat']
    omega
  unfold Span.source
  split
  · next hzero => omega
  · exact hfield

/-- The number that is read does not depend on offset and length. -/
theorem source_ofRange_eq :
    (ofRange source offset length).source = (ofRange source 0 0).source := by
  have hfield : (ofRange source offset length).word.toNat / fieldLimit / fieldLimit =
      (ofRange source 0 0).word.toNat / fieldLimit / fieldLimit := by
    simp only [ofRange, clamp, fieldLimit, UInt64.toNat_ofNat']
    omega
  simp only [Span.source, hfield]

theorem source_pos (s : Span) : 0 < s.source := by
  unfold Span.source
  split
  · exact Nat.one_pos
  · next hne => exact Nat.pos_of_ne_zero hne

theorem source_lt (s : Span) : s.source < 1048576 := by
  have hword := s.word.toNat_lt
  have hfield : s.word.toNat / fieldLimit / fieldLimit < 1048576 := by
    simp only [fieldLimit]
    omega
  unfold Span.source
  split
  · decide
  · exact hfield

/-- The span starts with a byte of program number `source`, which has `size` bytes. -/
structure In (source size : Nat) (s : Span) : Prop where
  source : s.source = (ofRange source 0 0).source
  inside : s.offset < size

theorem in_ofRange (h : offset < size) : In source size (ofRange source offset length) := by
  refine ⟨source_ofRange_eq, ?_⟩
  rw [offset_ofRange]
  exact Nat.lt_of_le_of_lt (Nat.min_le_left _ _) h

theorem In.merge (hs : In source size s) (t : Span) : In source size (s.merge t) := by
  unfold Span.merge
  split
  · refine ⟨?_, ?_⟩
    · rw [source_ofRange s.source_pos s.source_lt, hs.source]
    · rw [offset_ofRange]
      refine Nat.lt_of_le_of_lt (Nat.min_le_left _ _) ?_
      exact Nat.lt_of_le_of_lt (Nat.min_le_left _ _) hs.inside
  · exact hs

end MiniJ.Span
