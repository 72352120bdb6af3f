import MiniJ.Proofs.Source.Span

/-!
# Packing and merging

The word of a span is put together by shifts and taken apart by masks, and no field of it reaches
into another one. Merging computes a length anew, which may be too long for its field. Cutting it
there is harmless: the spans of one program are merged in any order, as often as one likes, to the
same span.

## Main definitions

* `Span.Of` — the spans of one program.

## Main statements

* `Span.word_ofRange`, `Span.offset_eq_mask`, `Span.length_eq_mask` — fields by shifts and masks.
* `Span.Of.ext` — where a span of a program starts and stops is all there is to it.
* `Span.packs_and_merges` — the laws of packing and merging.
-/
namespace MiniJ.Span

variable {source offset length : Nat} {s t u : Span}

theorem clamp_lt (n : Nat) : clamp n < fieldLimit := by
  simp only [clamp, fieldLimit]
  omega

/-! ### Shifts and masks -/

/-- A number in front of `k` bits that another one fills. -/
theorem toNat_shift_or (high low k : Nat) (hk : k < 64) (hlow : low < 1 <<< k)
    (hword : high <<< k + low < UInt64.size) :
    (UInt64.ofNat high <<< UInt64.ofNat k ||| UInt64.ofNat low).toNat = high <<< k + low := by
  have hread : ∀ n < UInt64.size, (UInt64.ofNat n).toNat = n := fun n => UInt64.toNat_ofNat_of_lt'
  have hle : high ≤ high <<< k := by
    rw [Nat.shiftLeft_eq]
    exact Nat.le_mul_of_pos_right high (Nat.two_pow_pos k)
  rw [Nat.one_shiftLeft] at hlow
  rw [UInt64.toNat_or, UInt64.toNat_shiftLeft, hread high (by omega), hread low (by omega),
    hread k (by simp only [UInt64.size]; omega), Nat.mod_eq_of_lt hk,
    Nat.mod_eq_of_lt (Nat.lt_of_le_of_lt (Nat.le_add_right _ _) hword),
    Nat.shiftLeft_add_eq_or_of_lt hlow]

/-- The number of a program that fits its field, the length and the offset, each in bits of its
own. -/
theorem word_ofRange (h : source < 1048576) :
    (ofRange source offset length).word = UInt64.ofNat source <<< 44 |||
      (UInt64.ofNat (clamp length) <<< 22 ||| UInt64.ofNat (clamp offset)) := by
  have hlength : clamp length < 4194304 := clamp_lt length
  have hoffset : clamp offset < 4194304 := clamp_lt offset
  have hlow : (UInt64.ofNat (clamp length) <<< 22 ||| UInt64.ofNat (clamp offset)).toNat =
      clamp length <<< 22 + clamp offset :=
    toNat_shift_or _ _ 22 (by decide) hoffset (by simp only [Nat.shiftLeft_eq, UInt64.size]; omega)
  have hword := toNat_shift_or source (clamp length <<< 22 + clamp offset) 44 (by decide)
    (by simp only [Nat.shiftLeft_eq]; omega) (by simp only [Nat.shiftLeft_eq, UInt64.size]; omega)
  rw [← hlow, UInt64.ofNat_toNat] at hword
  refine UInt64.toNat_inj.1 (Eq.trans ?_ hword.symm)
  rw [hlow, ofRange, UInt64.toNat_ofNat']
  simp only [fieldLimit, Nat.shiftLeft_eq]
  omega

theorem offset_eq_mask (s : Span) : s.offset = (s.word &&& 4194303).toNat := by
  rw [UInt64.toNat_and]
  exact (Nat.and_two_pow_sub_one_eq_mod s.word.toNat 22).symm

theorem length_eq_mask (s : Span) : s.length = (s.word >>> 22 &&& 4194303).toNat := by
  rw [UInt64.toNat_and, UInt64.toNat_shiftRight, Nat.shiftRight_eq_div_pow]
  exact (Nat.and_two_pow_sub_one_eq_mod _ 22).symm

/-! ### Spans of one program -/

/-- The spans of one program: what its ranges are packed to, however far they reach. -/
def Of (source : SourceId) (s : Span) : Prop := ∃ offset length, s = ofRange source offset length

theorem of_ofRange : Of source (ofRange source offset length) := ⟨offset, length, rfl⟩

theorem length_lt (s : Span) : s.length < fieldLimit := Nat.mod_lt _ (by decide)

/-- A span of a program is the range it stands for. -/
theorem Of.eq_ofRange (hs : Of source s) : s = ofRange source s.offset s.length := by
  obtain ⟨offset, length, rfl⟩ := hs
  have hclamp : ∀ n, clamp (clamp n) = clamp n := fun n => clamp_of_lt (clamp_lt n)
  rw [offset_ofRange, length_ofRange, ofRange, ofRange, hclamp, hclamp]

theorem Of.ext (hs : Of source s) (ht : Of source t) (hoffset : s.offset = t.offset)
    (hstop : s.stop = t.stop) : s = t := by
  have hlength : s.length = t.length := by
    unfold stop at hstop
    omega
  rw [hs.eq_ofRange, ht.eq_ofRange, hoffset, hlength]

theorem Of.source_eq (hs : Of source s) (hpos : 0 < source) (hlt : source < 1048576) :
    s.source = source := by
  obtain ⟨offset, length, rfl⟩ := hs
  exact source_ofRange hpos hlt

/-! ### Merging -/

/-- Of two cuts the shorter one decides. -/
theorem min_max_min_of_le {stop stop' far near : Nat} (h : near ≤ far) :
    min (max (min stop far) stop') near = min (max stop stop') near := by
  omega

section Merging

variable (hpos : 0 < source) (hlt : source < 1048576)
include hpos hlt

theorem Of.merge_eq (hs : Of source s) (ht : Of source t) :
    s.merge t = ofRange source (min s.offset t.offset)
      (max s.stop t.stop - min s.offset t.offset) := by
  rw [Span.merge, hs.source_eq hpos hlt, ht.source_eq hpos hlt, if_pos (beq_self_eq_true source)]

theorem Of.merge (hs : Of source s) (ht : Of source t) : Of source (s.merge t) :=
  hs.merge_eq hpos hlt ht ▸ of_ofRange

theorem Of.offset_merge (hs : Of source s) (ht : Of source t) :
    (s.merge t).offset = min s.offset t.offset := by
  have hoffset := s.offset_lt
  rw [hs.merge_eq hpos hlt ht, offset_ofRange, clamp_of_lt (by omega)]

/-- A merged span stops with the later of the two, unless that is out of its reach. -/
theorem Of.stop_merge (hs : Of source s) (ht : Of source t) :
    (s.merge t).stop =
      min (max s.stop t.stop) (min s.offset t.offset + (fieldLimit - 1)) := by
  have hoffset := hs.offset_merge hpos hlt ht
  have hlength : (s.merge t).length = clamp (max s.stop t.stop - min s.offset t.offset) := by
    rw [hs.merge_eq hpos hlt ht, length_ofRange]
  rw [Span.stop, hoffset, hlength]
  simp only [clamp, Span.stop]
  omega

theorem Of.merge_comm (hs : Of source s) (ht : Of source t) : s.merge t = t.merge s := by
  refine (hs.merge hpos hlt ht).ext (ht.merge hpos hlt hs) ?_ ?_
  · rw [hs.offset_merge hpos hlt ht, ht.offset_merge hpos hlt hs, Nat.min_comm]
  · rw [hs.stop_merge hpos hlt ht, ht.stop_merge hpos hlt hs, Nat.min_comm s.offset,
      Nat.max_comm s.stop]

theorem Of.merge_assoc (hs : Of source s) (ht : Of source t) (hu : Of source u) :
    (s.merge t).merge u = s.merge (t.merge u) := by
  have hst := hs.merge hpos hlt ht
  have htu := ht.merge hpos hlt hu
  refine (hst.merge hpos hlt hu).ext (hs.merge hpos hlt htu) ?_ ?_
  · rw [hst.offset_merge hpos hlt hu, hs.offset_merge hpos hlt htu, hs.offset_merge hpos hlt ht,
      ht.offset_merge hpos hlt hu, Nat.min_assoc]
  · -- the inner cut is never shorter than the outer one, which starts no later
    have hleft : min (min s.offset t.offset) u.offset + (fieldLimit - 1) ≤
        min s.offset t.offset + (fieldLimit - 1) := Nat.add_le_add_right (Nat.min_le_left _ _) _
    have hright : min s.offset (min t.offset u.offset) + (fieldLimit - 1) ≤
        min t.offset u.offset + (fieldLimit - 1) := Nat.add_le_add_right (Nat.min_le_right _ _) _
    rw [hst.stop_merge hpos hlt hu, hs.stop_merge hpos hlt htu, hs.offset_merge hpos hlt ht,
      ht.offset_merge hpos hlt hu, hs.stop_merge hpos hlt ht, ht.stop_merge hpos hlt hu,
      min_max_min_of_le hleft, Nat.max_comm s.stop (min _ _), min_max_min_of_le hright,
      Nat.max_comm _ s.stop, Nat.max_assoc, Nat.min_assoc s.offset]

theorem Of.merge_self (hs : Of source s) : s.merge s = s := by
  have hlength := s.length_lt
  refine (hs.merge hpos hlt hs).ext hs ?_ ?_
  · rw [hs.offset_merge hpos hlt hs, Nat.min_self]
  · rw [hs.stop_merge hpos hlt hs, Nat.min_self, Nat.max_self, Span.stop]
    omega

end Merging

/-- The laws of packing and merging. A range of a program whose number fits its field is packed by
shifts, and number, offset and length are read back, the latter two cut to what their fields hold.
On the spans of that program, cut or not, merging takes the difference of two offsets that are in
order; it gives a span of the program that starts where the first starts and stops where the last
stops, or as far from its start as a span reaches; and it is commutative, associative and
idempotent. -/
theorem packs_and_merges {source : SourceId} (hpos : 0 < source) (hlt : source < 1048576) :
    (∀ offset length,
      (ofRange source offset length).word = UInt64.ofNat source <<< 44 |||
        (UInt64.ofNat (min length 4194303) <<< 22 ||| UInt64.ofNat (min offset 4194303)) ∧
      (ofRange source offset length).source = source ∧
      (ofRange source offset length).offset = min offset 4194303 ∧
      (ofRange source offset length).length = min length 4194303) ∧
    ∀ s t u, Of source s → Of source t → Of source u →
      Of source (s.merge t) ∧
      min s.offset t.offset ≤ max s.stop t.stop ∧
      (s.merge t).offset = min s.offset t.offset ∧
      (s.merge t).stop = min (max s.stop t.stop) ((s.merge t).offset + 4194303) ∧
      s.merge t = t.merge s ∧
      (s.merge t).merge u = s.merge (t.merge u) ∧
      s.merge s = s := by
  refine ⟨fun offset length => ⟨word_ofRange hlt, source_ofRange hpos hlt, offset_ofRange,
    length_ofRange⟩, fun s t u hs ht hu => ?_⟩
  refine ⟨hs.merge hpos hlt ht, ?_, hs.offset_merge hpos hlt ht, ?_, hs.merge_comm hpos hlt ht,
    hs.merge_assoc hpos hlt ht hu, hs.merge_self hpos hlt⟩
  · unfold stop
    omega
  · rw [hs.offset_merge hpos hlt ht]
    exact hs.stop_merge hpos hlt ht

/-- Three ranges of a long program: the first two are cut, and what they merge to is cut again. -/
theorem long_ranges_merge :
    (0 < 2 ∧ 2 < 1048576) ∧
    ((ofRange 2 5000000 9).merge (ofRange 2 7 5000000)).merge (ofRange 2 3 1) =
      (ofRange 2 5000000 9).merge ((ofRange 2 7 5000000).merge (ofRange 2 3 1)) ∧
    ((ofRange 2 5000000 9).merge (ofRange 2 7 5000000)).stop = 4194310 := by
  obtain ⟨-, -, -, hstop, -, hassoc, -⟩ :=
    (packs_and_merges (by decide : 0 < 2) (by decide)).2 (ofRange 2 5000000 9)
      (ofRange 2 7 5000000) (ofRange 2 3 1) of_ofRange of_ofRange of_ofRange
  exact ⟨by decide, hassoc, hstop.trans (by decide)⟩

end MiniJ.Span
