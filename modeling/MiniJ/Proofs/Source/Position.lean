import MiniJ.Source.File

/-!
# Lines and columns

The line of an offset is one more than the number of newlines in front of it, and the column counts
from the byte behind the last of them. Line starts ascend, so the line can be found by any search
that splits them into those up to the offset and those behind it. All of them are words of 32 bits:
what is said here of numbers holds of the words as long as the numbers fit.

## Main definitions

* `SourceFile.StartsLine` — where the line of an offset starts.
* `SourceFile.Numbered`, `SourceFile.Placed` — programs and offsets within the range of the words.

## Main statements

* `SourceFile.position_exact` — lines and columns of all offsets within the range.
* `SourceFile.position_overflows` — what happens at its end.
-/
namespace MiniJ

namespace SourceFile

variable {f : SourceFile} {bytes : List UInt8} {pos offset start : Nat}

/-! ### Ascending lists -/

/-- The first element of an ascending list that is too large splits it. -/
theorem le_iff_lt_length_takeWhile {l : List Nat} (h : l.Pairwise (· < ·)) {n i x : Nat}
    (hx : l[i]? = some x) : x ≤ n ↔ i < (l.takeWhile (· ≤ n)).length := by
  induction l generalizing i with
  | nil => simp at hx
  | cons y rest ih =>
    obtain ⟨hy, hrest⟩ := List.pairwise_cons.1 h
    by_cases hle : y ≤ n
    · rw [List.takeWhile_cons_of_pos (by simpa using hle), List.length_cons]
      cases i with
      | zero =>
        obtain rfl : y = x := by simpa using hx
        simp [hle]
      | succ i =>
        rw [ih hrest (by simpa using hx)]
        omega
    · rw [List.takeWhile_cons_of_neg (by simpa using hle), List.length_nil]
      refine iff_of_false (fun hxn => ?_) (Nat.not_lt_zero i)
      cases i with
      | zero =>
        obtain rfl : y = x := by simpa using hx
        exact hle hxn
      | succ i =>
        have := hy x (List.mem_of_getElem? (by simpa using hx))
        omega

/-! ### Newlines -/

theorem newlines_cons (pos : Nat) (b : UInt8) (rest : List UInt8) :
    newlines pos (b :: rest) =
      if b == 10 then pos :: newlines (pos + 1) rest else newlines (pos + 1) rest := by
  unfold newlines
  rw [List.zipIdx_cons, List.filterMap_cons]
  by_cases h : b == 10 <;> simp [h]

theorem mem_newlines {i : Nat} :
    i ∈ newlines pos bytes ↔ ∃ j, bytes[j]? = some 10 ∧ i = pos + j := by
  induction bytes generalizing pos with
  | nil => simp [newlines]
  | cons b rest ih =>
    have hsplit : (∃ j, (b :: rest)[j]? = some 10 ∧ i = pos + j) ↔
        (b = 10 ∧ i = pos) ∨ ∃ j, rest[j]? = some 10 ∧ i = pos + 1 + j := by
      constructor
      · rintro ⟨_ | j, hb, rfl⟩
        · exact .inl ⟨by simpa using hb, rfl⟩
        · exact .inr ⟨j, by simpa using hb, by omega⟩
      · rintro (⟨rfl, rfl⟩ | ⟨j, hb, rfl⟩)
        · exact ⟨0, rfl, rfl⟩
        · exact ⟨j + 1, by simpa using hb, by omega⟩
    rw [newlines_cons, hsplit, ← ih]
    by_cases h : b = 10 <;> simp [h]

theorem newlines_ascend (pos : Nat) (bytes : List UInt8) :
    (newlines pos bytes).Pairwise (· < ·) := by
  induction bytes generalizing pos with
  | nil => exact .nil
  | cons b rest ih =>
    rw [newlines_cons]
    split
    · refine List.pairwise_cons.2 ⟨fun i hi => ?_, ih (pos + 1)⟩
      obtain ⟨j, -, rfl⟩ := mem_newlines.1 hi
      omega
    · exact ih (pos + 1)

/-- The newlines in front of an offset. -/
theorem length_takeWhile_newlines (pos : Nat) (bytes : List UInt8) (offset : Nat) :
    ((newlines pos bytes).takeWhile (· < offset)).length =
    (bytes.take (offset - pos)).count 10 := by
  induction bytes generalizing pos with
  | nil => simp [newlines]
  | cons b rest ih =>
    by_cases hlt : pos < offset
    · have hstep : offset - pos = (offset - (pos + 1)) + 1 := by omega
      rw [newlines_cons, hstep, List.take_succ_cons, List.count_cons, ← ih]
      by_cases h : b = 10 <;> simp [h, hlt]
    · have hnone : (newlines pos (b :: rest)).takeWhile (· < offset) = [] := by
        cases hnewlines : newlines pos (b :: rest) with
        | nil => rfl
        | cons i _ =>
          obtain ⟨j, -, rfl⟩ := mem_newlines.1 (hnewlines ▸ List.mem_cons_self)
          exact List.takeWhile_cons_of_neg (by simp; omega)
      have hzero : offset - pos = 0 := by omega
      rw [hnone, hzero]
      rfl

/-! ### Line starts -/

/-- Where lines start, as numbers. -/
def starts (f : SourceFile) : List Nat := 0 :: (newlines 0 f.bytes).map (· + 1)

/-- The number of newlines in front of an offset. -/
def newlinesBefore (f : SourceFile) (offset : Nat) : Nat := (f.bytes.take offset).count 10

theorem mem_starts : start ∈ f.starts ↔ start = 0 ∨ ∃ i, f.bytes[i]? = some 10 ∧ start = i + 1 := by
  simp [starts, mem_newlines, eq_comm]

theorem starts_ascend (f : SourceFile) : f.starts.Pairwise (· < ·) := by
  refine List.pairwise_cons.2 ⟨fun s hs => ?_, List.pairwise_map.2 ?_⟩
  · obtain ⟨i, -, rfl⟩ := List.mem_map.1 hs
    omega
  · exact (newlines_ascend 0 f.bytes).imp fun hlt => by omega

theorem length_takeWhile_starts (f : SourceFile) (offset : Nat) :
    (f.starts.takeWhile (· ≤ offset)).length = 1 + f.newlinesBefore offset := by
  have hcount := length_takeWhile_newlines 0 f.bytes offset
  have hsame : (fun s : Nat => decide (s ≤ offset)) ∘ (· + 1) = fun i => decide (i < offset) := by
    funext i
    exact decide_eq_decide.2 Nat.succ_le_iff
  rw [starts, List.takeWhile_cons_of_pos (by simp), List.length_cons, List.takeWhile_map,
    List.length_map, hsame, hcount, newlinesBefore, Nat.sub_zero, Nat.add_comm]

/-- The line starts up to an offset are those of the lines up to its line. -/
theorem starts_le_iff {i : Nat} (h : f.starts[i]? = some start) (offset : Nat) :
    start ≤ offset ↔ i < 1 + f.newlinesBefore offset := by
  rw [← length_takeWhile_starts]
  exact le_iff_lt_length_takeWhile f.starts_ascend h

/-- Where the line of an offset starts: behind a newline or at the start of the text, with no
newline from there to the offset. -/
structure StartsLine (f : SourceFile) (offset start : Nat) : Prop where
  le : start ≤ offset
  behind : start = 0 ∨ ∃ i, f.bytes[i]? = some 10 ∧ start = i + 1
  last : ∀ i, start ≤ i → i < offset → f.bytes[i]? ≠ some 10

/-- The line of an offset has a start, which is the last one up to the offset. -/
theorem exists_start (f : SourceFile) (offset : Nat) :
    ∃ start, f.starts[f.newlinesBefore offset]? = some start ∧ f.StartsLine offset start ∧
      (f.starts.takeWhile (· ≤ offset)).getLast? = some start := by
  have hlength := f.length_takeWhile_starts offset
  obtain ⟨start, hlast⟩ :
      ∃ start, (f.starts.takeWhile (· ≤ offset))[f.newlinesBefore offset]? = some start :=
    ⟨_, List.getElem?_eq_getElem (by omega)⟩
  have hstart : f.starts[f.newlinesBefore offset]? = some start := by
    obtain ⟨rest, hrest⟩ := List.takeWhile_prefix (l := f.starts) (fun s => decide (s ≤ offset))
    rw [← hrest, List.getElem?_append_left (by omega)]
    exact hlast
  have hle : start ≤ offset := (starts_le_iff hstart offset).2 (by omega)
  refine ⟨start, hstart, ⟨hle, mem_starts.1 (List.mem_of_getElem? hstart), ?_⟩, ?_⟩
  · -- a newline behind the start would start a later line that still is one of those up to the
    -- offset
    intro i hi hio hb
    obtain ⟨j, hj⟩ := List.getElem?_of_mem (mem_starts.2 (.inr ⟨i, hb, rfl⟩) : i + 1 ∈ f.starts)
    have hjlt := (starts_le_iff hj offset).1 (by omega)
    have hnext := (starts_le_iff hj start).2
    have hsame := (starts_le_iff hstart start).1 (Nat.le_refl _)
    omega
  · rw [List.getLast?_eq_getElem?, hlength, Nat.add_sub_cancel_left]
    exact hlast

/-! ### Words -/

theorem toNat_toUInt32 {n : Nat} (h : n < 4294967296) : n.toUInt32.toNat = n :=
  UInt32.toNat_ofNat_of_lt' h

theorem next_eq_ok {n m : UInt32} : next n = .ok m ↔ m.toNat = n.toNat + 1 := by
  have hn := n.toNat_lt
  have hm := m.toNat_lt
  rw [next]
  split
  · next heq =>
    rw [heq]
    refine ⟨nofun, fun h => ?_⟩
    simp only [UInt32.reduceToNat] at h
    omega
  · next hne =>
    have hlt : n.toNat ≠ 4294967295 := fun h => hne (UInt32.toNat_inj.1 h)
    have hsum : (n + 1).toNat = n.toNat + 1 := by
      rw [UInt32.toNat_add]
      simp only [UInt32.reduceToNat]
      omega
    rw [Except.ok.injEq, ← UInt32.toNat_inj, hsum]
    exact eq_comm

/-- All lines start at a word. -/
def Numbered (f : SourceFile) : Prop := ∀ i : Nat, f.bytes[i]? = some 10 → i < 4294967295

/-- Line and column of an offset are words: those of all words but the last one are, and those of
the last one unless no newline, or nothing but newlines, stand in front of it. -/
def Placed (f : SourceFile) (offset : UInt32) : Prop :=
  offset.toNat < 4294967295 ∨
    0 < f.newlinesBefore offset.toNat ∧ f.newlinesBefore offset.toNat < 4294967295

/-- The words are the numbers if these fit. -/
theorem Numbered.exists_lineStarts (h : f.Numbered) :
    ∃ words, f.lineStarts = .ok words ∧ words.map UInt32.toNat = f.starts := by
  have hmapM : ∀ is : List Nat, (∀ i ∈ is, i < 4294967295) → ∃ words : List UInt32,
      is.mapM (fun i => next i.toUInt32) = .ok words ∧ words.map UInt32.toNat = is.map (· + 1) := by
    intro is hlt
    induction is with
    | nil => exact ⟨[], rfl, rfl⟩
    | cons i is ih =>
      obtain ⟨words, hwords, hmap⟩ := ih fun j hj => hlt j (by simp [hj])
      have hi := hlt i (by simp)
      have hword : i.toUInt32.toNat = i := toNat_toUInt32 (by omega)
      have hsucc : (i + 1).toUInt32.toNat = i + 1 := toNat_toUInt32 (by omega)
      have hnext : next i.toUInt32 = .ok (i + 1).toUInt32 := next_eq_ok.2 (by rw [hword, hsucc])
      exact ⟨(i + 1).toUInt32 :: words, by rw [List.mapM_cons, hnext, hwords]; rfl,
        by rw [List.map_cons, List.map_cons, hsucc, hmap]⟩
  obtain ⟨words, hwords, hmap⟩ := hmapM (newlines 0 f.bytes) fun i hi => by
    obtain ⟨j, hj, rfl⟩ := mem_newlines.1 hi
    rw [Nat.zero_add]
    exact h j hj
  exact ⟨0 :: words, by rw [lineStarts, hwords]; rfl, by rw [List.map_cons, hmap]; rfl⟩

/-- The words up to an offset are the starts of the lines up to its line. -/
theorem word_le_iff {words : List UInt32} (hmap : words.map UInt32.toNat = f.starts) {i : Nat}
    {word : UInt32} (h : words[i]? = some word) (offset : Nat) :
    word.toNat ≤ offset ↔ i < 1 + f.newlinesBefore offset :=
  starts_le_iff (by rw [← hmap, List.getElem?_map, h]; rfl) offset

theorem position_of_lineStarts {words : List UInt32} (hwords : f.lineStarts = .ok words)
    (offset : UInt32) : f.position offset = (do
      let column ← next (offset - (words.takeWhile (· ≤ offset)).getLast?.getD 0)
      return ((words.takeWhile (· ≤ offset)).length.toUInt32, column)) := by
  rw [position, hwords]
  rfl

/-- Every word but the last one has a position. -/
theorem exists_position {words : List UInt32} (hwords : f.lineStarts = .ok words)
    {offset : UInt32} (hlt : offset.toNat < 4294967295) : ∃ p, f.position offset = .ok p := by
  rw [position_of_lineStarts hwords]
  generalize hlast : (words.takeWhile (· ≤ offset)).getLast?.getD 0 = start
  have hle : start ≤ offset := by
    cases hfound : (words.takeWhile (· ≤ offset)).getLast? with
    | none =>
      rw [hfound] at hlast
      exact hlast ▸ UInt32.le_iff_toNat_le.2 (Nat.zero_le _)
    | some word =>
      rw [hfound] at hlast
      obtain rfl : word = start := hlast
      have hall : (words.takeWhile (· ≤ offset)).all (· ≤ offset) = true := List.all_takeWhile
      exact of_decide_eq_true (List.all_eq_true.1 hall word (List.mem_of_getLast? hfound))
  have hsub : (offset - start).toNat = offset.toNat - start.toNat := UInt32.toNat_sub_of_le _ _ hle
  have hne : offset - start ≠ 4294967295 := fun heq => by
    rw [heq] at hsub
    simp only [UInt32.reduceToNat] at hsub
    omega
  rw [next, if_neg hne]
  exact ⟨_, rfl⟩

/-- The position of an offset, by the word at which its line starts. -/
theorem exists_word_start {words : List UInt32} (hwords : f.lineStarts = .ok words)
    (hmap : words.map UInt32.toNat = f.starts) (offset : UInt32) : ∃ start : UInt32,
      words[f.newlinesBefore offset.toNat]? = some start ∧
      f.StartsLine offset.toNat start.toNat ∧
      f.position offset = (do
        let column ← next (offset - start)
        return ((1 + f.newlinesBefore offset.toNat).toUInt32, column)) := by
  obtain ⟨start, hstart, hline, hlast⟩ := f.exists_start offset.toNat
  have hprefix : (words.takeWhile (· ≤ offset)).map UInt32.toNat =
      f.starts.takeWhile (· ≤ offset.toNat) := by
    rw [← hmap, List.takeWhile_map]
    rfl
  have hlength := f.length_takeWhile_starts offset.toNat
  rw [← hprefix, List.length_map] at hlength
  rw [← hprefix, List.getLast?_map, Option.map_eq_some_iff] at hlast
  obtain ⟨word, hword, rfl⟩ := hlast
  rw [← hmap, List.getElem?_map, Option.map_eq_some_iff] at hstart
  obtain ⟨word', hword', hsame⟩ := hstart
  obtain rfl := UInt32.toNat_inj.1 hsame
  refine ⟨word', hword', hline, ?_⟩
  rw [position_of_lineStarts hwords, hword, hlength]
  rfl

/-! ### Positions -/

/-- The position of an offset within the range. -/
theorem Placed.position {words : List UInt32} (hwords : f.lineStarts = .ok words)
    (hmap : words.map UInt32.toNat = f.starts) {offset : UInt32} (h : f.Placed offset) :
    ∃ line column start, f.position offset = .ok (line, column) ∧
      line.toNat = 1 + f.newlinesBefore offset.toNat ∧
      words[f.newlinesBefore offset.toNat]? = some start ∧
      f.StartsLine offset.toNat start.toNat ∧
      column.toNat = 1 + (offset.toNat - start.toNat) := by
  obtain ⟨start, hstart, hline, hposition⟩ := exists_word_start hwords hmap offset
  have hle := hline.le
  have hoffset := offset.toNat_lt
  have hcount : f.newlinesBefore offset.toNat ≤ offset.toNat :=
    Nat.le_trans List.count_le_length (List.length_take_le _ _)
  have hfirst : f.newlinesBefore offset.toNat ≠ 0 → start.toNat ≠ 0 := by
    intro hne hzero
    have hfollow := (word_le_iff hmap hstart 0).1 (by omega)
    simp only [newlinesBefore, List.take_zero, List.count_nil] at hfollow hne
    omega
  have hsub : (offset - start).toNat = offset.toNat - start.toNat :=
    UInt32.toNat_sub_of_le _ _ (UInt32.le_iff_toNat_le.2 hle)
  have hwords' : (1 + f.newlinesBefore offset.toNat).toUInt32.toNat =
      1 + f.newlinesBefore offset.toNat := by
    refine toNat_toUInt32 ?_
    rcases h with h | h <;> omega
  have hcolumn : (1 + (offset.toNat - start.toNat)).toUInt32.toNat =
      1 + (offset.toNat - start.toNat) := by
    refine toNat_toUInt32 ?_
    rcases h with h | h <;> omega
  refine ⟨_, (1 + (offset.toNat - start.toNat)).toUInt32, start, ?_, hwords', hstart, hline,
    hcolumn⟩
  have hnext : next (offset - start) = .ok (1 + (offset.toNat - start.toNat)).toUInt32 :=
    next_eq_ok.2 (by omega)
  rw [hposition, hnext]
  rfl

/-- Later offsets have later positions. -/
theorem position_lt {words : List UInt32} (hwords : f.lineStarts = .ok words)
    (hmap : words.map UInt32.toNat = f.starts) {offset offset' : UInt32} {p p' : UInt32 × UInt32}
    (h : f.Placed offset) (h' : f.Placed offset') (hp : f.position offset = .ok p)
    (hp' : f.position offset' = .ok p') (hlt : offset < offset') :
    Prod.Lex (· < ·) (· < ·) p p' := by
  obtain ⟨line, column, start, hposition, hline, hstart, ⟨hle, -, -⟩, hcolumn⟩ :=
    h.position hwords hmap
  obtain ⟨line', column', start', hposition', hline', hstart', ⟨hle', -, -⟩, hcolumn'⟩ :=
    h'.position hwords hmap
  cases hp.symm.trans hposition
  cases hp'.symm.trans hposition'
  rw [UInt32.lt_iff_toNat_lt] at hlt
  have hnext := (word_le_iff hmap hstart offset'.toNat).1 (by omega)
  rw [Prod.lex_def]
  by_cases heq : line = line'
  · have hsame : f.newlinesBefore offset.toNat = f.newlinesBefore offset'.toNat := by
      rw [heq] at hline
      omega
    rw [hsame, hstart'] at hstart
    obtain rfl := Option.some.inj hstart
    exact .inr ⟨heq, UInt32.lt_iff_toNat_lt.2 (by dsimp only; omega)⟩
  · refine .inl (UInt32.lt_iff_toNat_lt.2 ?_)
    have hne : line.toNat ≠ line'.toNat := fun h => heq (UInt32.toNat_inj.1 h)
    dsimp only
    omega

/-- Lines and columns of all offsets within the range of the words, also of those behind the end of
the program. Line starts ascend and none of them lies behind the end. The line of an offset is one
more than the number of newlines in front of it; it is where the line starts up to the offset end,
the entry in front of which is the start of the line, and the column is one more than the distance
to there. So the offset is read back from its position, different offsets have different positions,
and positions are ordered as their offsets are. -/
theorem position_exact (f : SourceFile) (hnumbered : f.Numbered) :
    ∃ starts, f.lineStarts = .ok starts ∧ starts.Pairwise (· < ·) ∧
    (∀ start ∈ starts, start.toNat ≤ f.bytes.length) ∧
    (∀ offset, f.Placed offset → ∃ line column start, f.position offset = .ok (line, column) ∧
      line.toNat = 1 + (f.bytes.take offset.toNat).count 10 ∧
      (∀ i s, starts[i]? = some s → (s ≤ offset ↔ i < line.toNat)) ∧
      starts[line.toNat - 1]? = some start ∧ f.StartsLine offset.toNat start.toNat ∧
      column.toNat = 1 + (offset.toNat - start.toNat) ∧
      offset.toNat = start.toNat + column.toNat - 1) ∧
    (∀ offset offset', f.Placed offset → f.Placed offset' →
      f.position offset = f.position offset' → offset = offset') ∧
    ∀ offset offset' p p', f.Placed offset → f.Placed offset' → f.position offset = .ok p →
      f.position offset' = .ok p' → (offset < offset' ↔ Prod.Lex (· < ·) (· < ·) p p') := by
  obtain ⟨words, hwords, hmap⟩ := hnumbered.exists_lineStarts
  have hascend : words.Pairwise (· < ·) := by
    have hnumbers := f.starts_ascend
    rw [← hmap, List.pairwise_map] at hnumbers
    exact hnumbers.imp UInt32.lt_iff_toNat_lt.2
  refine ⟨words, hwords, hascend, fun start hstart => ?_, fun offset hplaced => ?_,
    fun offset offset' h h' heq => ?_, fun offset offset' p p' h h' hp hp' =>
      ⟨position_lt hwords hmap h h' hp hp', fun hlex => ?_⟩⟩
  · have hmem : start.toNat ∈ f.starts := hmap ▸ List.mem_map_of_mem hstart
    rcases mem_starts.1 hmem with hzero | ⟨i, hi, hsucc⟩
    · omega
    · have := (List.getElem?_eq_some_iff.1 hi).1
      omega
  · obtain ⟨line, column, start, hposition, hline, hstart, hstarts, hcolumn⟩ :=
      hplaced.position hwords hmap
    have hle := hstarts.le
    refine ⟨line, column, start, hposition, hline, fun i s hs => ?_, ?_, hstarts, hcolumn, by omega⟩
    · rw [UInt32.le_iff_toNat_le, hline]
      exact word_le_iff hmap hs offset.toNat
    · rw [hline, Nat.add_sub_cancel_left]
      exact hstart
  · obtain ⟨line, column, start, hposition, -⟩ := h.position hwords hmap
    have hposition' := heq.symm.trans hposition
    have hirrefl : ¬Prod.Lex (· < ·) (· < ·) (line, column) (line, column) := by
      rw [Prod.lex_def]
      simp
    rcases Nat.lt_trichotomy offset.toNat offset'.toNat with hlt | hsame | hlt
    · exact absurd (position_lt hwords hmap h h' hposition hposition'
        (UInt32.lt_iff_toNat_lt.2 hlt))
        hirrefl
    · exact UInt32.toNat_inj.1 hsame
    · exact absurd (position_lt hwords hmap h' h hposition' hposition
        (UInt32.lt_iff_toNat_lt.2 hlt))
        hirrefl
  · rcases Nat.lt_trichotomy offset.toNat offset'.toNat with hlt | hsame | hlt
    · exact UInt32.lt_iff_toNat_lt.2 hlt
    · obtain rfl := UInt32.toNat_inj.1 hsame
      cases hp.symm.trans hp'
      rw [Prod.lex_def] at hlex
      simp at hlex
    · have hback := position_lt hwords hmap h' h hp' hp (UInt32.lt_iff_toNat_lt.2 hlt)
      rw [Prod.lex_def] at hlex hback
      simp only [UInt32.lt_iff_toNat_lt, ← UInt32.toNat_inj] at hlex hback
      omega

/-- A program within the range, at its second line. -/
theorem second_line_exact : Numbered ⟨"a", [10, 65]⟩ ∧ ∃ line column start : UInt32,
    position ⟨"a", [10, 65]⟩ 2 = .ok (line, column) ∧ line = 2 ∧
      (SourceFile.mk "a" [10, 65]).StartsLine 2 start.toNat ∧
      column.toNat = 1 + (2 - start.toNat) := by
  have hnumbered : Numbered ⟨"a", [10, 65]⟩ := fun i hi => by
    have := (List.getElem?_eq_some_iff.1 hi).1
    simp only [List.length_cons, List.length_nil] at this
    omega
  obtain ⟨_, -, -, -, hpositions, -⟩ := position_exact ⟨"a", [10, 65]⟩ hnumbered
  obtain ⟨line, column, start, hposition, hline, -, -, hstart, hcolumn, -⟩ :=
    hpositions 2 (.inl (by decide))
  exact ⟨hnumbered, line, column, start, hposition, UInt32.toNat_inj.1 hline, hstart, hcolumn⟩

/-- An empty line, a line with text, and an end without a newline. -/
example : ([0, 1, 2, 3, 4].map (position ⟨"a", [10, 65, 10, 66]⟩)).map (·.toOption) =
    [some (1, 1), some (2, 1), some (2, 2), some (3, 1), some (3, 2)] := by decide

/-! ### The end of the range -/

theorem newlines_replicate {b : UInt8} (hb : b ≠ 10) (n pos : Nat) :
    newlines pos (List.replicate n b ++ [10]) = [pos + n] := by
  induction n generalizing pos with
  | zero => rfl
  | succ n ih =>
    rw [List.replicate_succ, List.cons_append, newlines_cons, if_neg (by simpa using hb), ih,
      Nat.add_assoc, Nat.add_comm 1]

theorem lineStarts_replicate {b : UInt8} (hb : b ≠ 10) (path : String) (n : Nat) :
    lineStarts ⟨path, List.replicate n b ++ [10]⟩ = (next n.toUInt32).map fun start =>
      [0, start] := by
  rw [lineStarts, newlines_replicate hb, Nat.zero_add, List.mapM_cons, List.mapM_nil]
  cases next n.toUInt32 <;> rfl

/-- Behind newlines only, the line is one more than their number, cut to a word. -/
theorem position_replicate (path : String) {n : Nat} (hn : n < 4294967296) :
    position ⟨path, List.replicate n 10⟩ n.toUInt32 = .ok ((1 + n).toUInt32, 1) := by
  have hword : n.toUInt32.toNat = n := toNat_toUInt32 hn
  have hnumbered : Numbered ⟨path, List.replicate n 10⟩ := fun i hi => by
    have := (List.getElem?_eq_some_iff.1 hi).1
    rw [List.length_replicate] at this
    omega
  obtain ⟨words, hwords, hmap⟩ := hnumbered.exists_lineStarts
  obtain ⟨start, -, ⟨hle, -, hlast⟩, hposition⟩ := exists_word_start hwords hmap n.toUInt32
  -- the last line starts at the end, or another newline would stand behind its start
  have hstart : start = n.toUInt32 := by
    rcases Nat.lt_or_ge start.toNat n with hlt | hge
    · exact absurd (by simp [hlt]) (hlast start.toNat (Nat.le_refl _) (hword.symm ▸ hlt))
    · exact UInt32.toNat_inj.1 (by omega)
  have hcount : newlinesBefore ⟨path, List.replicate n 10⟩ n = n := by
    simp [newlinesBefore]
  rw [hposition, hstart, UInt32.sub_self, hword, hcount]
  rfl

/-- In a program of one line, the column is the word behind the offset. -/
theorem position_of_one_line {f : SourceFile} (h : 10 ∉ f.bytes) (offset : UInt32) :
    position f offset = (next offset).map (1, ·) := by
  have hnone : newlines 0 f.bytes = [] := by
    refine List.eq_nil_iff_forall_not_mem.2 fun i hi => ?_
    obtain ⟨j, hj, -⟩ := mem_newlines.1 hi
    exact h (List.mem_of_getElem? hj)
  have hstarts : lineStarts f = .ok [0] := by rw [lineStarts, hnone, List.mapM_nil]; rfl
  have htaken : [(0 : UInt32)].takeWhile (· ≤ offset) = [0] := by simp
  have hposition : position f offset = (next (offset - 0) >>= fun column => .ok (1, column)) := by
    rw [position, hstarts]
    show (next (offset - ([(0 : UInt32)].takeWhile (· ≤ offset)).getLast?.getD 0) >>= _) = _
    rw [htaken]
    rfl
  rw [hposition, UInt32.sub_zero]
  cases next offset <;> rfl

/-- At the last word there is no column in a first line, and no line behind newlines only. A newline
at the last word has no line start behind it, and one behind that word is taken for one at the
front. Where a span starts, a byte too far behind has the column of another one. -/
theorem position_overflows :
    position ⟨"a.mj", []⟩ 4294967295 = .error .positionOverflow ∧
    position ⟨"a.mj", List.replicate 4294967295 10⟩ 4294967295 = .ok (0, 1) ∧
    lineStarts ⟨"a.mj", List.replicate 4294967295 32 ++ [10]⟩ = .error .positionOverflow ∧
    lineStarts ⟨"a.mj", List.replicate 4294967296 32 ++ [10]⟩ = .ok [0, 1] ∧
    position ⟨"prog.mj", List.replicate 4194305 32 ++ [64]⟩
      (Span.ofRange 2 4194305 1).offset.toUInt32 = .ok (1, 4194304) := by
  refine ⟨rfl, position_replicate "a.mj" (by decide), ?_, ?_, ?_⟩
  · exact lineStarts_replicate (by decide) "a.mj" 4294967295
  · exact lineStarts_replicate (by decide) "a.mj" 4294967296
  · have hline : ∀ n : Nat, 10 ∉ List.replicate n (32 : UInt8) ++ [64] := by simp
    rw [position_of_one_line (hline _)]
    rfl

end SourceFile

end MiniJ
