import MiniJ.Text.Decode
import MiniJ.Text.Quoted

/-!
# Texts on one line

Texts without a newline: numbers, quoted texts, and what is put together from such texts. When bytes
are read, a newline comes from a newline byte only.
-/
namespace MiniJ.Text

/-- A text without a newline. -/
def IsLine (s : String) : Prop := '\n' ∉ s.toList

instance (s : String) : Decidable (IsLine s) := inferInstanceAs (Decidable ¬_)

/-- A literal is the list of its characters, so there is no need to decode it. -/
theorem isLine_ofList {cs : List Char} (h : '\n' ∉ cs) : IsLine (String.ofList cs) := by
  rwa [IsLine, String.toList_ofList]

@[simp] theorem isLine_append {s t : String} : IsLine (s ++ t) ↔ IsLine s ∧ IsLine t := by
  simp [IsLine]

theorem isLine_join {texts : List String} (h : ∀ s ∈ texts, IsLine s) :
    IsLine (String.join texts) := by
  induction texts with
  | nil => decide
  | cons s texts ih =>
    rw [String.join_cons, isLine_append]
    exact ⟨h s (by simp), ih fun t ht => h t (by simp [ht])⟩

theorem isLine_intercalate {texts : List String} {separator : String}
    (hseparator : IsLine separator)
    (h : ∀ s ∈ texts, IsLine s) : IsLine (separator.intercalate texts) := by
  induction texts with
  | nil =>
    rw [String.intercalate_nil]
    decide
  | cons s texts ih =>
    cases texts with
    | nil => simpa using h s (by simp)
    | cons t rest =>
      rw [String.intercalate_cons_cons, isLine_append, isLine_append]
      exact ⟨⟨h s (by simp), hseparator⟩, ih fun u hu => h u (by simp [hu])⟩

theorem not_mem_toDigits {b : Nat} (hb : 1 < b) (n : Nat) : '\n' ∉ Nat.toDigits b n := by
  induction n using Nat.strongRecOn with
  | ind n ih =>
    rw [Nat.toDigits_eq_if hb]
    split
    · simp
    · next hge => simpa using ih _ (Nat.div_lt_self (by omega) hb)

@[simp] theorem isLine_toString_nat (n : Nat) : IsLine (toString n) := by
  rw [Nat.toString_eq_ofList_toDigits]
  simpa [IsLine] using not_mem_toDigits (by decide) n

@[simp] theorem isLine_toString_int (n : Int) : IsLine (toString n) := by
  cases n with
  | ofNat m => exact isLine_toString_nat m
  | negSucc m =>
    have h : toString (Int.negSucc m) = "-" ++ toString (m + 1) := rfl
    rw [h, isLine_append]
    exact ⟨by decide, isLine_toString_nat _⟩

theorem isLine_quoteChar (c : Char) : IsLine (quoteChar c) := by
  unfold quoteChar
  split
  any_goals decide
  · next hnewline _ _ =>
    split
    · simp only [isLine_append]
      refine ⟨⟨by decide, ?_⟩, by decide⟩
      simpa [IsLine, hex] using not_mem_toDigits (by decide) _
    · simpa [IsLine] using fun h => hnewline h.symm

@[simp] theorem isLine_quote (s : String) : IsLine (quote s) := by
  simp only [quote, isLine_append]
  refine ⟨⟨by decide, isLine_join fun t ht => ?_⟩, by decide⟩
  obtain ⟨c, -, rfl⟩ := List.mem_map.1 ht
  exact isLine_quoteChar c

/-! ### Reading bytes -/

/-- The second byte of a longer form excludes small numbers. -/
theorem isSecond_le {b c : UInt8} (h : isSecond b c = true) :
    (b.toNat = 224 → 32 ≤ payload c) ∧ (b.toNat = 240 → 16 ≤ payload c) := by
  unfold payload
  constructor
  · intro hb
    rw [show b = 224 from UInt8.toNat_inj.1 hb] at h
    simp [isSecond, UInt8.le_iff_toNat_le] at h
    omega
  · intro hb
    rw [show b = 240 from UInt8.toNat_inj.1 hb] at h
    simp [isSecond, UInt8.le_iff_toNat_le] at h
    omega

/-- A byte is the number of its character. -/
theorem toNat_ofNat_toNat (b : UInt8) : (Char.ofNat b.toNat).toNat = b.toNat := by
  have hvalid : b.toNat.isValidChar := .inl (Nat.lt_trans b.toNat_lt (by decide))
  rw [Char.ofNat, dif_pos hvalid]
  rfl

theorem ofNat_ne_newline {n : Nat} (h : n ≠ 10) : Char.ofNat n ≠ '\n' := by
  intro heq
  by_cases hvalid : n.isValidChar
  · rw [Char.ofNat, dif_pos hvalid] at heq
    exact h (congrArg Char.toNat heq)
  · rw [Char.ofNat, dif_neg hvalid] at heq
    exact absurd heq (by decide)

/-- Only the newline byte is read as a newline. -/
theorem decodeNext_ne {b : UInt8} {rest : List UInt8} (h : b ≠ 10) :
    (decodeNext b rest).1 ≠ some '\n' := by
  have hchar : ∀ n, n ≠ 10 → some (Char.ofNat n) ≠ some '\n' := fun n hn heq =>
    ofNat_ne_newline hn (Option.some.inj heq)
  unfold decodeNext
  split
  · exact hchar _ fun heq => h (UInt8.toNat_inj.1 heq)
  · split
    · next hlead =>
      simp only [Bool.and_eq_true, decide_eq_true_eq, UInt8.le_iff_toNat_le] at hlead
      have hlow : 194 ≤ b.toNat := hlead.1
      split
      · split
        · exact hchar _ (by omega)
        · simp
      · simp
    · split
      · next hlead =>
        simp only [Bool.and_eq_true, decide_eq_true_eq, UInt8.le_iff_toNat_le] at hlead
        have hlow : 224 ≤ b.toNat := hlead.1
        split
        · next c _ _ =>
          split
          · simp
          · next hsecond =>
            have hle := (isSecond_le (by simpa using hsecond)).1
            split
            · exact hchar _ (by omega)
            · simp
        · simp
        · simp
      · split
        · next hlead =>
          simp only [Bool.and_eq_true, decide_eq_true_eq, UInt8.le_iff_toNat_le] at hlead
          have hlow : 240 ≤ b.toNat := hlead.1
          split
          · split
            · simp
            · next hsecond =>
              have hle := (isSecond_le (by simpa using hsecond)).2
              split
              · simp
              · split
                · exact hchar _ (by omega)
                · simp
          · simp
          · simp
          · simp
        · simp

end MiniJ.Text
