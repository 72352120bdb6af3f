import MiniJ.Text.Decode
import Mathlib.Tactic.SplitIfs

/-!
# Reading what was encoded

The UTF-8 form of a character is read back as this character, whatever follows it, so reading the
form of a text gives the text. Bytes below 128 stand for themselves and occur in no longer form.

## Main statements

* `Text.decodeLossy_bytes` — reading inverts encoding.
* `Text.mem_bytes` — the bytes of a longer form are at least 128.
-/
namespace MiniJ.Text

/-- UTF-8 form of some characters. -/
def bytes (cs : List Char) : List UInt8 := cs.flatMap String.utf8EncodeChar

@[simp] theorem bytes_nil : bytes [] = [] := rfl

theorem bytes_cons (c : Char) (cs : List Char) :
    bytes (c :: cs) = String.utf8EncodeChar c ++ bytes cs := List.flatMap_cons

@[simp] theorem bytes_append (cs ds : List Char) : bytes (cs ++ ds) = bytes cs ++ bytes ds :=
  List.flatMap_append

@[simp] theorem encode_ofList (cs : List Char) : encode (String.ofList cs) = bytes cs := by
  simp [encode, bytes]

/-! ### Characters of one byte -/

/-- Characters whose form is a single byte. -/
def IsAscii (c : Char) : Prop := c.val.toNat < 128

instance (c : Char) : Decidable (IsAscii c) := inferInstanceAs (Decidable (_ < _))

theorem encodeChar_of_isAscii {c : Char} (h : IsAscii c) :
    String.utf8EncodeChar c = [UInt8.ofNat c.toNat] := by
  unfold IsAscii at h
  simp only [String.utf8EncodeChar]
  rw [if_pos (by omega)]
  rfl

theorem bytes_cons_of_isAscii {c : Char} (cs : List Char) (h : IsAscii c) :
    bytes (c :: cs) = UInt8.ofNat c.toNat :: bytes cs := by
  rw [bytes_cons, encodeChar_of_isAscii h, List.singleton_append]

theorem bytes_of_forall_isAscii {cs : List Char} (h : ∀ c ∈ cs, IsAscii c) :
    bytes cs = cs.map fun c => UInt8.ofNat c.toNat := by
  induction cs with
  | nil => rfl
  | cons c cs ih =>
    rw [bytes_cons_of_isAscii cs (h c (by simp)), ih fun d hd => h d (by simp [hd]), List.map_cons]

/-- The bytes of a longer form are at least 128. -/
theorem mem_bytes {c : Char} (h : ¬IsAscii c) {b : UInt8} (hb : b ∈ String.utf8EncodeChar c) :
    128 ≤ b.toNat := by
  unfold IsAscii at h
  simp only [String.utf8EncodeChar] at hb
  rw [if_neg (by omega)] at hb
  split at hb
  · simp only [List.mem_cons, List.not_mem_nil, or_false] at hb
    rcases hb with rfl | rfl <;> simp only [UInt8.toNat_ofNat'] <;> omega
  · split at hb <;> simp only [List.mem_cons, List.not_mem_nil, or_false] at hb
    · rcases hb with rfl | rfl | rfl <;> simp only [UInt8.toNat_ofNat'] <;> omega
    · have hlimit : c.val.toNat < 1114112 := by
        have := c.valid
        rcases this with hlow | ⟨-, hhigh⟩
        · have : c.val.toNat < 55296 := hlow
          omega
        · exact hhigh
      rcases hb with rfl | rfl | rfl | rfl <;> simp only [UInt8.toNat_ofNat'] <;> omega

/-- A character of one byte is the only one whose form has this byte. -/
theorem mem_encodeChar_iff {c d : Char} (h : IsAscii c) :
    UInt8.ofNat c.toNat ∈ String.utf8EncodeChar d ↔ d = c := by
  have hnat : ∀ {e : Char}, IsAscii e → (UInt8.ofNat e.toNat).toNat = e.toNat := by
    intro e he
    have : e.toNat < 128 := he
    rw [UInt8.toNat_ofNat']
    omega
  constructor
  · intro hmem
    by_cases hd : IsAscii d
    · rw [encodeChar_of_isAscii hd, List.mem_singleton, ← UInt8.toNat_inj, hnat h, hnat hd] at hmem
      exact (Char.toNat_inj.1 hmem).symm
    · have hlarge := mem_bytes hd hmem
      have hsmall : c.toNat < 128 := h
      rw [hnat h] at hlarge
      omega
  · rintro rfl
    simp [encodeChar_of_isAscii h]

theorem mem_bytes_iff {c : Char} {cs : List Char} (h : IsAscii c) :
    UInt8.ofNat c.toNat ∈ bytes cs ↔ c ∈ cs := by
  simp [bytes, List.mem_flatMap, mem_encodeChar_iff h]

/-- What the first byte says about the first character. -/
theorem head?_bytes_append {c : Char} {cs : List Char} {rest : List UInt8} (h : IsAscii c)
    (hcs : cs ≠ []) (hhead : (bytes cs ++ rest).head? = some (UInt8.ofNat c.toNat)) :
    cs.head? = some c := by
  obtain ⟨d, cs, rfl⟩ := List.exists_cons_of_ne_nil hcs
  obtain ⟨b, tail, hform⟩ := List.exists_cons_of_ne_nil (String.utf8EncodeChar_ne_nil (c := d))
  rw [bytes_cons, hform, List.cons_append, List.cons_append, List.head?_cons,
    Option.some_inj] at hhead
  have hmem : UInt8.ofNat c.toNat ∈ String.utf8EncodeChar d := by simp [hform, hhead]
  rw [(mem_encodeChar_iff h).1 hmem, List.head?_cons]

/-! ### Reading back -/

variable {first b c d : UInt8} {rest : List UInt8}

theorem decodeNext_one (h : first.toNat < 0x80) :
    decodeNext first rest = (some (Char.ofNat first.toNat), 0) := by
  have hlow : first < 0x80 := UInt8.lt_iff_toNat_lt.2 h
  simp [decodeNext, hlow]

theorem decodeNext_two (h : 0xC2 ≤ first.toNat) (h' : first.toNat ≤ 0xDF)
    (hb : isContinuation b = true) : decodeNext first (b :: rest) =
      (some (Char.ofNat ((first.toNat - 0xC0) * 64 + payload b)), 1) := by
  have hlow : ¬first < 0x80 := by
    simp [UInt8.lt_iff_toNat_lt]
    omega
  have hlead : (0xC2 ≤ first && first ≤ 0xDF) = true := by
    simpa [UInt8.le_iff_toNat_le] using ⟨h, h'⟩
  rw [decodeNext, if_neg hlow, if_pos hlead]
  simp [hb]

theorem decodeNext_three (h : 0xE0 ≤ first.toNat) (h' : first.toNat ≤ 0xEF)
    (hb : isSecond first b = true) (hc : isContinuation c = true) :
    decodeNext first (b :: c :: rest) =
      (some (Char.ofNat (((first.toNat - 0xE0) * 64 + payload b) * 64 + payload c)), 2) := by
  have hlow : ¬first < 0x80 := by
    simp [UInt8.lt_iff_toNat_lt]
    omega
  have hlead : ¬(0xC2 ≤ first && first ≤ 0xDF) = true := by
    simp [UInt8.le_iff_toNat_le]
    omega
  have hlead' : (0xE0 ≤ first && first ≤ 0xEF) = true := by
    simpa [UInt8.le_iff_toNat_le] using ⟨h, h'⟩
  rw [decodeNext, if_neg hlow, if_neg hlead, if_pos hlead']
  simp [hb, hc]

theorem decodeNext_four (h : 0xF0 ≤ first.toNat) (h' : first.toNat ≤ 0xF4)
    (hb : isSecond first b = true) (hc : isContinuation c = true) (hd : isContinuation d = true) :
    decodeNext first (b :: c :: d :: rest) =
      (some (Char.ofNat ((((first.toNat - 0xF0) * 64 + payload b) * 64 + payload c) * 64 +
        payload d)), 3) := by
  have hlow : ¬first < 0x80 := by
    simp [UInt8.lt_iff_toNat_lt]
    omega
  have hlead : ¬(0xC2 ≤ first && first ≤ 0xDF) = true := by
    simp [UInt8.le_iff_toNat_le]
    omega
  have hlead' : ¬(0xE0 ≤ first && first ≤ 0xEF) = true := by
    simp [UInt8.le_iff_toNat_le]
    omega
  have hlead'' : (0xF0 ≤ first && first ≤ 0xF4) = true := by
    simpa [UInt8.le_iff_toNat_le] using ⟨h, h'⟩
  rw [decodeNext, if_neg hlow, if_neg hlead, if_neg hlead', if_pos hlead'']
  simp [hb, hc, hd]

theorem isContinuation_iff : isContinuation b = true ↔ 0x80 ≤ b.toNat ∧ b.toNat ≤ 0xBF := by
  simp [isContinuation, UInt8.le_iff_toNat_le]

/-- The second byte is in range when the form is not overlong, no surrogate and not too large. -/
theorem isSecond_of_ranges (hb : isContinuation b = true)
    (hE0 : first.toNat = 0xE0 → 0xA0 ≤ b.toNat)
    (hED : first.toNat = 0xED → b.toNat ≤ 0x9F) (hF0 : first.toNat = 0xF0 → 0x90 ≤ b.toNat)
    (hF4 : first.toNat = 0xF4 → b.toNat ≤ 0x8F) : isSecond first b = true := by
  have hrange := isContinuation_iff.1 hb
  have heq : ∀ k : UInt8, (first == k) = true ↔ first.toNat = k.toNat := by
    intro k
    rw [beq_iff_eq, UInt8.toNat_inj]
  simp only [isSecond, heq, UInt8.reduceToNat]
  split_ifs with h0 h1 h2 h3
  · simpa [UInt8.le_iff_toNat_le] using ⟨hE0 h0, hrange.2⟩
  · simpa [UInt8.le_iff_toNat_le] using ⟨hrange.1, hED h1⟩
  · simpa [UInt8.le_iff_toNat_le] using ⟨hF0 h2, hrange.2⟩
  · simpa [UInt8.le_iff_toNat_le] using ⟨hrange.1, hF4 h3⟩
  · exact hb

/-- The form of a character is read as this character, whatever follows it. -/
theorem decodeNext_encodeChar (c : Char) (rest : List UInt8) :
    ∃ first tail, String.utf8EncodeChar c = first :: tail ∧
      decodeNext first (tail ++ rest) = (some c, tail.length) := by
  have hvalid : c.toNat < 55296 ∨ 57343 < c.toNat ∧ c.toNat < 1114112 := c.valid
  have hchar : ∀ {n}, n = c.toNat → Char.ofNat n = c := by
    rintro n rfl
    exact Char.ofNat_toNat c
  have hnat : ∀ {n}, n < 256 → (UInt8.ofNat n).toNat = n := by
    intro n hn
    rw [UInt8.toNat_ofNat', Nat.mod_eq_of_lt hn]
  have hcont : ∀ n, isContinuation (UInt8.ofNat (n % 64 + 128)) = true := by
    intro n
    rw [isContinuation_iff, hnat (by omega)]
    omega
  have hval : c.val.toNat = c.toNat := rfl
  simp only [String.utf8EncodeChar, hval]
  split_ifs with h1 h2 h3
  · refine ⟨_, _, rfl, ?_⟩
    rw [decodeNext_one (by rw [hnat (by omega)]; omega), hchar (hnat (by omega))]
    rfl
  · refine ⟨_, _, rfl, ?_⟩
    have hfirst := hnat (n := c.toNat / 64 % 32 + 192) (by omega)
    rw [List.cons_append, decodeNext_two (by omega) (by omega) (hcont _), hchar]
    · rfl
    · rw [payload, hfirst, hnat (by omega)]
      omega
  · refine ⟨_, _, rfl, ?_⟩
    have hfirst := hnat (n := c.toNat / 4096 % 16 + 224) (by omega)
    have hb := hnat (n := c.toNat / 64 % 64 + 128) (by omega)
    rw [List.cons_append, List.cons_append, decodeNext_three (by omega) (by omega) ?_
      (hcont _), hchar]
    · rfl
    · rw [payload, payload, hfirst, hb, hnat (by omega)]
      omega
    · apply isSecond_of_ranges (hcont _) <;> omega
  · refine ⟨_, _, rfl, ?_⟩
    have hfirst := hnat (n := c.toNat / 262144 % 8 + 240) (by omega)
    have hb := hnat (n := c.toNat / 4096 % 64 + 128) (by omega)
    have hc := hnat (n := c.toNat / 64 % 64 + 128) (by omega)
    rw [List.cons_append, List.cons_append, List.cons_append,
      decodeNext_four (by omega) (by omega) ?_ (hcont _) (hcont _), hchar]
    · rfl
    · rw [payload, payload, payload, hfirst, hb, hc, hnat (by omega)]
      omega
    · apply isSecond_of_ranges (hcont _) <;> omega

theorem decodeParts_append (taken : List UInt8) (rest : List UInt8) :
    decodeParts taken.length (taken ++ rest) = decodeParts 0 rest := by
  induction taken with
  | nil => rfl
  | cons b taken ih => exact ih

theorem decodeParts_bytes (cs : List Char) : decodeParts 0 (bytes cs) = cs.map some := by
  induction cs with
  | nil => rfl
  | cons c cs ih =>
    obtain ⟨first, tail, hform, hnext⟩ := decodeNext_encodeChar c (bytes cs)
    rw [bytes_cons, hform, List.cons_append, decodeParts, hnext, List.map_cons, ← ih]
    exact congrArg _ (decodeParts_append tail (bytes cs))

/-- Reading inverts encoding. -/
theorem decodeLossy_bytes (cs : List Char) : decodeLossy (bytes cs) = String.ofList cs := by
  rw [decodeLossy, decodeParts_bytes, List.map_map]
  exact congrArg String.ofList (List.map_id cs)

end MiniJ.Text
