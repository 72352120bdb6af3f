/-!
# Splitting text

Texts cut at every occurrence of a character. Nothing is lost: putting the character back between
the pieces gives the text again.
-/
namespace MiniJ.Text

/-- The pieces between the occurrences of `separator`. -/
def pieces (separator : Char) : List Char → List (List Char)
  | [] => [[]]
  | c :: rest =>
    if c = separator then [] :: pieces separator rest
    else
      match pieces separator rest with
      | [] => [[c]]
      | first :: others => (c :: first) :: others

/-- There is one piece more than there are separators. -/
theorem length_pieces (separator : Char) (cs : List Char) :
    (pieces separator cs).length = cs.count separator + 1 := by
  fun_induction pieces separator cs with
  | case1 => rfl
  | case2 rest ih => simp [ih]
  | case3 c rest hc hnil ih => simp [hnil] at ih
  | case4 c rest hc first others hcons ih =>
    rw [hcons] at ih
    simpa [List.count_cons, hc] using ih

/-- Some piece comes first. -/
theorem pieces_ne_nil (separator : Char) (cs : List Char) : pieces separator cs ≠ [] := by
  intro h
  have := length_pieces separator cs
  simp [h] at this

/-- Putting the separator back between the pieces gives the text again. -/
theorem intercalate_pieces (separator : Char) (cs : List Char) :
    [separator].intercalate (pieces separator cs) = cs := by
  fun_induction pieces separator cs with
  | case1 => rfl
  | case2 rest ih =>
    obtain ⟨first, others, h⟩ := List.exists_cons_of_ne_nil (pieces_ne_nil separator rest)
    rw [h] at ih ⊢
    simpa [List.intercalate] using ih
  | case3 c rest hc hnil ih => exact absurd hnil (pieces_ne_nil separator rest)
  | case4 c rest hc first others hcons ih =>
    rw [hcons] at ih
    cases others <;> simpa [List.intercalate] using ih

/-- The pieces of a text between the occurrences of a character. -/
def split (separator : Char) (s : String) : List String :=
  (pieces separator s.toList).map String.ofList

end MiniJ.Text
