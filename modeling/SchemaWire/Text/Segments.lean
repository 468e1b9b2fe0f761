/-!
Cutting a text: at a separating character, and at its ends, where blanks are the members of the
Unicode property White_Space. Main statements: the segments joined by the separator are the text
again, and no segment holds the separator.
-/
namespace SchemaWire.Text

/-- The characters with the property White_Space. -/
def isBlank (c : Char) : Bool :=
  let n := c.toNat
  (0x09 ≤ n && n ≤ 0x0d) || n == 0x20 || n == 0x85 || n == 0xa0 || n == 0x1680 ||
    (0x2000 ≤ n && n ≤ 0x200a) || n == 0x2028 || n == 0x2029 || n == 0x202f ||
    n == 0x205f || n == 0x3000

/-- Drops the blanks at the start and at the end. -/
def trimChars (text : List Char) : List Char :=
  ((text.dropWhile isBlank).reverse.dropWhile isBlank).reverse

/-- The text without the blanks at its start and at its end. -/
def trim (text : String) : String :=
  String.ofList (trimChars text.toList)

/-- The pieces between the separators; there is one more piece than there are separators. -/
def segments (sep : Char) : List Char → List (List Char)
  | [] => [[]]
  | c :: rest =>
      if c = sep then
        [] :: segments sep rest
      else
        match segments sep rest with
        | [] => [[c]]
        | piece :: pieces => (c :: piece) :: pieces

/-- Puts the separator between the pieces. -/
def joinSegments (sep : Char) : List (List Char) → List Char
  | [] => []
  | [piece] => piece
  | piece :: pieces => piece ++ sep :: joinSegments sep pieces

/-- The text after the last separator, all of it where there is none. -/
def lastSegment (sep : Char) (text : List Char) : List Char :=
  (text.reverse.takeWhile (· ≠ sep)).reverse

theorem segments_ne_nil (sep : Char) (text : List Char) : segments sep text ≠ [] := by
  cases text with
  | nil => simp [segments]
  | cons c rest =>
      simp only [segments]
      split
      · simp
      · split <;> simp

theorem joinSegments_segments (sep : Char) (text : List Char) :
    joinSegments sep (segments sep text) = text := by
  induction text with
  | nil => rfl
  | cons c rest ih =>
      have hne := segments_ne_nil sep rest
      by_cases hc : c = sep
      · cases hs : segments sep rest with
        | nil => exact absurd hs hne
        | cons piece pieces => simp [segments, hc, hs, joinSegments] at ih ⊢; exact ih
      · cases hs : segments sep rest with
        | nil => exact absurd hs hne
        | cons piece pieces =>
            cases pieces with
            | nil => simp [segments, hc, hs, joinSegments] at ih ⊢; exact ih
            | cons next others => simp [segments, hc, hs, joinSegments] at ih ⊢; exact ih

theorem not_mem_of_mem_segments {sep : Char} {text piece : List Char}
    (hmem : piece ∈ segments sep text) : sep ∉ piece := by
  induction text generalizing piece with
  | nil => simp [segments] at hmem; simp [hmem]
  | cons c rest ih =>
      simp only [segments] at hmem
      split at hmem
      · rcases List.mem_cons.mp hmem with rfl | hrest
        · simp
        · exact ih hrest
      · rename_i hc
        split at hmem
        · simp at hmem; simp [hmem, Ne.symm hc]
        · rename_i first others hs
          rcases List.mem_cons.mp hmem with rfl | hrest
          · have := @ih first (by simp [hs])
            simp [this, Ne.symm hc]
          · exact ih (by simp [hs, hrest])

end SchemaWire.Text
