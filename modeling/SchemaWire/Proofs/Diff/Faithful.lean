import SchemaWire.Proofs.Diff.Escapes
import SchemaWire.Proofs.Diff.PrintedLines

/-!
What a report tells of two texts. A comparison is what a report is made from, however its alignment
was found: lines of both texts, an alignment of them, and hunks that leave out kept lines only, none
of them near a change. The main statement is that the hunks of every comparison are parts of both
texts, which are equal around them, that no change is missing or shown twice, and that colors add
nothing but escape sequences.
-/
namespace SchemaWire.Diff

open Text (IsLine terminatedLines)

/-- Lines of two texts, an alignment of them and the hunks that are shown of it. -/
structure Comparison (current generated : String) where
  currentLines : List String
  generatedLines : List String
  pieces : List (Piece String)
  hunks : List (Hunk String)
  join_currentLines : String.join currentLines = current
  join_generatedLines : String.join generatedLines = generated
  before_pieces : before pieces = currentLines
  after_pieces : after pieces = generatedLines
  isGrouping : IsGrouping context [] (script pieces) hunks

namespace Comparison

variable {current generated : String}

def render (comparison : Comparison current generated) (style : Style) (label : String) : String :=
  renderHeading style "---" label "(current)" ++ renderHeading style "+++" label "(generated)" ++
    String.intercalate separator (comparison.hunks.map (renderHunk style))

/-- What a comparison shows of two texts: in both of them, the sides of its hunks stand one after
the other with the same lines before, between and after them; and the lines that go or come are
those that the hunks show as such, each once and in order. -/
structure IsFaithful (comparison : Comparison current generated) : Prop where
  sides : ∃ gaps, gaps.length = comparison.hunks.length + 1 ∧
    comparison.currentLines =
      weave gaps (comparison.hunks.map fun hunk => oldLines (script hunk)) ∧
    comparison.generatedLines =
      weave gaps (comparison.hunks.map fun hunk => newLines (script hunk)) ∧
    current = String.join (weave gaps (comparison.hunks.map fun hunk => oldLines (script hunk))) ∧
    generated = String.join (weave gaps (comparison.hunks.map fun hunk => newLines (script hunk)))
  changes : changes (comparison.hunks.flatMap script) = changes (script comparison.pieces)

theorem isFaithful (comparison : Comparison current generated) : comparison.IsFaithful where
  sides := by
    obtain ⟨gaps, hlength, hold, hnew⟩ := comparison.isGrouping.exists_gaps
    rw [oldLines_script, comparison.before_pieces] at hold
    rw [newLines_script, comparison.after_pieces] at hnew
    refine ⟨gaps, hlength, hold, hnew, ?_, ?_⟩
    · rw [← hold, comparison.join_currentLines]
    · rw [← hnew, comparison.join_generatedLines]
  changes := comparison.isGrouping.changes_eq

/-- A shown line is a line of one of the texts. -/
theorem mem_lines (comparison : Comparison current generated) {hunk : Hunk String}
    (hhunk : hunk ∈ comparison.hunks) {entry : Entry} (hentry : entry ∈ script hunk) :
    entry.2 ∈ comparison.currentLines ∨ entry.2 ∈ comparison.generatedLines := by
  have hmem := comparison.isGrouping.mem_of_mem hhunk hentry
  rw [← comparison.before_pieces, ← comparison.after_pieces, ← oldLines_script, ← newLines_script]
  by_cases hadded : entry.1 = .added
  · refine .inr (List.mem_map.mpr ⟨entry, List.mem_filter.mpr ⟨hmem, ?_⟩, rfl⟩)
    simp [hadded]
  · exact .inl (List.mem_map.mpr ⟨entry, List.mem_filter.mpr ⟨hmem, by simpa using hadded⟩, rfl⟩)

/-- A line of a text without escape sequences has none either. -/
theorem isPlain_of_mem {lines : List String} (h : IsPlain (String.join lines).toList)
    {line : String} (hline : line ∈ lines) : IsPlain line.toList := by
  obtain ⟨earlier, later, rfl⟩ := List.append_of_mem hline
  rw [String.join_append, String.join_cons, String.toList_append, String.toList_append] at h
  exact h.of_append_right.of_append_left

/-- Without its escape sequences, a colored report is the plain one. -/
theorem dropEscapes_render (comparison : Comparison current generated) {label : String}
    (hlabel : IsPlain label.toList) (hcurrent : IsPlain current.toList)
    (hgenerated : IsPlain generated.toList) :
    dropEscapes (comparison.render .colored label).toList =
      (comparison.render .plain label).toList := by
  have hline : ∀ hunk ∈ comparison.hunks, ∀ entry ∈ script hunk, IsPlain entry.2.toList := by
    intro hunk hhunk entry hentry
    rcases comparison.mem_lines hhunk hentry with hmem | hmem
    · exact isPlain_of_mem (by rwa [comparison.join_currentLines]) hmem
    · exact isPlain_of_mem (by rwa [comparison.join_generatedLines]) hmem
  have hold := @shows_renderHeading "---" label "(current)" (by decide) hlabel (by decide)
  have hnew := @shows_renderHeading "+++" label "(generated)" (by decide) hlabel (by decide)
  refine Shows.dropEscapes_eq ((hold.append hnew).append (.intercalate ?_ ?_))
  · exact .of_notMem (by decide)
  · exact fun hunk hhunk => shows_renderHunk (hline hunk hhunk)

/-- A plain report is its headings and the lines of the hunks behind their signs, with one line
between two hunks. -/
theorem render_plain (comparison : Comparison current generated) (label : String) :
    comparison.render .plain label = headings label ++
      String.join (List.intercalate [separator] (comparison.hunks.map signedLines)) := by
  rw [render, intercalate_plain, headings]

/-- The comparison of two texts by their longest common lines. -/
def ofTexts (current generated : String) : Comparison current generated where
  currentLines := terminatedLines current
  generatedLines := terminatedLines generated
  pieces := align (terminatedLines current) (terminatedLines generated)
  hunks := textHunks current generated
  join_currentLines := Text.join_terminatedLines current
  join_generatedLines := Text.join_terminatedLines generated
  before_pieces := before_align _ _
  after_pieces := after_align _ _
  isGrouping := isGrouping_hunks context _

theorem render_ofTexts (style : Style) (label : String) :
    (ofTexts current generated).render style label = report style label current generated :=
  rfl

end Comparison

end SchemaWire.Diff
