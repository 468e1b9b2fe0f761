import SchemaWire.Proofs.Diff.Grouping

/-!
The lines of a report as a reader sees them. A text that ends in a line break is cut into lines on
its own, whatever follows it, unless its carriage return and a line feed come together. So the lines
of a plain report are its headings and, hunk by hunk, the shown lines each behind its sign.
-/
namespace SchemaWire

namespace Text

/-- The character ends a line. -/
def IsEnding (c : Char) : Prop :=
  c = '\n' ∨ c = '\r'

/-- A text that is one line: it has no line break but at its end, where it may have none. -/
structure IsLine (text : List Char) : Prop where
  ne_nil : text ≠ []
  split : ∃ body ending, text = body ++ ending ∧ (∀ c ∈ body, ¬IsEnding c) ∧
    ending ∈ [[], ['\n'], ['\r'], ['\r', '\n']]

/-- The text ends in a line break that nothing in `rest` belongs to. -/
def EndsBefore (text rest : List Char) : Prop :=
  text.getLast? = some '\n' ∨ text.getLast? = some '\r' ∧ rest.head? ≠ some '\n'

theorem EndsBefore.tail {c : Char} {text rest : List Char} (h : EndsBefore (c :: text) rest) :
    text = [] ∨ EndsBefore text rest := by
  cases text with
  | nil => exact .inl rfl
  | cons d others => exact .inr (by simpa only [EndsBefore, List.getLast?_cons_cons] using h)

/-- What is cut behind a character is cut alike if nothing is left behind it. -/
theorem terminatedChars_append_tail {c : Char} {text rest : List Char}
    (h : EndsBefore (c :: text) rest) (ih : EndsBefore text rest →
      terminatedChars [] (text ++ rest) = terminatedChars [] text ++ terminatedChars [] rest) :
    terminatedChars [] (text ++ rest) = terminatedChars [] text ++ terminatedChars [] rest := by
  rcases h.tail with rfl | htail
  · rfl
  · exact ih htail

theorem terminatedChars_append {line text rest : List Char} (h : EndsBefore text rest) :
    terminatedChars line (text ++ rest) = terminatedChars line text ++ terminatedChars [] rest := by
  fun_induction terminatedChars line text with
  | case1 => rfl
  | case2 line => simp [EndsBefore] at h
  | case3 line text ih =>
      rw [List.cons_append, List.cons_append, terminatedChars, List.cons_append]
      congr 1
      rcases h.tail with hnil | htail
      · cases hnil
      · exact terminatedChars_append_tail htail ih
  | case4 line text hfeed ih =>
      have hsingle : ∀ others, text ++ rest = '\n' :: others → False := by
        intro others heq
        cases text with
        | nil => simp_all [EndsBefore]
        | cons d rest => exact hfeed rest (congrArg (· :: rest) (List.cons.inj heq).1)
      rw [List.cons_append, terminatedChars.eq_3 _ _ hsingle, List.cons_append,
        terminatedChars_append_tail h ih]
  | case5 line text ih =>
      rw [List.cons_append, terminatedChars, List.cons_append, terminatedChars_append_tail h ih]
  | case6 line c text hpair hreturn hfeed ih =>
      rw [List.cons_append,
        terminatedChars.eq_5 _ _ _ (fun _ heq _ => hreturn heq) hreturn hfeed]
      rcases h.tail with rfl | htail
      · simp_all [EndsBefore]
      · exact ih htail

variable {line text : List Char}

/-- A text without line breaks goes to the line that is being read. -/
theorem terminatedChars_body {body : List Char} (h : ∀ c ∈ body, ¬IsEnding c) (rest : List Char) :
    terminatedChars line (body ++ rest) = terminatedChars (body.reverse ++ line) rest := by
  induction body generalizing line with
  | nil => rfl
  | cons c others ih =>
      have hc := h c List.mem_cons_self
      rw [IsEnding, not_or] at hc
      rw [List.cons_append, terminatedChars.eq_5 _ _ _ (fun _ heq _ => hc.2 heq) hc.2 hc.1,
        ih fun d hd => h d (List.mem_cons_of_mem _ hd), List.reverse_cons, List.append_assoc]
      rfl

/-- One line is cut into itself. -/
theorem IsLine.terminatedChars_eq (h : IsLine text) : terminatedChars [] text = [text] := by
  obtain ⟨hne, body, ending, rfl, hbody, hending⟩ := h
  rw [terminatedChars_body hbody, List.append_nil]
  simp only [List.mem_cons, List.not_mem_nil, or_false] at hending
  obtain rfl | rfl | rfl | rfl := hending
  · simp_all [terminatedChars]
  · simp [terminatedChars]
  · simp [terminatedChars]
  · simp [terminatedChars]

/-- What a text is cut into are lines. -/
theorem isLine_of_mem_terminatedChars (hline : ∀ c ∈ line, ¬IsEnding c) :
    ∀ part ∈ terminatedChars line text, IsLine part := by
  fun_induction terminatedChars line text with
  | case1 => simp
  | case2 line hne =>
      intro part hpart
      cases List.mem_singleton.mp hpart
      exact ⟨by simpa using hne, line.reverse, [], by simp, by simpa using hline, by simp⟩
  | case3 line text ih =>
      intro part hpart
      rcases List.mem_cons.mp hpart with rfl | hpart
      · exact ⟨by simp, line.reverse, ['\r', '\n'], by simp, by simpa using hline, by simp⟩
      · exact ih (by simp) part hpart
  | case4 line text _ ih =>
      intro part hpart
      rcases List.mem_cons.mp hpart with rfl | hpart
      · exact ⟨by simp, line.reverse, ['\r'], by simp, by simpa using hline, by simp⟩
      · exact ih (by simp) part hpart
  | case5 line text ih =>
      intro part hpart
      rcases List.mem_cons.mp hpart with rfl | hpart
      · exact ⟨by simp, line.reverse, ['\n'], by simp, by simpa using hline, by simp⟩
      · exact ih (by simp) part hpart
  | case6 line c text hpair hreturn hfeed ih =>
      refine ih fun d hd => ?_
      rcases List.mem_cons.mp hd with rfl | hd
      · exact not_or.mpr ⟨hfeed, hreturn⟩
      · exact hline d hd

theorem isLine_of_mem_terminatedLines {text line : String} (h : line ∈ terminatedLines text) :
    IsLine line.toList := by
  obtain ⟨part, hpart, rfl⟩ := List.mem_map.mp h
  rw [String.toList_ofList]
  exact isLine_of_mem_terminatedChars (by simp) part hpart

/-- Nothing is lost or added by the cut. -/
theorem join_terminatedLines (text : String) : String.join (terminatedLines text) = text := by
  rw [← String.toList_inj, String.toList_join, terminatedLines, List.flatMap_map]
  simpa [List.flatMap_id'] using flatten_terminatedLines text

theorem terminatedLines_append {first second : String}
    (h : EndsBefore first.toList second.toList) :
    terminatedLines (first ++ second) = terminatedLines first ++ terminatedLines second := by
  rw [terminatedLines, String.toList_append, terminatedChars_append h, List.map_append]
  rfl

/-- A line that has its line break and does not continue the one of the line before it. -/
structure IsWholeLine (text : String) : Prop where
  isLine : IsLine text.toList
  last : text.toList.getLast? = some '\n' ∨ text.toList.getLast? = some '\r'
  head : text.toList.head? ≠ some '\n'

theorem IsWholeLine.terminatedLines_eq {text : String} (h : IsWholeLine text) :
    terminatedLines text = [text] := by
  rw [terminatedLines, h.isLine.terminatedChars_eq, List.map_singleton, String.ofList_toList]

theorem head?_join_ne {texts : List String} (h : ∀ text ∈ texts, IsWholeLine text) :
    (String.join texts).toList.head? ≠ some '\n' := by
  cases texts with
  | nil => simp
  | cons text rest =>
      have hwhole := h text List.mem_cons_self
      obtain ⟨c, others, htext⟩ := List.exists_cons_of_ne_nil hwhole.isLine.ne_nil
      have hhead := hwhole.head
      rw [htext, List.head?_cons] at hhead
      rwa [String.join_cons, String.toList_append, htext, List.cons_append, List.head?_cons]

/-- Whole lines one behind the other are cut into these lines. -/
theorem terminatedLines_join {texts : List String} (h : ∀ text ∈ texts, IsWholeLine text) :
    terminatedLines (String.join texts) = texts := by
  induction texts with
  | nil => rfl
  | cons text rest ih =>
      have hwhole := h text List.mem_cons_self
      have hrest := fun other hother => h other (List.mem_cons_of_mem _ hother)
      rw [String.join_cons, terminatedLines_append, hwhole.terminatedLines_eq, ih hrest]
      · rfl
      · exact hwhole.last.imp_right fun hlast => ⟨hlast, head?_join_ne hrest⟩

end Text

namespace Diff

open Text (IsLine IsEnding IsWholeLine terminatedLines)

/-- The lines that are shown of a hunk, each behind its sign. -/
def signedLines (hunk : Hunk String) : List String :=
  (script hunk).map fun entry => entry.1.sign ++ endLine entry.2

/-- A line gets a line break if it has none. -/
theorem toList_endLine {line : String} (h : IsLine line.toList) :
    ∃ body ending, (endLine line).toList = body ++ ending ∧ (∀ c ∈ body, ¬IsEnding c) ∧
      ending ∈ [['\n'], ['\r'], ['\r', '\n']] := by
  obtain ⟨_, body, ending, hsplit, hbody, hending⟩ := h
  by_cases hnone : ending = []
  · refine ⟨body, ['\n'], ?_, hbody, by simp⟩
    rw [hnone, List.append_nil] at hsplit
    unfold endLine
    split
    · rename_i hlast
      exact absurd (.inl rfl) (hbody _ (hsplit ▸ List.mem_of_getLast? hlast))
    · rename_i hlast
      exact absurd (.inr rfl) (hbody _ (hsplit ▸ List.mem_of_getLast? hlast))
    · rw [String.toList_append, hsplit]
      rfl
  · have hmem := List.mem_of_ne_of_mem hnone hending
    refine ⟨body, ending, ?_, hbody, hmem⟩
    rw [← hsplit]
    unfold endLine
    split
    · rfl
    · rfl
    · rename_i hfeed hreturn
      simp only [List.mem_cons, List.not_mem_nil, or_false] at hmem
      obtain rfl | rfl | rfl := hmem <;> simp_all

/-- A line behind a sign is a whole line. -/
theorem isWholeLine_signed (kind : LineKind) {line : String} (h : IsLine line.toList) :
    IsWholeLine (kind.sign ++ endLine line) := by
  obtain ⟨body, ending, hline, hbody, hending⟩ := toList_endLine h
  obtain ⟨sign, hsign, hplain⟩ : ∃ sign, kind.sign.toList = [sign] ∧ ¬IsEnding sign := by
    cases kind
    · exact ⟨' ', rfl, by simp [IsEnding]⟩
    · exact ⟨'-', rfl, by simp [IsEnding]⟩
    · exact ⟨'+', rfl, by simp [IsEnding]⟩
  have htext : (kind.sign ++ endLine line).toList = (sign :: body) ++ ending := by
    rw [String.toList_append, hsign, hline]
    rfl
  have hends := List.mem_cons_of_mem [] hending
  refine ⟨⟨by simp [htext], sign :: body, ending, htext, ?_, hends⟩, ?_, ?_⟩
  · exact List.forall_mem_cons.mpr ⟨hplain, hbody⟩
  · simp only [List.mem_cons, List.not_mem_nil, or_false] at hending
    rw [htext, List.getLast?_append]
    obtain rfl | rfl | rfl := hending <;> simp
  · intro hhead
    rw [htext] at hhead
    exact hplain (.inl (Option.some.inj hhead))

theorem renderHunk_plain (hunk : Hunk String) :
    renderHunk .plain hunk = String.join (signedLines hunk) := by
  have hline (kind : LineKind) (line : String) :
      renderLine .plain kind line = kind.sign ++ endLine line := by
    cases kind <;> simp [renderLine, LineKind.mark, LineKind.reset, Style.plain]
  simp only [renderHunk, signedLines, script, hline]

theorem intercalate_signedLines (hunk next : Hunk String) (others : List (Hunk String)) :
    List.intercalate [separator] ((hunk :: next :: others).map signedLines) =
      signedLines hunk ++ separator ::
        List.intercalate [separator] ((next :: others).map signedLines) := by
  simp [List.intercalate]

/-- Hunks with a separator between are the lines of all of them with one between. -/
theorem intercalate_plain (hunks : List (Hunk String)) :
    String.intercalate separator (hunks.map (renderHunk .plain)) =
      String.join (List.intercalate [separator] (hunks.map signedLines)) := by
  induction hunks with
  | nil => rfl
  | cons hunk rest ih =>
      cases rest with
      | nil => simp [List.intercalate, renderHunk_plain]
      | cons next others =>
          have htexts : String.intercalate separator
              ((hunk :: next :: others).map (renderHunk .plain)) =
                renderHunk .plain hunk ++ separator ++
                  String.intercalate separator ((next :: others).map (renderHunk .plain)) :=
            String.intercalate_cons_of_ne_nil (List.cons_ne_nil _ _)
          rw [intercalate_signedLines, htexts, ih, String.join_append, String.join_cons,
            renderHunk_plain, String.append_assoc]

theorem isWholeLine_separator : IsWholeLine separator where
  isLine := ⟨by decide, "...".toList, ['\n'], by decide, by simp [IsEnding], by decide⟩
  last := .inl (by decide)
  head := by decide

/-- The two headings of a plain report. -/
def headings (label : String) : String :=
  renderHeading .plain "---" label "(current)" ++ renderHeading .plain "+++" label "(generated)"

theorem mem_signedLines_intercalate {hunks : List (Hunk String)} {text : String}
    (h : text ∈ List.intercalate [separator] (hunks.map signedLines)) :
    text = separator ∨ ∃ hunk ∈ hunks, text ∈ signedLines hunk := by
  induction hunks with
  | nil => simp [List.intercalate] at h
  | cons hunk rest ih =>
      cases rest with
      | nil => exact .inr ⟨hunk, List.mem_cons_self, by simpa [List.intercalate] using h⟩
      | cons next others =>
          rw [intercalate_signedLines, List.mem_append, List.mem_cons] at h
          rcases h with hhere | rfl | hlater
          · exact .inr ⟨hunk, List.mem_cons_self, hhere⟩
          · exact .inl rfl
          · refine (ih hlater).imp_right ?_
            rintro ⟨other, hother, htext⟩
            exact ⟨other, List.mem_cons_of_mem _ hother, htext⟩

/-- A plain report is cut into its headings and the lines of its hunks, each behind its sign, with
one line between two hunks. -/
theorem terminatedLines_report (label : String) {hunks : List (Hunk String)}
    (h : ∀ hunk ∈ hunks, ∀ entry ∈ script hunk, IsLine entry.2.toList) :
    terminatedLines (headings label ++
        String.intercalate separator (hunks.map (renderHunk .plain))) =
      terminatedLines (headings label) ++
        List.intercalate [separator] (hunks.map signedLines) := by
  have hwhole : ∀ text ∈ List.intercalate [separator] (hunks.map signedLines),
      IsWholeLine text := by
    intro text htext
    obtain rfl | ⟨hunk, hhunk, hsigned⟩ := mem_signedLines_intercalate htext
    · exact isWholeLine_separator
    · obtain ⟨entry, hentry, rfl⟩ := List.mem_map.mp hsigned
      exact isWholeLine_signed entry.1 (h hunk hhunk entry hentry)
  obtain ⟨front, hfront⟩ : ∃ front, headings label = front ++ "\n" :=
    ⟨_, (String.append_assoc ..).symm⟩
  rw [Text.terminatedLines_append, intercalate_plain, Text.terminatedLines_join hwhole]
  left
  rw [hfront, String.toList_append, List.getLast?_append]
  rfl

end Diff

end SchemaWire
