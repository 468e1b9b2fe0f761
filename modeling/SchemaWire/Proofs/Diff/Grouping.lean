import SchemaWire.Diff.Report

/-!
Edit scripts and the hunks that are shown of them. A script is all lines of an alignment with what
happens to each; showing hunks of it drops some of the kept lines that are not near a change. The
main statements say what that leaves intact: both texts are their sides of the hunks with the same
gaps around them, and the hunks hold every change. The hunks of an alignment are of this kind.
-/
namespace SchemaWire.Diff

/-- A line and what happens to it. -/
abbrev Entry := LineKind × String

/-- The lines of an alignment in order, those that go before those that come. -/
def script (pieces : List (Piece String)) : List Entry :=
  pieces.flatMap Piece.shown

/-- The lines of the first text: those that stay and those that go. -/
def oldLines (entries : List Entry) : List String :=
  (entries.filter fun entry => entry.1 ≠ .added).map Prod.snd

/-- The lines of the second text: those that stay and those that come. -/
def newLines (entries : List Entry) : List String :=
  (entries.filter fun entry => entry.1 ≠ .removed).map Prod.snd

/-- The lines that go or come. -/
def changes (entries : List Entry) : List Entry :=
  entries.filter fun entry => entry.1 ≠ .kept

def keptEntries (lines : List String) : List Entry :=
  lines.map fun line => (.kept, line)

/-- No line among them goes or comes. -/
def AllKept (entries : List Entry) : Prop :=
  ∀ entry ∈ entries, entry.1 = .kept

/-- How hunks are taken from what is left of a script. A line may be dropped if it stays and so do
all lines that are at most `context` away from it; the others are shown, each in one hunk. -/
inductive IsGrouping (context : Nat) : List Entry → List Entry → List (Hunk String) → Prop where
  | done {earlier : List Entry} : IsGrouping context earlier [] []
  | drop {earlier rest : List Entry} {hunks : List (Hunk String)} (line : String)
      (hearlier : AllKept (lastItems context earlier)) (hrest : AllKept (rest.take context))
      (h : IsGrouping context (earlier ++ [(.kept, line)]) rest hunks) :
      IsGrouping context earlier ((.kept, line) :: rest) hunks
  | group {earlier rest : List Entry} {hunks : List (Hunk String)} (hunk : Hunk String)
      (h : IsGrouping context (earlier ++ script hunk) rest hunks) :
      IsGrouping context earlier (script hunk ++ rest) (hunk :: hunks)

section Sides

variable (first second : List Entry) (lines : List String) (pieces others : List (Piece String))

@[simp]
theorem oldLines_append : oldLines (first ++ second) = oldLines first ++ oldLines second := by
  simp [oldLines]

@[simp]
theorem newLines_append : newLines (first ++ second) = newLines first ++ newLines second := by
  simp [newLines]

@[simp]
theorem changes_append : changes (first ++ second) = changes first ++ changes second := by
  simp [changes]

@[simp]
theorem oldLines_keptEntries : oldLines (keptEntries lines) = lines := by
  simp [oldLines, keptEntries, List.filter_map, Function.comp_def]

@[simp]
theorem newLines_keptEntries : newLines (keptEntries lines) = lines := by
  simp [newLines, keptEntries, List.filter_map, Function.comp_def]

@[simp]
theorem changes_keptEntries : changes (keptEntries lines) = [] := by
  simp [changes, keptEntries]

theorem keptEntries_append (others : List String) :
    keptEntries (lines ++ others) = keptEntries lines ++ keptEntries others :=
  List.map_append

theorem allKept_keptEntries : AllKept (keptEntries lines) := by
  simp [AllKept, keptEntries]

theorem script_nil : script [] = [] :=
  rfl

theorem script_cons (piece : Piece String) :
    script (piece :: pieces) = piece.shown ++ script pieces :=
  List.flatMap_cons

theorem script_append : script (pieces ++ others) = script pieces ++ script others :=
  List.flatMap_append

theorem script_same (rest : List (Piece String)) :
    script (.same lines :: rest) = keptEntries lines ++ script rest :=
  List.flatMap_cons

/-- The sides of a script are those of its alignment. -/
theorem oldLines_script : oldLines (script pieces) = before pieces := by
  induction pieces with
  | nil => rfl
  | cons piece rest ih =>
      rw [script_cons, oldLines_append, ih]
      cases piece <;>
        simp [before, oldLines, Piece.shown, Piece.before, List.filter_map, Function.comp_def,
          List.filter_eq_self.mpr]

theorem newLines_script : newLines (script pieces) = after pieces := by
  induction pieces with
  | nil => rfl
  | cons piece rest ih =>
      rw [script_cons, newLines_append, ih]
      cases piece <;>
        simp [after, newLines, Piece.shown, Piece.after, List.filter_map, Function.comp_def,
          List.filter_eq_self.mpr]

end Sides

/-- Gaps and runs in turn. -/
def weave : List (List String) → List (List String) → List String
  | gap :: gaps, run :: runs => gap ++ run ++ weave gaps runs
  | gaps, [] => gaps.flatten
  | [], runs => runs.flatten

namespace IsGrouping

variable {context : Nat} {earlier entries : List Entry} {hunks : List (Hunk String)}

/-- Both sides of a script are the sides of its hunks with the same lines around them. -/
theorem exists_gaps (h : IsGrouping context earlier entries hunks) :
    ∃ gaps, gaps.length = hunks.length + 1 ∧
      oldLines entries = weave gaps (hunks.map fun hunk => oldLines (script hunk)) ∧
      newLines entries = weave gaps (hunks.map fun hunk => newLines (script hunk)) := by
  induction h with
  | done => exact ⟨[[]], rfl, rfl, rfl⟩
  | @drop earlier rest hunks line _ _ _ ih =>
      obtain ⟨gaps, hlength, hold, hnew⟩ := ih
      obtain ⟨gap, others, rfl⟩ := List.exists_cons_of_length_eq_add_one hlength
      have hsame : ∀ runs, weave ((line :: gap) :: others) runs =
          line :: weave (gap :: others) runs := by
        intro runs
        cases runs <;> rfl
      refine ⟨(line :: gap) :: others, hlength, ?_, ?_⟩
      · rw [hsame, ← hold]
        rfl
      · rw [hsame, ← hnew]
        rfl
  | group hunk _ ih =>
      obtain ⟨gaps, hlength, hold, hnew⟩ := ih
      refine ⟨[] :: gaps, congrArg Nat.succ hlength, ?_, ?_⟩
      · rw [oldLines_append, hold]
        rfl
      · rw [newLines_append, hnew]
        rfl

/-- The hunks hold every change once and in order. -/
theorem changes_eq (h : IsGrouping context earlier entries hunks) :
    changes (hunks.flatMap script) = changes entries := by
  induction h with
  | done => rfl
  | drop line _ _ _ ih => exact ih
  | group hunk _ ih => rw [List.flatMap_cons, changes_append, changes_append, ih]

/-- What is shown is part of the script. -/
theorem mem_of_mem (h : IsGrouping context earlier entries hunks) {hunk : Hunk String}
    (hhunk : hunk ∈ hunks) {entry : Entry} (hentry : entry ∈ script hunk) : entry ∈ entries := by
  induction h with
  | done => cases hhunk
  | drop line _ _ _ ih => exact List.mem_cons_of_mem _ (ih hhunk)
  | group first _ ih =>
      rcases List.mem_cons.mp hhunk with rfl | hin
      · exact List.mem_append_left _ hentry
      · exact List.mem_append_right _ (ih hin)

end IsGrouping

/-! The hunks of an alignment. -/

namespace AllKept

variable {count : Nat} {first second : List Entry}

theorem take_append (hfirst : AllKept first) (hsecond : AllKept (second.take count)) :
    AllKept ((first ++ second).take count) := by
  intro entry hentry
  rw [List.take_append, List.mem_append] at hentry
  rcases hentry with hentry | hentry
  · exact hfirst entry (List.mem_of_mem_take hentry)
  · exact hsecond entry ((List.take_subset_take_left second (Nat.sub_le _ _)) hentry)

theorem lastItems_append (hfirst : AllKept (lastItems count first)) (hsecond : AllKept second) :
    AllKept (lastItems count (first ++ second)) := by
  intro entry hentry
  rw [lastItems, List.drop_append, List.mem_append] at hentry
  rcases hentry with hentry | hentry
  · refine hfirst entry (List.drop_subset_drop_left first ?_ hentry)
    simp only [List.length_append]
    omega
  · exact hsecond entry (List.mem_of_mem_drop hentry)

theorem take_of_le {lines : List String} (h : count ≤ lines.length) (rest : List Entry) :
    AllKept ((keptEntries lines ++ rest).take count) := by
  rw [List.take_append_of_le_length (by simpa [keptEntries] using h)]
  intro entry hentry
  exact allKept_keptEntries lines entry (List.mem_of_mem_take hentry)

theorem lastItems_of_le {lines : List String} (h : count ≤ lines.length) (earlier : List Entry) :
    AllKept (lastItems count (earlier ++ keptEntries lines)) := by
  intro entry hentry
  have hlength : (keptEntries lines).length = lines.length := List.length_map _
  rw [lastItems, List.drop_append, List.drop_eq_nil_of_le, List.nil_append] at hentry
  · exact allKept_keptEntries lines entry (List.mem_of_mem_drop hentry)
  · rw [List.length_append]
    omega

end AllKept

theorem hasChange_append (hunk : Hunk String) (piece : Piece String) :
    hasChange (hunk ++ [piece]) = (hasChange hunk || hasChange [piece]) := by
  simp [hasChange]

/-- A hunk without a change has kept lines only. -/
theorem exists_keptEntries {hunk : Hunk String} (h : hasChange hunk = false) :
    ∃ lines, script hunk = keptEntries lines := by
  induction hunk with
  | nil => exact ⟨[], rfl⟩
  | cons piece rest ih =>
      cases piece with
      | same lines =>
          obtain ⟨others, hothers⟩ := ih (by simpa [hasChange] using h)
          exact ⟨lines ++ others, by simp [script_same, hothers, keptEntries]⟩
      | changed removed added => simp [hasChange] at h

namespace IsGrouping

variable {context : Nat} {earlier rest : List Entry} {hunks : List (Hunk String)}

/-- Lines in a row may be dropped if no change is near the first or the last of them. -/
theorem drop_lines (lines : List String) (hearlier : AllKept (lastItems context earlier))
    (hrest : AllKept (rest.take context))
    (h : IsGrouping context (earlier ++ keptEntries lines) rest hunks) :
    IsGrouping context earlier (keptEntries lines ++ rest) hunks := by
  induction lines generalizing earlier with
  | nil => simpa [keptEntries] using h
  | cons line lines ih =>
      refine .drop line hearlier ((allKept_keptEntries lines).take_append hrest) (ih ?_ ?_)
      · exact hearlier.lastItems_append (allKept_keptEntries [line])
      · simpa [keptEntries] using h

/-- A hunk is closed: it is shown, or it has no change and its lines are dropped. -/
theorem close {hunk : Hunk String}
    (hearlier : hasChange hunk = false → AllKept (lastItems context earlier))
    (hrest : AllKept (rest.take context))
    (h : IsGrouping context (earlier ++ script hunk) rest hunks) :
    IsGrouping context earlier (script hunk ++ rest) (closeHunk hunk ++ hunks) := by
  cases hchange : hasChange hunk with
  | true =>
      rw [closeHunk, if_pos hchange]
      exact .group hunk h
  | false =>
      obtain ⟨lines, hlines⟩ := exists_keptEntries hchange
      rw [closeHunk, hchange]
      rw [hlines] at h ⊢
      exact drop_lines lines (hearlier hchange) hrest h

/-- A hunk is closed behind the first few of the lines that follow it. -/
theorem close_same {hunk : Hunk String} {lines : List String}
    (hearlier : hasChange hunk = false → AllKept (lastItems context earlier))
    (hrest : AllKept ((keptEntries (lines.drop context) ++ rest).take context))
    (h : IsGrouping context (earlier ++ script hunk ++ keptEntries (lines.take context))
      (keptEntries (lines.drop context) ++ rest) hunks) :
    IsGrouping context earlier (script hunk ++ (keptEntries lines ++ rest))
      (closeHunk (hunk ++ [.same (lines.take context)]) ++ hunks) := by
  have hscript : script (hunk ++ [.same (lines.take context)]) =
      script hunk ++ keptEntries (lines.take context) := by
    rw [script_append, script_same, script_nil, List.append_nil]
  have hsplit : script hunk ++ (keptEntries lines ++ rest) =
      script (hunk ++ [.same (lines.take context)]) ++
        (keptEntries (lines.drop context) ++ rest) := by
    rw [hscript, List.append_assoc, ← List.append_assoc (keptEntries _), ← keptEntries_append,
      List.take_append_drop]
  rw [hsplit]
  refine close ?_ hrest ?_
  · rw [hasChange_append]
    exact fun hnone => hearlier (Bool.or_eq_false_iff.mp hnone).1
  · rwa [hscript, ← List.append_assoc]

/-- The last pieces: of the lines that stay at the end only the first few are shown. -/
theorem close_last {hunk : Hunk String} {lines : List String}
    (hearlier : hasChange hunk = false → AllKept (lastItems context earlier)) :
    IsGrouping context earlier (script hunk ++ (keptEntries lines ++ []))
      (closeHunk (hunk ++ [.same (lines.take context)]) ++ []) := by
  refine close_same hearlier ((allKept_keptEntries _).take_append (by simp [AllKept])) ?_
  rcases Nat.le_total context lines.length with hle | hle
  · refine drop_lines _ (AllKept.lastItems_of_le ?_ _) (by simp [AllKept]) .done
    exact Nat.le_of_eq (List.length_take_of_le hle).symm
  · rw [List.drop_eq_nil_of_le hle]
    exact .done

/-- If the open hunk has no change, there is none near in front of it either. -/
theorem hunksFrom (hunk : Hunk String) (pieces : List (Piece String))
    (hearlier : hasChange hunk = false → AllKept (lastItems context earlier)) :
    IsGrouping context earlier (script hunk ++ script pieces)
      (hunksFrom context hunk pieces) := by
  fun_induction Diff.hunksFrom context hunk pieces generalizing earlier with
  | case1 hunk =>
      have h := @close context earlier [] [] hunk hearlier (by simp [AllKept]) .done
      rwa [List.append_nil (closeHunk hunk)] at h
  | case2 hunk lines =>
      have h := @close_last context earlier hunk lines hearlier
      rwa [List.append_nil (closeHunk _)] at h
  | case3 hunk lines rest _ hlong ih =>
      rw [script_same]
      -- The lines in the middle of a long stretch are dropped.
      obtain ⟨middle, hmiddle⟩ : ∃ middle, lines.drop context =
          middle ++ lastItems context lines := by
        refine ⟨(lines.drop context).take (lines.length - context - context), ?_⟩
        have hdrop : lines.length - context = context + (lines.length - context - context) := by
          omega
        rw [lastItems, hdrop, ← List.drop_drop, Nat.add_sub_cancel_left, List.take_append_drop]
      have hlast : context ≤ (lastItems context lines).length := by
        simp only [lastItems, List.length_drop]
        omega
      refine close_same hearlier (AllKept.take_of_le ?_ _) ?_
      · simp only [List.length_drop]
        omega
      rw [hmiddle, keptEntries_append, List.append_assoc (keptEntries middle)]
      have htake : context ≤ (lines.take context).length := by
        simp only [List.length_take]
        omega
      refine drop_lines middle (AllKept.lastItems_of_le htake _) (AllKept.take_of_le hlast _) ?_
      have hnext : script [.same (lastItems context lines)] =
          keptEntries (lastItems context lines) := List.append_nil _
      rw [← hnext]
      refine ih fun _ => ?_
      exact (AllKept.lastItems_of_le htake _).lastItems_append (allKept_keptEntries middle)
  | case4 hunk lines rest _ hshort ih =>
      have h := @ih earlier (by simpa [hasChange] using hearlier)
      rwa [script_append, script_same, script_nil, List.append_nil, List.append_assoc] at h
  | case5 hunk piece rest _ hne ih =>
      have hchange : hasChange (hunk ++ [piece]) = true := by
        cases piece with
        | same lines => exact (hne lines rfl).elim
        | changed removed added => simp [hasChange]
      have h := @ih earlier fun hnone => absurd hchange (by simp [hnone])
      rwa [script_append, List.append_assoc, ← script_append] at h

end IsGrouping

/-- The hunks of an alignment are a grouping of its script. -/
theorem isGrouping_hunks (context : Nat) (pieces : List (Piece String)) :
    IsGrouping context [] (script pieces) (hunks context pieces) := by
  have hnone : AllKept (lastItems context []) := by simp [AllKept, lastItems]
  unfold hunks
  split
  · rename_i lines rest
    rw [script_same]
    split
    · rename_i hempty
      rw [List.isEmpty_iff.mp hempty]
      exact IsGrouping.drop_lines lines hnone (by simp [AllKept, script]) .done
    · -- Of the lines at the start only the last ones can be near a change.
      have hopen := fun earlier => @IsGrouping.hunksFrom context earlier
        [.same (lastItems context lines)] rest
      rw [script_same, script_nil, List.append_nil] at hopen
      rcases Nat.le_total context lines.length with hle | hle
      · have hlast : context ≤ (lastItems context lines).length := by
          simp only [lastItems, List.length_drop]
          omega
        have hsplit : keptEntries lines = keptEntries (lines.take (lines.length - context)) ++
            keptEntries (lastItems context lines) := by
          rw [← keptEntries_append, lastItems, List.take_append_drop]
        rw [hsplit, List.append_assoc]
        refine IsGrouping.drop_lines _ hnone (AllKept.take_of_le hlast _) (hopen _ fun _ => ?_)
        exact hnone.lastItems_append (allKept_keptEntries _)
      · have hall : lastItems context lines = lines := by
          rw [lastItems, Nat.sub_eq_zero_of_le hle, List.drop_zero]
        rw [hall] at hopen ⊢
        exact hopen [] fun _ => hnone
  · exact @IsGrouping.hunksFrom context [] [] _ fun _ => hnone

end SchemaWire.Diff
