import SchemaWire.Proofs.Files.Change

/-!
Paths with nothing in the way. A file can be written at a path if the path ends in a name, starts
from a directory, and meets no file before its end and no directory there. The directories on its
way need not exist: the main statement is that they can then be made, one after the other from the
start, and that every step of the path starts from a directory afterwards.
-/
namespace SchemaWire

namespace Text

/-- Every segment but one takes a separator. -/
theorem length_segments_le (sep : Char) (text : List Char) :
    (segments sep text).length ≤ text.length + 1 := by
  induction text with
  | nil => simp [segments]
  | cons c rest ih =>
      rw [segments]
      split
      · simpa using ih
      · split
        · simp
        · simp_all
          omega

end Text

namespace Files.FileSystem

variable {files middle next : FileSystem} {path directory location first : String}
  {steps : List String}

/-- No step starts from a file. -/
def Unblocked (files : FileSystem) (first : String) (steps : List String) : Prop :=
  ∀ before after, steps = before ++ after → after ≠ [] →
    ∀ text, files.get? (before.foldl advance first) ≠ some (.file text)

theorem unblocked_cons_iff {piece : String} : files.Unblocked first (piece :: steps) ↔
    (∀ text, files.get? first ≠ some (.file text)) ∧
      files.Unblocked (advance first piece) steps := by
  constructor
  · intro h
    refine ⟨h [] _ rfl (List.cons_ne_nil _ _), fun before after heq hne => ?_⟩
    exact h (piece :: before) after (congrArg (piece :: ·) heq) hne
  · rintro ⟨hfirst, hrest⟩ before after heq hne
    cases before with
    | nil => exact hfirst
    | cons other before =>
        obtain ⟨rfl, hsteps⟩ := List.cons.inj heq
        exact hrest before after hsteps hne

/-- A path with nothing in the way of a file. It does not lead through its own end, where a
directory would be made. -/
structure Clear (files : FileSystem) (path : String) : Prop where
  named : ∃ before name, pieces path = before ++ [name] ∧ name ∉ ["", ".", ".."]
  start : files.get? (files.start path) = some .directory
  way : files.Unblocked (files.start path) (pieces path)
  apart : ∀ before after, pieces path = before ++ after → after ≠ [] →
    before.foldl advance (files.start path) ≠ files.destination path
  place : files.get? (files.destination path) ≠ some .directory

/-- What is followed without meeting a file is found, or else it is not there. -/
theorem foldlM_step_of_unblocked (h : files.Unblocked first steps) :
    files.Passable first steps ∨ steps.foldlM files.step first = .error .notFound := by
  induction steps generalizing first with
  | nil => exact .inl fun before after heq hne => absurd (List.append_eq_nil_iff.mp heq.symm).2 hne
  | cons piece rest ih =>
      obtain ⟨hfirst, hrest⟩ := unblocked_cons_iff.mp h
      rw [List.foldlM_cons, passable_cons_iff]
      cases hget : files.get? first with
      | none =>
          right
          rw [step, hget]
          rfl
      | some entry =>
          cases entry with
          | file text => exact absurd hget (hfirst text)
          | directory =>
              rw [step_eq_ok_iff.mpr ⟨hget, rfl⟩]
              exact (ih hrest).imp_left fun h => ⟨rfl, h⟩

theorem walk_of_unblocked (h : files.Unblocked (files.start path) steps) :
    files.Passable (files.start path) steps ∨ files.walk path steps = .error .notFound := by
  rw [walk, ← start]
  split
  · exact .inr rfl
  · exact foldlM_step_of_unblocked h

theorem Passable.of_prefix {before : List String} (h : files.Passable first steps)
    (hbefore : before <+: steps) : files.Passable first before := by
  obtain ⟨rest, rfl⟩ := hbefore
  intro earlier later heq hne
  exact h earlier (later ++ rest) (by rw [heq, List.append_assoc]) (by simp [hne])

/-- A path leads to the same place without the slashes at its end. -/
theorem foldl_advance_piecesBeforeSlash (path first : String) :
    (piecesBeforeSlash path).foldl advance first = (pieces path).foldl advance first := by
  obtain ⟨idle, hidle, hempty⟩ : ∃ idle, pieces path = piecesBeforeSlash path ++ idle ∧
      ∀ piece ∈ idle, piece = "" := by
    refine ⟨(pieces path).rtakeWhile (· = ""), List.rdropWhile_append_rtakeWhile.symm, ?_⟩
    intro piece hpiece
    simpa using List.mem_rtakeWhile_imp hpiece
  rw [hidle, List.foldl_append,
    foldl_advance_of_idle fun piece hpiece => .inl (hempty piece hpiece)]

theorem makeDirectory_eq (h : files.locateNew path = .ok location) : files.makeDirectory path =
    if (files.get? location).isSome then .error .alreadyExists
    else .ok (files.put location .directory) := by
  rw [makeDirectory, h]
  change (if (files.get? location).isSome then _ else _) = _
  split <;> rfl

/-- A directory around which everything is there can be made, or it is there. -/
theorem ensureDirectory_of_passable (hne : path ≠ "")
    (h : files.Passable (files.start path) (pieces path))
    (hfree : ∀ text, files.get? (files.destination path) ≠ some (.file text)) :
    ∃ next, files.ensureDirectory path = .ok next ∧
      next.get? (files.destination path) = some .directory := by
  have hlocate : files.locate path = .ok (files.destination path) :=
    locate_eq_ok_iff.mpr ⟨hne, h, rfl⟩
  have hnew : files.locateNew path = .ok (files.destination path) :=
    walk_eq_ok_iff.mpr ⟨hne, h.of_prefix (List.rdropWhile_prefix _ (pieces path)),
      (foldl_advance_piecesBeforeSlash path _).symm⟩
  cases hget : files.get? (files.destination path) with
  | none =>
      have hroot : files.destination path ≠ root := by
        intro heq
        simp [heq, get?] at hget
      refine ⟨files.put (files.destination path) .directory, ?_, get?_put_self files _ hroot⟩
      simp [ensureDirectory, makeDirectory_eq hnew, hget]
  | some entry =>
      cases entry with
      | file text => exact absurd hget (hfree text)
      | directory =>
          refine ⟨files, ?_, hget⟩
          simp [ensureDirectory, makeDirectory_eq hnew, hget, at?, hlocate]

theorem piecesBeforeSlash_of_counted (h : reversedSteps path = (pieces path).reverse) :
    piecesBeforeSlash path = pieces path := by
  cases hpieces : (pieces path).reverse with
  | nil => exact absurd (List.reverse_eq_nil_iff.mp hpieces) (pieces_ne_nil path)
  | cons last before =>
      have hlast : last ≠ "" := by
        rintro rfl
        rw [reversedSteps, hpieces] at h
        cases before with
        | nil => simp [dropIdle, isFirstStep] at h
        | cons next others =>
            have hlength := (dropIdle_suffix (next :: others)).length_le
            simp only [dropIdle, isStep, bne_self_eq_false, Bool.false_and, Bool.false_eq_true,
              if_false] at h
            rw [h, List.length_cons] at hlength
            omega
      rw [piecesBeforeSlash, hpieces, List.dropWhile_cons_of_neg (by simpa using hlast), ← hpieces,
        List.reverse_reverse]

/-- A directory is not made if one around it is missing. -/
theorem ensureDirectory_of_not_passable (hslash : piecesBeforeSlash path = pieces path)
    (h : files.Unblocked (files.start path) (pieces path))
    (hnot : ¬files.Passable (files.start path) (pieces path)) :
    files.ensureDirectory path = .error .notFound := by
  have hwalk : files.walk path (pieces path) = .error .notFound :=
    (walk_of_unblocked h).resolve_left hnot
  simp [ensureDirectory, makeDirectory, locateNew, hslash, hwalk, at?, locate]
  rfl

/-- The way of the steps leads through directories up to its end. -/
def Reached (files : FileSystem) (first : String) (steps : List String) : Prop :=
  ∀ before, before <+: steps → files.get? (before.foldl advance first) = some .directory

theorem reached_nil_iff : files.Reached first [] ↔ files.get? first = some .directory := by
  simp [Reached]

theorem Passable.reached (h : files.Passable first steps)
    (hend : files.get? (steps.foldl advance first) = some .directory) :
    files.Reached first steps := by
  rintro before ⟨after, heq⟩
  by_cases hafter : after = []
  · rwa [← List.append_nil before, ← hafter, heq]
  · exact h before after heq.symm hafter

/-- One more piece can follow, also after pieces that lead nowhere. -/
theorem Reached.passable {idle : List String} (h : files.Reached first steps)
    (hidle : ∀ piece ∈ idle, piece = "" ∨ piece = ".") (last : String) :
    files.Passable first (steps ++ idle ++ [last]) := by
  intro before after heq hafter
  obtain ⟨rest, hrest⟩ : before <+: steps ++ idle := by
    rcases List.prefix_concat_iff.mp ⟨after, heq.symm⟩ with hwhole | hbefore
    · rw [hwhole] at heq
      exact absurd (List.self_eq_append_right.mp heq) hafter
    · exact hbefore
  rcases List.append_eq_append_iff.mp hrest with ⟨gap, rfl, _⟩ | ⟨gap, rfl, hgap⟩
  · exact h before (List.prefix_append _ _)
  · rw [List.foldl_append, foldl_advance_of_idle]
    · exact h steps (List.prefix_refl _)
    · exact fun piece hpiece => hidle piece (hgap ▸ List.mem_append_left _ hpiece)

theorem Grown.reached (h : files.Grown next path) (hreached : files.Reached first steps) :
    next.Reached first steps :=
  fun before hbefore => h.get?_of_eq_some (hreached before hbefore)

/-- A path whose last piece counts has a parent: where it starts, or what stands before the piece
and the idle ones in front of it. -/
theorem exists_parent? (files : FileSystem) (h : reversedSteps path = (pieces path).reverse) :
    ∃ directory above idle last, parent? path = some directory ∧
      files.start directory = files.start path ∧ pieces path = above ++ idle ++ [last] ∧
      (∀ piece ∈ idle, piece = "" ∨ piece = ".") ∧
      (above = [] ∧ (directory = "" ∨ directory = "/") ∨
        above ≠ [] ∧ pieces directory = above ∧
          reversedSteps directory = (pieces directory).reverse) := by
  cases hsteps : reversedSteps path with
  | nil => exact absurd (List.reverse_eq_nil_iff.mp (h.symm.trans hsteps)) (pieces_ne_nil path)
  | cons last before =>
      obtain ⟨directory, hparent⟩ : ∃ directory, parent? path = some directory := by
        unfold parent?
        rw [hsteps]
        dsimp only
        split <;> exact ⟨_, rfl⟩
      obtain ⟨hstart, _, _, heq, hcase⟩ := parent?_eq_some files hparent
      obtain ⟨rfl, rfl⟩ := List.cons.inj (hsteps.symm.trans heq)
      obtain ⟨idle, hbefore, hidle⟩ := exists_append_dropIdle before
      refine ⟨directory, (dropIdle before).reverse, idle.reverse, last, hparent, hstart, ?_,
        by simpa using hidle, ?_⟩
      · rw [← List.reverse_append, ← hbefore, ← List.reverse_cons, ← hsteps, h,
          List.reverse_reverse]
      · refine hcase.imp (fun h => ⟨by simp [h.1], h.2⟩) fun h => ⟨by simpa using h.1, h.2, ?_⟩
        rw [reversedSteps, h.2, List.reverse_reverse, dropIdle_dropIdle]

/-- A directory that can be made: no file stands on the way to it or in its place, and the last
piece of its path counts unless the path is empty or the root. -/
structure Makeable (files : FileSystem) (path : String) : Prop where
  start : files.get? (files.start path) = some .directory
  free : ∀ before, before <+: pieces path → ∀ text,
    files.get? (before.foldl advance (files.start path)) ≠ some (.file text)
  counted : path = "" ∨ path = "/" ∨ reversedSteps path = (pieces path).reverse

theorem Makeable.unblocked (h : files.Makeable path) :
    files.Unblocked (files.start path) (pieces path) :=
  fun before after heq _ => h.free before ⟨after, heq.symm⟩

theorem Makeable.grown (h : files.Makeable path) (hgrown : files.Grown next directory) :
    next.Makeable path := by
  have hsame := start_congr hgrown.workingDirectory_eq path
  refine ⟨hsame ▸ hgrown.get?_of_eq_some h.start, fun before hbefore text => ?_, h.counted⟩
  rw [hsame, ne_eq, hgrown.file_iff]
  exact h.free before hbefore text

/-- An idle path, which stays where it starts, is there. -/
theorem reached_of_idle (h : files.get? first = some .directory)
    (hidle : ∀ piece ∈ steps, piece = "" ∨ piece = ".") : files.Reached first steps := by
  intro before hbefore
  rwa [foldl_advance_of_idle fun piece hpiece => hidle piece (hbefore.subset hpiece)]

/-- What stands before the last piece of a path without files on its way can be made. -/
theorem makeable_parent {above idle : List String} {last : String}
    (hfirst : files.get? (files.start path) = some .directory)
    (hway : files.Unblocked (files.start path) (pieces path))
    (hstart : files.start directory = files.start path)
    (hpieces : pieces path = above ++ idle ++ [last])
    (hcase : above = [] ∧ (directory = "" ∨ directory = "/") ∨
      above ≠ [] ∧ pieces directory = above ∧
        reversedSteps directory = (pieces directory).reverse) : files.Makeable directory := by
  refine ⟨hstart ▸ hfirst, ?_, ?_⟩
  · rw [hstart]
    rcases hcase with ⟨_, hidle⟩ | ⟨_, rfl, _⟩
    · intro before hbefore text
      rw [reached_of_idle hfirst (idle_of_mem_pieces hidle) before hbefore]
      simp
    · rintro before ⟨gap, hgap⟩
      refine hway before (gap ++ idle ++ [last]) ?_ (by simp)
      rw [hpieces, ← hgap]
      simp
  · exact hcase.elim (fun h => h.2.imp_right .inl) fun h => .inr (.inr h.2.2)

/-- A directory around which everything is there is made, or found, with its way. -/
theorem Makeable.ensureDirectory_of_passable (h : files.Makeable path) (hne : path ≠ "")
    (hpassable : files.Passable (files.start path) (pieces path)) :
    ∃ next, files.ensureDirectory path = .ok next ∧
      next.Reached (files.start path) (pieces path) := by
  obtain ⟨next, hnext, hend⟩ := FileSystem.ensureDirectory_of_passable hne hpassable
    (h.free _ (List.prefix_refl _))
  have hgrown := grown_ensureDirectory hnext
  exact ⟨next, hnext, Passable.reached (fun before after heq hafter =>
    hgrown.get?_of_eq_some (hpassable before after heq hafter)) hend⟩

/-- What stands after pieces that lead nowhere is passable. -/
theorem Makeable.passable_of_idle (h : files.Makeable path) {idle : List String}
    (hidle : ∀ piece ∈ idle, piece = "" ∨ piece = ".") (last : String) :
    files.Passable (files.start path) (idle ++ [last]) :=
  (reached_nil_iff.mpr h.start).passable hidle last

theorem Makeable.ne_empty (h : files.Makeable path)
    (hnot : ¬files.Passable (files.start path) (pieces path)) : path ≠ "" := by
  rintro rfl
  exact hnot (h.passable_of_idle (List.forall_mem_nil _) "")

/-- Otherwise it is made after its parent, which has fewer steps. -/
theorem Makeable.ensureDirectory_of_not_passable (h : files.Makeable path)
    (hnot : ¬files.Passable (files.start path) (pieces path)) :
    files.ensureDirectory path = .error .notFound ∧
      ∃ directory, parent? path = some directory ∧ files.Makeable directory ∧
        0 < (reversedSteps directory).length ∧
        (reversedSteps directory).length < (reversedSteps path).length ∧
        ∀ middle, files.Grown middle directory →
          middle.Reached (files.start directory) (pieces directory) →
          ∃ next, middle.ensureDirectory path = .ok next ∧
            next.Reached (files.start path) (pieces path) := by
  have hroot : path ≠ "/" := by
    rintro rfl
    exact hnot (h.passable_of_idle (List.forall_mem_singleton.mpr (.inl rfl)) "")
  have hcounted := (h.counted.resolve_left (h.ne_empty hnot)).resolve_left hroot
  obtain ⟨directory, above, idle, last, hparent, hstart, hpieces, hidle, hcase⟩ :=
    exists_parent? files hcounted
  obtain ⟨habove, hdirectory, hcount⟩ := hcase.resolve_left fun hnone => hnot (by
    rw [hpieces, hnone.1]
    exact h.passable_of_idle hidle last)
  have hslash : piecesBeforeSlash path = pieces path :=
    piecesBeforeSlash_of_counted hcounted
  refine ⟨FileSystem.ensureDirectory_of_not_passable hslash h.unblocked hnot, directory, hparent,
    makeable_parent h.start h.unblocked hstart hpieces hcase, ?_, ?_,
    fun middle hgrown hreached => ?_⟩
  · rw [hcount, hdirectory, List.length_reverse]
    exact List.length_pos_iff.mpr habove
  · rw [hcount, hcounted, hpieces, hdirectory]
    simp only [List.length_reverse, List.length_append, List.length_singleton]
    omega
  · have hsame := start_congr hgrown.workingDirectory_eq path
    rw [hdirectory, hstart] at hreached
    rw [← hsame]
    refine (h.grown hgrown).ensureDirectory_of_passable (h.ne_empty hnot) ?_
    rw [hsame, hpieces]
    exact hreached.passable hidle last

theorem Makeable.makeDirectoriesFrom_of_passable (h : files.Makeable path)
    (hpassable : files.Passable (files.start path) (pieces path)) (count : Nat) :
    ∃ next, makeDirectoriesFrom (count + 1) files path = (.ok (), next) ∧
      next.Reached (files.start path) (pieces path) := by
  by_cases hempty : path = ""
  · subst hempty
    exact ⟨files, rfl, reached_of_idle h.start (by decide)⟩
  · obtain ⟨next, hnext, hreached⟩ := h.ensureDirectory_of_passable hempty hpassable
    exact ⟨next, by rw [makeDirectoriesFrom, if_neg hempty, hnext], hreached⟩

/-- The directories on the way of a path are made from the start on, one inside the other. -/
theorem Makeable.makeDirectoriesFrom_eq {count : Nat} (h : files.Makeable path)
    (hcount : (reversedSteps path).length ≤ count + 1) :
    ∃ next, makeDirectoriesFrom (count + 1) files path = (.ok (), next) ∧
      next.Reached (files.start path) (pieces path) := by
  induction count generalizing path with
  | zero =>
      by_cases hpassable : files.Passable (files.start path) (pieces path)
      · exact h.makeDirectoriesFrom_of_passable hpassable 0
      · obtain ⟨_, _, _, _, hpos, hfewer, _⟩ := h.ensureDirectory_of_not_passable hpassable
        omega
  | succ count ih =>
      by_cases hpassable : files.Passable (files.start path) (pieces path)
      · exact h.makeDirectoriesFrom_of_passable hpassable (count + 1)
      · obtain ⟨hmissing, directory, hparent, hmakeable, _, hfewer, hlast⟩ :=
          h.ensureDirectory_of_not_passable hpassable
        obtain ⟨middle, hmiddle, hreached⟩ := ih hmakeable (by omega)
        have hgrown := grown_makeDirectoriesFrom (count + 1) files directory
        rw [hmiddle] at hgrown
        obtain ⟨next, hnext, hway⟩ := hlast middle hgrown hreached
        refine ⟨next, ?_, hway⟩
        rw [makeDirectoriesFrom, if_neg (h.ne_empty hpassable), hmissing]
        simp only [hparent, Option.getD_some, hmiddle, hnext]

theorem Clear.getLast?_pieces_ne (h : files.Clear path) : (pieces path).getLast? ≠ some "" := by
  obtain ⟨before, name, hpieces, hname⟩ := h.named
  rw [hpieces, List.getLast?_concat]
  rintro heq
  exact hname (Option.some.inj heq ▸ List.mem_cons_self)

theorem Clear.ne_empty (h : files.Clear path) : path ≠ "" := by
  rintro rfl
  exact h.getLast?_pieces_ne rfl

theorem Clear.getLast?_ne (h : files.Clear path) : path.toList.getLast? ≠ some '/' := by
  intro hslash
  refine h.getLast?_pieces_ne ?_
  rw [pieces, List.getLast?_map, Text.getLast?_segments_of_getLast? hslash]
  rfl

/-- A path with nothing in the way has its last piece counted. -/
theorem Clear.reversedSteps_eq (h : files.Clear path) :
    reversedSteps path = (pieces path).reverse := by
  obtain ⟨before, name, hpieces, hname⟩ := h.named
  simp only [List.mem_cons, List.not_mem_nil, or_false, not_or] at hname
  rw [reversedSteps, hpieces, List.reverse_append, List.reverse_singleton, List.singleton_append]
  cases before.reverse with
  | nil => simp [dropIdle, isFirstStep, hname.1]
  | cons next others => simp [dropIdle, isStep, hname.1, hname.2.1]

/-- The directories of a path with nothing in the way can be made, and not in the place of the file;
every step of the path then starts from a directory. -/
theorem Clear.exists_makeDirectories (h : files.Clear path) :
    ∃ directory next, parent? path = some directory ∧
      files.makeDirectories directory = (.ok (), next) ∧
      next.Passable (files.start path) (pieces path) ∧
      next.get? (files.destination path) ≠ some .directory := by
  obtain ⟨directory, above, idle, last, hparent, hstart, hpieces, hidle, hcase⟩ :=
    exists_parent? files h.reversedSteps_eq
  have hmakeable := makeable_parent h.start h.way hstart hpieces hcase
  have hcount : (reversedSteps directory).length ≤ directory.length + 1 := by
    have hsegments := Text.length_segments_le '/' directory.toList
    have hsuffix := (dropIdle_suffix (pieces directory).reverse).length_le
    rw [List.length_reverse, pieces, List.length_map] at hsuffix
    exact hsuffix.trans hsegments
  obtain ⟨next, hnext, hreached⟩ := hmakeable.makeDirectoriesFrom_eq hcount
  have hgrown := grown_makeDirectoriesFrom (directory.length + 1) files directory
  rw [hnext] at hgrown
  rw [hstart] at hreached
  refine ⟨directory, next, hparent, hnext, ?_, ?_⟩
  · rw [hpieces]
    refine Reached.passable ?_ hidle last
    rcases hcase with ⟨rfl, _⟩ | ⟨_, rfl, _⟩
    · exact reached_nil_iff.mpr (hreached [] List.nil_prefix)
    · exact hreached
  · rcases hgrown.get?_eq (files.destination path) with heq | ⟨_, _, steps, hsteps, hplace⟩
    · rw [heq]
      exact h.place
    · rw [hstart] at hplace
      rcases hcase with ⟨_, hroot⟩ | ⟨_, rfl, _⟩
      · rw [foldl_advance_of_idle fun piece hpiece =>
          idle_of_mem_pieces hroot piece (hsteps.subset hpiece)] at hplace
        exact absurd hplace.symm (h.apart [] (pieces path) rfl (pieces_ne_nil path))
      · obtain ⟨gap, hgap⟩ := hsteps
        refine absurd hplace.symm (h.apart steps (gap ++ idle ++ [last]) ?_ (by simp))
        rw [hpieces, ← hgap]
        simp

/-- A file can be written where every step of the path starts from a directory. -/
theorem Clear.exists_writeText (h : files.Clear path) (hgrown : files.Grown next path)
    (hpassable : next.Passable (files.start path) (pieces path))
    (hplace : next.get? (files.destination path) ≠ some .directory) (text : String) :
    ∃ written, next.writeText path text = .ok written := by
  have hsame := start_congr hgrown.workingDirectory_eq path
  have hnew : next.locateNew path = .ok (files.destination path) := by
    rw [← destination_congr hgrown.workingDirectory_eq]
    exact walk_eq_ok_iff.mpr ⟨h.ne_empty, hsame ▸ piecesBeforeSlash_of_counted h.reversedSteps_eq ▸
      hpassable, (foldl_advance_piecesBeforeSlash path _).symm⟩
  have hfile : next.locateFile path = .ok (files.destination path) := by
    rw [locateFile, hnew]
    simp only [bind, Except.bind, if_neg h.getLast?_ne]
    rfl
  refine ⟨next.put (files.destination path) (.file text), ?_⟩
  rw [writeText, hfile]
  rfl

/-- The file at a path with nothing in the way can be read, or it is not there. -/
theorem Clear.readText_cases (h : files.Clear path) :
    (∃ text, files.readText path = .ok text) ∨ files.readText path = .error .notFound := by
  rcases walk_of_unblocked h.way with hpassable | hmissing
  · have hlocate : files.locate path = .ok (files.destination path) :=
      locate_eq_ok_iff.mpr ⟨h.ne_empty, hpassable, rfl⟩
    rw [readText, hlocate]
    simp only [bind, Except.bind]
    split
    · exact .inl ⟨_, rfl⟩
    · rename_i hdirectory
      exact absurd hdirectory h.place
    · exact .inr rfl
  · right
    rw [readText, locate, hmissing]
    rfl

end Files.FileSystem

end SchemaWire
