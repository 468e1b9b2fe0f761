import SchemaWire.Proofs.Files.Way
import SchemaWire.Proofs.Result

/-!
What making directories and writing a file change. Directories appear only where nothing was, and
only on the way of the path; a written file changes at its own location and nowhere else. So every
other file that could be read can be read afterwards, and has the same text.
-/
namespace SchemaWire.Files.FileSystem

variable {files middle next : FileSystem} {path other location text : String}

/-- The second file system is the first one with some more directories on the way of a path. -/
structure Grown (files next : FileSystem) (path : String) : Prop where
  workingDirectory_eq : next.workingDirectory = files.workingDirectory
  get?_eq : ∀ location, next.get? location = files.get? location ∨
    files.get? location = none ∧ next.get? location = some .directory ∧
      files.Through path location

theorem Grown.refl (files : FileSystem) (path : String) : files.Grown files path :=
  ⟨rfl, fun _ => Or.inl rfl⟩

theorem Grown.trans (h : files.Grown middle path) (hnext : middle.Grown next path) :
    files.Grown next path := by
  refine ⟨hnext.workingDirectory_eq.trans h.workingDirectory_eq, fun location => ?_⟩
  rcases hnext.get?_eq location with heq | ⟨hnone, hdirectory, hthrough⟩
  · rw [heq]
    exact h.get?_eq location
  · have hwas : files.get? location = none := by
      rcases h.get?_eq location with heq | ⟨hwas, _⟩
      · rw [← heq, hnone]
      · exact hwas
    exact Or.inr ⟨hwas, hdirectory, (through_congr h.workingDirectory_eq).mp hthrough⟩

theorem Grown.of_parent? (h : files.Grown next other) (hparent : parent? path = some other) :
    files.Grown next path :=
  ⟨h.workingDirectory_eq, fun location => (h.get?_eq location).imp id fun ⟨hnone, hnew, hway⟩ =>
    ⟨hnone, hnew, hway.of_parent? hparent⟩⟩

/-- Nothing disappears and nothing changes into something else. -/
theorem Grown.get?_of_eq_some (h : files.Grown next path) {entry : Entry}
    (hget : files.get? location = some entry) : next.get? location = some entry := by
  rcases h.get?_eq location with heq | ⟨hnone, _⟩
  · exact heq.trans hget
  · cases hnone.symm.trans hget

theorem Grown.file_iff (h : files.Grown next path) :
    next.get? location = some (.file text) ↔ files.get? location = some (.file text) := by
  rcases h.get?_eq location with heq | ⟨hnone, hnew, _⟩
  · rw [heq]
  · simp [hnone, hnew]

theorem grown_ensureDirectory (h : files.ensureDirectory path = .ok next) :
    files.Grown next path := by
  unfold ensureDirectory at h
  split at h
  · rename_i made hmade
    cases h
    obtain ⟨location, hlocation, h⟩ := bind_eq_ok_iff.mp hmade
    split at h
    · cases h
    · rename_i hfree
      cases h
      have hnone : files.get? location = none := by simpa using hfree
      have hroot : location ≠ root := by
        rintro rfl
        simp [get?] at hnone
      refine ⟨rfl, fun other => ?_⟩
      by_cases heq : other = location
      · subst heq
        exact Or.inr ⟨hnone, get?_put_self files _ hroot, through_of_locateNew hlocation⟩
      · exact Or.inl (get?_put_of_ne files _ heq)
  · split at h
    · cases h
      exact .refl _ _
    · cases h

/-- Whether or not all of them could be made, only directories on the way of the path are new. -/
theorem grown_makeDirectoriesFrom (steps : Nat) (files : FileSystem) (path : String) :
    files.Grown (makeDirectoriesFrom steps files path).2 path := by
  induction steps generalizing files path with
  | zero => exact .refl _ _
  | succ steps ih =>
      rw [makeDirectoriesFrom]
      split
      · exact .refl _ _
      · split
        · rename_i hmade
          exact grown_ensureDirectory hmade
        · have hparent : files.Grown
              (makeDirectoriesFrom steps files ((parent? path).getD "")).2 path := by
            cases hparent : parent? path with
            | none =>
                -- There is no directory of the empty name to be made.
                rw [Option.getD_none]
                cases steps <;> exact .refl _ _
            | some directory => exact (ih files directory).of_parent? hparent
          split
          · rename_i hfault
            rwa [hfault] at hparent
          · rename_i hdone
            rw [hdone] at hparent
            split
            · rename_i hmade
              exact hparent.trans (grown_ensureDirectory hmade)
            · exact hparent
        · exact .refl _ _

theorem grown_makeDirectories (files : FileSystem) (path : String) :
    files.Grown (files.makeDirectories path).2 path :=
  grown_makeDirectoriesFrom _ files path

/-- The second file system is the first one with a text at a path and with the directories on its
way. -/
structure Written (files next : FileSystem) (path text : String) : Prop where
  workingDirectory_eq : next.workingDirectory = files.workingDirectory
  passable : next.Passable (files.start path) (pieces path)
  readText_eq : next.readText path = .ok text
  noDirectory : files.get? (files.destination path) ≠ some .directory
  get?_destination : next.get? (files.destination path) = some (.file text)
  get?_of_ne : ∀ location, location ≠ files.destination path →
    next.get? location = files.get? location ∨
      files.get? location = none ∧ next.get? location = some .directory ∧
        files.Through path location

theorem readText_eq_ok_iff : files.readText path = .ok text ↔
    ∃ location, files.locate path = .ok location ∧ files.get? location = some (.file text) := by
  rw [readText, bind_eq_ok_iff]
  refine exists_congr fun location => and_congr_right fun _ => ?_
  split <;> simp_all [pure, Except.pure, throw, throwThe, MonadExceptOf.throw]

theorem locateFile_ok (h : files.locateFile path = .ok location) :
    files.locateNew path = .ok location ∧ path.toList.getLast? ≠ some '/' ∧
      files.get? location ≠ some .directory := by
  obtain ⟨reached, hreached, h⟩ := bind_eq_ok_iff.mp h
  by_cases hslash : path.toList.getLast? = some '/'
  · rw [if_pos hslash] at h
    cases h
  · rw [if_neg hslash] at h
    dsimp only at h
    split at h
    · cases h
    · rename_i hnot
      cases pure_eq_ok_iff.mp h
      exact ⟨hreached, hslash, hnot⟩

/-- Writing a file writes it at the location of the path. -/
theorem written_of_writeText (hgrown : files.Grown middle path)
    (h : middle.writeText path text = .ok next) : files.Written next path text := by
  obtain ⟨location, hlocateFile, h⟩ := bind_eq_ok_iff.mp h
  obtain rfl := pure_eq_ok_iff.mp h
  obtain ⟨hlocateNew, hslash, hfile⟩ := locateFile_ok hlocateFile
  obtain ⟨hne, hpassable, hlocation⟩ := walk_eq_ok_iff.mp hlocateNew
  rw [piecesBeforeSlash_eq hne hslash] at hpassable hlocation
  have hdestination : files.destination path = location := by
    rw [hlocation, destination, start_congr hgrown.workingDirectory_eq]
  have hroot : location ≠ root := by
    rintro rfl
    simp [get?] at hfile
  have hself := get?_put_self middle (.file text) hroot
  have hway : (middle.put location (.file text)).Passable (middle.start path) (pieces path) := by
    -- The way of the path leads through directories, which the file is not.
    intro before after heq hafter
    have hdirectory := hpassable before after heq hafter
    refine (get?_put_of_ne middle _ fun hat => ?_).trans hdirectory
    exact hfile (hat ▸ hdirectory)
  refine ⟨hgrown.workingDirectory_eq, start_congr hgrown.workingDirectory_eq path ▸ hway, ?_, ?_,
    hdestination ▸ hself, fun other hother => ?_⟩
  · exact readText_eq_ok_iff.mpr ⟨location, locate_eq_ok_iff.mpr ⟨hne, hway, hlocation⟩, hself⟩
  · intro hdirectory
    rw [hdestination] at hdirectory
    exact hfile (hgrown.get?_of_eq_some hdirectory)
  · rw [get?_put_of_ne middle _ (hdestination ▸ hother)]
    exact hgrown.get?_eq other

variable {content : String}

theorem Written.directory (h : files.Written next path text)
    (hget : files.get? location = some .directory) : next.get? location = some .directory := by
  have hne : location ≠ files.destination path := by
    rintro rfl
    exact h.noDirectory hget
  rcases h.get?_of_ne location hne with heq | ⟨hnone, _⟩
  · exact heq.trans hget
  · cases hnone.symm.trans hget

/-- A path that could be followed leads to the same location afterwards. -/
theorem Written.locate_eq (h : files.Written next path text)
    (hlocate : files.locate other = .ok location) : next.locate other = .ok location := by
  obtain ⟨hne, hpassable, rfl⟩ := locate_eq_ok_iff.mp hlocate
  refine locate_eq_ok_iff.mpr ⟨hne, fun before after heq hafter => ?_,
    (destination_congr h.workingDirectory_eq other).symm⟩
  rw [start_congr h.workingDirectory_eq]
  exact h.directory (hpassable before after heq hafter)

/-- Every other file keeps its text. -/
theorem Written.readText_of_ne (h : files.Written next path text)
    (hread : files.readText other = .ok content)
    (hne : files.destination other ≠ files.destination path) :
    next.readText other = .ok content := by
  obtain ⟨location, hlocate, hget⟩ := readText_eq_ok_iff.mp hread
  refine readText_eq_ok_iff.mpr ⟨location, h.locate_eq hlocate, ?_⟩
  obtain ⟨_, _, rfl⟩ := locate_eq_ok_iff.mp hlocate
  rcases h.get?_of_ne _ hne with heq | ⟨hnone, _⟩
  · exact heq.trans hget
  · cases hnone.symm.trans hget

/-- What is not on the way of the path is as it was. -/
theorem Written.at?_of_not_through (h : files.Written next path text)
    (hlocate : files.locate other = .ok location) (hnot : ¬ files.Through path location) :
    next.at? other = files.at? other := by
  have hne : location ≠ files.destination path := by
    rintro rfl
    exact hnot (files.through_destination path)
  simp only [at?, hlocate, h.locate_eq hlocate]
  rcases h.get?_of_ne location hne with heq | ⟨_, _, hthrough⟩
  · exact heq
  · exact absurd hthrough hnot

end SchemaWire.Files.FileSystem
