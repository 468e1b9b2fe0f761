import Mathlib.Data.List.DropRight
import Mathlib.Data.List.Infix
import SchemaWire.Files.FileSystem

/-!
Where paths lead. A path that can be followed ends at a location that its text alone decides, given
the working directory; what is in the file system decides only whether it can be followed. The way
of a path to its parent is the beginning of its own way.
-/
namespace SchemaWire

namespace Text

/-- Pieces without the separator are found again after they have been joined. -/
theorem segments_joinSegments {sep : Char} {parts : List (List Char)} (hne : parts ≠ [])
    (hparts : ∀ part ∈ parts, sep ∉ part) : segments sep (joinSegments sep parts) = parts := by
  have hsingle {part : List Char} (hpart : sep ∉ part) : segments sep part = [part] := by
    induction part with
    | nil => rfl
    | cons c rest ih =>
        rw [List.mem_cons, not_or] at hpart
        rw [segments, if_neg (Ne.symm hpart.1), ih hpart.2]
  have happend {part rest : List Char} (hpart : sep ∉ part) :
      segments sep (part ++ sep :: rest) = part :: segments sep rest := by
    induction part with
    | nil => rw [List.nil_append, segments, if_pos rfl]
    | cons c others ih =>
        rw [List.mem_cons, not_or] at hpart
        rw [List.cons_append, segments, if_neg (Ne.symm hpart.1), ih hpart.2]
  induction parts with
  | nil => exact absurd rfl hne
  | cons part rest ih =>
      rw [List.forall_mem_cons] at hparts
      cases rest with
      | nil => exact hsingle hparts.1
      | cons next others =>
          rw [joinSegments, happend hparts.1, ih (List.cons_ne_nil _ _) hparts.2]
          exact List.cons_ne_nil _ _

/-- The last segment is empty only after a separator. -/
theorem getLast?_segments {sep : Char} {text : List Char}
    (h : (segments sep text).getLast? = some []) : text = [] ∨ text.getLast? = some sep := by
  induction text with
  | nil => exact Or.inl rfl
  | cons c rest ih =>
      refine Or.inr ?_
      cases hrest : segments sep rest with
      | nil => exact absurd hrest (segments_ne_nil sep rest)
      | cons part parts =>
          rw [hrest] at ih
          by_cases hc : c = sep
          · rw [segments, if_pos hc, hrest, List.getLast?_cons_cons] at h
            rcases ih h with rfl | hlast
            · rw [hc]
              rfl
            · rw [List.getLast?_cons, hlast]
              rfl
          · simp only [segments, if_neg hc, hrest] at h
            cases parts with
            | nil => simp at h
            | cons next others =>
                rw [List.getLast?_cons_cons] at h ih
                rcases ih h with rfl | hlast
                · cases hrest
                · rw [List.getLast?_cons, hlast]
                  rfl

/-- After a separator at its end a text has an empty segment. -/
theorem getLast?_segments_of_getLast? {sep : Char} {text : List Char}
    (h : text.getLast? = some sep) : (segments sep text).getLast? = some [] := by
  induction text with
  | nil => cases h
  | cons c rest ih =>
      cases hrest : segments sep rest with
      | nil => exact absurd hrest (segments_ne_nil sep rest)
      | cons part parts =>
          have hjoin := joinSegments_segments sep rest
          rw [hrest] at ih hjoin
          by_cases hc : c = sep
          · rw [segments, if_pos hc, hrest, List.getLast?_cons_cons]
            cases rest with
            | nil =>
                cases hrest
                rfl
            | cons d others => exact ih (by rwa [List.getLast?_cons_cons] at h)
          · cases rest with
            | nil => exact absurd (Option.some.inj h) hc
            | cons d others =>
                have hlast := ih (by rwa [List.getLast?_cons_cons] at h)
                simp only [segments, if_neg hc] at hrest ⊢
                simp only [hrest]
                cases parts with
                | nil =>
                    obtain rfl : part = [] := by simpa using hlast
                    cases hjoin
                | cons next later => simpa [List.getLast?_cons_cons] using hlast

end Text

namespace Files

theorem pieces_ne_nil (path : String) : pieces path ≠ [] := by
  rw [pieces, ne_eq, List.map_eq_nil_iff]
  exact Text.segments_ne_nil '/' path.toList

theorem slash_not_mem_of_mem_pieces {path piece : String} (h : piece ∈ pieces path) :
    '/' ∉ piece.toList := by
  obtain ⟨chars, hchars, rfl⟩ := List.mem_map.mp h
  rw [String.toList_ofList]
  exact Text.not_mem_of_mem_segments hchars

theorem pieces_joinPieces {parts : List String} (hne : parts ≠ [])
    (hparts : ∀ part ∈ parts, '/' ∉ part.toList) : pieces (joinPieces parts) = parts := by
  have hsegments : Text.segments '/' (joinPieces parts).toList = parts.map String.toList := by
    rw [joinPieces, String.toList_ofList]
    refine Text.segments_joinSegments (by simpa using hne) fun part hpart => ?_
    obtain ⟨text, htext, rfl⟩ := List.mem_map.mp hpart
    exact hparts text htext
  rw [pieces, hsegments, List.map_map]
  exact List.map_id'' (fun text => String.ofList_toList) parts

/-- A path is absolute if it has several pieces and the first one is empty. -/
theorem isAbsolute_iff {path : String} :
    isAbsolute path = true ↔ ∃ piece rest, pieces path = "" :: piece :: rest := by
  unfold isAbsolute pieces
  cases path.toList with
  | nil => simp [Text.segments]
  | cons c rest =>
      cases hrest : Text.segments '/' rest with
      | nil => exact absurd hrest (Text.segments_ne_nil '/' rest)
      | cons piece others =>
          by_cases hc : c = '/'
          · simp [Text.segments, hc, hrest]
          · simp [Text.segments, hc, hrest]

/-- The last piece is empty only after a slash. -/
theorem getLast?_pieces_ne {path : String} (hne : path ≠ "")
    (hslash : path.toList.getLast? ≠ some '/') : (pieces path).getLast? ≠ some "" := by
  rw [pieces, List.getLast?_map]
  intro hlast
  obtain ⟨chars, hchars, hempty⟩ := Option.map_eq_some_iff.mp hlast
  obtain rfl : chars = [] := by simpa using congrArg String.toList hempty
  rcases Text.getLast?_segments hchars with hnil | hsep
  · exact hne (String.toList_eq_nil_iff.mp hnil)
  · exact hslash hsep

/-- The pieces that are dropped are empty or dots. -/
theorem exists_append_dropIdle (parts : List String) :
    ∃ idle, parts = idle ++ dropIdle parts ∧ ∀ piece ∈ idle, piece = "" ∨ piece = "." := by
  fun_induction dropIdle parts with
  | case1 => exact ⟨[], rfl, by simp⟩
  | case2 first h => exact ⟨[], rfl, by simp⟩
  | case3 first h => exact ⟨[first], by simp, by simpa [isFirstStep] using Or.inl h⟩
  | case4 piece rest hne h => exact ⟨[], rfl, by simp⟩
  | case5 piece rest hne h ih =>
      obtain ⟨idle, hrest, hidle⟩ := ih
      refine ⟨piece :: idle, congrArg (piece :: ·) hrest, List.forall_mem_cons.mpr ⟨?_, hidle⟩⟩
      by_contra hstep
      exact h (by simpa [isStep, not_or] using hstep)

theorem dropIdle_suffix (parts : List String) : dropIdle parts <:+ parts :=
  (exists_append_dropIdle parts).imp fun _ h => h.1.symm

/-- There is nothing more to be dropped. -/
theorem dropIdle_dropIdle (parts : List String) : dropIdle (dropIdle parts) = dropIdle parts := by
  fun_induction dropIdle parts with
  | case1 => rfl
  | case2 first h => rw [dropIdle, if_pos h]
  | case3 first h => rfl
  | case4 piece rest hne h => rw [dropIdle.eq_3 _ _ hne, if_pos h]
  | case5 piece rest hne h ih => exact ih

/-- What is left is not the empty piece alone. -/
theorem dropIdle_ne_empty (parts : List String) : dropIdle parts ≠ [""] := by
  fun_induction dropIdle parts with
  | case1 => simp
  | case2 first h =>
      rintro heq
      simp [isFirstStep, List.cons.inj heq] at h
  | case3 first h => simp
  | case4 piece rest hne h =>
      intro heq
      exact hne (List.cons.inj heq).2
  | case5 piece rest hne h ih => exact ih

/-- The pieces of the paths that stay where they start. -/
theorem idle_of_mem_pieces {directory : String} (h : directory = "" ∨ directory = "/") :
    ∀ piece ∈ pieces directory, piece = "" ∨ piece = "." := by
  rcases h with rfl | rfl <;> decide

namespace FileSystem

/-- The location one step further on, whatever may be there. -/
def advance (location piece : String) : String :=
  if piece = "" || piece = "." then location
  else if piece = ".." then enclosing location
  else child location piece

/-- The location from which a path counts. -/
def start (files : FileSystem) (path : String) : String :=
  if isAbsolute path then root else files.workingDirectory

/-- The location to which a path leads, whether or not it can be followed. -/
def destination (files : FileSystem) (path : String) : String :=
  (pieces path).foldl advance (files.start path)

/-- The path leads to or through the location. -/
def Through (files : FileSystem) (path location : String) : Prop :=
  ∃ steps, steps <+: pieces path ∧ location = steps.foldl advance (files.start path)

instance (files : FileSystem) (path location : String) : Decidable (files.Through path location) :=
  decidable_of_iff
    (∃ steps ∈ (pieces path).inits, location = steps.foldl advance (files.start path))
    (exists_congr fun _ => and_congr_left' (List.mem_inits _ _))

/-- Every step starts from a directory that is there. -/
def Passable (files : FileSystem) (first : String) (steps : List String) : Prop :=
  ∀ before after, steps = before ++ after → after ≠ [] →
    files.get? (before.foldl advance first) = some .directory

variable {files next : FileSystem} {path location : String} {steps : List String}

theorem step_eq_ok_iff {piece : String} : files.step location piece = .ok path ↔
    files.get? location = some .directory ∧ path = advance location piece := by
  unfold step advance
  split <;> rename_i hget
  · simp [hget]
  · simp [hget]
  · rw [hget]
    split
    · simp [eq_comm]
    · split <;> simp [eq_comm]

theorem passable_cons_iff {first piece : String} : files.Passable first (piece :: steps) ↔
    files.get? first = some .directory ∧ files.Passable (advance first piece) steps := by
  constructor
  · intro h
    refine ⟨h [] _ rfl (List.cons_ne_nil _ _), fun before after heq hne => ?_⟩
    exact h (piece :: before) after (congrArg (piece :: ·) heq) hne
  · rintro ⟨hfirst, hrest⟩ before after heq hne
    cases before with
    | nil => exact hfirst
    | cons other before =>
        obtain ⟨rfl, hsteps⟩ := List.cons.inj heq
        exact hrest before after hsteps hne

theorem foldlM_step_eq_ok_iff {first : String} : steps.foldlM files.step first = .ok location ↔
    files.Passable first steps ∧ location = steps.foldl advance first := by
  induction steps generalizing first with
  | nil =>
      have hpassable : files.Passable first [] := fun before after heq hne =>
        absurd (List.append_eq_nil_iff.mp heq.symm).2 hne
      simp [hpassable, pure, Except.pure, eq_comm]
  | cons piece rest ih =>
      rw [List.foldlM_cons, passable_cons_iff, List.foldl_cons]
      cases hstep : files.step first piece with
      | error fault =>
          have hnot : files.get? first ≠ some .directory := by
            intro hdirectory
            cases hstep.symm.trans (step_eq_ok_iff.mpr ⟨hdirectory, rfl⟩)
          simp [bind, Except.bind, hnot]
      | ok reached =>
          obtain ⟨hdirectory, rfl⟩ := step_eq_ok_iff.mp hstep
          simp only [bind, Except.bind, ih, hdirectory, true_and]

theorem walk_eq_ok_iff : files.walk path steps = .ok location ↔
    path ≠ "" ∧ files.Passable (files.start path) steps ∧
      location = steps.foldl advance (files.start path) := by
  unfold walk
  split
  · simp [*]
  · rename_i hne
    rw [← start, foldlM_step_eq_ok_iff]
    simp [hne]

theorem locate_eq_ok_iff : files.locate path = .ok location ↔
    path ≠ "" ∧ files.Passable (files.start path) (pieces path) ∧
      location = files.destination path :=
  walk_eq_ok_iff

theorem through_destination (files : FileSystem) (path : String) :
    files.Through path (files.destination path) :=
  ⟨pieces path, List.prefix_refl _, rfl⟩

theorem through_of_locateNew (h : files.locateNew path = .ok location) :
    files.Through path location := by
  obtain ⟨_, _, rfl⟩ := walk_eq_ok_iff.mp h
  exact ⟨_, List.rdropWhile_prefix _ (pieces path), rfl⟩

/-- A path without a slash at its end has no pieces to be dropped there. -/
theorem piecesBeforeSlash_eq (hne : path ≠ "") (hslash : path.toList.getLast? ≠ some '/') :
    piecesBeforeSlash path = pieces path := by
  refine List.rdropWhile_eq_self_iff.mpr fun hpieces hempty => ?_
  refine getLast?_pieces_ne hne hslash ?_
  rw [List.getLast?_eq_some_getLast hpieces, of_decide_eq_true hempty]

/-- Only the working directory decides where a path leads. -/
theorem start_congr (h : next.workingDirectory = files.workingDirectory) (path : String) :
    next.start path = files.start path := by
  rw [start, start, h]

theorem destination_congr (h : next.workingDirectory = files.workingDirectory) (path : String) :
    next.destination path = files.destination path := by
  rw [destination, destination, start_congr h]

theorem through_congr (h : next.workingDirectory = files.workingDirectory) :
    next.Through path location ↔ files.Through path location := by
  rw [Through, Through, start_congr h]

/-- Empty pieces and dots lead nowhere. -/
theorem foldl_advance_of_idle {first : String} (h : ∀ piece ∈ steps, piece = "" ∨ piece = ".") :
    steps.foldl advance first = first := by
  induction steps with
  | nil => rfl
  | cons piece rest ih =>
      rw [List.forall_mem_cons] at h
      have hpiece : advance first piece = first := by
        rcases h.1 with rfl | rfl <;> rfl
      rw [List.foldl_cons, hpiece]
      exact ih h.2

/-- The beginning of a path is absolute as the path is. -/
theorem isAbsolute_congr {directory : String} (hbefore : pieces directory <+: pieces path)
    (hne : pieces directory ≠ [""]) : isAbsolute directory = isAbsolute path := by
  obtain ⟨after, hafter⟩ := hbefore
  rw [Bool.eq_iff_iff, isAbsolute_iff, isAbsolute_iff, ← hafter]
  cases hpieces : pieces directory with
  | nil => exact absurd hpieces (pieces_ne_nil directory)
  | cons first rest =>
      cases rest with
      | nil =>
          have hfirst : first ≠ "" := fun heq => hne (by rw [hpieces, heq])
          simp [hfirst]
      | cons second others => simp

/-- The parent of a path is where the path starts, or it is the path up to its last step. -/
theorem parent?_eq_some {directory : String} (files : FileSystem)
    (hparent : parent? path = some directory) :
    files.start directory = files.start path ∧
      ∃ last before, reversedSteps path = last :: before ∧
        (dropIdle before = [] ∧ (directory = "" ∨ directory = "/") ∨
          dropIdle before ≠ [] ∧ pieces directory = (dropIdle before).reverse) := by
  unfold parent? at hparent
  split at hparent
  · cases hparent
  · rename_i last before hsteps
    split at hparent
    · rename_i hnone
      cases hparent
      refine ⟨?_, last, before, hsteps, .inl ⟨hnone, ?_⟩⟩
      · unfold start
        split <;> simp [isAbsolute]
      · split <;> simp
    · rename_i hsome
      obtain rfl := Option.some.inj hparent
      have hbefore : before <:+ (pieces path).reverse :=
        (List.suffix_cons last before).trans (hsteps ▸ dropIdle_suffix (pieces path).reverse)
      have hparts : (dropIdle before).reverse <+: pieces path := by
        simpa using List.reverse_prefix.mpr ((dropIdle_suffix before).trans hbefore)
      have hpieces : pieces (joinPieces (dropIdle before).reverse) = (dropIdle before).reverse :=
        pieces_joinPieces (by simpa using hsome) fun part hpart =>
          slash_not_mem_of_mem_pieces (hparts.subset hpart)
      have hnot : (dropIdle before).reverse ≠ [""] := fun heq =>
        dropIdle_ne_empty before (List.reverse_eq_cons_iff.mp heq)
      refine ⟨?_, last, before, hsteps, .inr ⟨hsome, hpieces⟩⟩
      rw [start, start, isAbsolute_congr (hpieces.symm ▸ hparts) (hpieces.symm ▸ hnot)]

/-- The way to the parent of a path is a part of the way of the path. -/
theorem Through.of_parent? {directory : String} (hparent : parent? path = some directory)
    (h : files.Through directory location) : files.Through path location := by
  obtain ⟨hstart, last, before, hsteps, hcase⟩ := parent?_eq_some files hparent
  obtain ⟨steps, hfront, rfl⟩ := h
  rw [hstart]
  rcases hcase with ⟨_, hdirectory⟩ | ⟨_, hpieces⟩
  · rw [foldl_advance_of_idle fun piece hpiece =>
      idle_of_mem_pieces hdirectory piece (hfront.subset hpiece)]
    exact ⟨[], List.nil_prefix, rfl⟩
  · have hbefore : before <:+ (pieces path).reverse :=
      (List.suffix_cons last before).trans (hsteps ▸ dropIdle_suffix (pieces path).reverse)
    refine ⟨steps, (hpieces ▸ hfront).trans ?_, rfl⟩
    simpa using List.reverse_prefix.mpr ((dropIdle_suffix before).trans hbefore)

end FileSystem

end Files

end SchemaWire
