import SchemaWire.Diff.Report

/-!
Escape sequences that set how a terminal shows text, and what is left of a text without them. A part
of a text shows as another one if this is what is left of it, whatever follows it; a text without
such a sequence shows as itself if it ends in a character that no sequence goes on with.
-/
namespace SchemaWire.Diff

/-- Whether the character stands between the start and the end of a sequence. -/
def isParameter (c : Char) : Bool :=
  c.isDigit || c = ';'

/-- What comes after the parameters of a sequence and its end. -/
def afterParameters : List Char → Option (List Char)
  | [] => none
  | c :: rest =>
      if c = 'm' then some rest
      else if isParameter c then afterParameters rest
      else none

/-- What comes after the sequence at the start of a text. -/
def afterSequence : List Char → Option (List Char)
  | '\x1b' :: '[' :: rest => afterParameters rest
  | _ => none

theorem length_afterParameters {text after : List Char} (h : afterParameters text = some after) :
    after.length ≤ text.length := by
  fun_induction afterParameters text with
  | case1 => cases h
  | case2 rest =>
      cases h
      simp
  | case3 c rest _ _ ih => exact Nat.le_succ_of_le (ih h)
  | case4 c rest _ _ => cases h

theorem length_afterSequence {text after : List Char} (h : afterSequence text = some after) :
    after.length < text.length := by
  unfold afterSequence at h
  split at h
  · have hle := length_afterParameters h
    simp only [List.length_cons]
    omega
  · cases h

def dropEscapes : List Char → List Char
  | [] => []
  | c :: rest =>
      match _h : afterSequence (c :: rest) with
      | some after => dropEscapes after
      | none => c :: dropEscapes rest
termination_by text => text.length
decreasing_by
  · exact length_afterSequence _h
  · exact Nat.lt_succ_self _

/-- The text has no escape sequence. -/
def IsPlain : List Char → Prop
  | [] => True
  | c :: rest => afterSequence (c :: rest) = none ∧ IsPlain rest

instance decidableIsPlain : (text : List Char) → Decidable (IsPlain text)
  | [] => inferInstanceAs (Decidable True)
  | c :: rest =>
      have := decidableIsPlain rest
      inferInstanceAs (Decidable (afterSequence (c :: rest) = none ∧ IsPlain rest))

/-- The character is no part of any sequence. -/
structure IsBreak (c : Char) : Prop where
  ne_start : c ≠ '\x1b'
  ne_bracket : c ≠ '['
  ne_end : c ≠ 'm'
  not_parameter : isParameter c = false

variable {text after first second : List Char} {c b : Char}

theorem dropEscapes_of_sequence (h : afterSequence (c :: text) = some after) :
    dropEscapes (c :: text) = dropEscapes after := by
  rw [dropEscapes]
  split
  · rename_i heq
    rw [h] at heq
    cases heq
    rfl
  · rename_i heq
    cases h.symm.trans heq

theorem dropEscapes_cons (h : afterSequence (c :: text) = none) :
    dropEscapes (c :: text) = c :: dropEscapes text := by
  rw [dropEscapes]
  split
  · rename_i heq
    cases h.symm.trans heq
  · rfl

/-- A sequence is found in a longer text as well. -/
theorem afterParameters_append (h : afterParameters first = some after) :
    afterParameters (first ++ second) = some (after ++ second) := by
  fun_induction afterParameters first with
  | case1 => cases h
  | case2 rest =>
      cases h
      rfl
  | case3 c rest hend hparameter ih =>
      rw [List.cons_append, afterParameters, if_neg hend, if_pos hparameter, ih h]
  | case4 c rest _ _ => cases h

theorem afterSequence_append (h : afterSequence first = some after) :
    afterSequence (first ++ second) = some (after ++ second) := by
  unfold afterSequence at h
  split at h
  · exact afterParameters_append h
  · cases h

/-- No sequence reaches beyond a character that is no part of any. -/
theorem afterParameters_break (hbreak : IsBreak b) (h : afterParameters first = none) :
    afterParameters (first ++ b :: second) = none := by
  fun_induction afterParameters first with
  | case1 =>
      rw [List.nil_append, afterParameters, if_neg hbreak.ne_end,
        if_neg (by simp [hbreak.not_parameter])]
  | case2 rest => cases h
  | case3 c rest hend hparameter ih =>
      rw [List.cons_append, afterParameters, if_neg hend, if_pos hparameter, ih h]
  | case4 c rest hend hparameter =>
      rw [List.cons_append, afterParameters, if_neg hend, if_neg hparameter]

theorem afterSequence_break (hbreak : IsBreak b) (h : afterSequence first = none) :
    afterSequence (first ++ b :: second) = none := by
  unfold afterSequence at h ⊢
  split
  · rename_i rest heq
    rcases first with _ | ⟨c, _ | ⟨d, others⟩⟩
    · exact absurd (List.cons.inj heq).1 hbreak.ne_start
    · exact absurd (List.cons.inj (List.cons.inj heq).2).1 hbreak.ne_bracket
    · simp only [List.cons_append, List.cons.injEq] at heq
      obtain ⟨rfl, rfl, rfl⟩ := heq
      exact afterParameters_break hbreak h
  · rfl

theorem IsPlain.of_append_left (h : IsPlain (first ++ second)) : IsPlain first := by
  induction first with
  | nil => trivial
  | cons c rest ih =>
      refine ⟨?_, ih h.2⟩
      cases hfirst : afterSequence (c :: rest) with
      | none => rfl
      | some after => cases (afterSequence_append hfirst).symm.trans h.1

theorem IsPlain.of_append_right (h : IsPlain (first ++ second)) : IsPlain second := by
  induction first with
  | nil => exact h
  | cons c rest ih => exact ih h.2

/-- Up to a character that no sequence goes on with, a text without sequences is left as it is. -/
theorem dropEscapes_break (hplain : IsPlain text) (hbreak : IsBreak b) (rest : List Char) :
    dropEscapes (text ++ b :: rest) = text ++ b :: dropEscapes rest := by
  induction text with
  | nil => exact dropEscapes_cons (@afterSequence_break [] rest b hbreak rfl)
  | cons c others ih =>
      rw [List.cons_append, List.cons_append, ← ih hplain.2]
      exact dropEscapes_cons (@afterSequence_break (c :: others) rest b hbreak hplain.1)

theorem dropEscapes_append_of_notMem (h : '\x1b' ∉ text) (rest : List Char) :
    dropEscapes (text ++ rest) = text ++ dropEscapes rest := by
  induction text with
  | nil => rfl
  | cons c others ih =>
      rw [List.mem_cons, not_or] at h
      rw [List.cons_append, List.cons_append, ← ih h.2]
      refine dropEscapes_cons ?_
      unfold afterSequence
      split
      · rename_i heq
        exact absurd (List.cons.inj heq).1.symm h.1
      · rfl

/-- Whatever follows, of the written part the shown one is left. -/
def Shows (written shown : String) : Prop :=
  ∀ rest, dropEscapes (written.toList ++ rest) = shown.toList ++ dropEscapes rest

namespace Shows

variable {written shown next nextShown : String}

theorem append (h : Shows written shown) (hnext : Shows next nextShown) :
    Shows (written ++ next) (shown ++ nextShown) := by
  intro rest
  rw [String.toList_append, String.toList_append, List.append_assoc, h, hnext, List.append_assoc]

theorem empty : Shows "" "" :=
  fun _ => rfl

theorem dropEscapes_eq (h : Shows written shown) : dropEscapes written.toList = shown.toList := by
  have hall := h []
  rwa [List.append_nil, dropEscapes, List.append_nil] at hall

theorem join {α : Type} {items : List α} {write display : α → String}
    (h : ∀ item ∈ items, Shows (write item) (display item)) :
    Shows (String.join (items.map write)) (String.join (items.map display)) := by
  induction items with
  | nil => exact empty
  | cons item rest ih =>
      rw [List.map_cons, List.map_cons, String.join_cons, String.join_cons]
      exact (h item List.mem_cons_self).append
        (ih fun other hother => h other (List.mem_cons_of_mem _ hother))

theorem of_break {text : List Char} (hplain : IsPlain text) (hbreak : IsBreak b)
    (hwritten : written.toList = text ++ [b]) : Shows written written := by
  intro rest
  rw [hwritten, List.append_assoc, List.append_assoc]
  exact dropEscapes_break hplain hbreak rest

theorem of_notMem (h : '\x1b' ∉ written.toList) : Shows written written :=
  dropEscapes_append_of_notMem h

theorem mark (h : ∀ rest, afterSequence (written.toList ++ rest) = some rest) :
    Shows written "" := by
  intro rest
  have hsequence := h rest
  cases hwritten : written.toList ++ rest with
  | nil => rw [hwritten] at hsequence; cases hsequence
  | cons c text =>
      rw [hwritten] at hsequence
      exact dropEscapes_of_sequence hsequence

theorem intercalate {α : Type} {items : List α} {write display : α → String} {sep : String}
    (hsep : Shows sep sep) (h : ∀ item ∈ items, Shows (write item) (display item)) :
    Shows (String.intercalate sep (items.map write))
      (String.intercalate sep (items.map display)) := by
  induction items with
  | nil => exact empty
  | cons item rest ih =>
      have hitem := h item List.mem_cons_self
      have hrest := ih fun other hother => h other (List.mem_cons_of_mem _ hother)
      cases rest with
      | nil => exact hitem
      | cons next others =>
          have hcons (f : α → String) : String.intercalate sep ((item :: next :: others).map f) =
              f item ++ sep ++ String.intercalate sep ((next :: others).map f) :=
            String.intercalate_cons_of_ne_nil (List.cons_ne_nil _ _)
          rw [hcons, hcons]
          exact (hitem.append hsep).append hrest

end Shows

/-! The parts of a report. -/

theorem isBreak_lineFeed : IsBreak '\n' :=
  ⟨by decide, by decide, by decide, by decide⟩

theorem isBreak_return : IsBreak '\r' :=
  ⟨by decide, by decide, by decide, by decide⟩

theorem isBreak_space : IsBreak ' ' :=
  ⟨by decide, by decide, by decide, by decide⟩

/-- A line ends in a line break, so that no sequence of the next one is part of it. -/
theorem shows_endLine {line : String} (h : IsPlain line.toList) :
    Shows (endLine line) (endLine line) := by
  unfold endLine
  split
  · rename_i hlast
    obtain ⟨text, htext⟩ := List.getLast?_eq_some_iff.mp hlast
    exact .of_break (IsPlain.of_append_left (htext ▸ h)) isBreak_lineFeed htext
  · rename_i hlast
    obtain ⟨text, htext⟩ := List.getLast?_eq_some_iff.mp hlast
    exact .of_break (IsPlain.of_append_left (htext ▸ h)) isBreak_return htext
  · exact .of_break h isBreak_lineFeed String.toList_append

theorem shows_renderLine (kind : LineKind) {line : String} (h : IsPlain line.toList) :
    Shows (renderLine .colored kind line) (renderLine .plain kind line) := by
  have hmark : Shows (kind.mark .colored) (kind.mark .plain) := by
    cases kind
    · exact .empty
    · exact .mark fun _ => rfl
    · exact .mark fun _ => rfl
  have hsign : Shows kind.sign kind.sign := .of_notMem (by cases kind <;> decide)
  have hreset : Shows (kind.reset .colored) (kind.reset .plain) := by
    cases kind
    · exact .empty
    · exact .mark fun _ => rfl
    · exact .mark fun _ => rfl
  exact ((hmark.append hsign).append (shows_endLine h)).append hreset

theorem shows_renderHunk {hunk : Hunk String}
    (h : ∀ entry ∈ hunk.flatMap Piece.shown, IsPlain entry.2.toList) :
    Shows (renderHunk .colored hunk) (renderHunk .plain hunk) :=
  .join fun entry hentry => shows_renderLine entry.1 (h entry hentry)

theorem shows_renderHeading {sign label suffix : String} (hsign : '\x1b' ∉ sign.toList)
    (hlabel : IsPlain label.toList) (hsuffix : '\x1b' ∉ suffix.toList) :
    Shows (renderHeading .colored sign label suffix) (renderHeading .plain sign label suffix) := by
  have hmark : Shows Style.colored.heading Style.plain.heading := .mark fun _ => rfl
  have hreset : Shows Style.colored.reset Style.plain.reset := .mark fun _ => rfl
  have hspace : Shows " " " " := .of_notMem (by decide)
  have hend : Shows "\n" "\n" := .of_notMem (by decide)
  have hname : Shows (label ++ " ") (label ++ " ") :=
    .of_break hlabel isBreak_space String.toList_append
  have htext := (((hmark.append (.of_notMem hsign)).append hspace).append hname).append
    (.of_notMem hsuffix)
  have hall := (htext.append hreset).append hend
  simpa only [renderHeading, String.append_assoc] using hall

end SchemaWire.Diff
