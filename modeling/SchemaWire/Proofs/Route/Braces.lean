import SchemaWire.Route.Path

/-!
Braces in a text. The nesting of a text is the number of its opening braces less that of its closing
ones; a text is balanced if no prefix closes more than it opens and nothing stays open. A group is
what stands between an opening brace at nesting zero and the brace that closes it. The main
statement is that a balanced text falls into texts without braces and groups, and that there is only
one way to find its groups.
-/
namespace SchemaWire

namespace Braces

/-- Opening braces less closing ones. -/
def nesting (text : List Char) : Int :=
  text.count '\x7b' - text.count '\x7d'

/-- Read from the left, no brace is closed before it was opened, and none stays open. -/
structure Balanced (text : List Char) : Prop where
  opened : ∀ before, before <+: text → 0 ≤ nesting before
  closed : nesting text = 0

/-- A brace opened where none is open, what stands before it, inside it up to the brace that closes
it, and after that. -/
structure OutermostGroup (text before inside after : List Char) : Prop where
  eq_append : text = before ++ '\x7b' :: (inside ++ '\x7d' :: after)
  balanced_before : Balanced before
  balanced_inside : Balanced inside

/-- A character that is no brace. -/
def IsPlain (c : Char) : Prop :=
  c ≠ '\x7b' ∧ c ≠ '\x7d'

instance : DecidablePred IsPlain := fun c => inferInstanceAs (Decidable (c ≠ '\x7b' ∧ c ≠ '\x7d'))

@[simp]
theorem nesting_nil : nesting [] = 0 := rfl

@[simp]
theorem nesting_append (first second : List Char) :
    nesting (first ++ second) = nesting first + nesting second := by
  simp only [nesting, List.count_append]
  omega

theorem nesting_cons (c : Char) (rest : List Char) :
    nesting (c :: rest) = nesting [c] + nesting rest :=
  nesting_append [c] rest

@[simp]
theorem nesting_open (rest : List Char) : nesting ('\x7b' :: rest) = nesting rest + 1 := by
  rw [nesting, nesting, List.count_cons_self, List.count_cons_of_ne (by decide)]
  omega

@[simp]
theorem nesting_close (rest : List Char) : nesting ('\x7d' :: rest) = nesting rest - 1 := by
  rw [nesting, nesting, List.count_cons_self, List.count_cons_of_ne (by decide)]
  omega

theorem nesting_cons_of_isPlain {c : Char} (h : IsPlain c) (rest : List Char) :
    nesting (c :: rest) = nesting rest := by
  rw [nesting, nesting, List.count_cons_of_ne h.1, List.count_cons_of_ne h.2]

theorem nesting_of_forall_isPlain {text : List Char} (h : ∀ c ∈ text, IsPlain c) :
    nesting text = 0 := by
  induction text with
  | nil => rfl
  | cons c rest ih =>
      obtain ⟨hc, hrest⟩ := List.forall_mem_cons.mp h
      rw [nesting_cons_of_isPlain hc, ih hrest]

theorem balanced_of_forall_isPlain {text : List Char} (h : ∀ c ∈ text, IsPlain c) :
    Balanced text where
  opened _ hbefore :=
    Int.le_of_eq (nesting_of_forall_isPlain fun c hc => h c (hbefore.subset hc)).symm
  closed := nesting_of_forall_isPlain h

theorem balanced_of_all_isPlain {text : List Char}
    (h : (text.all fun c => decide (IsPlain c)) = true) : Balanced text :=
  balanced_of_forall_isPlain (by simpa only [List.all_eq_true, decide_eq_true_iff] using h)

theorem balanced_nil : Balanced [] :=
  balanced_of_forall_isPlain (List.forall_mem_nil _)

/-- A prefix of two texts is one of the first, or goes on in the second. -/
theorem prefix_append_cases {before first second : List Char} (h : before <+: first ++ second) :
    before <+: first ∨ ∃ rest, rest <+: second ∧ before = first ++ rest := by
  rcases List.prefix_or_prefix_of_prefix h (List.prefix_append first second) with hin | ⟨rest, rfl⟩
  · exact Or.inl hin
  · exact Or.inr ⟨rest, (List.prefix_append_right_inj first).mp h, rfl⟩

theorem Balanced.append {first second : List Char} (hfirst : Balanced first)
    (hsecond : Balanced second) : Balanced (first ++ second) where
  opened := by
    intro before hbefore
    rcases prefix_append_cases hbefore with hin | ⟨rest, hrest, rfl⟩
    · exact hfirst.opened before hin
    · rw [nesting_append, hfirst.closed, Int.zero_add]
      exact hsecond.opened rest hrest
  closed := by rw [nesting_append, hfirst.closed, hsecond.closed, Int.zero_add]

/-- What follows a balanced part of a balanced text is balanced. -/
theorem Balanced.of_append {first second : List Char} (h : Balanced (first ++ second))
    (hfirst : Balanced first) : Balanced second where
  opened := by
    intro before hbefore
    have hwhole := h.opened (first ++ before) ((List.prefix_append_right_inj first).mpr hbefore)
    rwa [nesting_append, hfirst.closed, Int.zero_add] at hwhole
  closed := by
    have hwhole := h.closed
    rwa [nesting_append, hfirst.closed, Int.zero_add] at hwhole

/-- A balanced text in braces is balanced. -/
theorem Balanced.group {inside : List Char} (h : Balanced inside) :
    Balanced ('\x7b' :: (inside ++ ['\x7d'])) where
  opened := by
    intro before hbefore
    rcases List.prefix_cons_iff.mp hbefore with rfl | ⟨rest, rfl, hrest⟩
    · simp
    · rw [nesting_open]
      rcases prefix_append_cases hrest with hin | ⟨last, hlast, rfl⟩
      · have := h.opened rest hin
        omega
      · rcases List.prefix_cons_iff.mp hlast with rfl | ⟨tail, rfl, htail⟩
        · simp [h.closed]
        · simp [List.prefix_nil.mp htail, h.closed]
  closed := by simp [h.closed]

/-- A balanced text does not begin with a closing brace. -/
theorem Balanced.head_ne_close {c : Char} {rest : List Char} (h : Balanced (c :: rest)) :
    c ≠ '\x7d' := by
  rintro rfl
  have hhead := h.opened ['\x7d'] (List.prefix_append ['\x7d'] rest)
  simp at hhead

/-- Where more braces are closed than were opened, there is a first one too many. -/
theorem exists_close {text : List Char} {level : Nat} (h : nesting text < -level) :
    ∃ inside after, text = inside ++ '\x7d' :: after ∧ nesting inside = -level ∧
      ∀ before, before <+: inside → -level ≤ nesting before := by
  induction text generalizing level with
  | nil =>
      rw [nesting_nil] at h
      omega
  | cons c rest ih =>
      -- The level counts the braces that are open around the rest.
      have hstep : ∀ next : Nat, nesting rest < -next → (nesting [c] : Int) = next - level →
          ∃ inside after, c :: rest = inside ++ '\x7d' :: after ∧ nesting inside = -level ∧
            ∀ before, before <+: inside → -level ≤ nesting before := by
        intro next hrest hhead
        obtain ⟨inside, after, rfl, hinside, hbefore⟩ := ih hrest
        refine ⟨c :: inside, after, rfl, by rw [nesting_cons]; omega, fun before hpre => ?_⟩
        rcases List.prefix_cons_iff.mp hpre with rfl | ⟨tail, rfl, htail⟩
        · rw [nesting_nil]
          omega
        · have := hbefore tail htail
          rw [nesting_cons]
          omega
      by_cases hopen : c = '\x7b'
      · subst hopen
        rw [nesting_open] at h
        exact hstep (level + 1) (by omega) (by rw [nesting_open, nesting_nil]; omega)
      by_cases hclose : c = '\x7d'
      · subst hclose
        rw [nesting_close] at h
        cases level with
        | zero => exact ⟨[], rest, rfl, rfl, fun before hpre => by simp [List.prefix_nil.mp hpre]⟩
        | succ outer => exact hstep outer (by omega) (by rw [nesting_close, nesting_nil]; omega)
      · have hplain : IsPlain c := ⟨hopen, hclose⟩
        rw [nesting_cons_of_isPlain hplain] at h
        exact hstep level h (by simp [nesting_cons_of_isPlain hplain])

/-- A balanced text that begins with a brace begins with a group. -/
theorem Balanced.exists_group {rest : List Char} (h : Balanced ('\x7b' :: rest)) :
    ∃ inside after, rest = inside ++ '\x7d' :: after ∧ Balanced inside ∧ Balanced after := by
  have hrest : nesting rest < -(0 : Nat) := by
    have := h.closed
    rw [nesting_open] at this
    omega
  obtain ⟨inside, after, rfl, hclosed, hopened⟩ := exists_close hrest
  have hinside : Balanced inside := ⟨by simpa using hopened, by simpa using hclosed⟩
  have hwhole : Balanced (('\x7b' :: (inside ++ ['\x7d'])) ++ after) := by simpa using h
  exact ⟨inside, after, rfl, hinside, hwhole.of_append hinside.group⟩

/-- The brace that closes a group is the first one that can. -/
theorem append_close_inj {first second after rest : List Char} (hfirst : Balanced first)
    (hsecond : Balanced second) (h : first ++ '\x7d' :: after = second ++ '\x7d' :: rest) :
    first = second ∧ after = rest := by
  -- A balanced text cannot run on over a brace that closes another one.
  have hnot : ∀ {shorter longer tail : List Char}, Balanced shorter → Balanced longer →
      longer ≠ shorter ++ '\x7d' :: tail := by
    rintro shorter longer tail hshorter hlonger rfl
    have hpre : shorter ++ ['\x7d'] <+: shorter ++ '\x7d' :: tail :=
      (List.prefix_append_right_inj shorter).mpr (List.prefix_append ['\x7d'] tail)
    have := hlonger.opened _ hpre
    simp [hshorter.closed] at this
  rcases List.append_eq_append_iff.mp h with ⟨gap, hgap, htail⟩ | ⟨gap, hgap, htail⟩
  · cases gap with
    | nil => exact ⟨by simpa using hgap.symm, by simpa using htail⟩
    | cons c gap =>
        rw [List.cons_append, List.cons.injEq] at htail
        rw [← htail.1] at hgap
        exact absurd hgap (hnot hfirst hsecond)
  · cases gap with
    | nil => exact ⟨by simpa using hgap, by simpa using htail.symm⟩
    | cons c gap =>
        rw [List.cons_append, List.cons.injEq] at htail
        rw [← htail.1] at hgap
        exact absurd hgap (hnot hsecond hfirst)

/-- The groups after a text without braces are those of what follows it. -/
theorem outermostGroup_append_iff {value rest before inside after : List Char}
    (hplain : ∀ c ∈ value, IsPlain c) : OutermostGroup (value ++ rest) before inside after ↔
      ∃ gap, before = value ++ gap ∧ OutermostGroup rest gap inside after := by
  have hvalue := balanced_of_forall_isPlain hplain
  constructor
  · rintro ⟨heq, hbefore, hinside⟩
    have hgap : ∃ gap, before = value ++ gap := by
      rcases List.append_eq_append_iff.mp heq with ⟨gap, hgap, _⟩ | ⟨gap, hgap, hbrace⟩
      · exact ⟨gap, hgap⟩
      · cases gap with
        | nil => exact ⟨[], by simpa using hgap.symm⟩
        | cons c gap =>
            rw [List.cons_append, List.cons.injEq] at hbrace
            have hin : c ∈ value := by simp [hgap]
            exact absurd hbrace.1.symm (hplain c hin).1
    obtain ⟨gap, rfl⟩ := hgap
    rw [List.append_assoc, List.append_cancel_left_eq] at heq
    exact ⟨gap, rfl, heq, hbefore.of_append hvalue, hinside⟩
  · rintro ⟨gap, rfl, rfl, hgap, hinside⟩
    exact ⟨by rw [List.append_assoc], hvalue.append hgap, hinside⟩

/-- The groups of a text that begins with one are this one and those of what follows it. -/
theorem outermostGroup_group_iff {inner rest before inside after : List Char}
    (hinner : Balanced inner) :
    OutermostGroup ('\x7b' :: (inner ++ '\x7d' :: rest)) before inside after ↔
      (before = [] ∧ inside = inner ∧ after = rest) ∨
        ∃ gap, before = '\x7b' :: (inner ++ '\x7d' :: gap) ∧
          OutermostGroup rest gap inside after := by
  constructor
  · rintro ⟨heq, hbefore, hinside⟩
    cases before with
    | nil =>
        rw [List.nil_append, List.cons.injEq] at heq
        obtain ⟨hsame, hafter⟩ := append_close_inj hinner hinside heq.2
        exact Or.inl ⟨rfl, hsame.symm, hafter.symm⟩
    | cons c before =>
        rw [List.cons_append, List.cons.injEq] at heq
        obtain ⟨rfl, heq⟩ := heq
        obtain ⟨first, gap, rfl, hfirst, hgap⟩ := hbefore.exists_group
        rw [List.append_assoc, List.cons_append] at heq
        obtain ⟨hsame, hrest⟩ := append_close_inj hinner hfirst heq
        exact Or.inr ⟨gap, by rw [hsame], hrest, hgap, hinside⟩
  · rintro (⟨rfl, rfl, rfl⟩ | ⟨gap, rfl, rfl, hgap, hinside⟩)
    · exact ⟨rfl, balanced_nil, hinner⟩
    · exact ⟨by simp, by simpa using hinner.group.append hgap, hinside⟩

end Braces

open Braces

/-- A piece of a path template as it is written: text without braces, or the inside of a group. -/
inductive PathPiece where
  | text (value : List Char)
  | group (inside : List Char)

namespace PathPiece

def written : PathPiece → List Char
  | text value => value
  | group inside => '\x7b' :: (inside ++ ['\x7d'])

/-- The pieces make up the text. No text among them is empty or goes on in the next piece. -/
inductive Dissects : List PathPiece → List Char → Prop where
  | nil : Dissects [] []
  | text {value : List Char} {pieces : List PathPiece} {rest : List Char} (hne : value ≠ [])
      (hplain : ∀ c ∈ value, IsPlain c) (hapart : ∀ next later, pieces ≠ .text next :: later)
      (hrest : Dissects pieces rest) : Dissects (.text value :: pieces) (value ++ rest)
  | group {inside : List Char} {pieces : List PathPiece} {rest : List Char}
      (hinside : Balanced inside) (hrest : Dissects pieces rest) :
      Dissects (.group inside :: pieces) ('\x7b' :: (inside ++ '\x7d' :: rest))

theorem Dissects.eq_written {pieces : List PathPiece} {text : List Char}
    (h : Dissects pieces text) : text = pieces.flatMap written := by
  induction h with
  | nil => rfl
  | text _ _ _ _ ih => rw [ih, List.flatMap_cons, written]
  | group _ _ ih => simp [ih, written]

/-- Where no text comes first, there is nothing, or an opening brace. -/
theorem Dissects.head_eq_open {pieces : List PathPiece} {text : List Char}
    (h : Dissects pieces text) (hapart : ∀ next later, pieces ≠ .text next :: later) :
    text = [] ∨ ∃ rest, text = '\x7b' :: rest := by
  cases h with
  | nil => exact Or.inl rfl
  | text => exact absurd rfl (hapart _ _)
  | group => exact Or.inr ⟨_, rfl⟩

/-- A character that is no brace goes on the first text, or is one of its own. -/
theorem Dissects.exists_cons {pieces : List PathPiece} {text : List Char} {c : Char}
    (h : Dissects pieces text) (hc : IsPlain c) : ∃ more, Dissects more (c :: text) := by
  have hsingle : ∀ other ∈ [c], IsPlain other := List.forall_mem_singleton.mpr hc
  cases h with
  | nil => exact ⟨_, .text (List.cons_ne_nil c []) hsingle (by simp) .nil⟩
  | text hne hplain hapart hrest =>
      exact ⟨_, .text (List.cons_ne_nil c _) (List.forall_mem_cons.mpr ⟨hc, hplain⟩) hapart hrest⟩
  | group hinside hrest =>
      exact ⟨_, .text (List.cons_ne_nil c []) hsingle (by simp) (.group hinside hrest)⟩

/-- Every balanced text falls into pieces. -/
theorem exists_dissects {text : List Char} (h : Balanced text) :
    ∃ pieces, Dissects pieces text := by
  match text, h with
  | [], _ => exact ⟨[], .nil⟩
  | c :: rest, h =>
      by_cases hopen : c = '\x7b'
      · subst hopen
        obtain ⟨inside, after, rfl, hinside, hafter⟩ := h.exists_group
        obtain ⟨pieces, hpieces⟩ := exists_dissects hafter
        exact ⟨_, .group hinside hpieces⟩
      · have hplain : IsPlain c := ⟨hopen, h.head_ne_close⟩
        have hhead : Balanced [c] :=
          balanced_of_forall_isPlain (List.forall_mem_singleton.mpr hplain)
        have hrest : Balanced rest := @Balanced.of_append [c] rest h hhead
        obtain ⟨pieces, hpieces⟩ := exists_dissects hrest
        exact hpieces.exists_cons hplain
termination_by text.length

/-- The groups among the pieces are the outermost groups of the text, each in its place. -/
theorem Dissects.outermostGroup_iff {pieces : List PathPiece} {text before inside after : List Char}
    (h : Dissects pieces text) : OutermostGroup text before inside after ↔
      ∃ earlier later, pieces = earlier ++ .group inside :: later ∧
        before = earlier.flatMap written ∧ after = later.flatMap written := by
  induction h generalizing before with
  | nil =>
      constructor
      · rintro ⟨heq, _, _⟩
        simp at heq
      · rintro ⟨earlier, later, heq, _, _⟩
        simp at heq
  | @text value pieces rest hne hplain hapart hrest ih =>
      rw [outermostGroup_append_iff hplain]
      constructor
      · rintro ⟨gap, rfl, hgroup⟩
        obtain ⟨earlier, later, rfl, rfl, rfl⟩ := ih.mp hgroup
        exact ⟨.text value :: earlier, later, rfl, rfl, rfl⟩
      · rintro ⟨earlier, later, heq, rfl, rfl⟩
        obtain ⟨_, hhead⟩ | ⟨others, rfl, rfl⟩ := List.cons_eq_append_iff.mp heq
        · cases hhead
        · exact ⟨_, rfl, ih.mpr ⟨others, later, rfl, rfl, rfl⟩⟩
  | @group inner pieces rest hinner hrest ih =>
      rw [outermostGroup_group_iff hinner]
      constructor
      · rintro (⟨rfl, rfl, rfl⟩ | ⟨gap, rfl, hgroup⟩)
        · exact ⟨[], pieces, rfl, rfl, hrest.eq_written⟩
        · obtain ⟨earlier, later, rfl, rfl, rfl⟩ := ih.mp hgroup
          exact ⟨.group inner :: earlier, later, rfl, by simp [written], rfl⟩
      · rintro ⟨earlier, later, heq, rfl, rfl⟩
        obtain ⟨rfl, hhead⟩ | ⟨others, rfl, rfl⟩ := List.cons_eq_append_iff.mp heq
        · cases hhead
          exact Or.inl ⟨rfl, rfl, hrest.eq_written.symm⟩
        · refine Or.inr ⟨others.flatMap written, by simp [written], ?_⟩
          exact ih.mpr ⟨others, later, rfl, rfl, rfl⟩

end PathPiece

end SchemaWire
