import Mathlib.Data.List.Chain
import Mathlib.Data.List.TakeWhile
import SchemaWire.Proofs.Result
import SchemaWire.Proofs.Route.Braces

/-!
Reading of path templates. The segments of a template are its pieces, each group as the name in it.
The main statement says which templates are read, that the segments lose and double nothing, that
segments with plain names are read back from their text, and that the scanner counts the nesting of
braces exactly.
-/
namespace SchemaWire

open Braces

namespace Text

/-- Nothing is left of a text without its outer blanks if and only if it is blank. -/
theorem trimChars_eq_nil_iff {text : List Char} :
    trimChars text = [] ↔ ∀ c ∈ text, isBlank c = true := by
  rw [trimChars, List.reverse_eq_nil_iff, List.dropWhile_eq_nil_iff]
  constructor
  · intro h
    have hempty : text.dropWhile isBlank = [] := by
      cases hleft : text.dropWhile isBlank with
      | nil => rfl
      | cons c rest =>
          have hhead := List.head?_dropWhile_not isBlank text
          have hblank := h c (by simp [hleft])
          rw [hleft] at hhead
          simp [hblank] at hhead
    exact List.dropWhile_eq_nil_iff.mp hempty
  · intro h c hc
    have hmem := (List.dropWhile_sublist isBlank).subset (List.mem_reverse.mp hc)
    exact h c hmem

end Text

namespace PathSegment

theorem placeholderName_ne_nil_iff {inside : List Char} :
    placeholderName inside ≠ [] ↔ ∃ c ∈ inside.takeWhile (· ≠ ':'), Text.isBlank c = false := by
  rw [placeholderName, ne_eq, Text.trimChars_eq_nil_iff]
  simp

/-! The scanner. -/

/-- Whatever follows it, the scan of a text has failed at its end, or goes on with a counter that
has moved by the nesting of the text. -/
def CountsNesting (path : String) (depth : Nat) (read text : List Char) : Prop :=
  (∃ fault, ∀ rest, scan path depth read (text ++ rest) = .error fault) ∨
    ∃ (earlier : List PathSegment) (next : Nat) (inside : List Char),
      (next : Int) = depth + nesting text ∧
        ∀ rest, scan path depth read (text ++ rest) = (earlier ++ ·) <$> scan path next inside rest

theorem countsNesting_singleton (path : String) (depth : Nat) (read : List Char) (c : Char) :
    CountsNesting path depth read [c] := by
  have hsame : ∀ {next : Nat} {inside : List Char},
      (∀ rest, scan path depth read (c :: rest) = scan path next inside rest) →
        ∀ rest, scan path depth read (c :: rest) = ([] ++ ·) <$> scan path next inside rest := by
    intro next inside h rest
    simpa using h rest
  by_cases hopen : c = '\x7b'
  · subst hopen
    cases depth with
    | zero => exact Or.inr ⟨ofText read, 1, [], by simp, scan.eq_2 path read⟩
    | succ depth =>
        have hnext : ((depth + 2 : Nat) : Int) = (depth + 1 : Nat) + nesting ['\x7b'] := by
          rw [nesting_open, nesting_nil]
          omega
        exact Or.inr ⟨[], depth + 2, _, hnext, hsame (scan.eq_6 path read depth)⟩
  by_cases hclose : c = '\x7d'
  · subst hclose
    match depth with
    | 0 => exact Or.inl ⟨_, scan.eq_3 path read⟩
    | 1 =>
        cases hname : placeholderName read.reverse with
        | nil =>
            refine Or.inl ⟨.emptyPlaceholder path, fun rest => (scan.eq_7 path read rest).trans ?_⟩
            rw [hname]
        | cons head tail =>
            refine Or.inr ⟨[.param (String.ofList (head :: tail))], 0, [], by simp, fun rest => ?_⟩
            refine (scan.eq_7 path read rest).trans ?_
            rw [hname]
            rfl
    | depth + 2 =>
        have hnext : ((depth + 1 : Nat) : Int) = (depth + 2 : Nat) + nesting ['\x7d'] := by
          rw [nesting_close, nesting_nil]
          omega
        exact Or.inr ⟨[], depth + 1, _, hnext, hsame (scan.eq_8 path read depth)⟩
  · have hnesting : nesting [c] = 0 := nesting_cons_of_isPlain ⟨hopen, hclose⟩ []
    cases depth with
    | zero =>
        refine Or.inr ⟨[], 0, c :: read, by simp [hnesting], hsame fun rest => ?_⟩
        exact scan.eq_4 path read c rest hopen hclose
    | succ depth =>
        refine Or.inr ⟨[], depth + 1, c :: read, by simp [hnesting], hsame fun rest => ?_⟩
        exact scan.eq_9 path read depth c rest hopen (fun _ => hclose) fun _ _ => hclose

theorem countsNesting (path : String) (depth : Nat) (read text : List Char) :
    CountsNesting path depth read text := by
  induction text generalizing depth read with
  | nil => exact Or.inr ⟨[], depth, read, by simp, fun rest => by simp⟩
  | cons c text ih =>
      rcases countsNesting_singleton path depth read c with
        ⟨fault, hfault⟩ | ⟨first, next, inside, hnext, hfirst⟩
      · exact Or.inl ⟨fault, fun rest => hfault (text ++ rest)⟩
      · rcases ih next inside with ⟨fault, hfault⟩ | ⟨second, last, left, hlast, hsecond⟩
        · refine Or.inl ⟨fault, fun rest => ?_⟩
          rw [← List.singleton_append, List.append_assoc, hfirst, hfault]
          rfl
        · refine Or.inr ⟨first ++ second, last, left, ?_, fun rest => ?_⟩
          · rw [hlast, hnext, nesting_cons c text]
            omega
          · rw [← List.singleton_append, List.append_assoc, hfirst, hsecond, Functor.map_map]
            simp only [List.append_assoc]

/-- Only balanced templates are read. -/
theorem balanced_of_parse {path : String} {segments : List PathSegment}
    (h : parse path = .ok segments) : Balanced path.toList := by
  have hrun : ∀ before rest, path.toList = before ++ rest →
      ∃ (earlier : List PathSegment) (next : Nat) (inside : List Char),
        (next : Int) = nesting before ∧
          .ok segments = (earlier ++ ·) <$> scan path next inside rest := by
    intro before rest hpath
    rw [parse, hpath] at h
    rcases countsNesting path 0 [] before with
      ⟨fault, hfault⟩ | ⟨earlier, next, inside, hnext, hscan⟩
    · rw [hfault] at h
      cases h
    · exact ⟨earlier, next, inside, by simpa using hnext, by rw [← h, hscan]⟩
  constructor
  · rintro before ⟨rest, hrest⟩
    obtain ⟨earlier, next, inside, hnext, _⟩ := hrun before rest hrest.symm
    omega
  · obtain ⟨earlier, next, inside, hnext, hscan⟩ := hrun path.toList [] (by simp)
    cases next with
    | zero => exact hnext.symm
    | succ depth => cases hscan

/-- Text without braces is kept. -/
theorem scan_text (path : String) {value : List Char} (h : ∀ c ∈ value, IsPlain c)
    (read rest : List Char) :
    scan path 0 read (value ++ rest) = scan path 0 (value.reverse ++ read) rest := by
  induction value generalizing read with
  | nil => rfl
  | cons c value ih =>
      obtain ⟨hc, hvalue⟩ := List.forall_mem_cons.mp h
      rw [List.cons_append, scan.eq_4 path read c _ hc.1 hc.2, ih hvalue]
      simp

/-- Inside a group everything is kept as long as the group is not closed. -/
theorem scan_inside (path : String) {inside : List Char} {depth : Nat}
    (h : ∀ before, before <+: inside → -depth ≤ nesting before) (read rest : List Char) :
    ∃ next : Nat, (next : Int) = depth + nesting inside ∧
      scan path (depth + 1) read (inside ++ rest) =
        scan path (next + 1) (inside.reverse ++ read) rest := by
  induction inside generalizing depth read with
  | nil => exact ⟨depth, by simp, rfl⟩
  | cons c inside ih =>
      have hstep : ∃ next : Nat, (next : Int) = depth + nesting [c] ∧
          scan path (depth + 1) read (c :: (inside ++ rest)) =
            scan path (next + 1) (c :: read) (inside ++ rest) := by
        by_cases hopen : c = '\x7b'
        · subst hopen
          exact ⟨depth + 1, by simp, scan.eq_6 path read depth _⟩
        by_cases hclose : c = '\x7d'
        · subst hclose
          have hhead := h ['\x7d'] (List.prefix_append ['\x7d'] inside)
          rw [nesting_close, nesting_nil] at hhead
          obtain ⟨outer, rfl⟩ : ∃ outer, depth = outer + 1 := ⟨depth - 1, by omega⟩
          exact ⟨outer, by rw [nesting_close, nesting_nil]; omega, scan.eq_8 path read outer _⟩
        · have hnesting : nesting [c] = 0 := nesting_cons_of_isPlain ⟨hopen, hclose⟩ []
          refine ⟨depth, by simp [hnesting], ?_⟩
          exact scan.eq_9 path read depth c _ hopen (fun _ => hclose) fun _ _ => hclose
      obtain ⟨next, hnext, hscan⟩ := hstep
      have hinside : ∀ before, before <+: inside → -next ≤ nesting before := by
        intro before hbefore
        have hcons := h (c :: before) (List.cons_prefix_cons.mpr ⟨rfl, hbefore⟩)
        rw [nesting_cons] at hcons
        omega
      obtain ⟨last, hlast, hrest⟩ := ih hinside (c :: read)
      refine ⟨last, ?_, ?_⟩
      · rw [hlast, hnext, nesting_cons c inside]
        omega
      · rw [List.cons_append, hscan, hrest]
        simp

/-- A group is read as the name in it, which must not be blank. -/
theorem scan_group_eq_ok_iff (path : String) {inside : List Char} (h : Balanced inside)
    (rest : List Char) {segments : List PathSegment} :
    scan path 1 [] (inside ++ '\x7d' :: rest) = .ok segments ↔ placeholderName inside ≠ [] ∧
      ∃ later, scan path 0 [] rest = .ok later ∧
        segments = .param (String.ofList (placeholderName inside)) :: later := by
  have hopened : ∀ before, before <+: inside → -(0 : Nat) ≤ nesting before := by
    simpa using h.opened
  obtain ⟨next, hnext, hscan⟩ := scan_inside path hopened [] ('\x7d' :: rest)
  obtain rfl : next = 0 := by
    rw [h.closed] at hnext
    omega
  rw [hscan, List.append_nil, scan, List.reverse_reverse]
  cases placeholderName inside with
  | nil => simp
  | cons head tail =>
      rw [map_eq_ok_iff]
      simp [eq_comm]

end PathSegment

namespace PathPiece

open PathSegment

/-- The segment for the piece. A group is named by the text before its first colon, without the
blanks around it. -/
def segment : PathPiece → PathSegment
  | text value => .text (String.ofList value)
  | group inside => .param (String.ofList (Text.trimChars (inside.takeWhile (· ≠ ':'))))

/-- What was read before a group, or before the end, comes first. -/
theorem Dissects.scan_read {pieces : List PathPiece} {text : List Char} (h : Dissects pieces text)
    (hapart : ∀ next later, pieces ≠ .text next :: later) (path : String) (read : List Char) :
    scan path 0 read text = (ofText read ++ ·) <$> scan path 0 [] text := by
  rcases h.head_eq_open hapart with rfl | ⟨rest, rfl⟩
  · rw [scan, scan, ofText]
    simp
  · rw [scan, scan, ofText, Functor.map_map]
    simp

/-- Pieces are read as their segments, if no group has a blank name. -/
theorem Dissects.scan_eq_ok_iff {pieces : List PathPiece} {text : List Char}
    (h : Dissects pieces text) (path : String) {segments : List PathSegment} :
    scan path 0 [] text = .ok segments ↔
      (∀ inside, .group inside ∈ pieces → placeholderName inside ≠ []) ∧
        segments = pieces.map segment := by
  induction h generalizing segments with
  | nil =>
      rw [scan, ofText, Except.ok.injEq]
      exact ⟨fun h => ⟨by simp, h.symm⟩, fun h => h.2.symm⟩
  | @text value pieces rest hne hplain hapart hrest ih =>
      have hvalue : ofText value.reverse = [.text (String.ofList value)] := by
        cases hreverse : value.reverse with
        | nil => exact absurd (List.reverse_eq_nil_iff.mp hreverse) hne
        | cons c read =>
            rw [ofText.eq_2 _ (List.cons_ne_nil c read), ← hreverse, List.reverse_reverse]
      rw [scan_text path hplain, List.append_nil, hrest.scan_read hapart, hvalue, map_eq_ok_iff]
      simp only [ih, List.mem_cons, reduceCtorEq, false_or, List.map_cons, segment,
        List.singleton_append]
      constructor
      · rintro ⟨later, ⟨hnames, rfl⟩, rfl⟩
        exact ⟨hnames, rfl⟩
      · rintro ⟨hnames, rfl⟩
        exact ⟨_, ⟨hnames, rfl⟩, rfl⟩
  | @group inside pieces rest hinside hrest ih =>
      have hscan : scan path 0 [] ('\x7b' :: (inside ++ '\x7d' :: rest)) =
          scan path 1 [] (inside ++ '\x7d' :: rest) := by
        rw [scan, ofText]
        simp
      rw [hscan, scan_group_eq_ok_iff path hinside]
      simp only [ih, List.mem_cons, group.injEq, List.map_cons, segment]
      constructor
      · rintro ⟨hname, later, ⟨hnames, rfl⟩, rfl⟩
        refine ⟨?_, rfl⟩
        rintro other (rfl | hother)
        · exact hname
        · exact hnames other hother
      · rintro ⟨hnames, rfl⟩
        have hothers : ∀ other, .group other ∈ pieces → placeholderName other ≠ [] :=
          fun other hother => hnames other (Or.inr hother)
        exact ⟨hnames inside (Or.inl rfl), _, ⟨hothers, rfl⟩, rfl⟩

end PathPiece

namespace PathSegment

def isText : PathSegment → Bool
  | text _ => true
  | param _ => false

/-- No text is empty or has a brace in it, and no two texts stand side by side. -/
structure IsNormal (segments : List PathSegment) : Prop where
  texts : ∀ value, .text value ∈ segments → value ≠ "" ∧ ∀ c ∈ value.toList, IsPlain c
  apart : segments.IsChain fun first second => first.isText = false ∨ second.isText = false

/-- A name that can fill a placeholder: not empty, without blanks around it, colons and braces. -/
structure IsPlainName (name : String) : Prop where
  ne_empty : name ≠ ""
  trimmed : Text.trim name = name
  plain : ∀ c ∈ name.toList, c ≠ ':' ∧ IsPlain c

def piece : PathSegment → PathPiece
  | text value => .text value.toList
  | param name => .group name.toList

/-- The template of segments: static text as it is, names in braces. -/
def render (segments : List PathSegment) : String :=
  String.ofList ((segments.map piece).flatMap PathPiece.written)

/-- What a template is read as, by the pieces that it falls into. -/
theorem parse_eq_ok_iff {path : String} {pieces : List PathPiece}
    (h : PathPiece.Dissects pieces path.toList) {segments : List PathSegment} :
    parse path = .ok segments ↔
      (∀ inside, .group inside ∈ pieces → placeholderName inside ≠ []) ∧
        segments = pieces.map PathPiece.segment :=
  h.scan_eq_ok_iff path

/-- A template is read if and only if its braces are balanced and no outermost group has a blank
name. -/
theorem exists_parse_iff {path : String} : (∃ segments, parse path = .ok segments) ↔
    Balanced path.toList ∧ ∀ before inside after, OutermostGroup path.toList before inside after →
      ∃ c ∈ inside.takeWhile (· ≠ ':'), Text.isBlank c = false := by
  constructor
  · rintro ⟨segments, hparse⟩
    have hbalanced := balanced_of_parse hparse
    obtain ⟨pieces, hpieces⟩ := PathPiece.exists_dissects hbalanced
    refine ⟨hbalanced, fun before inside after hgroup => ?_⟩
    obtain ⟨earlier, later, rfl, _, _⟩ := hpieces.outermostGroup_iff.mp hgroup
    exact placeholderName_ne_nil_iff.mp (((parse_eq_ok_iff hpieces).mp hparse).1 inside (by simp))
  · rintro ⟨hbalanced, hnames⟩
    obtain ⟨pieces, hpieces⟩ := PathPiece.exists_dissects hbalanced
    refine ⟨_, (parse_eq_ok_iff hpieces).mpr ⟨fun inside hinside => ?_, rfl⟩⟩
    obtain ⟨earlier, later, hsplit⟩ := List.append_of_mem hinside
    have hgroup := hpieces.outermostGroup_iff.mpr ⟨earlier, later, hsplit, rfl, rfl⟩
    exact placeholderName_ne_nil_iff.mpr (hnames _ inside _ hgroup)

/-- The segments of pieces are in normal form. -/
theorem isNormal_of_dissects {pieces : List PathPiece} {text : List Char}
    (h : PathPiece.Dissects pieces text) : IsNormal (pieces.map PathPiece.segment) := by
  induction h with
  | nil => exact ⟨by simp, .nil⟩
  | @text value pieces rest hne hplain hapart hrest ih =>
      rw [List.map_cons, PathPiece.segment]
      constructor
      · intro other hother
        rcases List.mem_cons.mp hother with hhead | hin
        · cases hhead
          exact ⟨by simpa using hne, by simpa using hplain⟩
        · exact ih.texts other hin
      · cases pieces with
        | nil => exact .singleton _
        | cons next later =>
            cases next with
            | text value => exact absurd rfl (hapart value later)
            | group inside => exact .cons_cons (Or.inr rfl) ih.apart
  | @group inside pieces rest hinside hrest ih =>
      rw [List.map_cons, PathPiece.segment]
      constructor
      · intro other hother
        exact ih.texts other ((List.mem_cons.mp hother).resolve_left (by simp))
      · cases pieces with
        | nil => exact .singleton _
        | cons next later => exact .cons_cons (Or.inl rfl) ih.apart

theorem IsPlainName.placeholderName_eq {name : String} (h : IsPlainName name) :
    placeholderName name.toList = name.toList := by
  have hcolon : name.toList.takeWhile (· ≠ ':') = name.toList :=
    List.takeWhile_eq_self_iff.mpr fun c hc => by simpa using (h.plain c hc).1
  have htrimmed := congrArg String.toList h.trimmed
  rw [Text.trim, String.toList_ofList] at htrimmed
  rw [placeholderName, hcolon, htrimmed]

/-- A segment with a plain name stands for itself. -/
theorem segment_piece {segment : PathSegment}
    (h : ∀ name, segment = .param name → IsPlainName name) : segment.piece.segment = segment := by
  cases segment with
  | text value => rw [piece, PathPiece.segment, String.ofList_toList]
  | param name =>
      rw [piece, PathPiece.segment, ← placeholderName, (h name rfl).placeholderName_eq,
        String.ofList_toList]

/-- Segments in normal form fall into pieces as they are written. -/
theorem IsNormal.dissects {segments : List PathSegment} (h : IsNormal segments)
    (hnames : ∀ name, .param name ∈ segments → IsPlainName name) :
    PathPiece.Dissects (segments.map piece) ((segments.map piece).flatMap PathPiece.written) := by
  induction segments with
  | nil => exact .nil
  | cons segment rest ih =>
      have hrest : IsNormal rest :=
        ⟨fun value hvalue => h.texts value (List.mem_cons_of_mem _ hvalue), h.apart.tail⟩
      have hlater := ih hrest fun name hname => hnames name (List.mem_cons_of_mem _ hname)
      rw [List.map_cons, List.flatMap_cons]
      cases segment with
      | text value =>
          obtain ⟨hne, hplain⟩ := h.texts value List.mem_cons_self
          refine .text (by simpa using hne) hplain ?_ hlater
          intro next later heq
          obtain ⟨second, others, rfl, hsecond, _⟩ := List.map_eq_cons_iff.mp heq
          cases second with
          | text value => simpa [isText] using h.apart
          | param name => cases hsecond
      | param name =>
          have hbalanced : Balanced name.toList :=
            balanced_of_forall_isPlain fun c hc => ((hnames name List.mem_cons_self).plain c hc).2
          rw [piece, PathPiece.written, List.cons_append, List.append_assoc, List.singleton_append]
          exact .group hbalanced hlater

/-- Segments in normal form with plain names are read back from their template. -/
theorem parse_render {segments : List PathSegment} (h : IsNormal segments)
    (hnames : ∀ name, .param name ∈ segments → IsPlainName name) :
    parse (render segments) = .ok segments := by
  have hpieces : PathPiece.Dissects (segments.map piece) (render segments).toList := by
    rw [render, String.toList_ofList]
    exact h.dissects hnames
  refine (parse_eq_ok_iff hpieces).mpr ⟨fun inside hinside => ?_, ?_⟩
  · obtain ⟨segment, hsegment, hpiece⟩ := List.mem_map.mp hinside
    cases segment with
    | text value => cases hpiece
    | param name =>
        cases hpiece
        have hname := hnames name hsegment
        rw [hname.placeholderName_eq]
        simpa using hname.ne_empty
  · have hself : ∀ segment ∈ segments, segment.piece.segment = segment := fun segment hsegment =>
      segment_piece fun name hname => hnames name (hname ▸ hsegment)
    rw [List.map_map, Function.comp_def, List.map_congr_left hself, List.map_id']

/-- A template is read if and only if its braces are balanced and each outermost group has something
else than blanks before its first colon. The segments are then in normal form and stand for the
pieces of the template in their order, a text for itself and a name for its group; segments in
normal form with plain names are what their template is read as. The counter of the scanner is the
nesting of what was read, and so never falls below zero. -/
theorem parse_reads_template :
    (∀ path : String, (∃ segments, parse path = .ok segments) ↔
      Balanced path.toList ∧ ∀ before inside after,
        OutermostGroup path.toList before inside after →
          ∃ c ∈ inside.takeWhile (· ≠ ':'), Text.isBlank c = false) ∧
    (∀ path segments, parse path = .ok segments → IsNormal segments ∧
      ∃ pieces, segments = pieces.map PathPiece.segment ∧
        path.toList = pieces.flatMap PathPiece.written ∧
        ∀ before inside after, OutermostGroup path.toList before inside after ↔
          ∃ earlier later, pieces = earlier ++ .group inside :: later ∧
            before = earlier.flatMap PathPiece.written ∧
            after = later.flatMap PathPiece.written) ∧
    (∀ segments, IsNormal segments → (∀ name, .param name ∈ segments → IsPlainName name) →
      parse (render segments) = .ok segments) ∧
    ∀ path read, CountsNesting path 0 [] read := by
  refine ⟨fun path => exists_parse_iff, fun path segments hparse => ?_,
    fun segments => parse_render, fun path read => countsNesting path 0 [] read⟩
  obtain ⟨pieces, hpieces⟩ := PathPiece.exists_dissects (balanced_of_parse hparse)
  obtain ⟨_, rfl⟩ := (parse_eq_ok_iff hpieces).mp hparse
  exact ⟨isNormal_of_dissects hpieces, pieces, rfl, hpieces.eq_written,
    fun before inside after => hpieces.outermostGroup_iff⟩

/-- A name with blanks and a pattern with braces, and a pattern without a name. -/
theorem parse_reads_template_pattern :
    parse "/users/\x7b id :[0-9]\x7b2\x7d\x7d/x" =
        .ok [.text "/users/", .param "id", .text "/x"] ∧
      IsNormal [.text "/users/", .param "id", .text "/x"] ∧
      parse (render [.text "/users/", .param "id", .text "/x"]) =
        .ok [.text "/users/", .param "id", .text "/x"] ∧
      ¬∃ segments, parse "/users/\x7b :[0-9]\x7d" = .ok segments := by
  obtain ⟨haccepts, hreads, hrender, _⟩ := parse_reads_template
  have hparse : parse "/users/\x7b id :[0-9]\x7b2\x7d\x7d/x" =
      .ok [.text "/users/", .param "id", .text "/x"] := by decide +kernel
  have hnormal := (hreads _ _ hparse).1
  refine ⟨hparse, hnormal, hrender _ hnormal fun name hname => ?_, fun hblank => ?_⟩
  · obtain rfl : name = "id" := by simpa using hname
    have hplain : ("id".toList.all fun c => decide (c ≠ ':' ∧ IsPlain c)) = true := by decide
    exact ⟨by decide, by decide, by simpa only [List.all_eq_true, decide_eq_true_iff] using hplain⟩
  · have hgroup : OutermostGroup "/users/\x7b :[0-9]\x7d".toList "/users/".toList
        " :[0-9]".toList [] :=
      ⟨by decide +kernel, balanced_of_all_isPlain (by decide), balanced_of_all_isPlain (by decide)⟩
    have hnone : (" :[0-9]".toList.takeWhile (· ≠ ':')).all Text.isBlank = true := by decide
    obtain ⟨c, hc, hshown⟩ := ((haccepts _).mp hblank).2 _ _ _ hgroup
    exact Bool.false_ne_true (hshown.symm.trans (List.all_eq_true.mp hnone c hc))

end PathSegment

end SchemaWire
