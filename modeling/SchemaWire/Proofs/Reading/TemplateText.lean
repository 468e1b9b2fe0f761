import SchemaWire.Proofs.Reading.Literal
import SchemaWire.Proofs.Reading.Spelling
import SchemaWire.Proofs.Route.Request

/-!
Template literals by the lexical rules of the generated language. A carriage return that stands in
one, alone or before a line feed, is read as a single line feed; everything else is read as it
stands, escape sequences and substitutions apart. The main statement is that a template is read as
the pieces that it was written for, but for this change of line ends.
-/
namespace SchemaWire.TypeScript

/-! Reading. -/

/-- What a string or a template literal denotes, bit by bit: a code unit, or the value of an
expression. -/
inductive Denoted where
  | unit (value : Nat)
  | hole (value : Expr)

/-- The text of a substitution, up to the brace that closes it, and what comes after it. Braces
nest, and those inside string literals are text. -/
def splitHole : (quoted : Bool) → (depth : Nat) → List Char → Option (List Char × List Char)
  | _, _, [] => none
  | true, depth, '\\' :: c :: rest => readBehind ['\\', c] (splitHole true depth rest)
  | true, depth, '"' :: rest => readBehind ['"'] (splitHole false depth rest)
  | true, depth, c :: rest => readBehind [c] (splitHole true depth rest)
  | false, 0, '\x7d' :: rest => some ([], rest)
  | false, depth + 1, '\x7d' :: rest => readBehind ['\x7d'] (splitHole false depth rest)
  | false, depth, '\x7b' :: rest => readBehind ['\x7b'] (splitHole false (depth + 1) rest)
  | false, depth, '"' :: rest => readBehind ['"'] (splitHole true depth rest)
  | false, depth, c :: rest => readBehind [c] (splitHole false depth rest)

/-- The expression of a substitution, from behind its opening brace, and what comes after it. -/
def readHole (text : List Char) : Option (Expr × List Char) := do
  let (source, after) ← splitHole false 0 text
  let value ← readExpr (String.ofList source)
  return (value, after)

/-- What a template literal denotes, from behind its opening backtick, and what comes after it. -/
def readTemplate : List Char → Option (List Denoted × List Char)
  | [] => none
  | c :: rest =>
      if c = '\x60' then some ([], rest)
      else if c = '\\' then
        match readEscape rest with
        | some (units, after) =>
            if after.length ≤ rest.length then
              readBehind (units.map .unit) (readTemplate after)
            else none
        | none => none
      else if c = '$' ∧ rest.head? = some '\x7b' then
        match readHole rest.tail with
        | some (value, after) =>
            if after.length ≤ rest.length then readBehind [.hole value] (readTemplate after)
            else none
        | none => none
      else if c = '\r' then
        if rest.head? = some '\n' then readTemplate rest
        else readBehind [.unit 0x0A] (readTemplate rest)
      else readBehind ((codePointUnits c.toNat).map .unit) (readTemplate rest)
termination_by text => text.length

theorem readTemplate_escape {text after : List Char} {units : List Nat}
    (h : readEscape text = some (units, after)) (hlength : after.length ≤ text.length) :
    readTemplate ('\\' :: text) = readBehind (units.map .unit) (readTemplate after) := by
  rw [readTemplate, if_neg (by decide), if_pos rfl, h]
  exact if_pos hlength

theorem readTemplate_hole {text after : List Char} {value : Expr}
    (h : readHole text = some (value, after)) (hlength : after.length ≤ text.length) :
    readTemplate ('$' :: '\x7b' :: text) = readBehind [.hole value] (readTemplate after) := by
  rw [readTemplate, if_neg (by decide), if_neg (by decide), if_pos ⟨rfl, rfl⟩, List.tail_cons, h]
  exact if_pos (Nat.le_succ_of_le hlength)

theorem readTemplate_return (rest : List Char) :
    readTemplate ('\r' :: rest) =
      if rest.head? = some '\n' then readTemplate rest
      else readBehind [.unit 0x0A] (readTemplate rest) := by
  rw [readTemplate, if_neg (by decide), if_neg (by decide), if_neg (by simp), if_pos rfl]

theorem readTemplate_plain {c : Char} {rest : List Char} (hplain : c ∉ ['\x60', '\\', '\r'])
    (hopen : ¬(c = '$' ∧ rest.head? = some '\x7b')) :
    readTemplate (c :: rest) =
      readBehind ((codePointUnits c.toNat).map .unit) (readTemplate rest) := by
  simp only [List.mem_cons, List.not_mem_nil, or_false, not_or] at hplain
  rw [readTemplate, if_neg hplain.1, if_neg hplain.2.1, if_neg hopen, if_neg hplain.2.2]

/-! What pieces of text denote. -/

def TextPiece.denoted : TextPiece → List Denoted
  | char c => (codePointUnits c.toNat).map .unit
  | hole value => [.hole value]

def beginsWithFeed : List TextPiece → Bool
  | .char '\n' :: _ => true
  | _ => false

/-- The pieces with every line end as a line feed. -/
def withFeeds : List TextPiece → List TextPiece
  | [] => []
  | .char '\r' :: rest =>
      if beginsWithFeed rest then withFeeds rest else .char '\n' :: withFeeds rest
  | piece :: rest => piece :: withFeeds rest

theorem beginsWithFeed_char (c : Char) (pieces : List TextPiece) :
    beginsWithFeed (.char c :: pieces) = true ↔ c = '\n' := by
  unfold beginsWithFeed
  split <;> simp_all

theorem withFeeds_char {c : Char} (h : c ≠ '\r') (pieces : List TextPiece) :
    withFeeds (.char c :: pieces) = .char c :: withFeeds pieces :=
  withFeeds.eq_3 (.char c) pieces fun heq => h (TextPiece.char.inj heq)

/-- The text is read as the pieces, up to the backtick that closes it. -/
structure ReadsAs (text : List Char) (pieces : List TextPiece) (rest : List Char) : Prop where
  reads : readTemplate text = some ((withFeeds pieces).flatMap TextPiece.denoted, rest)
  feed : text.head? = some '\n' ↔ beginsWithFeed pieces = true

namespace ReadsAs

variable {text rest : List Char} {pieces : List TextPiece}

theorem close (rest : List Char) : ReadsAs ('\x60' :: rest) [] rest where
  reads := by
    rw [readTemplate, if_pos rfl]
    rfl
  feed := by simp [beginsWithFeed]

/-- A character that is read as itself. -/
theorem char (h : ReadsAs text pieces rest) {c : Char} (hc : c ≠ '\r') (written : List Char)
    (hread : readTemplate (written ++ text) =
      readBehind ((codePointUnits c.toNat).map .unit) (readTemplate text))
    (hhead : (written ++ text).head? = some '\n' ↔ c = '\n') :
    ReadsAs (written ++ text) (.char c :: pieces) rest where
  reads := by
    rw [hread, h.reads, readBehind_some, withFeeds_char hc]
    rfl
  feed := by rw [hhead, beginsWithFeed_char]

theorem plain (h : ReadsAs text pieces rest) {c : Char} (hplain : c ∉ ['\x60', '\\', '\r'])
    (hopen : ¬(c = '$' ∧ text.head? = some '\x7b')) :
    ReadsAs (c :: text) (.char c :: pieces) rest := by
  have hreturn : c ≠ '\r' := by
    rintro rfl
    exact hplain (by decide)
  exact h.char hreturn [c] (readTemplate_plain hplain hopen) (by simp)

/-- A character that stands for itself behind a backslash. -/
theorem escaped (h : ReadsAs text pieces rest) {c : Char} (hsimple : IsSimpleEscape c)
    (hself : escapedChar c = c) : ReadsAs ('\\' :: c :: text) (.char c :: pieces) rest := by
  have hescape := hsimple.readEscape text
  have hline := hsimple.notMem_lineEnds
  simp only [List.mem_cons, List.not_mem_nil, or_false, not_or] at hline
  rw [hself] at hescape
  exact h.char hline.2 ['\\', c] (readTemplate_escape hescape (by simp)) (by simp [hline.1])

/-- A carriage return joins a line feed behind it, and is read as one where there is none. -/
theorem lineReturn (h : ReadsAs text pieces rest) :
    ReadsAs ('\r' :: text) (.char '\r' :: pieces) rest where
  reads := by
    rw [readTemplate_return, withFeeds]
    by_cases hfeed : beginsWithFeed pieces = true
    · rw [if_pos (h.feed.mpr hfeed), if_pos hfeed, h.reads]
    · rw [if_neg fun hhead => hfeed (h.feed.mp hhead), if_neg hfeed, h.reads, readBehind_some]
      rfl
  feed := by simp [beginsWithFeed]

/-- A substitution. -/
theorem hole (h : ReadsAs text pieces rest) {value : Expr} {source : List Char}
    (hread : readHole (source ++ '\x7d' :: text) = some (value, text)) :
    ReadsAs ('$' :: '\x7b' :: (source ++ '\x7d' :: text)) (.hole value :: pieces) rest where
  reads := by
    rw [readTemplate_hole hread (by simp; omega), h.reads, readBehind_some, withFeeds]
    · rfl
    · rintro ⟨⟩
  feed := by simp [beginsWithFeed]

end ReadsAs

/-- What is written for a text begins with a brace only if the text does. -/
theorem head?_escapeTemplateChars {text tail : List Char} (htail : tail.head? ≠ some '\x7b')
    (h : (escapeTemplateChars text ++ tail).head? = some '\x7b') : text.head? = some '\x7b' := by
  unfold escapeTemplateChars at h
  split at h
  · exact absurd h htail
  all_goals simp_all

/-- Static text is read as itself where no brace follows it: it closes no literal and opens no
substitution. -/
theorem ReadsAs.text {tail rest : List Char} {pieces : List TextPiece}
    (h : ReadsAs tail pieces rest) (htail : tail.head? ≠ some '\x7b') (text : List Char) :
    ReadsAs (escapeTemplateChars text ++ tail) (text.map .char ++ pieces) rest := by
  induction text using escapeTemplateChars.induct with
  | case1 => exact h
  | case2 others ih => exact ih.escaped (by decide) rfl
  | case3 others ih => exact ih.escaped (by decide) rfl
  | case4 others ih =>
      have hbrace : ReadsAs ('\x7b' :: (escapeTemplateChars others ++ tail))
          (.char '\x7b' :: (others.map .char ++ pieces)) rest :=
        ih.plain (by decide) (by simp)
      exact hbrace.escaped (by decide) rfl
  | case5 c others hslash htick hopen ih =>
      rw [escapeTemplateChars.eq_5 _ _ hslash htick hopen]
      by_cases hreturn : c = '\r'
      · subst hreturn
        exact ih.lineReturn
      · refine ih.plain (by simp_all) ?_
        -- A dollar sign that is written bare has no brace behind it in the text, so it has none in
        -- what is written.
        rintro ⟨hdollar, hbrace⟩
        have hhead := head?_escapeTemplateChars htail hbrace
        cases others with
        | nil => cases hhead
        | cons d others =>
            cases hhead
            exact hopen others hdollar rfl

/-- Every opening of a substitution behind a backslash. -/
def escapeOpenings : List Char → List Char
  | [] => []
  | '$' :: '\x7b' :: rest => '\\' :: '$' :: '\x7b' :: escapeOpenings rest
  | c :: rest => c :: escapeOpenings rest

/-- What is put in for a character does not begin with a brace. -/
theorem head?_replaceChar {c : Char} {replacement text : List Char}
    (h : (replaceChar c ('\\' :: replacement) text).head? = some '\x7b') :
    text.head? = some '\x7b' := by
  cases text with
  | nil => exact h
  | cons d rest =>
      rw [replaceChar, List.flatMap_cons] at h
      split at h
      · simp at h
      · exact h

/-- Escaping static text is three replacements, one after the other. -/
theorem escapeTemplateChars_eq_replaced (text : List Char) :
    escapeTemplateChars text = escapeOpenings (replaceChar '\x60' ['\\', '\x60']
      (replaceChar '\\' ['\\', '\\'] text)) := by
  induction text using escapeTemplateChars.induct with
  | case1 => rfl
  | case2 rest ih => simpa [replaceChar, escapeTemplateChars, escapeOpenings] using ih
  | case3 rest ih => simpa [replaceChar, escapeTemplateChars, escapeOpenings] using ih
  | case4 rest ih => simpa [replaceChar, escapeTemplateChars, escapeOpenings] using ih
  | case5 c others hslash htick hopen ih =>
      have hkept : replaceChar '\x60' ['\\', '\x60'] (replaceChar '\\' ['\\', '\\'] (c :: others)) =
          c :: replaceChar '\x60' ['\\', '\x60'] (replaceChar '\\' ['\\', '\\'] others) := by
        simp only [replaceChar, List.flatMap_cons, if_neg hslash, List.singleton_append,
          if_neg htick]
      -- The replacements put in no brace at the start, so this character opens nothing afterwards.
      have hclosed : ∀ rest, c = '$' →
          replaceChar '\x60' ['\\', '\x60'] (replaceChar '\\' ['\\', '\\'] others) =
            '\x7b' :: rest → False := by
        intro rest hdollar heq
        have hhead := head?_replaceChar (head?_replaceChar (congrArg List.head? heq))
        cases others with
        | nil => cases hhead
        | cons d after =>
            cases hhead
            exact hopen after hdollar rfl
      rw [escapeTemplateChars.eq_5 _ _ hslash htick hopen, hkept, escapeOpenings.eq_3 _ _ hclosed,
        ih]

/-! The text of substitutions. -/

/-- The end of a substitution is looked for behind the text. -/
def Skips (text : String) : Prop :=
  ∀ depth rest, splitHole false depth (text.toList ++ rest) =
    readBehind text.toList (splitHole false depth rest)

theorem Skips.append {first second : String} (hfirst : Skips first) (hsecond : Skips second) :
    Skips (first ++ second) := by
  intro depth rest
  rw [String.toList_append, List.append_assoc, hfirst, hsecond, readBehind_append]

theorem skips_of_plain {text : String}
    (h : text.toList.all (fun c => c ∉ ['\x7b', '\x7d', '"']) = true) : Skips text := by
  intro depth rest
  generalize text.toList = plain at h
  induction plain with
  | nil => exact (readBehind_nil _).symm
  | cons c others ih =>
      rw [List.all_cons, Bool.and_eq_true, decide_eq_true_eq] at h
      obtain ⟨hc, hothers⟩ := h
      simp only [List.mem_cons, List.not_mem_nil, or_false, not_or] at hc
      rw [List.cons_append, splitHole.eq_9 depth c _ hc.1 hc.2.2 (fun _ => hc.2.1)
        (fun _ _ => hc.2.1), ih hothers, readBehind_append]
      rfl

theorem splitHole_escaped (text : List Char) (depth : Nat) (rest : List Char) :
    splitHole true depth (text.flatMap escapeChar ++ '"' :: rest) =
      readBehind (text.flatMap escapeChar ++ ['"']) (splitHole false depth rest) := by
  induction text with
  | nil => rfl
  | cons c others ih =>
      rw [List.flatMap_cons, List.append_assoc, List.append_assoc]
      obtain ⟨heq, hplain⟩ | ⟨d, heq, -, -⟩ := escapeChar_cases c
      · simp only [List.mem_cons, List.not_mem_nil, or_false, not_or] at hplain
        rw [heq, List.singleton_append, splitHole.eq_4 depth c _
          (fun _ _ hslash _ => hplain.2.1 hslash) hplain.1, ih, readBehind_append]
      · rw [heq, List.cons_append, List.singleton_append, splitHole, ih, readBehind_append]

theorem skips_stringLiteral (text : String) : Skips (stringLiteral text) := by
  intro depth rest
  have hquoted : '"' :: text.toList.flatMap escapeChar ++ ['"'] ++ rest =
      '"' :: (text.toList.flatMap escapeChar ++ '"' :: rest) := by
    simp
  rw [toList_stringLiteral, hquoted, splitHole, splitHole_escaped, readBehind_append]
  rfl

theorem skips_of_isBareName {name : String} (h : isBareName name = true) : Skips name := by
  refine skips_of_plain (List.all_eq_true.mpr fun c hc => decide_eq_true fun hmark => ?_)
  have hpart : isNamePart c = true := by
    unfold isBareName at h
    generalize name.toList = chars at h hc
    cases chars with
    | nil => cases hc
    | cons first others =>
        rw [isBareChars, Bool.and_eq_true, List.all_eq_true] at h
        rcases List.mem_cons.mp hc with rfl | hin
        · exact isNamePart_of_isNameStart h.1
        · exact h.2 c hin
  simp only [List.mem_cons, List.not_mem_nil, or_false] at hmark
  rcases hmark with rfl | rfl | rfl <;> exact absurd hpart (by decide)

theorem Skips.memberAccess {owner : String} (h : Skips owner) (property : String) :
    Skips (memberAccess owner property) := by
  unfold TypeScript.memberAccess
  split
  · rename_i hbare
    exact (h.append (skips_of_plain (by decide))).append (skips_of_isBareName hbare)
  · exact ((h.append (skips_of_plain (by decide))).append (skips_stringLiteral property)).append
      (skips_of_plain (by decide))

/-- The expression can stand in a substitution: its text ends where it does, and is read as it. -/
structure Expr.FillsHole (value : Expr) : Prop where
  skips : Skips value.print
  reads : readExpr value.print = some value

theorem Expr.FillsHole.readHole {value : Expr} (h : value.FillsHole) (rest : List Char) :
    readHole (value.print.toList ++ '\x7d' :: rest) = some (value, rest) := by
  rw [TypeScript.readHole, h.skips 0 ('\x7d' :: rest), splitHole, readBehind_some]
  simp [h.reads]

/-! Whole literals. -/

/-- What a string or a template literal denotes, and what comes after it. -/
def readQuotation : List Char → Option (List Denoted × List Char)
  | '"' :: rest => (readQuoted rest).map fun read => (read.1.map .unit, read.2)
  | '\x60' :: rest => readTemplate rest
  | _ => none

/-- A template is read as its parts if no static text has an opening brace in it. -/
theorem readsAs_parts {parts : List TemplatePart}
    (htexts : ∀ value, .text value ∈ parts → '\x7b' ∉ value.toList)
    (hholes : ∀ value, .hole value ∈ parts → value.FillsHole) (rest : List Char) :
    ReadsAs ((Expr.printParts parts).toList ++ '\x60' :: rest)
      (parts.flatMap TemplatePart.pieces) rest := by
  -- A static text that ends in a dollar sign needs that no brace is written behind it, so the
  -- induction says so too.
  suffices hboth : ReadsAs ((Expr.printParts parts).toList ++ '\x60' :: rest)
      (parts.flatMap TemplatePart.pieces) rest ∧
        ((Expr.printParts parts).toList ++ '\x60' :: rest).head? ≠ some '\x7b' from hboth.1
  induction parts with
  | nil => exact ⟨.close rest, by simp [Expr.printParts]⟩
  | cons part others ih =>
      obtain ⟨hread, hhead⟩ := ih (fun value hvalue => htexts value (List.mem_cons_of_mem _ hvalue))
        fun value hvalue => hholes value (List.mem_cons_of_mem _ hvalue)
      cases part with
      | text value =>
          rw [Expr.printParts, String.toList_append, List.append_assoc, escapeTemplate,
            String.toList_ofList, List.flatMap_cons, TemplatePart.pieces]
          refine ⟨hread.text hhead value.toList, fun hbrace => ?_⟩
          exact htexts value List.mem_cons_self
            (List.mem_of_mem_head? (head?_escapeTemplateChars hhead hbrace))
      | hole value =>
          have hfills := hholes value List.mem_cons_self
          have htext : (Expr.printParts (.hole value :: others)).toList ++ '\x60' :: rest =
              '$' :: '\x7b' :: (value.print.toList ++ '\x7d' ::
                ((Expr.printParts others).toList ++ '\x60' :: rest)) := by
            simp [Expr.printParts]
          rw [htext, List.flatMap_cons]
          exact ⟨hread.hole (hfills.readHole _), by simp⟩

/-- A string literal is read as the characters of its text. -/
theorem readQuotation_stringLiteral (text : String) (rest : List Char) :
    readQuotation ((stringLiteral text).toList ++ rest) =
      some ((text.toList.map TextPiece.char).flatMap TextPiece.denoted, rest) := by
  have hread := (isLiteralOf_stringLiteral text).reads rest
  rw [toList_stringLiteral] at hread ⊢
  rw [List.append_assoc, List.cons_append, readString] at hread
  rw [List.append_assoc, List.cons_append, readQuotation, hread]
  simp [List.flatMap_map, codeUnits, List.map_flatMap, TextPiece.denoted]

/-- A template literal is read as its pieces, with line feeds. -/
theorem readQuotation_template {parts : List TemplatePart}
    (htexts : ∀ value, .text value ∈ parts → '\x7b' ∉ value.toList)
    (hholes : ∀ value, .hole value ∈ parts → value.FillsHole) (rest : List Char) :
    readQuotation ((Expr.template parts).print.toList ++ rest) =
      some ((withFeeds (parts.flatMap TemplatePart.pieces)).flatMap TextPiece.denoted, rest) := by
  have htext : (Expr.template parts).print.toList ++ rest =
      '\x60' :: ((Expr.printParts parts).toList ++ '\x60' :: rest) := by
    simp [Expr.print]
  rw [htext, readQuotation]
  exact (readsAs_parts htexts hholes rest).reads

/-! Line ends. -/

theorem withFeeds_eq_self {pieces : List TextPiece} (h : .char '\r' ∉ pieces) :
    withFeeds pieces = pieces := by
  fun_induction withFeeds pieces with
  | case1 => rfl
  | case2 rest hfeed ih => exact absurd List.mem_cons_self h
  | case3 rest hfeed ih => exact absurd List.mem_cons_self h
  | case4 piece rest hpiece ih => rw [ih fun hmem => h (List.mem_cons_of_mem _ hmem)]

theorem return_notMem_withFeeds (pieces : List TextPiece) : .char '\r' ∉ withFeeds pieces := by
  fun_induction withFeeds pieces with
  | case1 => exact List.not_mem_nil
  | case2 rest hfeed ih => exact ih
  | case3 rest hfeed ih => simpa using ih
  | case4 piece rest hpiece ih =>
      rintro hmem
      rcases List.mem_cons.mp hmem with hhead | hin
      · exact hpiece hhead.symm
      · exact ih hin

/-- The unit of a carriage return stands only for one. -/
theorem mem_denoted_return_iff {pieces : List TextPiece} :
    .unit 0x0D ∈ pieces.flatMap TextPiece.denoted ↔ .char '\r' ∈ pieces := by
  have hone : ∀ piece : TextPiece, .unit 0x0D ∈ piece.denoted ↔ piece = .char '\r' := by
    intro piece
    cases piece with
    | hole value => simp [TextPiece.denoted]
    | char c =>
        have hunit : 0x0D ∈ codePointUnits c.toNat ↔ c = '\r' := by
          rw [← Char.toNat_inj, show '\r'.toNat = 0x0D from rfl]
          unfold codePointUnits
          split
          · simp [eq_comm]
          · simp only [List.mem_cons, List.not_mem_nil, or_false]
            omega
        simpa [TextPiece.denoted] using hunit
  simp [List.mem_flatMap, hone]

/-- Pieces are read as they are with line feeds only if there is no carriage return in them. -/
theorem denoted_withFeeds_iff {pieces : List TextPiece} :
    (withFeeds pieces).flatMap TextPiece.denoted = pieces.flatMap TextPiece.denoted ↔
      .char '\r' ∉ pieces := by
  constructor
  · intro heq hmem
    rw [← mem_denoted_return_iff, ← heq, mem_denoted_return_iff] at hmem
    exact return_notMem_withFeeds pieces hmem
  · intro hmem
    rw [withFeeds_eq_self hmem]

end SchemaWire.TypeScript
