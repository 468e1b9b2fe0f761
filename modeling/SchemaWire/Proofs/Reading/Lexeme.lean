import SchemaWire.TypeScript.Printer

/-!
Reading the words of an expression. A text is cut into names, numerals, strings and marks, each as
long as it can be; blanks only keep them apart. The sign of a numeral is part of it. The main
statements say that what is printed is read as what it was printed from, whatever follows it, as
long as a name or a numeral at its end does not run on.
-/
namespace SchemaWire.TypeScript

/-- Brackets, separators and operators. -/
inductive Mark where
  | parenOpen
  | parenClose
  | bracketOpen
  | bracketClose
  | braceOpen
  | braceClose
  | comma
  | colon
  | dot
  | less
  | greater
  | arrow
  | strictEqual
  | times
  | divide
  | question
  | bar
deriving DecidableEq, Repr

/-- A smallest part of a text. A word is a name or a keyword. -/
inductive Lexeme where
  | word (text : String)
  | numeral (value : Int64)
  | string (text : String)
  | mark (mark : Mark)
deriving DecidableEq, Repr

/-- The marks that are no part of longer ones. -/
def markOf? : Char → Option Mark
  | '(' => some .parenOpen
  | ')' => some .parenClose
  | '[' => some .bracketOpen
  | ']' => some .bracketClose
  | '\x7b' => some .braceOpen
  | '\x7d' => some .braceClose
  | ',' => some .comma
  | ':' => some .colon
  | '.' => some .dot
  | '<' => some .less
  | '>' => some .greater
  | _ => none

/-- The operators. Every other run of operator characters is none that is read here. -/
def operatorOf? : List Char → Option Mark
  | ['=', '>'] => some .arrow
  | ['=', '=', '='] => some .strictEqual
  | ['*'] => some .times
  | ['/'] => some .divide
  | ['?'] => some .question
  | ['|'] => some .bar
  | _ => none

/-- Whether operators are made of the character. An operator ends at a `>` only as an arrow. -/
def isOperatorChar (c : Char) : Bool :=
  ['=', '*', '/', '?', '|', '&', '!', '+', '-', '%', '^', '~', '>'].contains c

/-- The character for which an escape sequence stands. -/
def unescape? : Char → Option Char
  | '\\' => some '\\'
  | '"' => some '"'
  | 'n' => some '\n'
  | 'r' => some '\r'
  | _ => none

/-- The text up to the closing quote, and what comes after it. -/
def readText : List Char → Option (List Char × List Char)
  | [] => none
  | '"' :: rest => some ([], rest)
  | '\\' :: c :: rest => do
      let plain ← unescape? c
      let (text, after) ← readText rest
      return (plain :: text, after)
  | c :: rest =>
      if c = '\\' || c = '\n' || c = '\r' then none
      else do
        let (text, after) ← readText rest
        return (c :: text, after)

/-- The value of a numeral, which has to be in range and without needless digits. -/
def numeralValue? (sign digits : List Char) : Option Int64 :=
  let size := Int.ofNat (Nat.ofDigitChars 10 digits 0)
  let value := Int64.ofInt (if sign = [] then size else -size)
  if (toString value.toInt).toList = sign ++ digits then some value else none

/-- The numeral at the start of a text, after its sign. No name follows a numeral. -/
def readNumeral (sign text : List Char) : Option (Lexeme × List Char) :=
  let after := text.dropWhile Char.isDigit
  if after.head?.any isNamePart then none
  else do
    let value ← numeralValue? sign (text.takeWhile Char.isDigit)
    return (.numeral value, after)

/-- The lexeme at the start of a text, and what comes after it. -/
def nextLexeme : List Char → Option (Lexeme × List Char)
  | [] => none
  | c :: rest =>
      if c = '"' then do
        let (text, after) ← readText rest
        return (.string (String.ofList text), after)
      else if isNameStart c then
        some (.word (String.ofList (c :: rest.takeWhile isNamePart)), rest.dropWhile isNamePart)
      else if c.isDigit then readNumeral [] (c :: rest)
      else if c = '-' then readNumeral ['-'] rest
      else match markOf? c with
        | some mark => some (.mark mark, rest)
        | none => do
            let mark ← operatorOf? (c :: rest.takeWhile isOperatorChar)
            return (.mark mark, rest.dropWhile isOperatorChar)

def lexemes? : List Char → Option (List Lexeme)
  | [] => some []
  | c :: rest =>
      if c = ' ' then lexemes? rest
      else
        match nextLexeme (c :: rest) with
        | some (lexeme, after) =>
            if after.length ≤ rest.length then (lexeme :: ·) <$> lexemes? after else none
        | none => none
termination_by text => text.length

example : lexemes? "a.b === -1 ? null : f(\"x\")".toList = some [.word "a", .mark .dot, .word "b",
    .mark .strictEqual, .numeral (-1), .mark .question, .word "null", .mark .colon, .word "f",
    .mark .parenOpen, .string "x", .mark .parenClose] := by decide +kernel

theorem lexemes?_blank (rest : List Char) : lexemes? (' ' :: rest) = lexemes? rest := by
  rw [lexemes?, if_pos rfl]

theorem lexemes?_of_next {c : Char} {text after : List Char} {lexeme : Lexeme} (hblank : c ≠ ' ')
    (h : nextLexeme (c :: text) = some (lexeme, after)) (hlength : after.length ≤ text.length) :
    lexemes? (c :: text) = (lexeme :: ·) <$> lexemes? after := by
  rw [lexemes?, if_neg hblank, h]
  simp only [if_pos hlength]

/-- The text is read as the lexemes, whatever follows it. -/
def Closed (text : String) (lexemes : List Lexeme) : Prop :=
  ∀ rest, lexemes? (text.toList ++ rest) = (lexemes ++ ·) <$> lexemes? rest

/-- A name or numeral before the text does not run on into it. -/
def Breaks (rest : List Char) : Prop :=
  ∀ c ∈ rest.head?, isNamePart c = false

/-- The text is read as the lexemes where no name runs on after it. -/
def Spells (text : String) (lexemes : List Lexeme) : Prop :=
  ∀ rest, Breaks rest → lexemes? (text.toList ++ rest) = (lexemes ++ ·) <$> lexemes? rest

variable {text next : String} {first second : List Lexeme}

theorem Closed.spells (h : Closed text first) : Spells text first :=
  fun rest _ => h rest

theorem map_append_eq (x : Option (List Lexeme)) :
    (first ++ ·) <$> (second ++ ·) <$> x = ((first ++ second) ++ ·) <$> x := by
  cases x <;> simp

theorem Closed.append (h : Closed text first) (hnext : Closed next second) :
    Closed (text ++ next) (first ++ second) := by
  intro rest
  rw [String.toList_append, List.append_assoc, h, hnext, map_append_eq]

theorem Closed.append_spells (h : Closed text first) (hnext : Spells next second) :
    Spells (text ++ next) (first ++ second) := by
  intro rest hrest
  rw [String.toList_append, List.append_assoc, h, hnext rest hrest, map_append_eq]

/-- What follows a name closes it, unless it begins like the rest of one. -/
theorem Spells.append (h : Spells text first) (hnext : Closed next second)
    (hbreaks : ∀ rest, Breaks (next.toList ++ rest)) : Closed (text ++ next) (first ++ second) := by
  intro rest
  rw [String.toList_append, List.append_assoc, h _ (hbreaks rest), hnext, map_append_eq]

theorem breaks_of_head {c : Char} (h : next.toList.head? = some c) (hc : isNamePart c = false)
    (rest : List Char) : Breaks (next.toList ++ rest) := by
  intro d hd
  rw [List.head?_append, h] at hd
  cases hd
  exact hc

/-! The lexemes of single marks and of operators between blanks. -/

theorem lexemes?_mark {c : Char} {mark : Mark} (h : markOf? c = some mark) (rest : List Char) :
    lexemes? (c :: rest) = ([.mark mark] ++ ·) <$> lexemes? rest := by
  have hc : c ≠ ' ' ∧ c ≠ '"' ∧ isNameStart c = false ∧ c.isDigit = false ∧ c ≠ '-' := by
    unfold markOf? at h
    split at h
    all_goals first | decide | cases h
  obtain ⟨hblank, hquote, hname, hdigit, hminus⟩ := hc
  refine lexemes?_of_next hblank ?_ (Nat.le_refl _)
  simp [nextLexeme, hquote, hname, hdigit, hminus, h]

theorem lexemes?_operator {c : Char} {operator rest : List Char} {mark : Mark}
    (hoperator : operatorOf? (c :: operator) = some mark) :
    lexemes? (c :: operator ++ ' ' :: rest) = ([.mark mark] ++ ·) <$> lexemes? rest := by
  have hc : c ≠ ' ' ∧ c ≠ '"' ∧ isNameStart c = false ∧ c.isDigit = false ∧ c ≠ '-' ∧
      markOf? c = none ∧ operator.all isOperatorChar = true := by
    unfold operatorOf? at hoperator
    split at hoperator <;> rename_i heq
    all_goals first | cases heq; decide | cases hoperator
  obtain ⟨hblank, hquote, hname, hdigit, hminus, hmark, hoperators⟩ := hc
  have hall := List.all_eq_true.mp hoperators
  have hend : isOperatorChar ' ' = false := by decide
  have hnext : nextLexeme (c :: operator ++ ' ' :: rest) = some (.mark mark, ' ' :: rest) := by
    simp [nextLexeme, hquote, hname, hdigit, hminus, hmark, List.takeWhile_append_of_pos hall,
      List.dropWhile_append_of_pos hall, hend, hoperator]
  refine (lexemes?_of_next hblank hnext (by simp)).trans ?_
  rw [lexemes?_blank]
  rfl

/-- A blank after a text keeps it apart and is not read. -/
theorem Spells.append_blank (h : Spells text first) : Closed (text ++ " ") first := by
  intro rest
  have hbreaks : Breaks (' ' :: rest) := by
    rintro c hc
    cases hc
    decide
  have htext : (text ++ " ").toList ++ rest = text.toList ++ ' ' :: rest := by simp
  rw [htext, h _ hbreaks, lexemes?_blank]

theorem Spells.between_blanks (h : Spells text first) : Closed (" " ++ text ++ " ") first := by
  intro rest
  have htext : (" " ++ text ++ " ").toList ++ rest = ' ' :: ((text ++ " ").toList ++ rest) := by
    simp
  rw [htext, lexemes?_blank, h.append_blank]

theorem closed_mark {c : Char} {mark : Mark} (htext : text.toList = [c])
    (h : markOf? c = some mark) : Closed text [.mark mark] := by
  intro rest
  rw [htext]
  exact lexemes?_mark h rest

theorem closed_mark_blank {c : Char} {mark : Mark} (htext : text.toList = [c, ' '])
    (h : markOf? c = some mark) : Closed text [.mark mark] := by
  intro rest
  rw [htext]
  exact (lexemes?_mark h (' ' :: rest)).trans (by rw [lexemes?_blank])

theorem closed_blank_mark {c : Char} {mark : Mark} (htext : text.toList = [' ', c])
    (h : markOf? c = some mark) : Closed text [.mark mark] := by
  intro rest
  rw [htext]
  exact (lexemes?_blank _).trans (lexemes?_mark h rest)

theorem closed_operator (c : Char) (operator : List Char) {mark : Mark}
    (htext : text.toList = ' ' :: c :: operator ++ [' '])
    (h : operatorOf? (c :: operator) = some mark) : Closed text [.mark mark] := by
  intro rest
  rw [htext, List.append_assoc]
  exact (lexemes?_blank _).trans (lexemes?_operator h)

/-! Names, strings and numerals. -/

theorem takeWhile_append_eq {p : Char → Bool} {part rest : List Char}
    (hpart : ∀ c ∈ part, p c = true) (hrest : ∀ c ∈ rest.head?, p c = false) :
    (part ++ rest).takeWhile p = part ∧ (part ++ rest).dropWhile p = rest := by
  rw [List.takeWhile_append_of_pos hpart, List.dropWhile_append_of_pos hpart]
  cases rest with
  | nil => simp
  | cons c others =>
      have hc : p c = false := hrest c rfl
      simp [hc]

/-- A name is read as it is. -/
theorem spells_word {name : String} (h : isBareName name = true) : Spells name [.word name] := by
  intro rest hrest
  unfold isBareName isBareChars at h
  split at h
  · cases h
  · rename_i c others hname
    rw [Bool.and_eq_true, List.all_eq_true] at h
    obtain ⟨htake, hdrop⟩ := takeWhile_append_eq h.2 hrest
    have hquote : c ≠ '"' := by
      rintro rfl
      exact absurd h.1 (by decide)
    have hblank : c ≠ ' ' := by
      rintro rfl
      exact absurd h.1 (by decide)
    have hword : String.ofList (c :: others) = name := by rw [← hname, String.ofList_toList]
    have hnext : nextLexeme (c :: (others ++ rest)) = some (.word name, rest) := by
      rw [nextLexeme, if_neg hquote, if_pos h.1, htake, hdrop, hword]
    rw [hname]
    exact lexemes?_of_next hblank hnext (by simp)

/-- An escaped character is read back as the character. -/
theorem readText_escapeChar (c : Char) (rest : List Char) :
    readText (escapeChar c ++ rest) = do
      let (text, after) ← readText rest
      return (c :: text, after) := by
  unfold escapeChar
  split
  · rfl
  · rfl
  · rfl
  · rfl
  · rename_i hslash hquote hfeed hreturn
    rw [List.cons_append, List.nil_append,
      readText.eq_4 _ _ hquote fun d others heq _ => hslash heq]
    have hplain : (c = '\\' || c = '\n' || c = '\r') = false := by
      simp only [Bool.or_eq_false_iff, decide_eq_false_iff_not]
      exact ⟨⟨hslash, hfeed⟩, hreturn⟩
    simp only [hplain, Bool.false_eq_true, if_false]

theorem readText_escaped (text rest : List Char) :
    readText (text.flatMap escapeChar ++ '"' :: rest) = some (text, rest) := by
  induction text with
  | nil => rfl
  | cons c others ih =>
      rw [List.flatMap_cons, List.append_assoc, readText_escapeChar, ih]
      rfl

/-- A string literal is read as its text. -/
theorem closed_string (text : String) : Closed (stringLiteral text) [.string text] := by
  intro rest
  have htext : (stringLiteral text).toList ++ rest =
      '"' :: (text.toList.flatMap escapeChar ++ '"' :: rest) := by
    simp [stringLiteral, escapeString]
  have hnext : nextLexeme ('"' :: (text.toList.flatMap escapeChar ++ '"' :: rest)) =
      some (.string text, rest) := by
    rw [nextLexeme, if_pos rfl, readText_escaped]
    simp
  rw [htext]
  refine lexemes?_of_next (by decide) hnext ?_
  simp only [List.length_append, List.length_cons]
  omega

theorem isNamePart_of_isDigit {c : Char} (h : c.isDigit = true) : isNamePart c = true := by
  simp [isNamePart, Char.isAlphanum, h]

theorem isNameStart_of_isDigit {c : Char} (h : c.isDigit = true) : isNameStart c = false := by
  simp only [Char.isDigit, Bool.and_eq_true, decide_eq_true_eq] at h
  have hupper : c.isUpper = false :=
    decide_eq_false fun hletter => absurd (UInt32.le_trans hletter.1 h.2) (by decide)
  have hlower : c.isLower = false := Bool.and_eq_false_iff.mpr <| Or.inl <|
    decide_eq_false fun hletter => absurd (UInt32.le_trans hletter h.2) (by decide)
  have halpha : c.isAlpha = false := Bool.or_eq_false_iff.mpr ⟨hupper, hlower⟩
  have hmarks : c ≠ '_' ∧ c ≠ '$' := by
    constructor <;> rintro rfl <;> exact absurd h (by decide)
  simp [isNameStart, halpha, hmarks]

/-- The digits of a number in range are read back as the number. -/
theorem readNumeral_digits {value : Int64} {sign : List Char} {size : Nat}
    (htext : (toString value.toInt).toList = sign ++ Nat.toDigits 10 size)
    (hvalue : value.toInt = if sign = [] then Int.ofNat size else -Int.ofNat size)
    {rest : List Char} (hrest : Breaks rest) :
    readNumeral sign (Nat.toDigits 10 size ++ rest) = some (.numeral value, rest) := by
  have hdigits : ∀ c ∈ Nat.toDigits 10 size, c.isDigit = true := fun c =>
    Nat.isDigit_of_mem_toDigits (by decide) (by decide)
  have hend : ∀ c ∈ rest.head?, c.isDigit = false := by
    intro c hc
    rw [Bool.eq_false_iff]
    intro hdigit
    exact Bool.false_ne_true ((hrest c hc).symm.trans (isNamePart_of_isDigit hdigit))
  obtain ⟨htake, hdrop⟩ := takeWhile_append_eq hdigits hend
  have hname : rest.head?.any isNamePart = false := by
    cases hhead : rest.head? with
    | none => rfl
    | some c => exact hrest c hhead
  have hread : numeralValue? sign (Nat.toDigits 10 size) = some value := by
    rw [numeralValue?]
    simp only [Nat.ofDigitChars_ten_toDigits, ← hvalue, Int64.ofInt_toInt, if_pos htext]
  simp only [readNumeral, hdrop, htake, hname, hread]
  rfl

theorem nextLexeme_digit {c : Char} (hc : c.isDigit = true) (rest : List Char) :
    nextLexeme (c :: rest) = readNumeral [] (c :: rest) := by
  have hquote : c ≠ '"' := by
    rintro rfl
    exact absurd hc (by decide)
  rw [nextLexeme, if_neg hquote, if_neg (by rw [isNameStart_of_isDigit hc]; decide), if_pos hc]

theorem spells_unsigned {value : Int64} {size : Nat}
    (htext : (toString value.toInt).toList = Nat.toDigits 10 size)
    (hvalue : value.toInt = Int.ofNat size) : Spells (toString value.toInt) [.numeral value] := by
  intro rest hrest
  have hread := @readNumeral_digits value [] size htext hvalue rest hrest
  cases hdigits : Nat.toDigits 10 size with
  | nil => exact absurd hdigits Nat.toDigits_ne_nil
  | cons c others =>
      have hmem : c ∈ Nat.toDigits 10 size := by rw [hdigits]; exact List.mem_cons_self
      have hc : c.isDigit = true := Nat.isDigit_of_mem_toDigits (by decide) (by decide) hmem
      have hblank : c ≠ ' ' := by
        rintro rfl
        exact absurd hc (by decide)
      rw [hdigits] at htext hread
      rw [htext]
      exact lexemes?_of_next hblank ((nextLexeme_digit hc _).trans hread) (by simp)

theorem spells_negative {value : Int64} {size : Nat}
    (htext : (toString value.toInt).toList = '-' :: Nat.toDigits 10 size)
    (hvalue : value.toInt = -Int.ofNat size) : Spells (toString value.toInt) [.numeral value] := by
  intro rest hrest
  have hread := @readNumeral_digits value ['-'] size htext hvalue rest hrest
  have hnext : nextLexeme ('-' :: (Nat.toDigits 10 size ++ rest)) =
      some (.numeral value, rest) := by
    rw [nextLexeme, if_neg (by decide), if_neg (by decide), if_neg (by decide), if_pos rfl]
    exact hread
  rw [htext]
  exact lexemes?_of_next (by decide) hnext (by simp)

/-- A numeral is read with its sign. -/
theorem spells_numeral (value : Int64) : Spells (toString value.toInt) [.numeral value] := by
  cases hvalue : value.toInt with
  | ofNat size =>
      rw [← hvalue]
      refine @spells_unsigned value size ?_ hvalue
      rw [hvalue]
      exact Nat.toList_repr
  | negSucc size =>
      rw [← hvalue]
      refine @spells_negative value (size + 1) ?_ hvalue
      rw [hvalue]
      change ("-" ++ (size + 1).repr).toList = _
      rw [String.toList_append, Nat.toList_repr]
      rfl

end SchemaWire.TypeScript
