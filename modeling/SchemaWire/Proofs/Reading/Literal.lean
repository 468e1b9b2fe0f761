import SchemaWire.Proofs.Reading.CodeUnits
import SchemaWire.Text.Numeral
import SchemaWire.TypeScript.Printer

/-!
Names and string literals by the lexical rules of the generated language. All escape sequences are
read, also those that are never written; which characters beyond ASCII a name may hold is left open.
The main statement is that a string literal, a property key and an access to a property each read
as exactly the text that they were written for, whatever follows them, and that a text stands
without quotes only if it is a name.
-/
namespace SchemaWire.TypeScript

/-- What was read stands behind what was read before it. -/
def readBehind {α : Type} (earlier : List α) (read : Option (List α × List Char)) :
    Option (List α × List Char) :=
  read.map fun result => (earlier ++ result.1, result.2)

@[simp]
theorem readBehind_some {α : Type} (earlier items : List α) (rest : List Char) :
    readBehind earlier (some (items, rest)) = some (earlier ++ items, rest) :=
  rfl

@[simp]
theorem readBehind_nil {α : Type} (read : Option (List α × List Char)) :
    readBehind [] read = read := by
  cases read <;> rfl

@[simp]
theorem readBehind_append {α : Type} (first second : List α) (read : Option (List α × List Char)) :
    readBehind first (readBehind second read) = readBehind (first ++ second) read := by
  cases read <;> simp [readBehind]

/-! Escape sequences. -/

def isLineEnd (c : Char) : Bool :=
  c == '\n' || c == '\r' || c == '\u2028' || c == '\u2029'

/-- The character for which a character after a backslash stands. -/
def escapedChar : Char → Char
  | 'b' => '\x08'
  | 't' => '\t'
  | 'n' => '\n'
  | 'v' => '\x0b'
  | 'f' => '\x0c'
  | 'r' => '\r'
  | c => c

/-- A unit of so many hexadecimal digits. -/
def readHexUnit (size : Nat) (text : List Char) : Option (List Nat × List Char) := do
  let value ← Text.natOfDigits? 16 (text.take size)
  if (text.take size).length = size then some ([value], text.drop size) else none

/-- A code point of hexadecimal digits up to the closing brace. -/
def readHexPoint (text : List Char) : Option (List Nat × List Char) := do
  let point ← Text.natOfDigits? 16 (text.takeWhile (· ≠ '\x7d'))
  match text.dropWhile (· ≠ '\x7d') with
  | _ :: after => if point < 0x110000 then some (codePointUnits point, after) else none
  | [] => none

/-- The units of an escape sequence, from behind its backslash, and what comes after it. A line that
is continued has none. Digits other than a single zero are refused. -/
def readEscape : List Char → Option (List Nat × List Char)
  | [] => none
  | 'x' :: rest => readHexUnit 2 rest
  | 'u' :: '\x7b' :: rest => readHexPoint rest
  | 'u' :: rest => readHexUnit 4 rest
  | '0' :: rest => if rest.head?.any Char.isDigit then none else some ([0], rest)
  | '\r' :: '\n' :: rest => some ([], rest)
  | c :: rest =>
      if isLineEnd c then some ([], rest)
      else if c.isDigit then none
      else some (codePointUnits (escapedChar c).toNat, rest)

/-- The character stands for another one, or for itself, after a backslash. -/
structure IsSimpleEscape (c : Char) : Prop where
  ne_x : c ≠ 'x'
  ne_u : c ≠ 'u'
  not_digit : c.isDigit = false
  not_lineEnd : isLineEnd c = false

instance (c : Char) : Decidable (IsSimpleEscape c) :=
  decidable_of_iff (c ≠ 'x' ∧ c ≠ 'u' ∧ c.isDigit = false ∧ isLineEnd c = false)
    ⟨fun ⟨hx, hu, hdigit, hline⟩ => ⟨hx, hu, hdigit, hline⟩,
      fun ⟨hx, hu, hdigit, hline⟩ => ⟨hx, hu, hdigit, hline⟩⟩

theorem IsSimpleEscape.notMem_lineEnds {c : Char} (h : IsSimpleEscape c) : c ∉ ['\n', '\r'] := by
  have hline := h.not_lineEnd
  simp only [isLineEnd, Bool.or_eq_false_iff, beq_eq_false_iff_ne] at hline
  simp [hline]

theorem IsSimpleEscape.readEscape {c : Char} (h : IsSimpleEscape c) (rest : List Char) :
    readEscape (c :: rest) = some (codePointUnits (escapedChar c).toNat, rest) := by
  obtain ⟨hx, hu, hdigit, hline⟩ := h
  have hzero : c ≠ '0' := by
    rintro rfl
    cases hdigit
  have hreturn : c ≠ '\r' := by
    rintro rfl
    cases hline
  unfold TypeScript.readEscape
  split <;> simp_all

/-! String literals. -/

/-- The units of a double-quoted literal, from behind its opening quote, and what comes after it.
The separators U+2028 and U+2029 may stand in it as they are. -/
def readQuoted : List Char → Option (List Nat × List Char)
  | [] => none
  | c :: rest =>
      if c = '"' then some ([], rest)
      else if c = '\\' then
        match readEscape rest with
        | some (units, after) =>
            if after.length ≤ rest.length then readBehind units (readQuoted after) else none
        | none => none
      else if c = '\n' ∨ c = '\r' then none
      else readBehind (codePointUnits c.toNat) (readQuoted rest)
termination_by text => text.length

theorem readQuoted_close (rest : List Char) : readQuoted ('"' :: rest) = some ([], rest) := by
  rw [readQuoted, if_pos rfl]

theorem readQuoted_escape {text after : List Char} {units : List Nat}
    (h : readEscape text = some (units, after)) (hlength : after.length ≤ text.length) :
    readQuoted ('\\' :: text) = readBehind units (readQuoted after) := by
  rw [readQuoted, if_neg (by decide), if_pos rfl, h]
  exact if_pos hlength

theorem readQuoted_plain {c : Char} (hquote : c ≠ '"') (hslash : c ≠ '\\')
    (hline : ¬(c = '\n' ∨ c = '\r')) (rest : List Char) :
    readQuoted (c :: rest) = readBehind (codePointUnits c.toNat) (readQuoted rest) := by
  rw [readQuoted, if_neg hquote, if_neg hslash, if_neg hline]

/-- A written character: either it stands for itself, or a backslash stands before a character
that stands for it. -/
theorem escapeChar_cases (c : Char) :
    escapeChar c = [c] ∧ c ∉ ['"', '\\', '\n', '\r'] ∨
      ∃ d, escapeChar c = ['\\', d] ∧ escapedChar d = c ∧ IsSimpleEscape d := by
  unfold escapeChar
  split
  · exact .inr ⟨'\\', rfl, rfl, by decide⟩
  · exact .inr ⟨'"', rfl, rfl, by decide⟩
  · exact .inr ⟨'n', rfl, rfl, by decide⟩
  · exact .inr ⟨'r', rfl, rfl, by decide⟩
  · rename_i hslash hquote hfeed hreturn
    refine .inl ⟨rfl, fun hmem => ?_⟩
    simp only [List.mem_cons, List.not_mem_nil, or_false] at hmem
    obtain h | h | h | h := hmem
    · exact hquote h
    · exact hslash h
    · exact hfeed h
    · exact hreturn h

/-- A written character is read as itself. -/
theorem readQuoted_escapeChar (c : Char) (rest : List Char) :
    readQuoted (escapeChar c ++ rest) =
      readBehind (codePointUnits c.toNat) (readQuoted rest) := by
  obtain ⟨heq, hplain⟩ | ⟨d, heq, rfl, hsimple⟩ := escapeChar_cases c
  · simp only [List.mem_cons, List.not_mem_nil, or_false, not_or] at hplain
    rw [heq]
    exact readQuoted_plain hplain.1 hplain.2.1 (not_or.mpr hplain.2.2) rest
  · rw [heq]
    exact readQuoted_escape (hsimple.readEscape rest) (by simp)

/-- An escaped text is read as the text, up to the quote that closes it. -/
theorem readQuoted_escaped (text rest : List Char) :
    readQuoted (text.flatMap escapeChar ++ '"' :: rest) = some (codeUnits text, rest) := by
  induction text with
  | nil => exact readQuoted_close rest
  | cons c others ih =>
      rw [List.flatMap_cons, List.append_assoc, readQuoted_escapeChar, ih, readBehind_some,
        codeUnits_cons]

/-- The inside of a literal: neither a quote nor a backslash stands alone, and no line ends. -/
inductive IsInside : List Char → Prop where
  | nil : IsInside []
  | plain {c : Char} {rest : List Char} (hc : c ∉ ['"', '\\', '\n', '\r']) (h : IsInside rest) :
      IsInside (c :: rest)
  | escape {c : Char} {rest : List Char} (hc : c ∉ ['\n', '\r']) (h : IsInside rest) :
      IsInside ('\\' :: c :: rest)

theorem isInside_escaped (text : List Char) : IsInside (text.flatMap escapeChar) := by
  induction text with
  | nil => exact .nil
  | cons c rest ih =>
      rw [List.flatMap_cons]
      obtain ⟨heq, hplain⟩ | ⟨d, heq, -, hsimple⟩ := escapeChar_cases c
      · rw [heq]
        exact .plain hplain ih
      · rw [heq]
        exact .escape hsimple.notMem_lineEnds ih

/-- The text with every occurrence of a character replaced. -/
def replaceChar (c : Char) (replacement : List Char) (text : List Char) : List Char :=
  text.flatMap fun d => if d = c then replacement else [d]

/-- Escaping is four replacements, one after the other: that of the backslashes comes first and does
not meet the ones that the others put in. -/
theorem escaped_eq_replaced (text : List Char) :
    text.flatMap escapeChar =
      replaceChar '\r' ['\\', 'r'] (replaceChar '\n' ['\\', 'n']
        (replaceChar '"' ['\\', '"'] (replaceChar '\\' ['\\', '\\'] text))) := by
  have hchar : ∀ c, escapeChar c =
      replaceChar '\r' ['\\', 'r'] (replaceChar '\n' ['\\', 'n']
        (replaceChar '"' ['\\', '"'] (replaceChar '\\' ['\\', '\\'] [c]))) := by
    intro c
    unfold escapeChar
    split
    · rfl
    · rfl
    · rfl
    · rfl
    · rename_i hslash hquote hfeed hreturn
      simp only [replaceChar, List.flatMap_cons, List.flatMap_nil, List.append_nil, if_neg hslash,
        if_neg hquote, if_neg hfeed, if_neg hreturn]
  -- Each replacement works character by character, so the four compose to one.
  rw [funext hchar]
  simp [replaceChar, List.flatMap_assoc]

/-- The inside of a literal holds no line end. -/
theorem IsInside.notMem {text : List Char} (h : IsInside text) : '\n' ∉ text ∧ '\r' ∉ text := by
  induction h with
  | nil => simp
  | plain hc _ ih =>
      simp only [List.mem_cons, List.not_mem_nil, or_false, not_or] at hc ih ⊢
      exact ⟨⟨Ne.symm hc.2.2.1, ih.1⟩, Ne.symm hc.2.2.2, ih.2⟩
  | escape hc _ ih =>
      simp only [List.mem_cons, List.not_mem_nil, or_false, not_or] at hc ih ⊢
      exact ⟨⟨by decide, Ne.symm hc.1, ih.1⟩, by decide, Ne.symm hc.2, ih.2⟩

/-- The units of a string literal, and what comes after it. -/
def readString : List Char → Option (List Nat × List Char)
  | '"' :: rest => readQuoted rest
  | _ => none

/-- The text is one string literal that denotes the value: it is closed where it ends, whatever
follows it. -/
structure IsLiteralOf (written value : String) : Prop where
  closed : ∃ inside, written.toList = '"' :: inside ++ ['"'] ∧ IsInside inside ∧
    '\n' ∉ inside ∧ '\r' ∉ inside
  reads : ∀ rest, readString (written.toList ++ rest) = some (codeUnits value.toList, rest)

theorem toList_stringLiteral (text : String) :
    (stringLiteral text).toList = '"' :: text.toList.flatMap escapeChar ++ ['"'] := by
  simp [stringLiteral, escapeString]

theorem isLiteralOf_stringLiteral (text : String) : IsLiteralOf (stringLiteral text) text where
  closed := by
    have hinside := isInside_escaped text.toList
    exact ⟨_, toList_stringLiteral text, hinside, hinside.notMem⟩
  reads rest := by
    rw [toList_stringLiteral]
    simpa [readString] using readQuoted_escaped text.toList rest

/-! Names. -/

/-- A letter of ASCII, `_` or `$`. -/
def IsAsciiLetter (c : Char) : Prop :=
  'A' ≤ c ∧ c ≤ 'Z' ∨ 'a' ≤ c ∧ c ≤ 'z' ∨ c = '_' ∨ c = '$'

/-- A name in ASCII: it does not begin with a digit. -/
def IsAsciiName (text : String) : Prop :=
  ∃ first rest, text.toList = first :: rest ∧ IsAsciiLetter first ∧
    ∀ c ∈ rest, IsAsciiLetter c ∨ '0' ≤ c ∧ c ≤ '9'

theorem isNameStart_iff {c : Char} : isNameStart c = true ↔ IsAsciiLetter c := by
  have hupper : c.isUpper = true ↔ 'A' ≤ c ∧ c ≤ 'Z' := decide_eq_true_iff
  have hlower : c.isLower = true ↔ 'a' ≤ c ∧ c ≤ 'z' :=
    Bool.and_eq_true_iff.trans (and_congr decide_eq_true_iff decide_eq_true_iff)
  have hletter : c.isAlpha = true ↔ c.isUpper = true ∨ c.isLower = true := Bool.or_eq_true_iff
  simp only [isNameStart, IsAsciiLetter, Bool.or_eq_true, beq_iff_eq, hletter, hupper, hlower,
    or_assoc]

theorem isNamePart_iff {c : Char} :
    isNamePart c = true ↔ IsAsciiLetter c ∨ '0' ≤ c ∧ c ≤ '9' := by
  have hdigit : c.isDigit = true ↔ '0' ≤ c ∧ c ≤ '9' := by
    simp only [Char.isDigit, Char.le_def, Bool.and_eq_true, decide_eq_true_eq, ge_iff_le]
  rw [← isNameStart_iff, ← hdigit]
  simp only [isNameStart, isNamePart, Char.isAlphanum, Bool.or_eq_true, beq_iff_eq]
  grind

theorem isBareName_iff {text : String} : isBareName text = true ↔ IsAsciiName text := by
  unfold isBareName IsAsciiName
  cases text.toList with
  | nil => simp [isBareChars]
  | cons c rest =>
      simp only [isBareChars, Bool.and_eq_true, List.all_eq_true, isNameStart_iff, isNamePart_iff]
      constructor
      · exact fun h => ⟨c, rest, rfl, h⟩
      · rintro ⟨_, _, heq, h⟩
        cases heq
        exact h

/-- The characters beyond ASCII with which a name may begin and go on. -/
structure NameAlphabet where
  starts : Char → Bool
  continues : Char → Bool

namespace NameAlphabet

variable (alphabet : NameAlphabet)

/-- Whether a name may begin with the character. -/
def startsName (c : Char) : Bool :=
  isNameStart c || (128 ≤ c.toNat && alphabet.starts c)

/-- Whether a name may go on with the character. -/
def continuesName (c : Char) : Bool :=
  isNamePart c || (128 ≤ c.toNat && alphabet.continues c)

/-- The units of a name, as long as it can be, and what comes after it. A name with an escape
sequence in it is not read here. -/
def readName : List Char → Option (List Nat × List Char)
  | [] => none
  | c :: rest =>
      let after := rest.dropWhile alphabet.continuesName
      if alphabet.startsName c ∧ after.head? ≠ some '\\' then
        some (codeUnits (c :: rest.takeWhile alphabet.continuesName), after)
      else none

/-- The units of a property key: a string literal or a name. -/
def readKey (text : List Char) : Option (List Nat × List Char) :=
  readString text <|> alphabet.readName text

/-- The units of the name of a property in an access to it: a name after a dot, or a string literal
in brackets. -/
def readAccess : List Char → Option (List Nat × List Char)
  | '.' :: rest => alphabet.readName rest
  | '[' :: rest =>
      match readString rest with
      | some (units, ']' :: after) => some (units, after)
      | _ => none
  | _ => none

/-- What follows a name does not go on with it. -/
def EndsName (rest : List Char) : Prop :=
  ∀ c ∈ rest.head?, alphabet.continuesName c = false ∧ c ≠ '\\'

variable {alphabet}

/-- A name in ASCII is read whole. -/
theorem readName_of_isBareName {text : String} (h : isBareName text = true) {rest : List Char}
    (hends : alphabet.EndsName rest) :
    alphabet.readName (text.toList ++ rest) = some (codeUnits text.toList, rest) := by
  unfold isBareName at h
  cases htext : text.toList with
  | nil =>
      rw [htext] at h
      cases h
  | cons c others =>
      rw [htext, isBareChars, Bool.and_eq_true, List.all_eq_true] at h
      have hothers : ∀ d ∈ others, alphabet.continuesName d = true := fun d hd => by
        simp [continuesName, h.2 d hd]
      -- The name is as long as it can be: it ends here because what follows does not go on with it.
      have htake : rest.takeWhile alphabet.continuesName = [] := by
        cases rest with
        | nil => rfl
        | cons d after => exact List.takeWhile_cons_of_neg (by simp [(hends d rfl).1])
      have hdrop : rest.dropWhile alphabet.continuesName = rest := by
        cases rest with
        | nil => rfl
        | cons d after => exact List.dropWhile_cons_of_neg (by simp [(hends d rfl).1])
      have hslash : rest.head? ≠ some '\\' := fun hhead => (hends _ hhead).2 rfl
      rw [List.cons_append, readName, List.takeWhile_append_of_pos hothers,
        List.dropWhile_append_of_pos hothers, htake, hdrop, List.append_nil]
      exact if_pos ⟨by simp [startsName, h.1], hslash⟩

/-- A text that does not open a literal is read as a name. -/
theorem readKey_of_isBareName {text : String} (h : isBareName text = true) {rest : List Char}
    (hends : alphabet.EndsName rest) :
    alphabet.readKey (text.toList ++ rest) = some (codeUnits text.toList, rest) := by
  have hname : readString (text.toList ++ rest) = none := by
    unfold isBareName at h
    cases htext : text.toList with
    | nil =>
        rw [htext] at h
        cases h
    | cons c others =>
        rw [htext, isBareChars, Bool.and_eq_true] at h
        rw [List.cons_append]
        unfold readString
        split
        · rename_i heq
          cases heq
          exact absurd h.1 (by decide)
        · rfl
  rw [readKey, hname]
  exact readName_of_isBareName h hends

/-- A property key is read as the name that it was written for. -/
theorem readKey_propertyKey (text : String) {rest : List Char} (hends : alphabet.EndsName rest) :
    alphabet.readKey ((propertyKey text).toList ++ rest) = some (codeUnits text.toList, rest) := by
  unfold propertyKey
  split
  · rename_i h
    exact readKey_of_isBareName h hends
  · rw [readKey, (isLiteralOf_stringLiteral text).reads rest]
    rfl

/-- What stands behind the object in an access to a property. -/
theorem exists_access (text : String) :
    ∃ access : String, (∀ object, memberAccess object text = object ++ access) ∧
      ∀ (alphabet : NameAlphabet) (rest : List Char), alphabet.EndsName rest →
        alphabet.readAccess (access.toList ++ rest) = some (codeUnits text.toList, rest) := by
  unfold memberAccess
  split
  · rename_i h
    refine ⟨"." ++ text, fun object => String.append_assoc .., fun alphabet rest hends => ?_⟩
    rw [String.toList_append]
    exact readName_of_isBareName h hends
  · refine ⟨"[" ++ stringLiteral text ++ "]", fun object => ?_, fun alphabet rest _ => ?_⟩
    · simp only [String.append_assoc]
    · have hread := (isLiteralOf_stringLiteral text).reads (']' :: rest)
      have htext : ("[" ++ stringLiteral text ++ "]").toList ++ rest =
          '[' :: ((stringLiteral text).toList ++ ']' :: rest) := by
        simp
      rw [htext, readAccess, hread]
      rfl

end NameAlphabet

/-- Different names have different keys. -/
theorem propertyKey_injective {first second : String} (h : propertyKey first = propertyKey second) :
    first = second := by
  -- Both keys are read back; any alphabet does, since nothing follows.
  let alphabet : NameAlphabet := ⟨fun _ => false, fun _ => false⟩
  have hends : alphabet.EndsName [] := fun _ hhead => nomatch hhead
  have hread := alphabet.readKey_propertyKey first hends
  rw [h, alphabet.readKey_propertyKey second hends, Option.some.injEq, Prod.mk.injEq] at hread
  exact String.toList_inj.mp (codeUnits_injective hread.1).symm

/-- String literals, property keys and accesses to properties denote the text that they are written
for, by the rules of the language and whatever follows. A name in ASCII stands bare; every other
text is quoted, its inside escaped by four replacements. Different texts have different keys, and
what they denote is different. -/
theorem written_names_denote (text : String) :
    (IsLiteralOf (Literal.string text).print text ∧
      (Literal.string text).print.toList = '"' :: replaceChar '\r' ['\\', 'r']
        (replaceChar '\n' ['\\', 'n'] (replaceChar '"' ['\\', '"']
          (replaceChar '\\' ['\\', '\\'] text.toList))) ++ ['"']) ∧
    (IsAsciiName text → propertyKey text = text ∧
      ∀ object, memberAccess object text = object ++ "." ++ text) ∧
    (¬IsAsciiName text → propertyKey text = (Literal.string text).print ∧
      ∀ object, memberAccess object text = object ++ "[" ++ (Literal.string text).print ++ "]") ∧
    (∀ (alphabet : NameAlphabet) (rest : List Char), alphabet.EndsName rest →
      alphabet.readKey ((propertyKey text).toList ++ rest) = some (codeUnits text.toList, rest)) ∧
    (∃ access : String, (∀ object, memberAccess object text = object ++ access) ∧
      ∀ (alphabet : NameAlphabet) (rest : List Char), alphabet.EndsName rest →
        alphabet.readAccess (access.toList ++ rest) = some (codeUnits text.toList, rest)) ∧
    ∀ other, other ≠ text →
      propertyKey other ≠ propertyKey text ∧ codeUnits other.toList ≠ codeUnits text.toList := by
  refine ⟨⟨isLiteralOf_stringLiteral text, ?_⟩, fun hname => ?_, fun hname => ?_,
    fun alphabet rest => alphabet.readKey_propertyKey text, NameAlphabet.exists_access text,
    fun other hne => ?_⟩
  · rw [← escaped_eq_replaced]
    exact toList_stringLiteral text
  · have hbare := isBareName_iff.mpr hname
    exact ⟨if_pos hbare, fun object => if_pos hbare⟩
  · have hquoted : ¬isBareName text = true := fun hbare => hname (isBareName_iff.mp hbare)
    exact ⟨if_neg hquoted, fun object => if_neg hquoted⟩
  · exact ⟨fun hkey => hne (propertyKey_injective hkey),
      fun hunits => hne (String.toList_inj.mp (codeUnits_injective hunits))⟩

/-- A key of a backslash, a quote and both line ends, where every character beyond ASCII may stand
in a name. -/
theorem written_names_denote_lineEnds :
    let alphabet : NameAlphabet := ⟨fun _ => true, fun _ => true⟩
    alphabet.EndsName [':'] ∧ ¬IsAsciiName "\\\"\r\n" ∧
      (propertyKey "\\\"\r\n").toList =
        ['"', '\\', '\\', '\\', '"', '\\', 'r', '\\', 'n', '"'] ∧
      alphabet.readKey ((propertyKey "\\\"\r\n").toList ++ [':']) =
        some ([0x5C, 0x22, 0x0D, 0x0A], [':']) := by
  have hends : NameAlphabet.EndsName ⟨fun _ => true, fun _ => true⟩ [':'] := by
    rintro c ⟨⟩
    decide
  have hname : ¬IsAsciiName "\\\"\r\n" := fun h => absurd (isBareName_iff.mpr h) (by decide)
  obtain ⟨⟨-, hprint⟩, -, hquoted, hkey, -⟩ := written_names_denote "\\\"\r\n"
  refine ⟨hends, hname, ?_, hkey _ [':'] hends⟩
  rw [(hquoted hname).1, hprint]
  decide

end SchemaWire.TypeScript
