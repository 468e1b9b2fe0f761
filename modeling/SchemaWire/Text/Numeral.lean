/-!
Digits and numerals: numbers of digits to a base of at most sixteen, and decimal numerals, which
have an optional sign, digits with at most one point among or beside them, and an optional exponent.
-/
namespace SchemaWire.Text

def hexValue? (c : Char) : Option Nat :=
  if '0' ≤ c && c ≤ '9' then some (c.toNat - 48)
  else if 'a' ≤ c && c ≤ 'f' then some (c.toNat - 87)
  else if 'A' ≤ c && c ≤ 'F' then some (c.toNat - 55)
  else none

def digitValue? (base : Nat) (c : Char) : Option Nat :=
  (hexValue? c).filter (· < base)

def appendDigits? (base : Nat) (number : Nat) : List Char → Option Nat
  | [] => some number
  | c :: rest =>
      match digitValue? base c with
      | some digit => appendDigits? base (number * base + digit) rest
      | none => none

/-- The number of a text of digits, of which there has to be one at least. -/
def natOfDigits? (base : Nat) (digits : List Char) : Option Nat :=
  if digits.isEmpty then none else appendDigits? base 0 digits

def natOf (digits : List Char) : Nat :=
  (natOfDigits? 10 digits).getD 0

/-- The character of a code point, unless it is none: too large, or half of a surrogate pair. -/
def charOfCode? (code : Nat) : Option Char :=
  if h : code.isValidChar then some (Char.ofNatAux code h) else none

example : [natOfDigits? 16 ['1', 'f'], natOfDigits? 8 ['8'], natOfDigits? 2 []] =
    [some 31, none, none] := by decide +kernel

/-- The text without one leading sign. -/
def dropSign : List Char → List Char
  | '+' :: rest => rest
  | '-' :: rest => rest
  | text => text

/-- Whether there are digits and nothing else. -/
def isDigits (text : List Char) : Bool :=
  !text.isEmpty && text.all Char.isDigit

/-- Whether the text is empty or an exponent: `e` or `E`, an optional sign, digits. -/
def isExponentOrEmpty : List Char → Bool
  | [] => true
  | c :: rest => (c == 'e' || c == 'E') && isDigits (dropSign rest)

/-- Whether the text after the whole part is an optional fraction and an optional exponent;
without a whole part the fraction has to have a digit. -/
def isAfterWhole (hasWhole : Bool) : List Char → Bool
  | '.' :: rest =>
      (hasWhole || (rest.head?.any Char.isDigit)) && isExponentOrEmpty (rest.dropWhile Char.isDigit)
  | rest => hasWhole && isExponentOrEmpty rest

/-- Whether the text is a decimal numeral, such as `-1`, `+.5`, `1.` or `2e10`. -/
def isNumeral (text : String) : Bool :=
  let body := dropSign text.toList
  isAfterWhole (body.head?.any Char.isDigit) (body.dropWhile Char.isDigit)

example : ["-1", "+.5", "1.", "2e10", "1.5E-3"].all isNumeral = true := by decide +kernel

example : ["", ".", "e5", "1e", "--1", "0x1", "inf", "1 "].any isNumeral = false := by
  decide +kernel

end SchemaWire.Text
