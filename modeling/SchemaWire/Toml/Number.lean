import SchemaWire.Decimal.Range
import SchemaWire.Text.Segments

/-!
Numbers, dates and times in TOML. Only their form is checked, as nothing that is read needs their
value.
-/
namespace SchemaWire.Toml

/-- Digits without the underscores between them, if none stands elsewhere. -/
def ungroup? (text : List Char) : Option (List Char) :=
  let groups := Text.segments '_' text
  if groups.any List.isEmpty then none else some groups.flatten

/-- The number of grouped digits to a base. -/
def groupedNat? (base : Nat) (text : List Char) : Option Nat := do
  Text.natOfDigits? base (← ungroup? text)

/-- Whether grouped decimal digits have no zero in front. -/
def isUnpadded : List Char → Bool
  | '0' :: rest => rest.isEmpty
  | _ => true

def isInteger (text : List Char) : Bool :=
  match text with
  | '0' :: 'x' :: rest => (groupedNat? 16 rest).any (· < Nat.pow 2 63)
  | '0' :: 'o' :: rest => (groupedNat? 8 rest).any (· < Nat.pow 2 63)
  | '0' :: 'b' :: rest => (groupedNat? 2 rest).any (· < Nat.pow 2 63)
  | _ =>
      let body := Text.dropSign text
      let bound := if text.head? == some '-' then Nat.pow 2 63 + 1 else Nat.pow 2 63
      isUnpadded body && (groupedNat? 10 body).any (· < bound)

/-- Whether a character belongs to grouped decimal digits. -/
def isGroupedDigit (c : Char) : Bool :=
  c.isDigit || c == '_'

def isExponentOrEmpty : List Char → Bool
  | [] => true
  | c :: rest => (c == 'e' || c == 'E') && (groupedNat? 10 (Text.dropSign rest)).isSome

/-- Whether a text is a number with a fraction or an exponent, or a word for an infinity or for
what is not a number. -/
def isFraction (text : List Char) : Bool :=
  let body := Text.dropSign text
  let whole := body.takeWhile isGroupedDigit
  let rest := body.dropWhile isGroupedDigit
  let isRest :=
    match rest with
    | [] => false
    | '.' :: rest =>
        (groupedNat? 10 (rest.takeWhile isGroupedDigit)).isSome &&
          isExponentOrEmpty (rest.dropWhile isGroupedDigit)
    | rest => isExponentOrEmpty rest
  body == ['i', 'n', 'f'] || body == ['n', 'a', 'n'] ||
    (isUnpadded whole && (groupedNat? 10 whole).isSome && isRest &&
      Decimal.isFinite (text.filter (· ≠ '_')))

/-- The number of exactly so many digits. -/
def fixedNat? (width : Nat) (text : List Char) : Option Nat :=
  if text.length = width then Text.natOfDigits? 10 text else none

def daysIn (year month : Nat) : Nat :=
  if month = 2 then
    if year % 4 = 0 && (year % 100 ≠ 0 || year % 400 = 0) then 29 else 28
  else if [4, 6, 9, 11].contains month then 30
  else 31

def isDate (text : List Char) : Bool :=
  match (Text.segments '-' text) with
  | [year, month, day] =>
      match fixedNat? 4 year, fixedNat? 2 month, fixedNat? 2 day with
      | some year, some month, some day =>
          1 ≤ month && month ≤ 12 && 1 ≤ day && day ≤ daysIn year month
      | _, _, _ => false
  | _ => false

/-- Whether digits are a number up to a bound. -/
def isUpTo (bound : Nat) (text : List Char) : Bool :=
  (fixedNat? 2 text).any (· ≤ bound)

def isTime (text : List Char) : Bool :=
  let whole := text.takeWhile (· ≠ '.')
  let fraction := text.dropWhile (· ≠ '.')
  match Text.segments ':' whole with
  | [hour, minute, second] =>
      isUpTo 23 hour && isUpTo 59 minute && isUpTo 60 second &&
        (fraction.isEmpty || Text.isDigits (fraction.drop 1))
  | _ => false

def isOffset (text : List Char) : Bool :=
  match text with
  | [c] => c == 'Z' || c == 'z'
  | _ =>
      match Text.segments ':' (text.drop 1) with
      | [hour, minute] => isUpTo 23 hour && isUpTo 59 minute
      | _ => false

def isOffsetStart (c : Char) : Bool :=
  c == 'Z' || c == 'z' || c == '+' || c == '-'

def dateWidth : Nat := 10

/-- Whether a text is a date, a time, or both. -/
def isDateTime (text : List Char) : Bool :=
  let time := text.drop (dateWidth + 1)
  let offset := time.dropWhile fun c => !isOffsetStart c
  isDate text || isTime text ||
    (isDate (text.take dateWidth) &&
      (text.drop dateWidth).head?.any (fun c => c == 'T' || c == 't' || c == ' ') &&
      isTime (time.takeWhile fun c => !isOffsetStart c) && (offset.isEmpty || isOffset offset))

def isNumber (text : List Char) : Bool :=
  isInteger text || isFraction text || isDateTime text

example : ["1_000", "0xdead_beef", "-9223372036854775808", "6.02e-23", "+inf", "1979-05-27",
    "1979-05-27 07:32:00.5Z", "07:32:00"].all (fun text => isNumber text.toList) = true := by
  decide +kernel

example : ["01", "1__0", "9223372036854775808", "1.", ".5", "1979-02-29", "-0x1"].any (fun text =>
    isNumber text.toList) = false := by
  decide +kernel

end SchemaWire.Toml
