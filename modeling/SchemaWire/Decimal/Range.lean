import SchemaWire.Text.Numeral

/-!
Which decimal numerals are within the range of 64 bits of floating point.
-/
namespace SchemaWire.Decimal

/-- The digits of a numeral without zeros in front, and the power of ten that they count. -/
def significand (numeral : List Char) : List Char × Int :=
  let body := Text.dropSign numeral
  let isMark (c : Char) : Bool := c == 'e' || c == 'E'
  let mantissa := body.takeWhile fun c => !isMark c
  let whole := mantissa.takeWhile (· ≠ '.')
  let fraction := (mantissa.dropWhile (· ≠ '.')).drop 1
  let exponent := (body.dropWhile fun c => !isMark c).drop 1
  let power : Int := Text.natOf (Text.dropSign exponent)
  ((whole ++ fraction).dropWhile (· == '0'),
    (if exponent.head? == some '-' then -power else power) - fraction.length)

/-- The least number that is too large: from half a unit above the greatest one. -/
def floatBound : Nat :=
  Nat.pow 2 1024 - Nat.pow 2 970

def floatBoundDigits : Nat := 309

def isFinite (numeral : List Char) : Bool :=
  let (digits, power) := significand numeral
  let length : Int := digits.length + power
  digits.isEmpty || length < floatBoundDigits ||
    (length = floatBoundDigits &&
      Text.natOf digits * Nat.pow 10 power.toNat < floatBound * Nat.pow 10 (-power).toNat)

example : ["1e308", "1.7976931348623158e308", "0e999", "1e-400"].all (fun text =>
    isFinite text.toList) = true := by decide +kernel

example : ["1e309", "1.7976931348623159e308", "-2E0308"].any (fun text =>
    isFinite text.toList) = false := by decide +kernel

end SchemaWire.Decimal
