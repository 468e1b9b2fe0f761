import SchemaWire.Decimal.Binary64

/-!
The shortest decimal form of a binary64 number: the fewest digits that read back as the number,
and among those the nearest to it. The point is written among or beside the digits for
magnitudes from `1e-5` to below `1e16`, otherwise an exponent follows.
-/
namespace SchemaWire.Decimal

def digitsOf (n : Nat) : List Char :=
  Nat.toDigits 10 n

/-- The greatest power of ten that is not above a positive quotient. -/
def floorLog10 (num den : Nat) : Int :=
  if den ≤ num then (digitsOf (num / den)).length - 1
  else
    let count := (digitsOf (den / num)).length
    if den ≤ num * Nat.pow 10 (count - 1) then -((count : Int) - 1) else -(count : Int)

/-- Whether `digits * 10 ^ power` reads back as the number. -/
def readsBack (number : Binary64) (digits : Nat) (power : Int) : Bool :=
  let ratio := scaleRatio digits 1 10 power
  Binary64.ofRatio? ratio.1 ratio.2 == some number

/-- The decimal with `count` digits that reads back as the number: of its two neighbours on this
grid the nearer one that does. -/
def neighbour? (number : Binary64) (count : Nat) : Option (Nat × Int) :=
  let exact := number.toRatio
  let power := floorLog10 exact.1 exact.2 - (count - 1 : Nat)
  let ratio := scaleRatio exact.1 exact.2 10 (-power)
  let below := ratio.1 / ratio.2
  let nearest := roundDiv ratio.1 ratio.2
  let other := if nearest = below then below + 1 else below
  if readsBack number nearest power then some (nearest, power)
  else if readsBack number other power then some (other, power)
  else none

/-- Digits and a power of ten: `digits * 10 ^ power` is the shortest decimal of the number. -/
def shortest (number : Binary64) : Nat × Int :=
  ((List.range 17).findSome? fun count => neighbour? number (count + 1)).getD (0, 0)

/-- Drops the zeros at the end of the digits, and says how many there were. -/
def dropTrailingZeros (digits : List Char) : List Char × Nat :=
  let kept := (digits.reverse.dropWhile (· == '0')).reverse
  (kept, digits.length - kept.length)

def zeros (count : Int) : List Char :=
  List.replicate count.toNat '0'

/-- Puts the point after the first `point` digits, or writes an exponent. -/
def placePoint (digits : List Char) (point : Int) : List Char :=
  if (digits.length : Int) ≤ point && point ≤ 16 then
    digits ++ zeros (point - digits.length) ++ ['.', '0']
  else if 0 < point && point ≤ 16 then
    digits.take point.toNat ++ ['.'] ++ digits.drop point.toNat
  else if -5 < point && point ≤ 0 then
    ['0', '.'] ++ zeros (-point) ++ digits
  else
    let fraction := match digits.drop 1 with
      | [] => []
      | rest => '.' :: rest
    digits.take 1 ++ fraction ++ ['e'] ++ (toString (point - 1)).toList

def Binary64.display (number : Binary64) : String :=
  if number.mantissa = 0 then "0.0"
  else
    let (digits, power) := shortest number
    let (kept, dropped) := dropTrailingZeros (digitsOf digits)
    String.ofList (placePoint kept (kept.length + power + dropped))

end SchemaWire.Decimal
