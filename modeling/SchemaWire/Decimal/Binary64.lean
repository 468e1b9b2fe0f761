/-!
Non-negative finite binary64 numbers, computed exactly: a number is a mantissa times a power of
two, and every operation is the exact quotient rounded to the nearest number, ties to even.
-/
namespace SchemaWire.Decimal

/-- The number `mantissa * 2 ^ exponent`. The mantissa has 53 bits, or fewer at the least
exponent, so that equal numbers have equal parts. -/
structure Binary64 where
  mantissa : Nat
  exponent : Int
deriving DecidableEq, Repr

/-- The quotient rounded to the nearest integer, a half to the even neighbour. -/
def roundDiv (num den : Nat) : Nat :=
  let quotient := num / den
  let twice := 2 * (num % den)
  if twice > den || (twice = den && quotient % 2 = 1) then quotient + 1 else quotient

/-- `num / den * base ^ power` as a quotient. -/
def scaleRatio (num den base : Nat) (power : Int) : Nat × Nat :=
  if 0 ≤ power then (num * Nat.pow base power.toNat, den)
  else (num, den * Nat.pow base (-power).toNat)

namespace Binary64

def leastExponent : Int := -1074

/-- The greatest exponent. -/
def greatestExponent : Int := 971

def zero : Binary64 :=
  ⟨0, leastExponent⟩

/-- The number nearest to `num / den`, or `none` where it is too large. -/
def ofRatio? (num den : Nat) : Option Binary64 :=
  if num = 0 then some zero
  else
    let guess := max leastExponent ((Nat.log2 num : Int) - Nat.log2 den - 53)
    let wide := scaleRatio num den 2 (-guess)
    let exponent := if wide.1 / wide.2 < Nat.pow 2 53 then guess else guess + 1
    let ratio := scaleRatio num den 2 (-exponent)
    let mantissa := roundDiv ratio.1 ratio.2
    let number : Binary64 :=
      if mantissa = Nat.pow 2 53 then ⟨Nat.pow 2 52, exponent + 1⟩ else ⟨mantissa, exponent⟩
    if number.exponent > greatestExponent then none else some number

/-- The number as a quotient. -/
def toRatio (number : Binary64) : Nat × Nat :=
  scaleRatio number.mantissa 1 2 number.exponent

def mul? (a b : Binary64) : Option Binary64 :=
  ofRatio? (a.toRatio.1 * b.toRatio.1) (a.toRatio.2 * b.toRatio.2)

def div? (a b : Binary64) : Option Binary64 :=
  ofRatio? (a.toRatio.1 * b.toRatio.2) (a.toRatio.2 * b.toRatio.1)

end Binary64

end SchemaWire.Decimal
