import SchemaWire.Data.Json
import SchemaWire.Decimal.Shortest
import SchemaWire.Text.Numeral

/-!
Reading JSON text. Reading never fails: where the text is not JSON the value says so. Nesting is
limited, a string must not hold half of a surrogate pair, and a number must not be too large.
-/
namespace SchemaWire.JsonReader

/-- The nesting from which on arrays and objects cannot be read. -/
def nestingLimit : Nat := 128

/-- The text without white space at its start. -/
def skipSpace (text : List Char) : List Char :=
  text.dropWhile fun c => c == ' ' || c == '\n' || c == '\t' || c == '\r'

/-- The code unit of four hexadecimal digits. -/
def unit? : List Char → Option (Nat × List Char)
  | a :: b :: c :: d :: rest => do
      let a ← Text.hexValue? a
      let b ← Text.hexValue? b
      let c ← Text.hexValue? c
      let d ← Text.hexValue? d
      return (((a * 16 + b) * 16 + c) * 16 + d, rest)
  | _ => none

/-- The character that a letter stands for after a backslash. -/
def escaped? : Char → Option Char
  | '"' => some '"'
  | '\\' => some '\\'
  | '/' => some '/'
  | 'b' => some '\x08'
  | 'f' => some '\x0c'
  | 'n' => some '\n'
  | 'r' => some '\r'
  | 't' => some '\t'
  | _ => none

/-- A piece of a string: the character it stands for, `none` where that is half of a surrogate
pair. -/
abbrev Piece := Option Char

/-- The first half of a pair with its second half, or alone. -/
def pairOf (high : Nat) (rest : List Char) : Piece × List Char :=
  match rest with
  | '\\' :: 'u' :: afterMark =>
      match unit? afterMark with
      | some (low, afterPair) =>
          if 0xdc00 ≤ low && low ≤ 0xdfff then
            (some (Char.ofNat (0x10000 + (high - 0xd800) * 0x400 + (low - 0xdc00))), afterPair)
          else (none, rest)
      | none => (none, rest)
  | _ => (none, rest)

/-- The piece of a string at the start of the text, if the text is well formed there. -/
def piece? : List Char → Option (Piece × List Char)
  | '\\' :: 'u' :: rest =>
      match unit? rest with
      | none => none
      | some (unit, rest) =>
          if 0xd800 ≤ unit && unit ≤ 0xdbff then some (pairOf unit rest)
          else if 0xdc00 ≤ unit && unit ≤ 0xdfff then some (none, rest)
          else some (some (Char.ofNat unit), rest)
  | '\\' :: c :: rest => (escaped? c).map fun c => (some c, rest)
  | ['\\'] => none
  | c :: rest => if c.toNat < 0x20 then none else some (some c, rest)
  | [] => none

theorem length_lt_of_unit? {text rest : List Char} {unit : Nat}
    (h : unit? text = some (unit, rest)) : rest.length < text.length := by
  unfold unit? at h
  split at h
  · simp only [Option.bind_eq_bind, Option.bind_eq_some_iff, Option.pure_def, Option.some.injEq,
      Prod.mk.injEq] at h
    obtain ⟨_, _, _, _, _, _, _, _, _, rfl⟩ := h
    simp only [List.length_cons]
    omega
  · cases h

theorem length_pairOf_le (high : Nat) (rest : List Char) :
    (pairOf high rest).2.length ≤ rest.length := by
  unfold pairOf
  split
  · split
    · rename_i hunit
      have hlt := length_lt_of_unit? hunit
      split
      · simp only [List.length_cons]
        omega
      · exact Nat.le_refl _
    · exact Nat.le_refl _
  · exact Nat.le_refl _

/-- A piece takes at least one character. -/
theorem length_lt_of_piece? {text rest : List Char} {piece : Piece}
    (h : piece? text = some (piece, rest)) : rest.length < text.length := by
  unfold piece? at h
  split at h
  · rename_i after
    split at h
    · cases h
    · rename_i unit afterUnit hunit
      have hlt := length_lt_of_unit? hunit
      have hle := length_pairOf_le unit afterUnit
      split at h
      · simp only [Option.some.injEq] at h
        simp only [h] at hle
        simp only [List.length_cons]
        omega
      · split at h <;> cases h <;> simp only [List.length_cons] <;> omega
  · simp only [Option.map_eq_some_iff] at h
    obtain ⟨_, _, hpair⟩ := h
    cases hpair
    simp only [List.length_cons]
    omega
  · cases h
  · split at h <;> cases h
    simp
  · cases h

/-- The rest of a string after its opening quote, with what was read of it in reverse, `none`
once a piece could not be read; and what follows the closing quote. -/
def stringFrom (read : Option (List Char)) (text : List Char) :
    Option (Option String × List Char) :=
  match text with
  | '"' :: rest => some (read.map fun chars => String.ofList chars.reverse, rest)
  | text =>
      match _hpiece : piece? text with
      | none => none
      | some (piece, rest) =>
          stringFrom (do
            let chars ← read
            let c ← piece
            return c :: chars) rest
termination_by text.length
decreasing_by exact length_lt_of_piece? _hpiece

/-- The text of a string after its opening quote, and what follows the closing quote. -/
def string? (text : List Char) : Option (Option String × List Char) :=
  stringFrom (some []) text

/-- The greatest significand of a number. -/
def greatestSignificand : Nat := Nat.pow 2 64 - 1

/-- Takes further digits into a significand as long as it stays within its bounds. -/
def takeDigits (significand : Nat) : List Char → Nat × List Char
  | [] => (significand, [])
  | c :: rest =>
      let next := significand * 10 + (c.toNat - 48)
      if next ≤ greatestSignificand then takeDigits next rest else (significand, c :: rest)

/-- The powers of ten up to `1e308`. -/
def powerOfTen (power : Nat) : Decimal.Binary64 :=
  (Decimal.Binary64.ofRatio? (Nat.pow 10 power) 1).getD .zero

/-- Scales a number by a power of ten below one, in steps of at most `1e308`. -/
def scaleDown (number : Decimal.Binary64) (power : Nat) : Decimal.Binary64 :=
  if number.mantissa = 0 then number
  else if power ≤ 308 then (number.div? (powerOfTen power)).getD .zero
  else scaleDown ((number.div? (powerOfTen 308)).getD .zero) (power - 308)
termination_by power

/-- A significand times a power of ten, unless it is too large. -/
def scaled? (significand : Nat) (power : Int) : Option Decimal.Binary64 := do
  let number ← Decimal.Binary64.ofRatio? significand 1
  if 0 ≤ power then
    if power ≤ 308 then number.mul? (powerOfTen power.toNat)
    else if significand = 0 then number
    else none
  else scaleDown number (-power).toNat

/-- The parts of a number: whether it is negative, its whole digits, the digits after the point
and the exponent, each if written. -/
structure NumberText where
  negative : Bool
  whole : List Char
  fraction : Option (List Char)
  exponent : Option Int
deriving Repr

/-- The value of a number with a fraction or an exponent, or with more digits than an integer
may have; `unreadable` where it is too large. -/
def NumberText.float (number : NumberText) : Json :=
  let (whole, wholeRest) := takeDigits 0 number.whole
  let fraction := number.fraction.getD []
  let (significand, fractionRest) := takeDigits whole fraction
  let taken := fraction.length - fractionRest.length
  let power : Int := number.exponent.getD 0 + wholeRest.length - taken
  match scaled? significand power with
  | some value => .float ((if number.negative then "-" else "") ++ value.display)
  | none => .unreadable true

/-- The value of a number: an integer if it is written as one and fits. -/
def NumberText.value (number : NumberText) : Json :=
  let magnitude := Text.natOf number.whole
  if number.fraction.isSome || number.exponent.isSome then number.float
  else if number.negative then
    if magnitude = 0 || magnitude > Nat.pow 2 63 then number.float else .int (-magnitude)
  else if magnitude ≤ greatestSignificand then .int magnitude
  else number.float

/-- The digits at the start of the text, and what follows them. -/
def spanDigits (text : List Char) : List Char × List Char :=
  (text.takeWhile Char.isDigit, text.dropWhile Char.isDigit)

/-- The fraction at the start of the text, if there is a point; a digit has to follow it. -/
def fraction? : List Char → Option (Option (List Char) × List Char)
  | '.' :: rest =>
      match spanDigits rest with
      | ([], _) => none
      | (digits, rest) => some (some digits, rest)
  | text => some (none, text)

/-- The exponent at the start of the text, if there is one; a digit has to follow its sign. -/
def exponent? : List Char → Option (Option Int × List Char)
  | c :: rest =>
      if c == 'e' || c == 'E' then
        let (negative, rest) := match rest with
          | '-' :: rest => (true, rest)
          | '+' :: rest => (false, rest)
          | rest => (false, rest)
        match spanDigits rest with
        | ([], _) => none
        | (digits, rest) =>
            let magnitude : Int := Text.natOf digits
            some (some (if negative then -magnitude else magnitude), rest)
      else some (none, c :: rest)
  | [] => some (none, [])

/-- The number at the start of the text, its sign read. No digit follows a leading zero. -/
def number? (negative : Bool) (text : List Char) : Option (Json × List Char) := do
  let (whole, rest) ← match spanDigits text with
    | ([], _) => none
    | ('0' :: _ :: _, _) => none
    | (digits, rest) => some (digits, rest)
  let (fraction, rest) ← fraction? rest
  let (exponent, rest) ← exponent? rest
  return (NumberText.value ⟨negative, whole, fraction, exponent⟩, rest)

def dropWord? : List Char → List Char → Option (List Char)
  | [], text => some text
  | c :: word, d :: text => if c = d then dropWord? word text else none
  | _ :: _, [] => none

/-- A value without parts at the start of the text. -/
def scalar? : List Char → Option (Json × List Char)
  | '"' :: rest => (string? rest).map fun (text, rest) =>
      ((text.map Json.string).getD (.unreadable true), rest)
  | '-' :: rest => number? true rest
  | 'n' :: rest => (dropWord? ['u', 'l', 'l'] rest).map fun rest => (.null, rest)
  | 't' :: rest => (dropWord? ['r', 'u', 'e'] rest).map fun rest => (.bool true, rest)
  | 'f' :: rest => (dropWord? ['a', 'l', 's', 'e'] rest).map fun rest => (.bool false, rest)
  | text => number? false text

/-- The place where the text stops being JSON. -/
def broken : Json :=
  .unreadable false

/-- An array or object at a nesting at which it can no longer be read. -/
def limited (nesting : Nat) (value : Json) (rest : Option (List Char)) : Json :=
  if nesting < nestingLimit then value
  else .unreadable rest.isSome

mutual
/-- The value at the start of the text and what follows it, nothing where the text stops being
JSON. The steps bound the number of values. -/
def valueFrom : (steps nesting : Nat) → List Char → Json × Option (List Char)
  | 0, _, _ => (broken, none)
  | steps + 1, nesting, text =>
      match skipSpace text with
      | '[' :: rest =>
          match skipSpace rest with
          | ']' :: rest => (limited (nesting + 1) (.array []) (some rest), some rest)
          | rest =>
              let (items, rest) := itemsFrom steps (nesting + 1) rest
              (limited (nesting + 1) (.array items) rest, rest)
      | '\x7b' :: rest =>
          match skipSpace rest with
          | '\x7d' :: rest => (limited (nesting + 1) (.object []) (some rest), some rest)
          | rest =>
              let (value, rest) := membersFrom steps (nesting + 1) [] none rest
              (limited (nesting + 1) value rest, rest)
      | text =>
          match scalar? text with
          | some (value, rest) => (value, some rest)
          | none => (broken, none)

/-- The items of an array, and what follows its closing bracket. -/
def itemsFrom : (steps nesting : Nat) → List Char → List Json × Option (List Char)
  | 0, _, _ => ([broken], none)
  | steps + 1, nesting, text =>
      match valueFrom steps nesting text with
      | (item, none) => ([item], none)
      | (item, some rest) =>
          match skipSpace rest with
          | ']' :: rest => ([item], some rest)
          | ',' :: rest =>
              let (items, rest) := itemsFrom steps nesting rest
              (item :: items, rest)
          | _ => ([item, broken], none)

/-- An object after its opening brace, given the members so far in reverse and, once a key could
not be read, the members before it; and what follows its closing brace. -/
def membersFrom : (steps nesting : Nat) → List (String × Json) → Option (List (String × Json)) →
    List Char → Json × Option (List Char)
  | 0, _, members, _, _ => (.cut members.reverse false, none)
  | steps + 1, nesting, members, readable, text =>
      let close (members : List (String × Json)) (readable : Option (List (String × Json))) :=
        match readable with
        | some readable => Json.cut readable.reverse true
        | none => Json.object members.reverse
      let stop (members : List (String × Json)) (readable : Option (List (String × Json))) :=
        Json.cut (readable.getD members).reverse false
      match skipSpace text with
      | '"' :: rest =>
          match string? rest with
          | none => (stop members readable, none)
          | some (key, rest) =>
              let readable := match key, readable with
                | none, none => some members
                | _, readable => readable
              let key := key.getD ""
              match skipSpace rest with
              | ':' :: rest =>
                  match valueFrom steps nesting rest with
                  | (value, none) => (stop ((key, value) :: members) readable, none)
                  | (value, some rest) =>
                      let members := (key, value) :: members
                      match skipSpace rest with
                      | '\x7d' :: rest => (close members readable, some rest)
                      | ',' :: rest => membersFrom steps nesting members readable rest
                      | _ => (stop members readable, none)
              | _ => (stop ((key, broken) :: members) readable, none)
      | _ => (stop members readable, none)
end

/-- The value of a text, and whether nothing but white space follows it. -/
def read (text : String) : Json × Bool :=
  let chars := text.toList
  match valueFrom (2 * chars.length + 2) 0 chars with
  | (value, some rest) => (value, (skipSpace rest).isEmpty)
  | (value, none) => (value, false)

end SchemaWire.JsonReader
