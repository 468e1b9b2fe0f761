import SchemaWire.Data.Content
import SchemaWire.Decimal.Range
import SchemaWire.Text.Numeral

/-!
What plain scalars say. A plain scalar is null, a truth value or a number if it is written like
one, and otherwise text.
-/
namespace SchemaWire.Yaml

def nullWords : List String :=
  ["null", "Null", "NULL", "~"]

/-- Whether a plain scalar says null: by a word, or by being empty. -/
def isNull (text : String) : Bool :=
  text = "" || nullWords.contains text

def bool? (text : String) : Option Bool :=
  if ["true", "True", "TRUE"].contains text then some true
  else if ["false", "False", "FALSE"].contains text then some false
  else none

/-- Whether decimal digits have a zero in front, which no number has. -/
def isPadded : List Char → Bool
  | '0' :: rest => !rest.isEmpty && rest.all Char.isDigit
  | _ => false

/-- The number of an integer without its sign: decimal, or to the base that its first two
characters tell. -/
def magnitude? (digits : List Char) : Option Nat :=
  match digits with
  | '0' :: 'x' :: rest => Text.natOfDigits? 16 rest
  | '0' :: 'o' :: rest => Text.natOfDigits? 8 rest
  | '0' :: 'b' :: rest => Text.natOfDigits? 2 rest
  | digits => if isPadded digits then none else Text.natOfDigits? 10 digits

def integer? : List Char → Option Int
  | '-' :: digits => (magnitude? digits).map fun number => -(number : Int)
  | '+' :: digits => (magnitude? digits).map fun number => (number : Int)
  | digits => (magnitude? digits).map fun number => (number : Int)

/-- Whether an integer fits into words of so many bits, signed or not. -/
def fitsBits (bits : Nat) (number : Int) : Bool :=
  -(Nat.pow 2 (bits - 1) : Int) ≤ number && number < (Nat.pow 2 bits : Int)

/-- The words for infinities and for what is not a number. -/
def floatWords : List String :=
  [".inf", ".Inf", ".INF", "+.inf", "+.Inf", "+.INF", "-.inf", "-.Inf", "-.INF", ".nan", ".NaN",
    ".NAN"]

def isFloat (text : String) : Bool :=
  floatWords.contains text || (Text.isNumeral text && Decimal.isFinite text.toList)

/-- The value of an integer. A number of more than 64 bits has none, and one of more than 128 bits
is no integer. -/
def integerContent? (text : String) : Option (Option Content) :=
  match integer? text.toList with
  | some number =>
      if fitsBits 64 number then some (some (.int number))
      else if fitsBits 128 number then some none
      else none
  | none => none

def plainContent? (text : String) : Option Content :=
  if isNull text then some .null
  else
    match bool? text, integerContent? text with
    | some value, _ => some (.bool value)
    | none, some content => content
    | none, none =>
        let number := Text.dropSign text.toList
        if !isPadded number && isFloat text then some .float else some (.text text)

def coreTag (name : String) : String :=
  "tag:yaml.org,2002:" ++ name

/-- Whether a tag is local: it begins with an exclamation mark and names a type of its own. -/
def isLocalTag (tag : String) : Bool :=
  tag.toList.head? == some '!'

/-- The value of a tagged scalar, which has to be what the tag says. Other tags than those of
scalar types make it text. -/
def taggedContent? (tag text : String) : Option Content :=
  if isLocalTag tag then none
  else if tag = coreTag "bool" then (bool? text).map .bool
  else if tag = coreTag "int" then (integerContent? text).join
  else if tag = coreTag "float" then if isFloat text then some .float else none
  else if tag = coreTag "null" then if nullWords.contains text then some .null else none
  else some (.text text)

def scalarContent? (tag : Option String) (text : String) (isPlain : Bool) : Option Content :=
  match tag with
  | some tag => taggedContent? tag text
  | none => if isPlain then plainContent? text else some (.text text)

example : ["0x1F", "-0o17", "+0b11", "-0", "007", "1_000"].map (fun text => integer? text.toList) =
    [some 31, some (-15), some 3, some 0, none, none] := by decide +kernel

end SchemaWire.Yaml
