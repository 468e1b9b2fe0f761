import SchemaWire.Text.Segments
import SchemaWire.Text.UpperCase

/-!
Names of the generated TypeScript: which texts can stand bare as a property name, which can name
a declaration, and the camel-case form of a handler name.
-/
namespace SchemaWire.TypeScript

/-- Words that cannot name a generated type, enum or function. -/
def reservedWords : List String := [
  "async", "await", "break", "case", "catch", "class", "const", "continue",
  "debugger", "default", "delete", "do", "else", "enum", "export", "extends",
  "false", "finally", "for", "function", "if", "implements", "import", "in",
  "instanceof", "interface", "let", "new", "null", "package", "private",
  "protected", "public", "return", "static", "super", "switch", "this",
  "throw", "true", "try", "typeof", "var", "void", "while", "with", "yield"]

def isReserved (word : String) : Bool :=
  reservedWords.contains word

/-- Whether a bare name may start with the character: a letter of ASCII, `_` or `$`. -/
def isNameStart (c : Char) : Bool :=
  c.isAlpha || c == '_' || c == '$'

/-- Whether the character may stand inside a bare name: also the digits of ASCII. -/
def isNamePart (c : Char) : Bool :=
  c.isAlphanum || c == '_' || c == '$'

/-- Whether the characters form a name that can be written without quotes. -/
def isBareChars : List Char → Bool
  | [] => false
  | c :: rest => isNameStart c && rest.all isNamePart

/-- Whether a property of this name can be written `obj.name`, or as a bare object key. -/
def isBareName (name : String) : Bool :=
  isBareChars name.toList

/-- Whether the name can be declared, as a type, a function or an enum. -/
def isIdentifier (name : String) : Bool :=
  isBareName name && !isReserved name

/-- Joins the non-empty pieces of a snake-case word, each but the first capitalised. -/
def camelChars (word : List Char) : List Char :=
  match (Text.segments '_' word).filter (· ≠ []) with
  | [] => []
  | first :: others => first ++ others.flatMap Text.capitalizeChars

def camelCase (word : String) : String :=
  String.ofList (camelChars word.toList)

theorem isNamePart_of_isNameStart {c : Char} (h : isNameStart c = true) :
    isNamePart c = true := by
  simp only [isNameStart, isNamePart, Char.isAlphanum, Bool.or_eq_true] at h ⊢
  rcases h with (h | h) | h <;> simp [h]

theorem isBareName_of_isIdentifier {name : String} (h : isIdentifier name = true) :
    isBareName name = true := by
  simp only [isIdentifier, Bool.and_eq_true] at h
  exact h.1

example : camelCase "_get_users__for_org_" = "getUsersForOrg" := by decide +kernel

example : isIdentifier "delete" = false := by decide +kernel

end SchemaWire.TypeScript
