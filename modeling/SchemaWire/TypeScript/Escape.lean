import SchemaWire.TypeScript.Name

/-!
Quoting in the generated TypeScript: string literals, the static text of template literals,
property keys and member access.
-/
namespace SchemaWire.TypeScript

/-- One character inside a double-quoted string literal. -/
def escapeChar (c : Char) : List Char :=
  match c with
  | '\\' => ['\\', '\\']
  | '"' => ['\\', '"']
  | '\n' => ['\\', 'n']
  | '\r' => ['\\', 'r']
  | _ => [c]

/-- The inside of a double-quoted string literal: backslashes, double quotes and line breaks are
escaped, everything else stands for itself. -/
def escapeString (text : String) : String :=
  String.ofList (text.toList.flatMap escapeChar)

/-- The static text of a template literal, character by character: backslashes and backticks are
escaped, and so is a dollar sign that would open a substitution. -/
def escapeTemplateChars : List Char → List Char
  | [] => []
  | '\\' :: rest => '\\' :: '\\' :: escapeTemplateChars rest
  | '\x60' :: rest => '\\' :: '\x60' :: escapeTemplateChars rest
  | '$' :: '\x7b' :: rest => '\\' :: '$' :: '\x7b' :: escapeTemplateChars rest
  | c :: rest => c :: escapeTemplateChars rest

def escapeTemplate (text : String) : String :=
  String.ofList (escapeTemplateChars text.toList)

def stringLiteral (text : String) : String :=
  "\"" ++ escapeString text ++ "\""

/-- A property or enum key: bare when possible, otherwise a string literal. -/
def propertyKey (name : String) : String :=
  if isBareName name then name else stringLiteral name

/-- Access to a property: `object.name`, or `object["name"]` when the name cannot stand bare. -/
def memberAccess (object name : String) : String :=
  if isBareName name then object ++ "." ++ name else object ++ "[" ++ stringLiteral name ++ "]"

end SchemaWire.TypeScript
