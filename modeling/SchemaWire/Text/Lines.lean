/-!
Cutting a text into lines. Main statement: lines kept with their terminators concatenate to the
text.
-/
namespace SchemaWire.Text

/-- The lines of a text, each ended by a line feed that is dropped together with one carriage
return before it. What follows the last line feed is a line unless it is empty. `line` holds the
characters of the current line in reverse. -/
def lineChars (line : List Char) : List Char → List (List Char)
  | [] => if line = [] then [] else [line.reverse]
  | '\n' :: rest =>
      (match line with
        | '\r' :: before => before.reverse
        | _ => line.reverse) :: lineChars [] rest
  | c :: rest => lineChars (c :: line) rest

/-- The lines of a text without their terminators. -/
def lines (text : String) : List String :=
  (lineChars [] text.toList).map String.ofList

/-- The lines of a text with their terminators: a line ends after `\n`, `\r\n` or a lone `\r`.
`line` holds the characters of the current line in reverse. -/
def terminatedChars (line : List Char) : List Char → List (List Char)
  | [] => if line = [] then [] else [line.reverse]
  | '\r' :: '\n' :: rest => ('\n' :: '\r' :: line).reverse :: terminatedChars [] rest
  | '\r' :: rest => ('\r' :: line).reverse :: terminatedChars [] rest
  | '\n' :: rest => ('\n' :: line).reverse :: terminatedChars [] rest
  | c :: rest => terminatedChars (c :: line) rest

/-- The lines of a text, each with its terminator. -/
def terminatedLines (text : String) : List String :=
  (terminatedChars [] text.toList).map String.ofList

theorem flatten_terminatedChars (line rest : List Char) :
    (terminatedChars line rest).flatten = line.reverse ++ rest := by
  fun_induction terminatedChars line rest <;> simp_all

/-- Nothing is lost or added by the cut. -/
theorem flatten_terminatedLines (text : String) :
    (terminatedChars [] text.toList).flatten = text.toList := by
  simpa using flatten_terminatedChars [] text.toList

example : lines "a\r\n\nb" = ["a", "", "b"] := by decide +kernel

example : terminatedLines "a\r\n\rb" = ["a\r\n", "\r", "b"] := by decide +kernel

end SchemaWire.Text
