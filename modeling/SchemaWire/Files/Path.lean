import SchemaWire.Text.Segments

/-!
File paths as text. A path is cut at its slashes; empty pieces and dots are passed over, but for
a dot at the very start and the root of an absolute path.
-/
namespace SchemaWire.Files

def pieces (path : String) : List String :=
  (Text.segments '/' path.toList).map String.ofList

def isAbsolute (path : String) : Bool :=
  path.toList.head? == some '/'

/-- Whether a piece that is not the first one counts. -/
def isStep (piece : String) : Bool :=
  piece != "" && piece != "."

/-- Whether the first piece counts: any but the empty one. -/
def isFirstStep (piece : String) : Bool :=
  piece != ""

/-- Drops the pieces at the end that do not count, given the pieces in reverse. -/
def dropIdle : List String → List String
  | [] => []
  | [first] => if isFirstStep first then [first] else []
  | piece :: rest => if isStep piece then piece :: rest else dropIdle rest

/-- The steps of the path in reverse, beginning with a step that counts; idle pieces may stand
between them. -/
def reversedSteps (path : String) : List String :=
  dropIdle (pieces path).reverse

/-- The last step, if it is a name and not `.` or `..`. -/
def fileName? (path : String) : Option String :=
  match reversedSteps path with
  | name :: _ => if name = "." || name = ".." then none else some name
  | [] => none

def joinPieces (pieces : List String) : String :=
  String.ofList (Text.joinSegments '/' (pieces.map String.toList))

/-- The path without its last step; the root and the empty path have none. -/
def parent? (path : String) : Option String :=
  match reversedSteps path with
  | [] => none
  | _ :: before =>
      match dropIdle before with
      | [] => some (if isAbsolute path then "/" else "")
      | steps => some (joinPieces steps.reverse)

/-- The part of the last step after its last dot; a dot at its start does not count. -/
def extension? (path : String) : Option String :=
  match fileName? path with
  | none => none
  | some name =>
      let chars := name.toList
      let extension := Text.lastSegment '.' chars
      if extension.length + 1 < chars.length then some (String.ofList extension) else none

/-- The path as seen from a directory. -/
def join (directory path : String) : String :=
  if isAbsolute path || directory = "" then path
  else if directory.toList.getLast? == some '/' then directory ++ path
  else directory ++ "/" ++ path

example : ["a/b.json", "a/b.json/.", ".json", "a.", "x/.."].map extension? =
    [some "json", some "json", none, some "", none] := by decide +kernel

example : ["a/b", "/b", "b", "./b", "a//./b/", "/", ""].map parent? =
    [some "a", some "/", some "", some ".", some "a", none, none] := by decide +kernel

end SchemaWire.Files
