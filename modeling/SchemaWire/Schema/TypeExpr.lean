import SchemaWire.Text.Quoted
import SchemaWire.Text.Segments

/-!
Type expressions as the author of a model writes them, and the text under which messages name
them. Models go by dotted paths, such as `app.models.User`.
-/
namespace SchemaWire

/-- The identity of a model. -/
structure ModelPath where
  text : String
deriving DecidableEq, Repr

/-- The part after the last dot: the name under which the model is declared. -/
def ModelPath.shortName (path : ModelPath) : String :=
  String.ofList (Text.lastSegment '.' path.text.toList)

example : (ModelPath.mk "app.models.User").shortName = "User" := by decide +kernel

example : (ModelPath.mk "User").shortName = "User" := by decide +kernel

/-- The built-in scalar types. `absence` is the type of the missing value. -/
inductive PrimitiveKind where
  | str
  | int
  | float
  | bool
  | url
  | datetime
  | absence
deriving DecidableEq, Repr

namespace PrimitiveKind

def keyword : PrimitiveKind → String
  | str => "str"
  | int => "int"
  | float => "float"
  | bool => "bool"
  | url => "url"
  | datetime => "datetime"
  | absence => "none"

def all : List PrimitiveKind :=
  [str, int, float, bool, url, datetime, absence]

def ofKeyword? (word : String) : Option PrimitiveKind :=
  all.find? fun kind => kind.keyword = word

/-- Whether values cross the wire without conversion. -/
def isSafe : PrimitiveKind → Bool
  | datetime | absence => false
  | _ => true

/-- Whether values can be the keys of a mapping. -/
def isStringLike : PrimitiveKind → Bool
  | str | url => true
  | _ => false

theorem ofKeyword?_keyword (kind : PrimitiveKind) : ofKeyword? kind.keyword = some kind := by
  cases kind <;> decide +kernel

end PrimitiveKind

/-- The value of a literal type or of a field default. -/
inductive LiteralValue where
  | bool (value : Bool)
  | int (value : Int64)
  | str (text : String)
  | null
deriving DecidableEq, Repr

def LiteralValue.display : LiteralValue → String
  | .bool true => "true"
  | .bool false => "false"
  | .int value => toString value.toInt
  | .str text => Text.quoted text
  | .null => "null"

/-- Marks a string as a member of an enum, to which it contributes values. -/
structure EnumTag where
  name : String
  values : List String
deriving DecidableEq, Repr

/-- What can be attached to a type: an enum tag, or a note that generation ignores. -/
inductive Attachment where
  | enum (tag : EnumTag)
  | note (text : String)
deriving DecidableEq, Repr

def Attachment.display : Attachment → String
  | .enum tag => "enum " ++ tag.name
  | .note text => Text.quoted text

inductive TypeExpr where
  | primitive (kind : PrimitiveKind)
  | literal (value : LiteralValue)
  | list (element : TypeExpr)
  | dict (key value : TypeExpr)
  | union (members : List TypeExpr)
  | annotated (inner : TypeExpr) (attachments : List Attachment)
  | model (path : ModelPath)
deriving Repr

namespace TypeExpr

/-- The type of the missing value. -/
def absence : TypeExpr :=
  primitive .absence

/-- The type or its absence. -/
def optional (inner : TypeExpr) : TypeExpr :=
  union [inner, absence]

def enumTagged (name value : String) : TypeExpr :=
  annotated (primitive .str) [.enum ⟨name, [value]⟩]

mutual
def decEq : (a b : TypeExpr) → Decidable (a = b)
  | .primitive k, .primitive l =>
      if h : k = l then isTrue (by rw [h]) else isFalse (by simpa using h)
  | .literal a, .literal b =>
      if h : a = b then isTrue (by rw [h]) else isFalse (by simpa using h)
  | .list a, .list b =>
      match decEq a b with
      | isTrue h => isTrue (by rw [h])
      | isFalse h => isFalse (by simpa using h)
  | .dict k v, .dict l w =>
      match decEq k l, decEq v w with
      | isTrue h, isTrue i => isTrue (by rw [h, i])
      | isFalse h, _ => isFalse (by simp [h])
      | _, isFalse i => isFalse (by simp [i])
  | .union a, .union b =>
      match decEqList a b with
      | isTrue h => isTrue (by rw [h])
      | isFalse h => isFalse (by simpa using h)
  | .annotated a s, .annotated b t =>
      match decEq a b with
      | isTrue h =>
          if i : s = t then isTrue (by rw [h, i]) else isFalse (by simp [i])
      | isFalse h => isFalse (by simp [h])
  | .model p, .model q =>
      if h : p = q then isTrue (by rw [h]) else isFalse (by simpa using h)
  | .primitive _, .literal _ | .primitive _, .list _ | .primitive _, .dict _ _
  | .primitive _, .union _ | .primitive _, .annotated _ _ | .primitive _, .model _
  | .literal _, .primitive _ | .literal _, .list _ | .literal _, .dict _ _
  | .literal _, .union _ | .literal _, .annotated _ _ | .literal _, .model _
  | .list _, .primitive _ | .list _, .literal _ | .list _, .dict _ _
  | .list _, .union _ | .list _, .annotated _ _ | .list _, .model _
  | .dict _ _, .primitive _ | .dict _ _, .literal _ | .dict _ _, .list _
  | .dict _ _, .union _ | .dict _ _, .annotated _ _ | .dict _ _, .model _
  | .union _, .primitive _ | .union _, .literal _ | .union _, .list _
  | .union _, .dict _ _ | .union _, .annotated _ _ | .union _, .model _
  | .annotated _ _, .primitive _ | .annotated _ _, .literal _ | .annotated _ _, .list _
  | .annotated _ _, .dict _ _ | .annotated _ _, .union _ | .annotated _ _, .model _
  | .model _, .primitive _ | .model _, .literal _ | .model _, .list _
  | .model _, .dict _ _ | .model _, .union _ | .model _, .annotated _ _ => isFalse (by simp)

def decEqList : (a b : List TypeExpr) → Decidable (a = b)
  | [], [] => isTrue rfl
  | a :: as, b :: bs =>
      match decEq a b, decEqList as bs with
      | isTrue h, isTrue i => isTrue (by rw [h, i])
      | isFalse h, _ => isFalse (by simp [h])
      | _, isFalse i => isFalse (by simp [i])
  | [], _ :: _ | _ :: _, [] => isFalse (by simp)
end

instance : DecidableEq TypeExpr := decEq

mutual
/-- The expression in messages; a model goes by its short name. -/
def display : TypeExpr → String
  | .primitive kind => kind.keyword
  | .literal value => "Literal[" ++ value.display ++ "]"
  | .list element => "list[" ++ element.display ++ "]"
  | .dict key value => "dict[" ++ key.display ++ ", " ++ value.display ++ "]"
  | .union members => displayMembers members
  | .annotated inner attachments =>
      "Annotated[" ++ inner.display ++
        attachments.foldl (fun text attachment => text ++ ", " ++ attachment.display) "" ++ "]"
  | .model path => path.shortName

def displayMembers : List TypeExpr → String
  | [] => ""
  | [member] => member.display
  | member :: rest => member.display ++ " | " ++ displayMembers rest
end

end TypeExpr

end SchemaWire
