import SchemaWire.Schema.TypeExpr

/-!
Why a generation fails. Every error is hard: nothing is generated. The causes are constructors;
their wording is here and nowhere else.
-/
namespace SchemaWire

/-- What makes the shape of a type unsupported. `described` holds a reason in words. -/
inductive ShapeFault where
  | mappingKey (key : String)
  | emptyUnion
  | modelsMixed
  | membersUnsupported
  | noConversion
  | described (reason : String)
deriving DecidableEq, Repr

def ShapeFault.reason : ShapeFault → String
  | mappingKey key => "mapping key " ++ key ++ " must be str or url"
  | emptyUnion => "empty union"
  | modelsMixed => "union mixes models with other shapes"
  | membersUnsupported => "union members must be safe primitives, literals or models"
  | noConversion => "no wire conversion for this shape"
  | described reason => reason

/-- What keeps the variants of a union of models from being told apart. -/
inductive DiscriminantFault where
  | noFields (variant : String)
  | firstFieldDiffers (expected variant field : String)
  | notLiteral (variant field : String)
  | sharedLiteral (earlier later literal : String)
  | noVariants
deriving DecidableEq, Repr

def DiscriminantFault.reason : DiscriminantFault → String
  | noFields variant => "variant " ++ variant ++ " has no fields"
  | firstFieldDiffers expected variant field =>
      "variants disagree on the first field: `" ++ expected ++ "` vs " ++ variant ++ "." ++ field
  | notLiteral variant field => variant ++ "." ++ field ++ " is not a literal"
  | sharedLiteral earlier later literal =>
      earlier ++ " and " ++ later ++ " share the discriminant " ++ literal
  | noVariants => "union has no variants"

inductive EnumTagFault where
  | invalidName
  | noValues
  | invalidValue
  | notString
deriving DecidableEq, Repr

def EnumTagFault.reason : EnumTagFault → String
  | invalidName => "enum name is not a valid TypeScript identifier"
  | noValues => "enum tag has no values"
  | invalidValue => "enum values must be non-empty and non-numeric"
  | notString => "enum tags only apply to str fields"

inductive RouteFault where
  | nameTaken (name owner : String)
  | fieldTypesDiffer (field inMatchInfo inBody : String)
  | unopenedBrace (path : String)
  | unclosedBrace (path : String)
  | emptyPlaceholder (path : String)
  | invalidName (name : String)
  | noMatchInfo (param : String)
  | noSuchField (model param : String)
  | notScalar (param ty : String)
deriving DecidableEq, Repr

def RouteFault.reason : RouteFault → String
  | nameTaken name owner => "`" ++ name ++ "` is already declared by " ++ owner
  | fieldTypesDiffer field inMatchInfo inBody =>
      "field `" ++ field ++ "` is `" ++ inMatchInfo ++ "` in match_info but `" ++ inBody ++
        "` in body"
  | unopenedBrace path => "unbalanced `\x7d` in `" ++ path ++ "`"
  | unclosedBrace path => "unbalanced `\x7b` in `" ++ path ++ "`"
  | emptyPlaceholder path => "empty placeholder in `" ++ path ++ "`"
  | invalidName name => "`" ++ name ++ "` is not a valid TypeScript function name"
  | noMatchInfo param => "path parameter `" ++ param ++ "` needs a match_info model"
  | noSuchField model param => "match_info model " ++ model ++ " has no field `" ++ param ++ "`"
  | notScalar param ty =>
      "path parameter `" ++ param ++ "` has type `" ++ ty ++ "`, which cannot appear in a URL path"

/-- Why a generation fails. The location of an unsupported shape is `Model.field`, and empty as
long as the field is not known. -/
inductive GenError where
  | unsupportedShape (location ty : String) (fault : ShapeFault)
  | ambiguousDiscriminant (union : String) (fault : DiscriminantFault)
  | nameConflict (name first second : String)
  | invalidEnumTag (name : String) (fault : EnumTagFault)
  | unknownModel (path : ModelPath)
  | invalidIdentifier (name : String)
  | invalidRoute (route : String) (fault : RouteFault)
deriving DecidableEq, Repr

namespace GenError

/-- An unsupported shape found outside any field. -/
def unlocated (ty : String) (fault : ShapeFault) : GenError :=
  unsupportedShape "" ty fault

/-- Names the field on which an unsupported shape was found, unless it has a location already. -/
def located (place : String) : GenError → GenError
  | unsupportedShape location ty fault =>
      if location = "" then unsupportedShape place ty fault else unsupportedShape location ty fault
  | other => other

def message : GenError → String
  | unsupportedShape location ty fault =>
      "unsupported type shape " ++ ty ++
        (if location = "" then "" else " at " ++ location) ++ ": " ++ fault.reason
  | ambiguousDiscriminant union fault =>
      "ambiguous discriminant in union " ++ union ++ ": " ++ fault.reason
  | nameConflict name first second =>
      "TypeScript name `" ++ name ++ "` is claimed by both " ++ first ++ " and " ++ second
  | invalidEnumTag name fault => "invalid enum tag `" ++ name ++ "`: " ++ fault.reason
  | unknownModel path => "unknown model `" ++ path.text ++ "`"
  | invalidIdentifier name => "`" ++ name ++ "` is not a valid TypeScript identifier"
  | invalidRoute route fault => "invalid route `" ++ route ++ "`: " ++ fault.reason

end GenError

/-- Anything that can fail for one of these reasons. -/
abbrev Gen := Except GenError

end SchemaWire
