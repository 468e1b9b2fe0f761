import SchemaWire.Index.Basic

/-!
Discriminants: the field that tells the variants of a union of models apart. It is the first
field of every variant, of the same name in all of them, and a literal different in each.
-/
namespace SchemaWire

/-- The arms of a union: each variant with the literal that marks it. -/
abbrev UnionArms := List (ModelPath × LiteralValue)

def Descriptor.literal? (desc : Descriptor) : Option LiteralValue :=
  match desc.peel with
  | .literal value => some value
  | _ => none

namespace TypeIndex

/-- Refuses a first field of another name than the earlier variants have. -/
def checkFirstField (variant field : String) : Option String → Except DiscriminantFault Unit
  | some expected =>
      if expected = field then .ok ()
      else .error (.firstFieldDiffers expected variant field)
  | none => .ok ()

/-- The name of the first field of a variant with the literal that marks the variant, given the
field's name in the earlier variants and their arms. -/
def discriminantArm (object : ObjectType) (expected : Option String) (earlier : UnionArms) :
    Except DiscriminantFault (String × LiteralValue) :=
  match object.fields with
  | [] => .error (.noFields object.name)
  | first :: _ => do
      checkFirstField object.name first.name expected
      match first.descriptor.literal? with
      | none => .error (.notLiteral object.name first.name)
      | some value =>
          match earlier.find? fun arm => arm.2 == value with
          | some arm => .error (.sharedLiteral arm.1.shortName object.name value.display)
          | none => .ok (first.name, value)

/-- The discriminating field and the arms, after some variants with the field and the arms found
so far. -/
def discriminantFrom (index : TypeIndex) (union : String) (field : Option String)
    (earlier : UnionArms) : List ModelPath → Gen (String × UnionArms)
  | [] =>
      match field with
      | some name => .ok (name, earlier)
      | none => .error (.ambiguousDiscriminant union .noVariants)
  | path :: rest => do
      let object ← index.requireObject path
      match discriminantArm object field earlier with
      | .error fault => .error (.ambiguousDiscriminant union fault)
      | .ok (name, value) =>
          index.discriminantFrom union (some name) (earlier ++ [(path, value)]) rest

/-- The union in messages. -/
def unionDisplay (variants : List ModelPath) : String :=
  TypeScript.joinWith " | " (variants.map ModelPath.shortName)

/-- The field that tells the variants apart, and the literal of each variant in order. -/
def discriminant (index : TypeIndex) (variants : List ModelPath) : Gen (String × UnionArms) :=
  index.discriminantFrom (unionDisplay variants) none [] variants

end TypeIndex

end SchemaWire
