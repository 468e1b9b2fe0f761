import SchemaWire.Wire.Discriminant

/-!
Conversion of values. The conversion of a field follows its descriptor; where the contents of a
container need none, the container is passed on as it is. The variables of lambdas are numbered
by the depth of nesting, so that an inner lambda never hides the variable of an outer one.
-/
namespace SchemaWire

open TypeScript (Expr Ty)

/-- Seconds on the wire are milliseconds in a date. -/
def millisPerSecond : Expr :=
  .literal (.int 1000)

/-- The absent value stays absent: `src === null ? null : converted`. -/
def nullGuard (src converted : Expr) : Expr :=
  .conditional (.binary src .strictEqual (.literal .null)) (.literal .null) converted

def methodCall (owner : Expr) (method : String) (args : List Expr) : Expr :=
  .call (.member owner method) args

/-- A date from seconds, or back. -/
def convertDate (src : Expr) : Direction → Expr
  | .fromWire => .construct (.ident "Date") [.binary src .times millisPerSecond]
  | .toWire => .binary (methodCall src "getTime" []) .divide millisPerSecond

/-- The type under which a lambda takes the contents of a container. -/
def Direction.sourceTy (rich : Ty) : Direction → Ty
  | fromWire => .primitive .any
  | toWire => rich

def valueVar (depth : Nat) : String :=
  "v" ++ toString depth

def keyVar (depth : Nat) : String :=
  "k" ++ toString depth

def convertItems (src : Expr) (var : String) (ty : Ty) (converted : Expr) : Expr :=
  methodCall src "map" [.arrow [.typed var ty] converted]

/-- Maps a lambda over the values of a mapping. -/
def convertEntries (src : Expr) (key value : String) (keyTy valueTy : Ty) (converted : Expr) :
    Expr :=
  let entries := methodCall (.ident "Object") "entries" [.cast src (.record keyTy valueTy)]
  let mapped := methodCall entries "map"
    [.arrow [.items [key, value]] (.array [.ident key, converted])]
  methodCall (.ident "Object") "fromEntries" [mapped]

namespace TypeIndex

def modelCall (index : TypeIndex) (dir : Direction) (path : ModelPath) (src : Expr) :
    Gen Expr := do
  let object ← index.requireObject path
  return .call (.ident (dir.functionName object.name)) [src]

/-- The arms of a union as a chain of conditionals that ends in `unreachable()`. -/
def dispatchArms (index : TypeIndex) (dir : Direction) (field : String) (src : Expr) :
    UnionArms → Gen Expr
  | [] => .ok (.call (.ident HelperName.unreachable) [])
  | (path, value) :: rest => do
      let converted ← index.modelCall dir path src
      let otherwise ← index.dispatchArms dir field src rest
      return .conditional
        (.binary (.member src field) .strictEqual (.literal value.render)) converted otherwise

def dispatch (index : TypeIndex) (dir : Direction) (variants : List ModelPath) (src : Expr) :
    Gen Expr := do
  let (field, arms) ← index.discriminant variants
  index.dispatchArms dir field src arms

/-- The conversion of a scalar: the identity for what crosses the wire unchanged. Anything else is
refused. -/
def convertScalar (desc : Descriptor) : Gen (Option Expr) :=
  if desc.isPassthrough then .ok none
  else .error (.unlocated desc.render.print .noConversion)

/-- The conversion of `src` by a descriptor; `none` is the identity. -/
def convert (index : TypeIndex) (dir : Direction) : Descriptor → Expr → Nat → Gen (Option Expr)
  | .primitive .datetime, src, _ => .ok (some (convertDate src dir))
  | .primitive kind, _, _ => convertScalar (.primitive kind)
  | .literal value, _, _ => convertScalar (.literal value)
  | .unionOfScalars variants nullable, _, _ => convertScalar (.unionOfScalars variants nullable)
  | .annotated inner _, src, depth => index.convert dir inner src depth
  | .optional inner, src, depth => do
      let converted ← index.convert dir inner src (depth + 1)
      return converted.map (nullGuard src)
  | .list element, src, depth => do
      let var := valueVar depth
      let converted ← index.convert dir element (.ident var) (depth + 1)
      return converted.map (convertItems src var (dir.sourceTy element.render))
  | .mapping key value, src, depth => do
      let var := valueVar depth
      let converted ← index.convert dir value (.ident var) (depth + 1)
      return converted.map
        (convertEntries src (keyVar depth) var key.render (dir.sourceTy value.render))
  | .model path, src, _ => some <$> index.modelCall dir path src
  | .unionOfModels variants nullable, src, _ => do
      let converted ← index.dispatch dir variants src
      return some (if nullable then nullGuard src converted else converted)

/-- The expression that converts `src`: `src` itself where nothing has to be done. -/
def convertOrKeep (index : TypeIndex) (dir : Direction) (desc : Descriptor) (src : Expr)
    (depth : Nat) : Gen Expr := do
  let converted ← index.convert dir desc src depth
  return converted.getD src

/-- The entries of the object that the conversion function of a model returns: the fields in order,
each converted. -/
def convertFields (index : TypeIndex) (dir : Direction) (model : String) :
    List ObjectField → Gen (List TypeScript.ObjectEntry)
  | [] => .ok []
  | field :: rest => do
      let converted ←
        (index.convertOrKeep dir field.descriptor (.member (.ident "root") field.name) 1).mapError
          (.located (model ++ "." ++ field.name))
      let others ← index.convertFields dir model rest
      return .property field.name converted :: others

def wireFunction (index : TypeIndex) (dir : Direction) (path : ModelPath) : Gen WireFunction := do
  let object ← index.requireObject path
  let entries ← index.convertFields dir object.name object.fields
  let named := Ty.named object.name
  let (source, target) := match dir with
    | .fromWire => (Ty.primitive .any, named)
    | .toWire => (named, Ty.primitive .any)
  return ⟨object.name, ⟨dir.functionName object.name, [], [.typed "root" source], some target,
    [.ret (some (.object entries))], false, true⟩⟩

theorem convertScalar_of_isPassthrough {desc : Descriptor} (h : desc.isPassthrough = true) :
    convertScalar desc = .ok none :=
  if_pos h

/-- Every scalar but a date crosses the wire unchanged. -/
@[simp]
theorem convertScalar_primitive {kind : PrimitiveKind} (h : kind ≠ .datetime) :
    convertScalar (.primitive kind) = .ok none :=
  convertScalar_of_isPassthrough (by cases kind <;> first | rfl | exact absurd rfl h)

@[simp]
theorem convertScalar_literal (value : LiteralValue) :
    convertScalar (.literal value) = .ok none :=
  convertScalar_of_isPassthrough rfl

@[simp]
theorem convertScalar_unionOfScalars (variants : List Descriptor) (nullable : Bool) :
    convertScalar (.unionOfScalars variants nullable) = .ok none :=
  convertScalar_of_isPassthrough rfl

/-- A passthrough type is never converted. -/
theorem convert_of_isPassthrough (index : TypeIndex) (dir : Direction) {desc : Descriptor}
    (h : desc.isPassthrough = true) (src : Expr) (depth : Nat) :
    index.convert dir desc src depth = .ok none := by
  fun_induction Descriptor.peel desc with
  | case1 inner attachments ih => exact ih h
  | case2 desc hnot =>
      cases desc with
      | primitive kind =>
          have hkind : kind ≠ .datetime := by
            rintro rfl
            cases h
          rw [convert.eq_2 _ _ _ _ _ hkind, convertScalar_primitive hkind]
      | literal value => exact convertScalar_literal value
      | unionOfScalars variants nullable => exact convertScalar_unionOfScalars variants nullable
      | annotated inner attachments => exact absurd rfl (hnot inner attachments)
      | _ => simp [Descriptor.isPassthrough, Descriptor.peel] at h

end TypeIndex

end SchemaWire
