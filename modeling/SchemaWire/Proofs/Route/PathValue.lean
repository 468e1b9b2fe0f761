import SchemaWire.Proofs.Route.Parts
import SchemaWire.Proofs.Scoping.Mention

/-!
Values that a URL path can hold. Under its attachments and optional layers such a value is a scalar,
so that its conversion needs no model and no variable of its own: it always exists and reads nothing
but its source. The parts of a URL are therefore known as soon as its parameters are such fields.
-/
namespace SchemaWire

open TypeScript (Expr)

namespace Descriptor

/-- The descriptor under all attachments and optional layers. -/
def strip : Descriptor → Descriptor
  | annotated inner _ | optional inner => inner.strip
  | desc => desc

/-- A primitive, a literal or a union of primitives and literals. -/
def IsScalar (desc : Descriptor) : Prop :=
  (∃ kind, desc = primitive kind) ∨ (∃ value, desc = literal value) ∨
    ∃ variants nullable, desc = unionOfScalars variants nullable

theorem isPathScalar_iff {desc : Descriptor} : desc.isPathScalar = true ↔ desc.strip.IsScalar := by
  fun_induction isPathScalar desc with
  | case1 inner attachments ih => exact ih
  | case2 inner ih => exact ih
  | _ => simp [strip, IsScalar]

end Descriptor

namespace TypeIndex

/-- The value of a URL path is always converted, and reads what its source reads. -/
theorem convert_of_isPathScalar (index : TypeIndex) {desc : Descriptor}
    (h : desc.isPathScalar = true) (src : Expr) (depth : Nat) :
    ∃ result, index.convert .toWire desc src depth = .ok result ∧
      ∀ wire ∈ result, ∀ locals, wire.mentions locals ⊆ src.mentions locals := by
  fun_induction convert index .toWire desc src depth with
  | case1 src depth =>
      refine ⟨_, rfl, ?_⟩
      rintro _ ⟨⟩ locals
      simp [convertDate, methodCall, millisPerSecond]
  | case2 kind src depth hkind => exact ⟨none, convertScalar_primitive hkind, by simp⟩
  | case3 value => exact ⟨none, rfl, by simp⟩
  | case4 variants nullable => exact ⟨none, rfl, by simp⟩
  | case5 inner attachments src depth ih => exact ih h
  | case6 inner src depth ih =>
      obtain ⟨converted, hconverted, hreads⟩ := ih h
      refine ⟨_, bind_eq_ok_iff.mpr ⟨converted, hconverted, rfl⟩, ?_⟩
      intro wire hwire locals
      obtain ⟨inside, hinside, rfl⟩ := Option.mem_map.mp hwire
      simp [nullGuard, hreads inside hinside locals]
  | _ => cases h

theorem convertOrKeep_of_isPathScalar (index : TypeIndex) {desc : Descriptor}
    (h : desc.isPathScalar = true) (src : Expr) (depth : Nat) :
    ∃ wire, index.convertOrKeep .toWire desc src depth = .ok wire ∧
      ∀ locals, wire.mentions locals ⊆ src.mentions locals := by
  obtain ⟨result, hresult, hreads⟩ := index.convert_of_isPathScalar h src depth
  refine ⟨_, bind_eq_ok_iff.mpr ⟨result, hresult, rfl⟩, fun locals => ?_⟩
  cases result with
  | none => exact List.Subset.refl _
  | some wire => exact hreads wire rfl locals

end TypeIndex

namespace RouteDef

variable {index : TypeIndex} {route : RouteDef} {matchInfo : Option ObjectType}

/-- The conversion of a value that a path can hold does not fail. -/
theorem exists_paramValue_iff {name : String} :
    (∃ wire, route.paramValue index matchInfo name = .ok wire) ↔
      ∃ object ∈ matchInfo, ∃ field, object.FirstNamed name field ∧
        field.descriptor.isPathScalar = true := by
  simp only [paramValue_eq_ok_iff]
  constructor
  · rintro ⟨_, object, hobject, field, hfield, hscalar, _⟩
    exact ⟨object, hobject, field, hfield, hscalar⟩
  · rintro ⟨object, hobject, field, hfield, hscalar⟩
    obtain ⟨wire, hwire, _⟩ := index.convertOrKeep_of_isPathScalar hscalar
      (.member (.ident "matchInfo") name) 1
    exact ⟨wire, object, hobject, field, hfield, hscalar, hwire⟩

/-- The value of a path parameter reads the match info and binds nothing. -/
theorem mentions_paramValue {name : String} {wire : Expr}
    (h : route.paramValue index matchInfo name = .ok wire) (locals : List String) :
    wire.mentions locals ⊆ [.value "matchInfo" locals] := by
  obtain ⟨object, hobject, field, hfield, hscalar, hconverted⟩ := paramValue_eq_ok_iff.mp h
  obtain ⟨same, hsame, hmentions⟩ := index.convertOrKeep_of_isPathScalar hscalar
    (.member (.ident "matchInfo") name) 1
  obtain rfl : same = wire := Except.ok.inj (hsame.symm.trans hconverted)
  simpa using hmentions locals

/-- The parts of the URL are known if every parameter is a field of the match info that a path can
hold. -/
theorem exists_pathParts_iff {segments : List PathSegment} :
    (∃ parts, route.pathParts index matchInfo segments = .ok parts) ↔
      ∀ name, .param name ∈ segments → ∃ object ∈ matchInfo, ∃ field,
        object.FirstNamed name field ∧ field.descriptor.isPathScalar = true := by
  induction segments with
  | nil => simp [pathParts]
  | cons segment rest ih =>
      cases segment with
      | text value =>
          have hrest :
              (∃ parts, route.pathParts index matchInfo (.text value :: rest) = .ok parts) ↔
                ∃ parts, route.pathParts index matchInfo rest = .ok parts := by
            simp only [pathParts_text_eq_ok_iff]
            constructor
            · rintro ⟨_, others, hothers, _⟩
              exact ⟨others, hothers⟩
            · rintro ⟨others, hothers⟩
              exact ⟨_, others, hothers, rfl⟩
          simp [hrest, ih]
      | param name =>
          have hrest :
              (∃ parts, route.pathParts index matchInfo (.param name :: rest) = .ok parts) ↔
                (∃ wire, route.paramValue index matchInfo name = .ok wire) ∧
                  ∃ parts, route.pathParts index matchInfo rest = .ok parts := by
            simp only [pathParts_param_eq_ok_iff]
            constructor
            · rintro ⟨_, wire, hwire, others, hothers, _⟩
              exact ⟨⟨wire, hwire⟩, others, hothers⟩
            · rintro ⟨⟨wire, hwire⟩, others, hothers⟩
              exact ⟨_, wire, hwire, others, hothers, rfl⟩
          rw [hrest, exists_paramValue_iff, ih]
          simp [or_imp, forall_and]

end RouteDef

end SchemaWire
