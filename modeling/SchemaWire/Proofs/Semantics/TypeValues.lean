import SchemaWire.Proofs.Descriptor.Bare
import SchemaWire.Proofs.Descriptor.WellFormed
import SchemaWire.Proofs.Semantics.Conformance

/-!
The rich values of types. A type expression, its descriptor and the TypeScript type that is
rendered for it are each read as a set of values: unions as unions of sets, models by name,
attachments as nothing. The main statement is that the three sets are the same, so that neither the
classification of unions nor the merging of their rendered members loses or adds a value.
-/
namespace SchemaWire

open TypeScript (Ty Value)

namespace TypeScript

/-- What the names of types stand for. Models can have any values; `Date` is built in. -/
structure TypeNames where
  Contains : String → Value → Prop
  date : ∀ value, Contains "Date" value ↔ ∃ time, value = .date time

namespace Value

/-- A list whose items all have the property. -/
def IsListOf (item : Value → Prop) (value : Value) : Prop :=
  ∃ items, value = .list items ∧ ∀ found ∈ items, item found

/-- An object whose keys and values all have the properties. -/
def IsRecordOf (key item : Value → Prop) (value : Value) : Prop :=
  ∃ entries, value = .object entries ∧ (entries.Pairwise fun a b => a.1 < b.1) ∧
    ∀ entry ∈ entries, key (.scalar (.string entry.1)) ∧ item entry.2

end Value

def PrimitiveTy.Contains : PrimitiveTy → Value → Prop
  | .string, value => ∃ text, value = .scalar (.string text)
  | .number, value => ∃ number, value = .scalar (.number number)
  | .boolean, value => ∃ flag, value = .scalar (.bool flag)
  | .null, value => value = .null
  | .undefined, value => value = .scalar .undefined
  | .any, _ => True

mutual
/-- The values of a type. The only generic types are promises, which are no values. -/
def Ty.Contains (names : TypeNames) : Ty → Value → Prop
  | .primitive kind, value => kind.Contains value
  | .array element, value => value.IsListOf (element.Contains names)
  | .union members, value => Ty.AnyContains names members value
  | .record key item, value => value.IsRecordOf (key.Contains names) (item.Contains names)
  | .literal constant, value => value = .scalar constant.scalar
  | .named name, value => names.Contains name value
  | .generic _ _, _ => False

def Ty.AnyContains (names : TypeNames) : List Ty → Value → Prop
  | [], _ => False
  | ty :: rest, value => ty.Contains names value ∨ Ty.AnyContains names rest value
end

variable {names : TypeNames} {value : Value}

theorem Ty.anyContains_iff {tys : List Ty} :
    Ty.AnyContains names tys value ↔ ∃ ty ∈ tys, ty.Contains names value := by
  induction tys with
  | nil => simp [Ty.AnyContains]
  | cons ty rest ih => simp [Ty.AnyContains, ih]

/-- The nullable type has `null` as one more value. -/
theorem Ty.contains_nullable_iff {ty : Ty} :
    ty.nullable.Contains names value ↔ ty.Contains names value ∨ value = .null := by
  cases ty with
  | union members =>
      rw [Ty.nullable]
      split
      · rename_i hmem
        have hnull : value = .null → (Ty.union members).Contains names value := fun heq =>
          Ty.anyContains_iff.mpr ⟨_, hmem, heq⟩
        exact ⟨Or.inl, fun h => h.elim id hnull⟩
      · simp only [Ty.Contains, Ty.anyContains_iff, List.mem_append, List.mem_singleton,
          or_and_right, exists_or, exists_eq_left, PrimitiveTy.Contains]
  | primitive kind =>
      cases kind <;> simp [Ty.nullable, Ty.Contains, Ty.AnyContains, PrimitiveTy.Contains]
  | _ => simp [Ty.nullable, Ty.Contains, Ty.AnyContains, PrimitiveTy.Contains]

end TypeScript

open TypeScript (TypeNames)

variable {names : TypeNames} {value : Value}

def PrimitiveKind.Contains : PrimitiveKind → Value → Prop
  | str, value | url, value => ∃ text, value = .scalar (.string text)
  | int, value | float, value => ∃ number, value = .scalar (.number number)
  | bool, value => ∃ flag, value = .scalar (.bool flag)
  | datetime, value => ∃ time, value = .date time
  | absence, value => value = .null

mutual
/-- The rich values of a type expression. -/
def TypeExpr.Contains (names : TypeNames) : TypeExpr → Value → Prop
  | .primitive kind, value => kind.Contains value
  | .literal constant, value => value = .scalar constant.scalar
  | .list element, value => value.IsListOf (element.Contains names)
  | .dict key item, value => value.IsRecordOf (key.Contains names) (item.Contains names)
  | .union members, value => TypeExpr.AnyContains names members value
  | .annotated inner _, value => inner.Contains names value
  | .model path, value => names.Contains path.shortName value

def TypeExpr.AnyContains (names : TypeNames) : List TypeExpr → Value → Prop
  | [], _ => False
  | expr :: rest, value => expr.Contains names value ∨ TypeExpr.AnyContains names rest value
end

/-- The rich values of a descriptor. -/
def Descriptor.Contains (names : TypeNames) : Descriptor → Value → Prop
  | primitive kind, value => kind.Contains value
  | literal constant, value => value = .scalar constant.scalar
  | optional inner, value => inner.Contains names value ∨ value = .null
  | list element, value => value.IsListOf (element.Contains names)
  | mapping key item, value => value.IsRecordOf (key.Contains names) (item.Contains names)
  | annotated inner _, value => inner.Contains names value
  | model path, value => names.Contains path.shortName value
  | unionOfModels variants nullable, value =>
      (∃ path ∈ variants, names.Contains path.shortName value) ∨ nullable = true ∧ value = .null
  | unionOfScalars variants nullable, value =>
      Descriptor.Contains.anyContains names variants value ∨ nullable = true ∧ value = .null
where
  /-- The rich values of several descriptors. -/
  anyContains (names : TypeNames) : List Descriptor → Value → Prop
    | [], _ => False
    | desc :: rest, value => desc.Contains names value ∨ anyContains names rest value

namespace Descriptor

theorem anyContains_iff {descs : List Descriptor} :
    Contains.anyContains names descs value ↔ ∃ desc ∈ descs, desc.Contains names value := by
  induction descs with
  | nil => simp [Contains.anyContains]
  | cons desc rest ih => simp [Contains.anyContains, ih]

theorem contains_peel_iff {desc : Descriptor} :
    desc.peel.Contains names value ↔ desc.Contains names value := by
  fun_induction peel desc with
  | case1 inner attachments ih => exact ih
  | case2 => rfl

/-- The values of two types agree as soon as each value is one of both or of neither. -/
theorem contains_eq {expr : TypeExpr} {desc : Descriptor}
    (h : ∀ value, desc.Contains names value ↔ expr.Contains names value) :
    desc.Contains names = expr.Contains names :=
  funext fun value => propext (h value)

end Descriptor

/-! Classification. -/

namespace TypeExpr

theorem anyContains_iff {exprs : List TypeExpr} :
    AnyContains names exprs value ↔ ∃ expr ∈ exprs, expr.Contains names value := by
  induction exprs with
  | nil => simp [AnyContains]
  | cons expr rest ih => simp [AnyContains, ih]

/-- Flattening keeps the values of a union. -/
theorem anyContains_flatten_iff {members : List TypeExpr} :
    AnyContains names (flatten members) value ↔ AnyContains names members value := by
  fun_induction flatten members with
  | case1 => rfl
  | case2 nested rest ihNested ihRest =>
      rw [AnyContains, Contains, ← ihNested, ← ihRest]
      simp only [anyContains_iff, List.mem_append, or_and_right, exists_or]
  | case3 member rest hnot ih => rw [AnyContains, AnyContains, ih]

/-- The values of a union are those of its present members, and `null` if it is nullable. -/
theorem contains_union_iff {members : List TypeExpr} :
    (TypeExpr.union members).Contains names value ↔
      (∃ member ∈ presentMembers members, member.Contains names value) ∨
        absence ∈ flatten members ∧ value = .null := by
  rw [Contains, ← anyContains_flatten_iff, anyContains_iff]
  constructor
  · rintro ⟨member, hmember, hvalue⟩
    by_cases habsence : member = absence
    · subst habsence
      exact Or.inr ⟨hmember, hvalue⟩
    · exact Or.inl ⟨member, mem_presentMembers_iff.mpr ⟨hmember, habsence⟩, hvalue⟩
  · rintro (⟨member, hmember, hvalue⟩ | ⟨hmember, hvalue⟩)
    · exact ⟨member, (mem_presentMembers_iff.mp hmember).1, hvalue⟩
    · exact ⟨absence, hmember, hvalue⟩

/-- The models among descriptors have the values of these descriptors, if all are models. -/
theorem contains_modelVariants_iff {descs : List Descriptor}
    (h : ∀ desc ∈ descs, desc.isModel = true) :
    (∃ path ∈ modelVariants descs, names.Contains path.shortName value) ↔
      ∃ desc ∈ descs, desc.Contains names value := by
  have hmodel : ∀ desc ∈ descs, ∃ path, desc.peel = .model path :=
    fun desc hdesc => Descriptor.isModel_iff.mp (h desc hdesc)
  constructor
  · rintro ⟨path, hpath, hvalue⟩
    obtain ⟨desc, hdesc, hfound⟩ := List.mem_filterMap.mp hpath
    obtain ⟨other, heq⟩ := hmodel desc hdesc
    rw [heq] at hfound
    cases hfound
    refine ⟨desc, hdesc, ?_⟩
    rwa [← Descriptor.contains_peel_iff, heq]
  · rintro ⟨desc, hdesc, hvalue⟩
    obtain ⟨path, heq⟩ := hmodel desc hdesc
    rw [← Descriptor.contains_peel_iff, heq] at hvalue
    exact ⟨path, List.mem_filterMap.mpr ⟨desc, hdesc, by rw [heq]⟩, hvalue⟩

/-- A union has the values of its parts, and `null` if it is nullable. -/
theorem OfUnion.contains_iff {nullable : Bool} {parts : List Descriptor} {desc : Descriptor}
    (h : OfUnion nullable parts desc) :
    desc.Contains names value ↔
      (∃ part ∈ parts, part.Contains names value) ∨ nullable = true ∧ value = .null := by
  cases h with
  | absence hnullable => simp [Descriptor.Contains, PrimitiveKind.Contains, hnullable]
  | only hnullable => simp [hnullable]
  | optional hnullable => simp [Descriptor.Contains, hnullable]
  | models _ hmodels => rw [Descriptor.Contains, contains_modelVariants_iff hmodels]
  | scalars => rw [Descriptor.Contains, Descriptor.anyContains_iff]

/-- Classification keeps the values of a type. -/
theorem contains_iff_of_classify {expr : TypeExpr} {desc : Descriptor}
    (h : expr.classify = .ok desc) (value : Value) :
    desc.Contains names value ↔ expr.Contains names value := by
  induction expr using flatInduction generalizing desc value with
  | primitive kind =>
      cases h
      rfl
  | literal constant =>
      cases h
      rfl
  | list element ih =>
      obtain ⟨part, hpart, rfl⟩ := map_eq_ok_iff.mp h
      rw [Descriptor.Contains, Contains, Descriptor.contains_eq (ih hpart)]
  | dict key item ihKey ihItem =>
      obtain ⟨keyDesc, itemDesc, hkey, _, hitem, rfl⟩ := classify_dict_eq_ok_iff.mp h
      rw [Descriptor.Contains, Contains, Descriptor.contains_eq (ihKey hkey),
        Descriptor.contains_eq (ihItem hitem)]
  | union members ih =>
      obtain ⟨parts, hparts, hof⟩ := classify_union_eq_ok_iff.mp h
      rw [hof.contains_iff, contains_union_iff, decide_eq_true_iff]
      refine or_congr_left ⟨?_, ?_⟩
      · rintro ⟨part, hpart, hvalue⟩
        obtain ⟨member, hmember, hclass⟩ := exists_left_of_forall₂ hparts part hpart
        have hflat := (mem_presentMembers_iff.mp hmember).1
        exact ⟨member, hmember, (ih member hflat hclass value).mp hvalue⟩
      · rintro ⟨member, hmember, hvalue⟩
        obtain ⟨part, hpart, hclass⟩ := exists_right_of_forall₂ hparts member hmember
        have hflat := (mem_presentMembers_iff.mp hmember).1
        exact ⟨part, hpart, (ih member hflat hclass value).mpr hvalue⟩
  | annotated inner attachments ih =>
      obtain ⟨part, hpart, rfl⟩ := map_eq_ok_iff.mp h
      exact ih hpart value
  | model path =>
      cases h
      rfl

end TypeExpr

/-! Rendering. -/

theorem contains_of_isNullTy {ty : Ty} (h : isNullTy ty = true) :
    ty.Contains names value ↔ value = .null := by
  unfold isNullTy at h
  split at h
  · rfl
  · rfl
  · cases h

/-- The members of a rendered union that are kept as they are. -/
def keptMembers (members : List Ty) : List Ty :=
  (members.filter fun member => !isNullTy member).eraseDups

theorem mem_keptMembers_iff {members : List Ty} {member : Ty} :
    member ∈ keptMembers members ↔ member ∈ members ∧ isNullTy member = false := by
  rw [keptMembers, List.mem_eraseDups, List.mem_filter, Bool.not_eq_true']

/-- Only members that are `null` are not kept. -/
theorem exists_contains_iff_keptMembers {members : List Ty} :
    (∃ member ∈ members, member.Contains names value) ↔
      (∃ member ∈ keptMembers members, member.Contains names value) ∨
        members.any isNullTy = true ∧ value = .null := by
  simp only [mem_keptMembers_iff, List.any_eq_true]
  constructor
  · rintro ⟨member, hmember, hvalue⟩
    cases hnull : isNullTy member with
    | false => exact Or.inl ⟨member, ⟨hmember, hnull⟩, hvalue⟩
    | true => exact Or.inr ⟨⟨member, hmember, hnull⟩, (contains_of_isNullTy hnull).mp hvalue⟩
  · rintro (⟨member, ⟨hmember, _⟩, hvalue⟩ | ⟨⟨member, hmember, hnull⟩, hvalue⟩)
    · exact ⟨member, hmember, hvalue⟩
    · exact ⟨member, hmember, (contains_of_isNullTy hnull).mpr hvalue⟩

/-- Where no member is kept, the union is nullable, as some member was `null`. -/
theorem nullable_of_keptMembers_eq_nil {members : List Ty} {nullable : Bool} (hne : members ≠ [])
    (hkept : keptMembers members = []) : (nullable || members.any isNullTy) = true := by
  obtain ⟨member, hmember⟩ := List.exists_mem_of_ne_nil members hne
  refine Bool.or_eq_true_iff.mpr (Or.inr (List.any_eq_true.mpr
    ⟨member, hmember, Bool.of_not_eq_false fun hnull => ?_⟩))
  have hmem := mem_keptMembers_iff.mpr ⟨hmember, hnull⟩
  rw [hkept] at hmem
  cases hmem

/-- Merging keeps the values of the members of a union. -/
theorem contains_renderUnion_iff {members : List Ty} {nullable : Bool} (hne : members ≠ []) :
    (renderUnion members nullable).Contains names value ↔
      (∃ member ∈ members, member.Contains names value) ∨ nullable = true ∧ value = .null := by
  have hnull : keptMembers members = [] → (nullable || members.any isNullTy) = true :=
    nullable_of_keptMembers_eq_nil hne
  have hvalues : (∃ member ∈ members, member.Contains names value) ∨
      nullable = true ∧ value = .null ↔
        (∃ member ∈ keptMembers members, member.Contains names value) ∨
          (nullable || members.any isNullTy) = true ∧ value = .null := by
    rw [exists_contains_iff_keptMembers, Bool.or_eq_true, or_and_right, or_assoc]
    exact or_congr_right or_comm
  have hkept : (members.filter fun member => !isNullTy member).eraseDups = keptMembers members :=
    rfl
  rw [hvalues, renderUnion, hkept]
  generalize (nullable || members.any isNullTy) = nullable at hnull
  generalize keptMembers members = kept at hnull
  rcases kept with _ | ⟨only, _ | ⟨second, rest⟩⟩
  · simp [hnull rfl, Ty.Contains, TypeScript.PrimitiveTy.Contains]
  · cases nullable <;> simp [TypeScript.Ty.contains_nullable_iff]
  · cases nullable <;>
      simp [TypeScript.Ty.contains_nullable_iff, Ty.Contains, TypeScript.Ty.anyContains_iff]

theorem PrimitiveKind.contains_render_iff (kind : PrimitiveKind) :
    kind.render.Contains names value ↔ kind.Contains value := by
  cases kind with
  | datetime => exact names.date value
  | _ => rfl

theorem LiteralValue.contains_render_iff (constant : LiteralValue) :
    (Ty.literal constant.render).Contains names value ↔ value = .scalar constant.scalar := by
  cases constant <;> rfl

namespace Descriptor

theorem contains_render_iff_of_scalar {desc : Descriptor}
    (h : (desc.isSafePrimitive || desc.isLiteral) = true) :
    desc.render.Contains names value ↔ desc.Contains names value := by
  rw [← render_peel, ← contains_peel_iff]
  rcases peel_of_scalar h with ⟨kind, hpeel, _⟩ | ⟨constant, hpeel⟩
  · rw [hpeel]
    exact kind.contains_render_iff
  · rw [hpeel]
    exact constant.contains_render_iff

/-- The type that is rendered for a well-formed descriptor has the values of the descriptor. -/
theorem contains_render_iff {desc : Descriptor} (hwell : desc.WellFormed) (value : Value) :
    desc.render.Contains names value ↔ desc.Contains names value := by
  match desc, hwell with
  | primitive kind, _ => exact kind.contains_render_iff
  | literal constant, _ => exact constant.contains_render_iff
  | optional inner, hwell =>
      rw [render, TypeScript.Ty.contains_nullable_iff, contains_render_iff hwell.2, Contains]
  | list element, hwell =>
      have ih : element.render.Contains names = element.Contains names :=
        have hinner : element.WellFormed := hwell
        funext fun item => propext (contains_render_iff hinner item)
      rw [render, Ty.Contains, ih, Contains]
  | mapping key item, hwell =>
      have ihKey : key.render.Contains names = key.Contains names :=
        funext fun found => propext (contains_render_iff hwell.2.1 found)
      have ihItem : item.render.Contains names = item.Contains names :=
        funext fun found => propext (contains_render_iff hwell.2.2 found)
      rw [render, Ty.Contains, ihKey, ihItem, Contains]
  | annotated inner _, hwell =>
      have hinner : inner.WellFormed := hwell
      exact contains_render_iff hinner value
  | model path, _ => rfl
  | unionOfModels variants nullable, hwell =>
      have hne : variants.map (fun path => Ty.named path.shortName) ≠ [] := by
        rintro hnil
        simp [WellFormed, List.map_eq_nil_iff.mp hnil] at hwell
      simp only [render, contains_renderUnion_iff hne, Contains, List.mem_map,
        exists_exists_and_eq_and, Ty.Contains]
  | unionOfScalars variants nullable, hwell =>
      have hne : variants.map render ≠ [] := by
        rintro hnil
        simp [WellFormed, List.map_eq_nil_iff.mp hnil] at hwell
      simp only [render, renderAll_eq_map, contains_renderUnion_iff hne, Contains, anyContains_iff,
        List.mem_map, exists_exists_and_eq_and]
      refine or_congr_left (exists_congr fun variant => and_congr_right fun hvariant => ?_)
      exact contains_render_iff_of_scalar (hwell.2 variant hvariant)

end Descriptor

/-- The TypeScript type of an expression that classifies has exactly the values of the expression,
whatever the names of models stand for. -/
theorem TypeExpr.contains_render_classify_iff {expr : TypeExpr} {desc : Descriptor}
    (h : expr.classify = .ok desc) (names : TypeNames) (value : Value) :
    desc.render.Contains names value ↔ expr.Contains names value := by
  rw [Descriptor.contains_render_iff (TypeExpr.wellFormed_of_classify h),
    TypeExpr.contains_iff_of_classify h]

/-- A scope without models. -/
def TypeScript.TypeNames.builtIn : TypeNames where
  Contains name value := name = "Date" ∧ ∃ time, value = .date time
  date _ := by simp

/-- Lists of texts, links, numbers and absent values under links. Two members of the union are
strings, two are numbers, and two are `null`. -/
def mixedEntries : TypeExpr :=
  .dict (.annotated (.primitive .url) [.note "link"]) (.list (.union [
    .literal .null, .primitive .str, .union [.primitive .int, .absence],
    .annotated (.primitive .url) [], .primitive .float]))

theorem TypeExpr.contains_render_classify_iff_mixedEntries :
    ∃ desc, mixedEntries.classify = .ok desc ∧
      desc.render = .record (.primitive .string) (.array (.union
        [.primitive .string, .primitive .number, .primitive .null])) ∧
      ∀ value, desc.render.Contains .builtIn value ↔ mixedEntries.Contains .builtIn value :=
  ⟨_, rfl, by decide +kernel, contains_render_classify_iff rfl .builtIn⟩

end SchemaWire
