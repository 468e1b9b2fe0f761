import SchemaWire.Proofs.Descriptor.Rendered
import SchemaWire.Proofs.Descriptor.UnionLaws
import SchemaWire.Proofs.Reading.Spelling
import SchemaWire.Proofs.Semantics.TypeValues

/-!
The form of rendered unions. A union is in normal form if it lists at least two members, none of
them a union, each text once, and `null` last. The main statement tells when every union in the type
of an expression is in normal form: all of them have several members and none directly inside
another, and a text is there twice, or `null` not last, only where an optional type or a union of
models adds `null` to a type that is already spelt so.
-/
namespace SchemaWire

open TypeScript (Ty)

namespace TypeScript

/-- Several members of a union, none of them a union itself. -/
structure IsGathered (members : List Ty) : Prop where
  several : 2 ≤ members.length
  flat : ∀ member ∈ members, ∀ nested, member ≠ .union nested

/-- Members of a union in normal form. -/
structure IsNormalUnion (members : List Ty) : Prop extends IsGathered members where
  distinct : (members.map Ty.print).Nodup
  nullLast : "null" ∉ (members.map Ty.print).dropLast

/-- A text is read as one list of lexemes. -/
theorem Spells.lexemes_eq {text : String} {first second : List Lexeme} (hfirst : Spells text first)
    (hsecond : Spells text second) : first = second := by
  have hread := (hfirst [] nofun).symm.trans (hsecond [] nofun)
  simpa [lexemes?] using hread

theorem Literal.lexeme_injective : Function.Injective Literal.lexeme := by
  intro a b h
  fun_cases Literal.lexeme a <;> fun_cases Literal.lexeme b <;> simp_all [Literal.lexeme]

namespace Ty

mutual
/-- The members of every union in the type have the property, at any depth. -/
def EveryUnion (p : List Ty → Prop) : Ty → Prop
  | .primitive _ | .literal _ | .named _ => True
  | .array element => element.EveryUnion p
  | .record key value => key.EveryUnion p ∧ value.EveryUnion p
  | .union members => p members ∧ EveryUnionIn p members
  | .generic _ args => EveryUnionIn p args

/-- The members of every union in several types have the property. -/
def EveryUnionIn (p : List Ty → Prop) : List Ty → Prop
  | [] => True
  | ty :: rest => ty.EveryUnion p ∧ EveryUnionIn p rest
end

/-- Whether the type is a single word or literal. -/
def isAtomic : Ty → Bool
  | .primitive _ | .literal _ | .named _ => true
  | _ => false

/-- The members of a union, or the type itself. -/
def members : Ty → List Ty
  | .union members => members
  | other => [other]

variable {p : List Ty → Prop} {ty : Ty} {tys : List Ty}

theorem everyUnionIn_iff : EveryUnionIn p tys ↔ ∀ ty ∈ tys, ty.EveryUnion p := by
  induction tys with
  | nil => simp [EveryUnionIn]
  | cons ty rest ih => simp [EveryUnionIn, ih]

theorem everyUnion_of_isAtomic (h : ty.isAtomic = true) : ty.EveryUnion p := by
  cases ty with
  | primitive | literal | named => simp [EveryUnion]
  | _ => cases h

theorem ne_union_of_isAtomic (h : ty.isAtomic = true) (nested : List Ty) : ty ≠ .union nested := by
  rintro rfl
  cases h

theorem members_of_isAtomic (h : ty.isAtomic = true) : ty.members = [ty] := by
  cases ty with
  | union nested => cases h
  | _ => rfl

/-- The union of atomic types has these types as its members. -/
theorem members_ofMembers (h : ∀ ty ∈ tys, ty.isAtomic = true) : (ofMembers tys).members = tys := by
  match tys, h with
  | [], _ => rfl
  | [only], h => exact members_of_isAtomic (h only List.mem_cons_self)
  | _ :: _ :: _, _ => rfl

/-! Gathered unions. -/

theorem nullable_of_isAtomic (h : ty.isAtomic = true) (hne : ty ≠ .primitive .null) :
    ty.nullable = .union [ty, .primitive .null] := by
  fun_cases nullable ty with
  | case1 | case2 => cases h
  | case3 => exact absurd rfl hne
  | case4 => rfl

/-- The nullable type has `null` as one more member unless it has it already. -/
theorem members_nullable :
    ty.nullable.members =
      if .primitive .null ∈ ty.members then ty.members else ty.members ++ [.primitive .null] := by
  fun_cases nullable ty with
  | case1 members hmem => exact (if_pos hmem).symm
  | case2 members hmem => exact (if_neg hmem).symm
  | case3 => rfl
  | case4 _ hunion hnull =>
      cases ty with
      | union members => exact absurd rfl (hunion members)
      | _ => exact (if_neg fun hmem => hnull (List.mem_singleton.mp hmem).symm).symm

theorem gathered_nullable (h : ty.EveryUnion IsGathered) : ty.nullable.EveryUnion IsGathered := by
  fun_cases nullable ty with
  | case1 members hmem => exact h
  | case2 members hmem =>
      refine ⟨⟨?_, ?_⟩, everyUnionIn_iff.mpr ?_⟩
      · rw [List.length_append]
        exact Nat.le_add_right_of_le h.1.several
      · rw [List.forall_mem_append]
        exact ⟨h.1.flat, by simp⟩
      · rw [List.forall_mem_append]
        exact ⟨everyUnionIn_iff.mp h.2, by simp [EveryUnion]⟩
  | case3 => exact h
  | case4 _ hunion =>
      exact ⟨⟨Nat.le_refl 2, by simpa using hunion⟩, by simpa [EveryUnionIn, EveryUnion] using h⟩

/-- The union of atomic types gathers them. -/
theorem gathered_ofMembers (hne : tys ≠ []) (h : ∀ ty ∈ tys, ty.isAtomic = true) :
    (ofMembers tys).EveryUnion IsGathered := by
  match tys, hne, h with
  | [only], _, h => exact everyUnion_of_isAtomic (h only List.mem_cons_self)
  | first :: second :: rest, _, h =>
      have hflat : ∀ ty ∈ first :: second :: rest, ∀ nested, ty ≠ .union nested :=
        fun ty hty => ne_union_of_isAtomic (h ty hty)
      exact ⟨⟨by simp, hflat⟩, everyUnionIn_iff.mpr fun ty hty => everyUnion_of_isAtomic (h ty hty)⟩

/-! Unions in normal form. -/

/-- Where unions are gathered, the normal form is about the texts of the members. -/
theorem normal_iff_members (h : ty.EveryUnion IsGathered) :
    ty.EveryUnion IsNormalUnion ↔
      (∀ member ∈ ty.members, member.EveryUnion IsNormalUnion) ∧
        (ty.members.map Ty.print).Nodup ∧ "null" ∉ (ty.members.map Ty.print).dropLast := by
  cases ty with
  | union members =>
      rw [EveryUnion, everyUnionIn_iff]
      constructor
      · rintro ⟨hnormal, hmembers⟩
        exact ⟨hmembers, hnormal.distinct, hnormal.nullLast⟩
      · rintro ⟨hmembers, hdistinct, hlast⟩
        exact ⟨⟨h.1, hdistinct, hlast⟩, hmembers⟩
  | _ => simp [Ty.members]

/-- A type and its nullable type are in normal form together unless `null` is then told twice. -/
theorem normal_nullable_iff (h : ty.EveryUnion IsGathered) :
    ty.nullable.EveryUnion IsNormalUnion ↔
      ty.EveryUnion IsNormalUnion ∧
        ∀ member ∈ ty.members, member.print = "null" → member = .primitive .null := by
  rw [normal_iff_members (gathered_nullable h), normal_iff_members h, members_nullable]
  split
  · rename_i hmem
    refine (and_iff_left_of_imp ?_).symm
    rintro ⟨_, hdistinct, _⟩ member hmember hnull
    exact List.inj_on_of_nodup_map hdistinct hmember hmem hnull
  · rename_i hmem
    have hspelt : (∀ member ∈ ty.members, member.print = "null" → member = .primitive .null) ↔
        "null" ∉ ty.members.map Ty.print := by
      rw [List.mem_map, not_exists]
      refine forall_congr' fun member => ?_
      rw [not_and]
      refine forall_congr' fun hmember => ?_
      have hne : member ≠ .primitive .null := fun heq => hmem (heq ▸ hmember)
      simp [hne]
    have hadded : (∀ member ∈ ty.members ++ [.primitive .null], member.EveryUnion IsNormalUnion) ↔
        ∀ member ∈ ty.members, member.EveryUnion IsNormalUnion := by
      rw [List.forall_mem_append]
      exact and_iff_left (by simp [EveryUnion])
    rw [hspelt, hadded, List.map_append, List.map_singleton, List.dropLast_concat,
      List.nodup_append_comm, List.singleton_append, List.nodup_cons]
    constructor
    · rintro ⟨hmembers, ⟨hnull, hdistinct⟩, _⟩
      exact ⟨⟨hmembers, hdistinct, fun h => hnull (List.dropLast_subset _ h)⟩, hnull⟩
    · rintro ⟨⟨hmembers, hdistinct, _⟩, hnull⟩
      exact ⟨hmembers, ⟨hnull, hdistinct⟩, hnull⟩

end Ty

end TypeScript

/-! Rendered unions. -/

def unionMembers (members : List Ty) (nullable : Bool) : List Ty :=
  keptMembers members ++ if nullable || members.any isNullTy then [.primitive .null] else []

variable {members : List Ty} {nullable : Bool}

theorem unionMembers_ne_nil (hne : members ≠ []) : unionMembers members nullable ≠ [] := by
  by_cases hkept : keptMembers members = []
  · rw [unionMembers, if_pos (nullable_of_keptMembers_eq_nil hne hkept)]
    exact List.append_ne_nil_of_right_ne_nil _ (List.cons_ne_nil _ _)
  · exact List.append_ne_nil_of_left_ne_nil hkept _

theorem renderUnion_eq_ofMembers (hne : members ≠ [])
    (hatomic : ∀ member ∈ members, member.isAtomic = true) :
    renderUnion members nullable = Ty.ofMembers (unionMembers members nullable) := by
  have hnull : keptMembers members = [] → (nullable || members.any isNullTy) = true :=
    nullable_of_keptMembers_eq_nil hne
  have hkept : ∀ member ∈ keptMembers members,
      member.nullable = .union [member, .primitive .null] ∧ member ≠ .primitive .null := by
    intro member hmember
    obtain ⟨hmem, hnot⟩ := mem_keptMembers_iff.mp hmember
    have hne : member ≠ .primitive .null := fun heq => by simp [heq, isNullTy] at hnot
    exact ⟨Ty.nullable_of_isAtomic (hatomic member hmem) hne, hne⟩
  have heq : (members.filter fun member => !isNullTy member).eraseDups = keptMembers members := rfl
  rw [renderUnion, heq, unionMembers]
  generalize (nullable || members.any isNullTy) = nullable at hnull
  generalize keptMembers members = kept at hkept hnull
  rcases kept with _ | ⟨only, _ | ⟨second, rest⟩⟩
  · simp [hnull rfl, Ty.ofMembers]
  · cases nullable with
    | false => rfl
    | true => exact (hkept only List.mem_cons_self).1
  · cases nullable with
    | false => simp [Ty.ofMembers]
    | true => exact if_neg fun hmem => (hkept _ hmem).2 rfl

theorem isAtomic_unionMembers (hatomic : ∀ member ∈ members, member.isAtomic = true) :
    ∀ member ∈ unionMembers members nullable, member.isAtomic = true := by
  rw [unionMembers, List.forall_mem_append]
  refine ⟨fun member hmember => hatomic member (mem_keptMembers_iff.mp hmember).1, ?_⟩
  split <;> simp [Ty.isAtomic]

theorem members_renderUnion (hne : members ≠ [])
    (hatomic : ∀ member ∈ members, member.isAtomic = true) :
    (renderUnion members nullable).members = unionMembers members nullable := by
  rw [renderUnion_eq_ofMembers hne hatomic, Ty.members_ofMembers (isAtomic_unionMembers hatomic)]

/-- Only a member that is kept can be spelt `null` in a rendered union without being so. -/
theorem exists_spelt_null_renderUnion_iff (hne : members ≠ [])
    (hatomic : ∀ member ∈ members, member.isAtomic = true) :
    (∃ member ∈ (renderUnion members nullable).members,
        member.print = "null" ∧ member ≠ .primitive .null) ↔
      ∃ member ∈ members, isNullTy member = false ∧ member.print = "null" := by
  rw [members_renderUnion hne hatomic, unionMembers]
  constructor
  · rintro ⟨member, hmember, hspelt, hother⟩
    rcases List.mem_append.mp hmember with hkept | hnull
    · obtain ⟨hmem, hnot⟩ := mem_keptMembers_iff.mp hkept
      exact ⟨member, hmem, hnot, hspelt⟩
    · split at hnull
      · exact absurd (List.mem_singleton.mp hnull) hother
      · cases hnull
  · rintro ⟨member, hmem, hnot, hspelt⟩
    refine ⟨member, List.mem_append_left _ (mem_keptMembers_iff.mpr ⟨hmem, hnot⟩), hspelt, ?_⟩
    rintro rfl
    cases hnot

theorem gathered_renderUnion (hne : members ≠ [])
    (hatomic : ∀ member ∈ members, member.isAtomic = true) :
    (renderUnion members nullable).EveryUnion TypeScript.IsGathered := by
  rw [renderUnion_eq_ofMembers hne hatomic]
  exact Ty.gathered_ofMembers (unionMembers_ne_nil hne) (isAtomic_unionMembers hatomic)

/-- A rendered union whose members have different texts is in normal form if `null` is told once. -/
theorem normal_renderUnion_iff (hne : members ≠ [])
    (hatomic : ∀ member ∈ members, member.isAtomic = true)
    (hinj : ∀ a ∈ members, ∀ b ∈ members, a.print = b.print → a = b) :
    (renderUnion members nullable).EveryUnion TypeScript.IsNormalUnion ↔
      "null" ∉ if nullable || members.any isNullTy then (keptMembers members).map Ty.print
        else ((keptMembers members).map Ty.print).dropLast := by
  have hunion : ∀ member ∈ unionMembers members nullable, member.isAtomic = true :=
    isAtomic_unionMembers hatomic
  have hdistinct : ((keptMembers members).map Ty.print).Nodup := by
    refine (List.nodup_map_iff_inj_on (nodup_eraseDups _)).mpr fun a ha b hb => ?_
    exact hinj a (mem_keptMembers_iff.mp ha).1 b (mem_keptMembers_iff.mp hb).1
  rw [Ty.normal_iff_members (gathered_renderUnion hne hatomic), members_renderUnion hne hatomic,
    and_iff_right fun member hmember => Ty.everyUnion_of_isAtomic (hunion member hmember),
    unionMembers]
  split
  · rw [List.map_append, List.map_singleton, List.dropLast_concat, List.nodup_append_comm,
      List.singleton_append, List.nodup_cons, and_assoc]
    exact ⟨fun h => h.1, fun h => ⟨h, hdistinct, h⟩⟩
  · rw [List.append_nil, and_iff_right hdistinct]

namespace Descriptor

/-- Whether the type of a descriptor is spelt `null` other than as the absence, by itself or as a
member of a union. -/
def SpellsNull : Descriptor → Prop
  | literal value => value = .null
  | optional inner | annotated inner _ => inner.SpellsNull
  | model path => path.shortName = "null"
  | unionOfModels variants _ => "null" ∈ variants.map ModelPath.shortName
  | primitive _ | list _ | mapping _ _ | unionOfScalars _ _ => False

/-- Whether the outermost layer of a descriptor puts `null` after a member that is spelt so, or
another member. -/
def RepeatsNull : Descriptor → Prop
  | optional inner => inner.SpellsNull
  | unionOfModels variants nullable =>
      let names := (variants.map ModelPath.shortName).eraseDups
      "null" ∈ if nullable then names else names.dropLast
  | _ => False

/-! Rendered types. -/

/-- What a union of scalars lists: predefined types other than `null`, and literals. -/
def ScalarTy : Ty → Prop
  | .primitive kind => kind = .string ∨ kind = .number ∨ kind = .boolean
  | .literal _ => True
  | _ => False

theorem scalarTy_render {desc : Descriptor}
    (h : (desc.isSafePrimitive || desc.isLiteral) = true) : ScalarTy desc.render := by
  rw [← render_peel]
  rcases peel_of_scalar h with ⟨kind, hpeel, hsafe⟩ | ⟨value, hpeel⟩
  · rw [hpeel, render]
    cases kind <;> simp_all [PrimitiveKind.isSafe, PrimitiveKind.render, ScalarTy]
  · rw [hpeel]
    exact trivial

theorem ScalarTy.spells {ty : Ty} (h : ScalarTy ty) :
    TypeScript.Spells ty.print ty.lexemes := by
  match ty, h with
  | .primitive kind, _ =>
      have hplain : (Ty.primitive kind).Plain fun _ => False := .primitive kind
      exact hplain.spells
  | .literal value, _ => exact TypeScript.spells_literal value

theorem ScalarTy.word_ne_lexeme {kind : TypeScript.PrimitiveTy} (h : ScalarTy (.primitive kind))
    (value : TypeScript.Literal) : .word kind.print ≠ value.lexeme := by
  fun_cases TypeScript.Literal.lexeme value with
  | case1 | case2 => exact nofun
  | case3 | case4 | case5 => rcases h with rfl | rfl | rfl <;> decide

/-- Types of scalars with one text are one type. -/
theorem ScalarTy.eq_of_print_eq {a b : Ty} (ha : ScalarTy a) (hb : ScalarTy b)
    (h : a.print = b.print) : a = b := by
  have hlexemes : a.lexemes = b.lexemes := ha.spells.lexemes_eq (h ▸ hb.spells)
  match a, b, ha, hb with
  | .primitive kind, .primitive other, _, _ =>
      have hprint : kind.print = other.print := by simpa [Ty.lexemes] using hlexemes
      have hword := congrArg TypeScript.PrimitiveTy.ofWord? hprint
      rw [TypeScript.PrimitiveTy.ofWord?_print, TypeScript.PrimitiveTy.ofWord?_print] at hword
      rw [Option.some.inj hword]
  | .literal value, .literal other, _, _ =>
      rw [TypeScript.Literal.lexeme_injective (List.singleton_inj.mp hlexemes)]
  | .primitive kind, .literal value, hkind, _ =>
      exact absurd (List.singleton_inj.mp hlexemes) (hkind.word_ne_lexeme value)
  | .literal value, .primitive kind, _, hkind =>
      exact absurd (List.singleton_inj.mp hlexemes).symm (hkind.word_ne_lexeme value)

/-- Of the types of scalars only the literal `null` is spelt so. -/
theorem ScalarTy.eq_literal_null {ty : Ty} (h : ScalarTy ty) (hnull : ty.print = "null") :
    ty = .literal .null :=
  h.eq_of_print_eq trivial hnull

theorem ScalarTy.print_ne_null {ty : Ty} (h : ScalarTy ty) (hnot : isNullTy ty = false) :
    ty.print ≠ "null" := by
  intro hnull
  rw [h.eq_literal_null hnull] at hnot
  cases hnot

theorem ScalarTy.isAtomic {ty : Ty} (h : ScalarTy ty) : ty.isAtomic = true := by
  match ty, h with
  | .primitive _, _ => rfl
  | .literal _, _ => rfl

/-- The rendered names of the variants of a union of models. -/
def variantTys (variants : List ModelPath) : List Ty :=
  variants.map fun path => .named path.shortName

theorem keptMembers_variantTys (variants : List ModelPath) :
    (keptMembers (variantTys variants)).map Ty.print =
      (variants.map ModelPath.shortName).eraseDups := by
  have hfilter : (variantTys variants).filter (fun member => !isNullTy member) =
      variantTys variants := List.filter_eq_self.mpr (by simp [variantTys, isNullTy])
  have hnames : variantTys variants = (variants.map ModelPath.shortName).map Ty.named := by
    simp [variantTys]
  have hsame : (fun a b => Ty.named a == Ty.named b) = fun a b => a == b := by
    funext a b
    rw [Bool.eq_iff_iff, beq_iff_eq, beq_iff_eq, Ty.named.injEq]
  rw [keptMembers, hfilter, hnames, List.eraseDups, eraseDupsBy_map, hsame, List.map_map]
  exact List.map_id _

theorem any_isNullTy_variantTys (variants : List ModelPath) :
    (variantTys variants).any isNullTy = false := by
  simp [variantTys, isNullTy]

theorem isAtomic_variantTys (variants : List ModelPath) :
    ∀ ty ∈ variantTys variants, ty.isAtomic = true := by
  simp [variantTys, Ty.isAtomic]

theorem scalarTy_of_mem_renderAll {variants : List Descriptor} {nullable : Bool}
    (hwell : (unionOfScalars variants nullable).WellFormed) :
    ∀ ty ∈ renderAll variants, ScalarTy ty := by
  rw [renderAll_eq_map, List.forall_mem_map]
  exact fun variant hvariant => scalarTy_render (hwell.2 variant hvariant)

theorem variantTys_ne_nil {variants : List ModelPath} {nullable : Bool}
    (hwell : (unionOfModels variants nullable).WellFormed) : variantTys variants ≠ [] := by
  rintro hnil
  simp [WellFormed, List.map_eq_nil_iff.mp hnil] at hwell

theorem renderAll_ne_nil {variants : List Descriptor} {nullable : Bool}
    (hwell : (unionOfScalars variants nullable).WellFormed) : renderAll variants ≠ [] := by
  rintro hnil
  rw [renderAll_eq_map] at hnil
  simp [WellFormed, List.map_eq_nil_iff.mp hnil] at hwell

/-- Every union in a rendered type is gathered. -/
theorem gathered_render {desc : Descriptor} (hwell : desc.WellFormed) :
    desc.render.EveryUnion TypeScript.IsGathered := by
  match desc, hwell with
  | primitive kind, _ => cases kind <;> trivial
  | literal value, _ => trivial
  | optional inner, hwell => exact Ty.gathered_nullable (gathered_render hwell.2)
  | list element, hwell =>
      have helement : element.WellFormed := hwell
      have ih := gathered_render helement
      exact ih
  | mapping key value, hwell => exact ⟨gathered_render hwell.2.1, gathered_render hwell.2.2⟩
  | annotated inner _, hwell =>
      have hinner : inner.WellFormed := hwell
      have ih := gathered_render hinner
      exact ih
  | model path, _ => trivial
  | unionOfModels variants nullable, hwell =>
      exact gathered_renderUnion (variantTys_ne_nil hwell) (isAtomic_variantTys variants)
  | unionOfScalars variants nullable, hwell =>
      exact gathered_renderUnion (renderAll_ne_nil hwell) fun ty hty =>
        (scalarTy_of_mem_renderAll hwell ty hty).isAtomic

/-- The members of a rendered type that are spelt `null`, apart from the absence. -/
theorem spellsNull_iff {desc : Descriptor} (hwell : desc.WellFormed) :
    desc.SpellsNull ↔
      ∃ member ∈ desc.render.members, member.print = "null" ∧ member ≠ .primitive .null := by
  match desc, hwell with
  | primitive kind, _ =>
      cases kind <;> simp [SpellsNull, render, PrimitiveKind.render, Ty.members, Ty.print,
        TypeScript.PrimitiveTy.print]
  | literal value, _ =>
      have hspelt : (Ty.literal value.render).print = "null" ↔ value = .null := by
        constructor
        · intro hprint
          have hscalar : ScalarTy (.literal value.render) := trivial
          have heq := hscalar.eq_literal_null hprint
          cases value <;> first | rfl | cases heq
        · rintro rfl
          rfl
      simp [SpellsNull, render, Ty.members, hspelt]
  | optional inner, hwell =>
      rw [SpellsNull, spellsNull_iff hwell.2, render, Ty.members_nullable]
      split
      · rfl
      · simp
  | list element, _ => simp [SpellsNull, render, Ty.members, Ty.print, String.ext_iff]
  | mapping key value, _ => simp [SpellsNull, render, Ty.members, Ty.print, String.ext_iff]
  | annotated inner _, hwell =>
      have hinner : inner.WellFormed := hwell
      have ih := spellsNull_iff hinner
      exact ih
  | model path, _ => simp [SpellsNull, render, Ty.members, Ty.print]
  | unionOfModels variants nullable, hwell =>
      rw [render, ← variantTys, exists_spelt_null_renderUnion_iff (variantTys_ne_nil hwell)
        (isAtomic_variantTys variants)]
      simp [SpellsNull, variantTys, isNullTy, Ty.print]
  | unionOfScalars variants nullable, hwell =>
      have hscalar := scalarTy_of_mem_renderAll hwell
      rw [render, exists_spelt_null_renderUnion_iff (renderAll_ne_nil hwell) fun ty hty =>
        (hscalar ty hty).isAtomic]
      refine iff_of_false id ?_
      rintro ⟨ty, hty, hnot, hspelt⟩
      exact (hscalar ty hty).print_ne_null hnot hspelt

/-- Of scalars only the absence is spelt `null`. -/
theorem null_not_mem_keptMembers {members : List Ty} (h : ∀ ty ∈ members, ScalarTy ty) :
    "null" ∉ (keptMembers members).map Ty.print := by
  intro hnull
  obtain ⟨ty, hty, hprint⟩ := List.mem_map.mp hnull
  obtain ⟨hmem, hnot⟩ := mem_keptMembers_iff.mp hty
  exact (h ty hmem).print_ne_null hnot hprint

theorem Part.not_repeatsNull {part desc : Descriptor} (h : part.Part desc)
    (hscalar : (desc.isSafePrimitive || desc.isLiteral) = true) : ¬ part.RepeatsNull := by
  have hpeel := h.peel_eq hscalar
  intro hrepeats
  cases part with
  | optional | unionOfModels =>
      rcases peel_of_scalar hscalar with ⟨kind, heq, _⟩ | ⟨value, heq⟩ <;>
        exact absurd (hpeel.trans heq) nofun
  | _ => exact hrepeats

/-- A rendered type is in normal form unless a part of its descriptor repeats `null`. -/
theorem normal_render_iff {desc : Descriptor} (hwell : desc.WellFormed) :
    desc.render.EveryUnion TypeScript.IsNormalUnion ↔
      ∀ part : Descriptor, part.Part desc → ¬ part.RepeatsNull := by
  match desc, hwell with
  | primitive kind, _ =>
      cases kind <;> simp [render, PrimitiveKind.render, Ty.EveryUnion, RepeatsNull]
  | literal value, _ => simp [render, Ty.EveryUnion, RepeatsNull]
  | optional inner, hwell =>
      have hrepeats : (optional inner).RepeatsNull ↔ inner.SpellsNull := Iff.rfl
      rw [render, Ty.normal_nullable_iff (gathered_render hwell.2), normal_render_iff hwell.2]
      simp only [part_optional_iff, forall_eq_or_imp, hrepeats, spellsNull_iff hwell.2,
        not_exists, not_and, not_not]
      exact and_comm
  | list element, hwell =>
      have helement : element.WellFormed := hwell
      simp [render, Ty.EveryUnion, RepeatsNull, normal_render_iff helement]
  | mapping key value, hwell =>
      simp [render, Ty.EveryUnion, RepeatsNull, normal_render_iff hwell.2.1,
        normal_render_iff hwell.2.2, or_imp, forall_and]
  | annotated inner _, hwell =>
      have hinner : inner.WellFormed := hwell
      simp [render, RepeatsNull, normal_render_iff hinner]
  | model path, _ => simp [render, Ty.EveryUnion, RepeatsNull]
  | unionOfModels variants nullable, hwell =>
      have hinj : ∀ a ∈ variantTys variants, ∀ b ∈ variantTys variants,
          a.print = b.print → a = b := by
        simp [variantTys, Ty.print]
      rw [render, ← variantTys, normal_renderUnion_iff (variantTys_ne_nil hwell)
        (isAtomic_variantTys variants) hinj, any_isNullTy_variantTys, keptMembers_variantTys]
      simp [RepeatsNull]
  | unionOfScalars variants nullable, hwell =>
      have hscalar := scalarTy_of_mem_renderAll hwell
      have hinj : ∀ a ∈ renderAll variants, ∀ b ∈ renderAll variants, a.print = b.print → a = b :=
        fun a ha b hb => (hscalar a ha).eq_of_print_eq (hscalar b hb)
      have hspelt := null_not_mem_keptMembers hscalar
      rw [render, normal_renderUnion_iff (renderAll_ne_nil hwell)
        (fun ty hty => (hscalar ty hty).isAtomic) hinj]
      refine iff_of_true ?_ fun part hpart => ?_
      · split
        · exact hspelt
        · exact fun hnull => hspelt (List.dropLast_subset _ hnull)
      · rcases part_unionOfScalars_iff.mp hpart with rfl | ⟨variant, hvariant, hin⟩
        · exact id
        · exact hin.not_repeatsNull (hwell.2 variant hvariant)

end Descriptor

/-- In the type of an expression every union has several members, none of them a union. Each union
lists each text once and `null` last, too, if and only if nothing in the expression adds `null` to a
type that is spelt so already: an optional null literal does, or an optional or nullable union with
a model of this name. -/
theorem TypeExpr.normal_render_classify_iff {expr : TypeExpr} {desc : Descriptor}
    (h : expr.classify = .ok desc) :
    desc.render.EveryUnion TypeScript.IsGathered ∧
      (desc.render.EveryUnion TypeScript.IsNormalUnion ↔
        ∀ part : Descriptor, part.Part desc → ¬ part.RepeatsNull) :=
  have hwell := TypeExpr.wellFormed_of_classify h
  ⟨Descriptor.gathered_render hwell, Descriptor.normal_render_iff hwell⟩

/-- The optional null literal is told twice, also inside another type. -/
theorem TypeExpr.normal_render_classify_iff_optional_null :
    ∃ desc, (TypeExpr.list (.union [.literal .null, absence])).classify = .ok desc ∧
      desc.render.print = "Array<null | null>" ∧
      desc.render.EveryUnion TypeScript.IsGathered ∧
      ¬ desc.render.EveryUnion TypeScript.IsNormalUnion := by
  have hclass : (TypeExpr.list (.union [.literal .null, absence])).classify =
      .ok (.list (.optional (.literal .null))) := rfl
  obtain ⟨hgathered, hnormal⟩ := normal_render_classify_iff hclass
  exact ⟨_, hclass, by decide +kernel, hgathered, fun h => hnormal.mp h _ (.list (.self _)) rfl⟩

end SchemaWire
