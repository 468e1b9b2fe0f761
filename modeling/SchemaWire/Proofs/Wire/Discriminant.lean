import Mathlib.Data.List.Forall2
import Mathlib.Data.List.Nodup
import SchemaWire.Proofs.Result
import SchemaWire.Wire.Discriminant

/-!
When a union of models has a discriminant: exactly if the first fields of the declared variants have
one name and are literals, no two of them the same.
-/
namespace SchemaWire

/-- The first field has the name, and under its attachments it is the literal. -/
def ObjectType.Marked (object : ObjectType) (field : String) (value : LiteralValue) : Prop :=
  ∃ first rest, object.fields = first :: rest ∧ first.name = field ∧
    first.descriptor.peel = .literal value

theorem Descriptor.literal?_eq_some_iff {desc : Descriptor} {value : LiteralValue} :
    desc.literal? = some value ↔ desc.peel = .literal value := by
  unfold literal?
  split <;> simp_all

namespace TypeIndex

/-- The model is declared, and its first field marks it with the literal. -/
def Marks (index : TypeIndex) (field : String) (path : ModelPath) (value : LiteralValue) : Prop :=
  ∃ object, index.object? path = some object ∧ object.Marked field value

theorem requireObject_eq_ok_iff {index : TypeIndex} {path : ModelPath} {object : ObjectType} :
    index.requireObject path = .ok object ↔ index.object? path = some object := by
  unfold requireObject
  cases index.object? path <;> simp

theorem checkFirstField_eq_ok_iff {variant field : String} {expected : Option String} :
    checkFirstField variant field expected = .ok () ↔ ∀ name ∈ expected, name = field := by
  cases expected with
  | none => simp [checkFirstField]
  | some name =>
      simp only [checkFirstField, Option.mem_some_iff, forall_eq']
      split <;> simp_all

theorem find?_arm_eq_none_iff {earlier : UnionArms} {value : LiteralValue} :
    (earlier.find? fun arm => arm.2 == value) = none ↔ value ∉ earlier.map Prod.snd := by
  rw [List.find?_eq_none]
  constructor
  · intro hnone hmem
    obtain ⟨arm, harm, rfl⟩ := List.mem_map.mp hmem
    simpa using hnone arm harm
  · intro hnot arm harm heq
    exact hnot (List.mem_map.mpr ⟨arm, harm, by simpa using heq⟩)

theorem discriminantArm_eq_ok_iff {object : ObjectType} {expected : Option String}
    {earlier : UnionArms} {field : String} {value : LiteralValue} :
    discriminantArm object expected earlier = .ok (field, value) ↔
      object.Marked field value ∧ (∀ name ∈ expected, name = field) ∧
        value ∉ earlier.map Prod.snd := by
  unfold discriminantArm ObjectType.Marked
  cases object.fields with
  | nil => simp
  | cons first rest =>
      simp only [bind_eq_ok_iff, List.cons.injEq]
      constructor
      · rintro ⟨_, hexpected, h⟩
        cases hliteral : first.descriptor.literal? with
        | none => simp [hliteral] at h
        | some found =>
            cases hfind : earlier.find? fun arm => arm.2 == found with
            | some arm => simp [hliteral, hfind] at h
            | none =>
                simp only [hliteral, hfind, Except.ok.injEq, Prod.mk.injEq] at h
                obtain ⟨rfl, rfl⟩ := h
                exact ⟨⟨first, rest, ⟨rfl, rfl⟩, rfl, Descriptor.literal?_eq_some_iff.mp hliteral⟩,
                  checkFirstField_eq_ok_iff.mp hexpected, find?_arm_eq_none_iff.mp hfind⟩
      · rintro ⟨⟨_, _, ⟨rfl, rfl⟩, rfl, hliteral⟩, hexpected, hnew⟩
        refine ⟨(), checkFirstField_eq_ok_iff.mpr hexpected, ?_⟩
        simp only [Descriptor.literal?_eq_some_iff.mpr hliteral, find?_arm_eq_none_iff.mpr hnew]

/-- Why an object is no further arm after the earlier ones. -/
inductive ArmFault (object : ObjectType) (expected : Option String) (earlier : UnionArms) :
    DiscriminantFault → Prop where
  | noFields (hfields : object.fields = []) : ArmFault object expected earlier
      (.noFields object.name)
  | firstFieldDiffers {first : ObjectField} {rest : List ObjectField} {name : String}
      (hfields : object.fields = first :: rest) (hexpected : expected = some name)
      (hne : name ≠ first.name) : ArmFault object expected earlier
        (.firstFieldDiffers name object.name first.name)
  | notLiteral {first : ObjectField} {rest : List ObjectField}
      (hfields : object.fields = first :: rest) (hnone : first.descriptor.literal? = none) :
      ArmFault object expected earlier (.notLiteral object.name first.name)
  | sharedLiteral {first : ObjectField} {rest : List ObjectField} {arm : ModelPath × LiteralValue}
      (hfields : object.fields = first :: rest) (harm : arm ∈ earlier)
      (hliteral : first.descriptor.literal? = some arm.2) : ArmFault object expected earlier
        (.sharedLiteral arm.1.shortName object.name arm.2.display)

theorem armFault_of_discriminantArm {object : ObjectType} {expected : Option String}
    {earlier : UnionArms} {fault : DiscriminantFault}
    (h : discriminantArm object expected earlier = .error fault) :
    ArmFault object expected earlier fault := by
  unfold discriminantArm at h
  cases hfields : object.fields with
  | nil =>
      rw [hfields] at h
      cases h
      exact .noFields hfields
  | cons first rest =>
      rw [hfields] at h
      rcases bind_eq_error_iff.mp h with hcheck | ⟨_, _, h⟩
      · cases expected with
        | none => cases hcheck
        | some name =>
            rw [checkFirstField] at hcheck
            split at hcheck
            · cases hcheck
            · rename_i hne
              cases hcheck
              exact .firstFieldDiffers hfields rfl hne
      · split at h
        · rename_i hnone
          cases h
          exact .notLiteral hfields hnone
        · rename_i value hvalue
          split at h
          · rename_i arm hfound
            cases h
            obtain rfl : arm.2 = value := by simpa using List.find?_some hfound
            exact .sharedLiteral hfields (List.mem_of_find?_eq_some hfound) hvalue
          · cases h

/-- The discriminant of the remaining variants: their marks are in order, no two the same and none
the mark of an earlier variant. -/
theorem discriminantFrom_eq_ok_iff {index : TypeIndex} {union name : String}
    {field : Option String} {earlier arms : UnionArms} {variants : List ModelPath} :
    index.discriminantFrom union field earlier variants = .ok (name, arms) ↔
      (field = none → variants ≠ []) ∧ (∀ expected ∈ field, expected = name) ∧
        ∃ values, List.Forall₂ (index.Marks name) variants values ∧ values.Nodup ∧
          (∀ value ∈ values, value ∉ earlier.map Prod.snd) ∧
          arms = earlier ++ variants.zip values := by
  induction variants generalizing field earlier with
  | nil =>
      cases field with
      | none => simp [discriminantFrom]
      | some expected => simp [discriminantFrom, eq_comm]
  | cons path rest ih =>
      rw [discriminantFrom, bind_eq_ok_iff]
      constructor
      · rintro ⟨object, hobject, h⟩
        cases harm : discriminantArm object field earlier with
        | error fault => simp [harm] at h
        | ok arm =>
            obtain ⟨found, value⟩ := arm
            rw [harm] at h
            obtain ⟨_, hname, values, hmarks, hnodup, hnew, rfl⟩ := ih.mp h
            obtain rfl : found = name := hname found rfl
            obtain ⟨hmarked, hexpected, hfresh⟩ := discriminantArm_eq_ok_iff.mp harm
            have hobject := requireObject_eq_ok_iff.mp hobject
            refine ⟨by simp, hexpected, value :: values, .cons ⟨object, hobject, hmarked⟩ hmarks,
              ?_, ?_, by simp⟩
            · refine List.nodup_cons.mpr ⟨fun hmem => ?_, hnodup⟩
              exact hnew value hmem (by simp)
            · intro other hother
              rcases List.mem_cons.mp hother with rfl | hin
              · exact hfresh
              · intro hmem
                exact hnew other hin (by simp [hmem])
      · rintro ⟨_, hexpected, values, hmarks, hnodup, hnew, rfl⟩
        obtain _ | @⟨_, value, _, values, ⟨object, hobject, hmarked⟩, hmarks⟩ := hmarks
        refine ⟨object, requireObject_eq_ok_iff.mpr hobject, ?_⟩
        have harm : discriminantArm object field earlier = .ok (name, value) :=
          discriminantArm_eq_ok_iff.mpr ⟨hmarked, hexpected, hnew value List.mem_cons_self⟩
        rw [List.nodup_cons] at hnodup
        simp only [harm]
        refine ih.mpr ⟨by simp, by simp, values, hmarks, hnodup.2, ?_, by simp⟩
        intro other hother hmem
        rw [List.map_append, List.mem_append] at hmem
        rcases hmem with hin | hin
        · exact hnew other (List.mem_cons_of_mem _ hother) hin
        · have heq : other = value := by simpa using hin
          exact hnodup.1 (heq ▸ hother)

/-- The variants have a discriminant exactly if one field marks them with different literals. -/
theorem discriminant_eq_ok_iff {index : TypeIndex} {variants : List ModelPath} {name : String}
    {arms : UnionArms} :
    index.discriminant variants = .ok (name, arms) ↔
      variants ≠ [] ∧ ∃ values, List.Forall₂ (index.Marks name) variants values ∧
        values.Nodup ∧ arms = variants.zip values := by
  rw [discriminant, discriminantFrom_eq_ok_iff]
  simp

/-- Every variant has an arm of its own, with its mark. -/
theorem discriminant_arms {index : TypeIndex} {variants : List ModelPath} {field : String}
    {arms : UnionArms}
    (h : index.discriminant variants = .ok (field, arms)) :
    (arms.map Prod.snd).Nodup ∧ (∀ arm ∈ arms, index.Marks field arm.1 arm.2) ∧
      arms.map Prod.fst = variants := by
  obtain ⟨_, values, hmarks, hnodup, rfl⟩ := discriminant_eq_ok_iff.mp h
  obtain ⟨hlength, hzip⟩ := List.forall₂_iff_zip.mp hmarks
  refine ⟨?_, fun arm harm => hzip harm, ?_⟩
  · rwa [List.map_snd_zip (Nat.le_of_eq hlength.symm)]
  · exact List.map_fst_zip (Nat.le_of_eq hlength)

/-- A model has one mark under a name. -/
theorem Marks.eq {index : TypeIndex} {field : String} {path : ModelPath}
    {value other : LiteralValue} (h : index.Marks field path value)
    (hother : index.Marks field path other) : value = other := by
  obtain ⟨object, hobject, first, rest, hfields, _, hvalue⟩ := h
  obtain ⟨object', hobject', first', rest', hfields', _, hother⟩ := hother
  cases hobject.symm.trans hobject'
  cases hfields.symm.trans hfields'
  exact Descriptor.literal.inj (hvalue.symm.trans hother)

/-- Only different variants can be told apart. -/
theorem nodup_of_discriminant {index : TypeIndex} {variants : List ModelPath} {field : String}
    {arms : UnionArms} (h : index.discriminant variants = .ok (field, arms)) : variants.Nodup := by
  obtain ⟨hdistinct, hmarks, hpaths⟩ := discriminant_arms h
  rw [← hpaths, List.nodup_iff_pairwise_ne, List.pairwise_map]
  rw [List.nodup_iff_pairwise_ne, List.pairwise_map] at hdistinct
  refine hdistinct.imp_of_mem fun {arm other} harm hother hne heq => hne ?_
  have hmark := hmarks arm harm
  rw [heq] at hmark
  exact hmark.eq (hmarks other hother)

end TypeIndex

end SchemaWire
