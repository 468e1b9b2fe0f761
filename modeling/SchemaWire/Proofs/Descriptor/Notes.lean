import SchemaWire.Proofs.Descriptor.Bare
import SchemaWire.Proofs.Descriptor.Members

/-!
Notes on types. Generation is meant to ignore them, and it does except in unions: whether a member
is a union itself, whether it is the absence and whether it repeats another one is decided by
comparing expressions, notes included. The main statement is that notes make no difference where
these comparisons come out alike with and without the notes, and that each of the three can come
out differently with an effect on what is generated.
-/
namespace SchemaWire

namespace TypeExpr

/-- The expression with notes around it. -/
def noted (texts : List String) (expr : TypeExpr) : TypeExpr :=
  .annotated expr (texts.map .note)

theorem noted_ne_absence (texts : List String) (expr : TypeExpr) : expr.noted texts ≠ absence := by
  simp [noted, absence]

/-- The second expression is the first with notes around some of its parts. In each union the
members without these notes and the members with them are alike. -/
inductive Noted (alike : List TypeExpr → List TypeExpr → Prop) : TypeExpr → TypeExpr → Prop where
  | refl (expr : TypeExpr) : Noted alike expr expr
  | list {element element' : TypeExpr} (h : Noted alike element element') :
      Noted alike (.list element) (.list element')
  | dict {key key' value value' : TypeExpr} (hkey : Noted alike key key')
      (hvalue : Noted alike value value') : Noted alike (.dict key value) (.dict key' value')
  | union {members members' : List TypeExpr} (hlength : members.length = members'.length)
      (h : ∀ pair ∈ members.zip members', Noted alike pair.1 pair.2)
      (halike : alike members members') : Noted alike (.union members) (.union members')
  | annotated {inner inner' : TypeExpr} (h : Noted alike inner inner')
      (attachments : List Attachment) :
      Noted alike (.annotated inner attachments) (.annotated inner' attachments)
  | noted {expr expr' : TypeExpr} (h : Noted alike expr expr') (texts : List String) :
      Noted alike expr (expr'.noted texts)

/-- The comparisons by which a union is classified come out alike for two lists of members. -/
structure SeenAlike (members members' : List TypeExpr) : Prop where
  nested : members.map isUnion = members'.map isUnion
  absences : ∀ pair ∈ (flatten members).zip (flatten members'),
    pair.1 = absence ↔ pair.2 = absence
  repetitions : ∀ pair ∈ (flatten members).zip (flatten members'),
    ∀ other ∈ (flatten members).zip (flatten members'), pair.1 = other.1 ↔ pair.2 = other.2

/-- Generation makes no difference between two expressions. -/
structure SameGeneration (expr expr' : TypeExpr) : Prop where
  classifies : (∃ desc, expr.classify = .ok desc) ↔ ∃ desc, expr'.classify = .ok desc
  render : ∀ {desc desc'}, expr.classify = .ok desc → expr'.classify = .ok desc' →
    desc.render = desc'.render
  models : ∀ {desc desc'}, expr.classify = .ok desc → expr'.classify = .ok desc' →
    desc.models = desc'.models
  convert : ∀ {desc desc'}, expr.classify = .ok desc → expr'.classify = .ok desc' →
    ∀ (index : TypeIndex) dir src depth,
      index.convert dir desc src depth = index.convert dir desc' src depth

/-! The bare descriptor of an expression. -/

def bareResult (result : Gen Descriptor) : Option Descriptor :=
  result.toOption.map Descriptor.bare

/-- The bare descriptor of an expression that classifies. -/
def shape (expr : TypeExpr) : Option Descriptor :=
  bareResult expr.classify

theorem isSome_shape_iff {expr : TypeExpr} :
    expr.shape.isSome = true ↔ ∃ desc, expr.classify = .ok desc := by
  rw [shape, bareResult, Option.isSome_map, Option.isSome_iff_exists]
  simp only [toOption_eq_some_iff]

/-- Expressions of one shape generate the same. -/
theorem sameGeneration_of_shape_eq {expr expr' : TypeExpr} (h : expr.shape = expr'.shape) :
    SameGeneration expr expr' := by
  have hbare : ∀ {desc desc'}, expr.classify = .ok desc → expr'.classify = .ok desc' →
      desc.bare = desc'.bare := by
    intro desc desc' hdesc hdesc'
    rw [shape, shape, hdesc, hdesc'] at h
    exact Option.some.inj h
  refine ⟨?_, ?_, ?_, ?_⟩
  · rw [← isSome_shape_iff, ← isSome_shape_iff, h]
  · intro desc desc' hdesc hdesc'
    rw [← desc.render_bare, ← desc'.render_bare, hbare hdesc hdesc']
  · intro desc desc' hdesc hdesc'
    rw [Descriptor.models, Descriptor.models, ← desc.modelMentions_bare,
      ← desc'.modelMentions_bare, hbare hdesc hdesc']
  · intro desc desc' hdesc hdesc' index dir src depth
    rw [← index.convert_bare dir desc, ← index.convert_bare dir desc', hbare hdesc hdesc']

theorem shape_list (element : TypeExpr) :
    (TypeExpr.list element).shape = element.shape.map .list := by
  rw [shape, shape, classify]
  cases element.classify <;> rfl

theorem shape_annotated (inner : TypeExpr) (attachments : List Attachment) :
    (TypeExpr.annotated inner attachments).shape = inner.shape := by
  rw [shape, shape, classify]
  cases inner.classify <;> rfl

theorem shape_dict (key value : TypeExpr) :
    (TypeExpr.dict key value).shape =
      (key.shape.filter Descriptor.isMappingKey).bind fun bareKey =>
        value.shape.map (.mapping bareKey) := by
  rw [shape, shape, shape, classify]
  cases key.classify with
  | error fault => rfl
  | ok keyDesc =>
      have hkeyDesc : (bareResult (.ok keyDesc)).filter Descriptor.isMappingKey =
          if keyDesc.isMappingKey then some keyDesc.bare else none := by
        rw [← keyDesc.isMappingKey_bare]
        rfl
      rw [hkeyDesc]
      cases hkey : keyDesc.isMappingKey with
      | false => simp only [bind, Except.bind, hkey]; rfl
      | true => cases value.classify <;> simp only [bind, Except.bind, hkey] <;> rfl

/-- The shape of a union of several members depends on their bare descriptors only. -/
theorem bareResult_unionOfSeveral (whole : TypeExpr) (nullable : Bool) (descs : List Descriptor) :
    bareResult (unionOfSeveral whole nullable descs) =
      (unionOfSeveral absence nullable (descs.map Descriptor.bare)).toOption := by
  have hscalars : (descs.all fun desc => desc.isSafePrimitive || desc.isLiteral) = true →
      descs.map Descriptor.peel = descs.map Descriptor.bare := fun h =>
    List.map_congr_left fun desc hdesc =>
      Descriptor.peel_eq_bare_of_scalar (List.all_eq_true.mp h desc hdesc)
  simp only [unionOfSeveral, List.all_map, List.any_map, Function.comp_def,
    Descriptor.isModel_bare, Descriptor.isSafePrimitive_bare, Descriptor.isLiteral_bare,
    modelVariants_bare]
  split
  · rfl
  · split
    · rename_i h
      rw [← hscalars h]
      rfl
    · split <;> rfl

/-- Two results with one bare descriptor are both successful or both not. -/
theorem bareResult_eq_cases {result result' : Gen Descriptor}
    (h : bareResult result = bareResult result') :
    (∃ desc desc', result = .ok desc ∧ result' = .ok desc' ∧ desc.bare = desc'.bare) ∨
      ∃ fault fault', result = .error fault ∧ result' = .error fault' := by
  match result, result' with
  | .ok desc, .ok desc' => exact Or.inl ⟨desc, desc', rfl, rfl, Option.some.inj h⟩
  | .error fault, .error fault' => exact Or.inr ⟨fault, fault', rfl, rfl⟩
  | .ok _, .error _ => cases h
  | .error _, .ok _ => cases h

theorem sequence_bare_congr {results results' : List (Gen Descriptor)}
    (h : results.map bareResult = results'.map bareResult) :
    (sequence results).toOption.map (List.map Descriptor.bare) =
      (sequence results').toOption.map (List.map Descriptor.bare) := by
  induction results generalizing results' with
  | nil => rw [List.map_eq_nil_iff.mp h.symm]
  | cons result rest ih =>
      obtain ⟨result', rest', rfl, hresult, hrest⟩ := List.map_eq_cons_iff.mp h.symm
      have htail := ih hrest.symm
      obtain ⟨desc, desc', rfl, rfl, hbare⟩ | ⟨fault, fault', rfl, rfl⟩ :=
        bareResult_eq_cases hresult.symm
      · rw [sequence, sequence]
        revert htail
        cases sequence rest <;> cases sequence rest' <;>
          simp [Except.toOption, bind, Except.bind, pure, Except.pure, hbare]
      · rfl

/-- Several members with the same bare descriptors make unions with the same bare descriptor. -/
theorem bareResult_several_congr {whole whole' : TypeExpr} {nullable : Bool}
    {results results' : List (Gen Descriptor)}
    (h : results.map bareResult = results'.map bareResult) :
    bareResult (sequence results >>= unionOfSeveral whole nullable) =
      bareResult (sequence results' >>= unionOfSeveral whole' nullable) := by
  have hsequence := sequence_bare_congr h
  match sequence results, sequence results', hsequence with
  | .ok descs, .ok descs', hsequence =>
      have hbare : descs.map Descriptor.bare = descs'.map Descriptor.bare :=
        Option.some.inj hsequence
      change bareResult (unionOfSeveral whole nullable descs) =
        bareResult (unionOfSeveral whole' nullable descs')
      rw [bareResult_unionOfSeveral, bareResult_unionOfSeveral, hbare]
  | .error _, .error _, _ => rfl
  | .ok _, .error _, hsequence => cases hsequence
  | .error _, .ok _, hsequence => cases hsequence

theorem bareResult_unionOfPresent_congr {whole whole' : TypeExpr} {nullable : Bool}
    {results results' : List (Gen Descriptor)}
    (h : results.map bareResult = results'.map bareResult) :
    bareResult (unionOfPresent whole nullable results) =
      bareResult (unionOfPresent whole' nullable results') := by
  cases results with
  | nil =>
      rw [List.map_eq_nil_iff.mp h.symm]
      cases nullable <;> rfl
  | cons first rest =>
      obtain ⟨first', rest', rfl, hfirst, hrest⟩ := List.map_eq_cons_iff.mp h.symm
      cases rest with
      | nil =>
          rw [List.map_eq_nil_iff.mp hrest]
          obtain ⟨desc, desc', rfl, rfl, hbare⟩ | ⟨fault, fault', rfl, rfl⟩ :=
            bareResult_eq_cases hfirst.symm
          · cases nullable <;> simp [unionOfPresent, bareResult, Except.toOption, Functor.map,
              Except.map, Descriptor.bare, hbare]
          · cases nullable <;> rfl
      | cons second rest =>
          obtain ⟨second', rest', rfl, _, _⟩ := List.map_eq_cons_iff.mp hrest
          exact bareResult_several_congr h

/-! Corresponding members of two unions. -/

/-- If the comparisons of two lists of members come out alike, the absence is a member of both or of
neither, and the present members of both are at the same places. -/
theorem SeenAlike.presentMembers_eq {members members' : List TypeExpr}
    (h : SeenAlike members members')
    (hlength : (flatten members).length = (flatten members').length) :
    (absence ∈ flatten members ↔ absence ∈ flatten members') ∧
      ∃ pairs, pairs ⊆ (flatten members).zip (flatten members') ∧
        presentMembers members = pairs.map Prod.fst ∧
        presentMembers members' = pairs.map Prod.snd := by
  have hfst := List.map_fst_zip (Nat.le_of_eq hlength)
  have hsnd := List.map_snd_zip (Nat.le_of_eq hlength.symm)
  obtain ⟨_, habsences, hrepetitions⟩ := h
  generalize (flatten members).zip (flatten members') = pairs at *
  have hnullable : absence ∈ flatten members ↔ absence ∈ flatten members' := by
    rw [← hfst, ← hsnd, List.mem_map, List.mem_map]
    exact exists_congr fun pair => and_congr_right fun hpair => habsences pair hpair
  have hdistinct : (pairs.eraseDupsBy fun a b => a.1 == b.1) =
      pairs.eraseDupsBy fun a b => a.2 == b.2 :=
    eraseDupsBy_congr fun a ha b hb => by
      rw [Bool.eq_iff_iff, beq_iff_eq, beq_iff_eq]
      exact hrepetitions a ha b hb
  have hsub : (pairs.eraseDupsBy fun a b => a.1 == b.1) ⊆ pairs := fun _ => mem_of_mem_eraseDupsBy
  refine ⟨hnullable, (pairs.eraseDupsBy fun a b => a.1 == b.1).filter fun pair =>
    pair.1 != absence, fun pair hpair => hsub (List.mem_filter.mp hpair).1, ?_, ?_⟩
  · rw [presentMembers, ← hfst, List.eraseDups, eraseDupsBy_map, List.filter_map]
    rfl
  · rw [presentMembers, ← hsnd, List.eraseDups, eraseDupsBy_map, List.filter_map, ← hdistinct]
    congr 1
    refine List.filter_congr fun pair hpair => ?_
    rw [Function.comp_apply, Bool.eq_iff_iff, bne_iff_ne, bne_iff_ne]
    exact not_congr (habsences pair (hsub hpair)).symm

/-- Members of one shape, in nested unions too. -/
def SameMembers (members members' : List TypeExpr) : Prop :=
  List.Forall₂ (fun member member' => member.shape = member'.shape) (flatten members)
    (flatten members')

theorem sameMembers_of_pairs {members members' : List TypeExpr}
    (hlength : members.length = members'.length)
    (hnested : members.map isUnion = members'.map isUnion)
    (h : ∀ pair ∈ members.zip members', pair.1.shape = pair.2.shape ∧
      ∀ nested nested', pair.1 = .union nested → pair.2 = .union nested' →
        SameMembers nested nested') : SameMembers members members' := by
  induction members generalizing members' with
  | nil =>
      cases List.map_eq_nil_iff.mp hnested.symm
      rw [SameMembers, flatten]
      exact .nil
  | cons member rest ih =>
      obtain ⟨member', rest', rfl, hunion, hrest⟩ := List.map_eq_cons_iff.mp hnested.symm
      obtain ⟨hshape, hmember⟩ := h _ List.mem_cons_self
      have htail := ih (Nat.succ.inj hlength) hrest.symm fun pair hpair =>
        h pair (List.mem_cons_of_mem _ hpair)
      cases hmemberUnion : member.isUnion with
      | true =>
          obtain ⟨nested, rfl⟩ := exists_eq_union_of_isUnion hmemberUnion
          obtain ⟨nested', rfl⟩ := exists_eq_union_of_isUnion (hunion.trans hmemberUnion)
          rw [SameMembers, flatten, flatten]
          exact List.rel_append (hmember nested nested' rfl rfl) htail
      | false =>
          rw [SameMembers, flatten_cons_of_isUnion_eq_false hmemberUnion,
            flatten_cons_of_isUnion_eq_false (hunion.trans hmemberUnion)]
          exact .cons hshape htail

theorem shape_union_congr {members members' : List TypeExpr}
    (hsame : SameMembers members members') (halike : SeenAlike members members') :
    (TypeExpr.union members).shape = (TypeExpr.union members').shape := by
  obtain ⟨hlength, hshapes⟩ := List.forall₂_iff_zip.mp hsame
  obtain ⟨hnullable, pairs, hsub, hpresent, hpresent'⟩ := halike.presentMembers_eq hlength
  have hresults : ((presentMembers members).map classify).map bareResult =
      ((presentMembers members').map classify).map bareResult := by
    simp only [hpresent, hpresent', List.map_map]
    exact List.map_congr_left fun pair hpair => hshapes (hsub hpair)
  rw [shape, shape, classify_union_eq, classify_union_eq, decide_eq_decide.mpr hnullable]
  exact bareResult_unionOfPresent_congr hresults

/-- Notes keep the shape of an expression in whose unions the comparisons come out alike. -/
theorem Noted.shape_eq {expr expr' : TypeExpr} (h : Noted SeenAlike expr expr') :
    expr.shape = expr'.shape ∧
      ∀ nested nested', expr = .union nested → expr' = .union nested' →
        SameMembers nested nested' := by
  induction h with
  | refl expr =>
      refine ⟨rfl, ?_⟩
      rintro nested _ rfl heq
      cases heq
      exact List.forall₂_same.mpr fun _ _ => rfl
  | list _ ih => exact ⟨by rw [shape_list, shape_list, ih.1], nofun⟩
  | dict _ _ ihKey ihValue =>
      exact ⟨by rw [shape_dict, shape_dict, ihKey.1, ihValue.1], nofun⟩
  | union hlength _ halike ih =>
      have hsame := sameMembers_of_pairs hlength halike.nested ih
      refine ⟨shape_union_congr hsame halike, ?_⟩
      rintro nested nested' heq heq'
      cases heq
      cases heq'
      exact hsame
  | annotated _ attachments ih => exact ⟨by rw [shape_annotated, shape_annotated, ih.1], nofun⟩
  | noted _ texts ih => exact ⟨by rw [TypeExpr.noted, shape_annotated, ih.1], nofun⟩

end TypeExpr

/-! Unions in which the comparisons come out differently. -/

/-- Whether the descriptor can be one of several members of a union. -/
def Descriptor.isVariant (desc : Descriptor) : Bool :=
  desc.isModel || (desc.isSafePrimitive || desc.isLiteral)

namespace TypeExpr

/-- A union of several members has variants, and is none itself. -/
theorem OfUnion.isVariant {nullable : Bool} {parts : List Descriptor} {desc : Descriptor}
    (h : OfUnion nullable parts desc) (hlength : 2 ≤ parts.length) :
    (∀ part ∈ parts, part.isVariant = true) ∧ desc.isVariant = false := by
  cases h with
  | absence | only | optional => simp at hlength
  | models _ hmodels =>
      refine ⟨fun part hpart => ?_, rfl⟩
      rw [Descriptor.isVariant, hmodels part hpart, Bool.true_or]
  | scalars _ hscalars =>
      refine ⟨fun part hpart => ?_, rfl⟩
      rw [Descriptor.isVariant, hscalars part hpart, Bool.or_true]

/-- A member that cannot be one of several leaves no type to a union with another member. -/
theorem classify_union_ne_ok {members : List TypeExpr} {member other : TypeExpr}
    (hmember : member ∈ presentMembers members) (hother : other ∈ presentMembers members)
    (hne : member ≠ other) (hvariant : ∀ part, member.classify = .ok part → part.isVariant = false)
    (desc : Descriptor) : (TypeExpr.union members).classify ≠ .ok desc := by
  intro h
  obtain ⟨parts, hparts, hof⟩ := classify_union_eq_ok_iff.mp h
  have hlength : 2 ≤ parts.length := by
    rw [← hparts.length_eq]
    generalize presentMembers members = present at hmember hother
    match present, hmember, hother with
    | [only], hmember, hother =>
        exact absurd ((List.mem_singleton.mp hmember).trans (List.mem_singleton.mp hother).symm) hne
    | _ :: _ :: rest, _, _ => exact Nat.le_add_left 2 rest.length
  obtain ⟨part, hpart, hclass⟩ := exists_right_of_forall₂ hparts member hmember
  cases (hvariant part hclass).symm.trans ((hof.isVariant hlength).1 part hpart)

/-- Two different members, the absence included, do not leave a union of one. -/
theorem isVariant_of_classify_union {members : List TypeExpr} {first second : TypeExpr}
    {desc : Descriptor} (hfirst : first ∈ flatten members) (hsecond : second ∈ flatten members)
    (hne : first ≠ second) (h : (TypeExpr.union members).classify = .ok desc) :
    desc.isVariant = false := by
  obtain ⟨parts, hparts, hof⟩ := classify_union_eq_ok_iff.mp h
  cases hof with
  | only hnullable =>
      -- without the absence both members are present, and nothing else than the only one
      have hnot := of_decide_eq_false hnullable
      obtain ⟨only, rest, _, hrest, hpresent⟩ := List.forall₂_cons_right_iff.mp hparts
      rw [List.forall₂_nil_right_iff.mp hrest] at hpresent
      have hall : ∀ member ∈ flatten members, member = only := by
        intro member hmember
        have hmem : member ∈ presentMembers members :=
          mem_presentMembers_iff.mpr ⟨hmember, fun heq => hnot (heq ▸ hmember)⟩
        rwa [hpresent, List.mem_singleton] at hmem
      exact absurd ((hall first hfirst).trans (hall second hsecond).symm) hne
  | _ => rfl

/-- Notes around one member of a union. -/
theorem noted_union_member (before after : List TypeExpr) (member : TypeExpr)
    (texts : List String) :
    Noted (fun _ _ => True) (.union (before ++ member :: after))
      (.union (before ++ member.noted texts :: after)) := by
  have hself : ∀ members, List.Forall₂ (Noted fun _ _ => True) members members := fun members =>
    List.forall₂_same.mpr fun expr _ => .refl expr
  have hmembers := List.rel_append (hself before)
    (.cons (.noted (.refl member) texts) (hself after))
  obtain ⟨hlength, hpairs⟩ := List.forall₂_iff_zip.mp hmembers
  exact .union hlength (fun pair hpair => hpairs hpair) trivial

/-- With notes around it, a member that is none of several leaves no type to a union in which there
is another one. -/
theorem not_sameGeneration_noted_member {before after : List TypeExpr} {member other : TypeExpr}
    {desc : Descriptor} {texts : List String}
    (hvariant : ∀ part, member.classify = .ok part → part.isVariant = false)
    (hother : other ∈ flatten (before ++ after)) (habsence : other ≠ absence)
    (hne : other ≠ member.noted texts)
    (h : (TypeExpr.union (before ++ member :: after)).classify = .ok desc) :
    ¬ SameGeneration (.union (before ++ member :: after))
      (.union (before ++ member.noted texts :: after)) := by
  intro hsame
  obtain ⟨desc', hdesc'⟩ := hsame.classifies.mp ⟨desc, h⟩
  have hflatten := @flatten_insert before after (member.noted texts) rfl
  have hnotedPresent : member.noted texts ∈
      presentMembers (before ++ member.noted texts :: after) :=
    mem_presentMembers_iff.mpr ⟨by simp [hflatten], noted_ne_absence texts member⟩
  have hotherPresent : other ∈ presentMembers (before ++ member.noted texts :: after) := by
    rw [flatten_append, List.mem_append] at hother
    refine mem_presentMembers_iff.mpr ⟨?_, habsence⟩
    rw [hflatten, List.mem_append, List.mem_cons]
    tauto
  refine classify_union_ne_ok hnotedPresent hotherPresent hne.symm (fun part hpart => ?_)
    desc' hdesc'
  obtain ⟨inner, hinner, rfl⟩ := map_eq_ok_iff.mp hpart
  exact hvariant inner hinner

theorem flatten_pair (first last : TypeExpr) (hfirst : first.isUnion = false)
    (hlast : last.isUnion = false) : flatten [first, last] = [first, last] := by
  rw [flatten_cons_of_isUnion_eq_false hfirst, flatten_cons_of_isUnion_eq_false hlast, flatten]

/-- With a note a repeated model is a variant of its own, which cannot be told apart. -/
theorem not_sameGeneration_noted_model (path : ModelPath) (texts : List String) :
    ¬ SameGeneration (.union [.model path, .model path])
      (.union [.model path, (TypeExpr.model path).noted texts]) := by
  intro hsame
  have hmodel : (TypeExpr.union [.model path, .model path]).classify = .ok (.model path) := by
    rw [classify_union_eq, presentMembers, flatten_pair _ _ rfl rfl]
    simp [List.eraseDups_cons, unionOfPresent, absence, classify]
  have hvariants : (TypeExpr.union [.model path, (TypeExpr.model path).noted texts]).classify =
      .ok (.unionOfModels [path, path] false) := by
    rw [classify_union_eq, presentMembers, flatten_pair _ _ rfl rfl]
    simp [List.eraseDups_cons, unionOfPresent, absence, noted, classify]
    rfl
  let index : TypeIndex := { TypeIndex.empty with objects := [(path, ⟨"", none, [], false⟩)] }
  have hdeclared : ∃ call, index.convert .fromWire (.model path) (.ident "root") 0 = .ok call := by
    simp [index, TypeIndex.convert, TypeIndex.modelCall, TypeIndex.requireObject,
      TypeIndex.object?, bind, Except.bind, pure, Except.pure, Functor.map, Except.map]
  obtain ⟨call, hcall⟩ := hdeclared
  have hunion := (hsame.convert hmodel hvariants index .fromWire (.ident "root") 0).symm.trans hcall
  obtain ⟨converted, hdispatch, _⟩ := bind_eq_ok_iff.mp hunion
  obtain ⟨⟨field, arms⟩, hdiscriminant, _⟩ := bind_eq_ok_iff.mp hdispatch
  have hnodup := TypeIndex.nodup_of_discriminant hdiscriminant
  simp at hnodup

/-- Notes make no difference to generation where the comparisons of union members come out alike
with and without them. They always make one around the absence in a union with other members, around
a nested union of different members in such a union, and around one of two mentions of a model. -/
theorem sameGeneration_of_noted (expr expr' : TypeExpr) (texts : List String) :
    (Noted SeenAlike expr expr' → SameGeneration expr expr') ∧
      (∀ before after member, Noted (fun _ _ => True) (.union (before ++ member :: after))
        (.union (before ++ member.noted texts :: after))) ∧
      (∀ before after other desc, other ∈ flatten (before ++ after) → other ≠ absence →
        other ≠ absence.noted texts →
        (TypeExpr.union (before ++ absence :: after)).classify = .ok desc →
          ¬ SameGeneration (.union (before ++ absence :: after))
            (.union (before ++ absence.noted texts :: after))) ∧
      (∀ before after nested first second other desc, first ∈ flatten nested →
        second ∈ flatten nested → first ≠ second →
        other ∈ flatten (before ++ after) → other ≠ absence →
        other ≠ (TypeExpr.union nested).noted texts →
        (TypeExpr.union (before ++ .union nested :: after)).classify = .ok desc →
          ¬ SameGeneration (.union (before ++ .union nested :: after))
            (.union (before ++ (TypeExpr.union nested).noted texts :: after))) ∧
      ∀ path, ¬ SameGeneration (.union [.model path, .model path])
        (.union [.model path, (TypeExpr.model path).noted texts]) := by
  refine ⟨fun h => sameGeneration_of_shape_eq h.shape_eq.1, ?_, ?_, ?_, ?_⟩
  · exact fun before after member => noted_union_member before after member texts
  · intro before after other desc hother habsence hne h
    refine not_sameGeneration_noted_member (fun part hpart => ?_) hother habsence hne h
    cases hpart
    rfl
  · intro before after nested first second other desc hfirst hsecond hdifferent hother habsence
      hne h
    refine not_sameGeneration_noted_member (fun part hpart => ?_) hother habsence hne h
    exact isVariant_of_classify_union hfirst hsecond hdifferent hpart
  · exact fun path => not_sameGeneration_noted_model path texts

def times : TypeExpr :=
  .union [.list (.primitive .datetime), absence]

/-- The same with notes on each time and on their list. -/
def notedTimes : TypeExpr :=
  .union [((TypeExpr.primitive .datetime).noted ["utc"]).list.noted ["ascending"], absence]

theorem sameGeneration_of_noted_times :
    SameGeneration times notedTimes ∧
      ¬ SameGeneration times (.union [.list (.primitive .datetime), absence.noted ["never"]]) := by
  obtain ⟨hsame, _, habsence, _, _⟩ := sameGeneration_of_noted times notedTimes ["never"]
  refine ⟨hsame (.union rfl ?_ ?_), ?_⟩
  · intro pair hpair
    rcases List.mem_cons.mp hpair with rfl | hpair
    · exact .noted (.list (.noted (.refl _) _)) _
    · rw [List.mem_singleton.mp hpair]
      exact .refl _
  · have hflatten := flatten_pair (.list (.primitive .datetime)) absence rfl rfl
    have hnoted := flatten_pair (((TypeExpr.primitive .datetime).noted ["utc"]).list.noted
      ["ascending"]) absence rfl rfl
    exact ⟨rfl, by rw [hflatten, hnoted]; decide, by rw [hflatten, hnoted]; decide⟩
  · exact habsence [.list (.primitive .datetime)] [] (.list (.primitive .datetime)) _
      (by rw [List.append_nil, flatten_cons_of_isUnion_eq_false rfl]; exact List.mem_cons_self)
      nofun nofun rfl

end TypeExpr

end SchemaWire
