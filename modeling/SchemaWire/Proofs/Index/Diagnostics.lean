import SchemaWire.Proofs.Index.Defect

/-!
The errors of registration. The main statement is that the error of a failed registration names a
defect of a model that is reachable from the roots. A traversal stops at a defect of a model that it
has reached. Once it has succeeded, only unions that cannot be told apart are left to be refused: a
conversion function may also fail for a missing model or a type without conversion, but finds
neither in an index.
-/
namespace SchemaWire

open TypeScript (Expr)

namespace TypeExpr

theorem mem_of_sequence_eq_error {α : Type} {results : List (Gen α)} {fault : GenError}
    (h : sequence results = .error fault) : .error fault ∈ results := by
  induction results with
  | nil => cases h
  | cons result rest ih =>
      rcases bind_eq_error_iff.mp h with hhead | ⟨value, _, h⟩
      · rw [hhead]
        exact List.mem_cons_self
      · rcases bind_eq_error_iff.mp h with hrest | ⟨values, _, h⟩
        · exact List.mem_cons_of_mem _ (ih hrest)
        · cases h

/-- A union is refused for its own sake or for that of a member. -/
theorem unionOfPresent_error {whole : TypeExpr} {nullable : Bool} {results : List (Gen Descriptor)}
    {fault : GenError} (h : unionOfPresent whole nullable results = .error fault) :
    (∃ reason, fault = .unlocated whole.display reason) ∨ .error fault ∈ results := by
  match results, nullable, h with
  | [], false, h =>
      cases h
      exact Or.inl ⟨_, rfl⟩
  | [only], false, h => exact Or.inr (List.mem_singleton.mpr h.symm)
  | [only], true, h => exact Or.inr (List.mem_singleton.mpr (map_eq_error_iff.mp h).symm)
  | first :: second :: rest, nullable, h =>
      rcases bind_eq_error_iff.mp h with hmember | ⟨descs, _, hseveral⟩
      · exact Or.inr (mem_of_sequence_eq_error hmember)
      · unfold unionOfSeveral at hseveral
        repeat' split at hseveral
        all_goals first | cases hseveral; exact Or.inl ⟨_, rfl⟩ | cases hseveral

/-- The only error of a classification is an unsupported shape that has no location yet. -/
theorem unlocated_of_classify {expr : TypeExpr} {fault : GenError}
    (h : expr.classify = .error fault) : ∃ ty reason, fault = .unlocated ty reason := by
  induction expr using flatInduction with
  | primitive | literal | model => cases h
  | list element ih => exact ih (map_eq_error_iff.mp h)
  | dict key value ihKey ihValue =>
      rw [classify] at h
      rcases bind_eq_error_iff.mp h with hkey | ⟨keyDesc, _, h⟩
      · exact ihKey hkey
      split at h
      · rcases bind_eq_error_iff.mp h with hvalue | ⟨valueDesc, _, h⟩
        · exact ihValue hvalue
        · cases h
      · cases h
        exact ⟨_, _, rfl⟩
  | union members ih =>
      rw [classify_union_eq] at h
      rcases unionOfPresent_error h with ⟨reason, rfl⟩ | hresult
      · exact ⟨_, _, rfl⟩
      · obtain ⟨member, hmember, hfault⟩ := List.mem_map.mp hresult
        exact ih member (mem_presentMembers_iff.mp hmember).1 hfault
  | annotated inner attachments ih => exact ih (map_eq_error_iff.mp h)

end TypeExpr

namespace Scope

variable {graph : ModelGraph} {roots : List ModelPath} {scope : Scope} {path : ModelPath}
  {fault : GenError}

/-- A claim is refused to a model whose name somebody else owns. -/
theorem defect_of_claim (hwithin : scope.Within (graph.Owns roots))
    (hpath : Reachable graph.references roots path) {claimant : Claimant}
    (hclaimant : graph.Claims path claimant)
    (h : scope.claim claimant.name claimant.owner = .error fault) : graph.Defect roots fault := by
  unfold claim at h
  split at h
  · cases h
  · rename_i owner howner
    split at h
    · cases h
    · rename_i hne
      cases h
      exact .nameConflict hpath hclaimant (hwithin _ _ howner) hne

/-- A claim that is granted to a reachable model keeps to the owners of the registration. -/
theorem within_of_claim {next : Scope} (hwithin : scope.Within (graph.Owns roots))
    (hpath : Reachable graph.references roots path) {claimant : Claimant}
    (hclaimant : graph.Claims path claimant)
    (h : scope.claim claimant.name claimant.owner = .ok next) :
    next.Within (graph.Owns roots) :=
  hwithin.claim (Or.inr ⟨path, hpath, claimant, hclaimant, rfl, rfl⟩) h

theorem within_of_declareTags {next : Scope} (hwithin : scope.Within (graph.Owns roots))
    (hpath : Reachable graph.references roots path) {tags : List (EnumTag × Descriptor)}
    (htags : ∀ tag ∈ tags, graph.Tagged path tag.1 tag.2)
    (h : scope.declareTags tags = .ok next) : next.Within (graph.Owns roots) := by
  refine (declareTags_ok h).2.1.within hwithin fun claimant hclaimant => ?_
  obtain ⟨tag, htag, rfl⟩ := List.mem_map.mp hclaimant
  exact Or.inr ⟨path, hpath, _, .enum (htags tag htag), rfl, rfl⟩

theorem defect_of_declareTags (hwithin : scope.Within (graph.Owns roots))
    (hpath : Reachable graph.references roots path) {tags : List (EnumTag × Descriptor)}
    (htags : ∀ tag ∈ tags, graph.Tagged path tag.1 tag.2)
    (h : scope.declareTags tags = .error fault) : graph.Defect roots fault := by
  induction tags generalizing scope with
  | nil => cases h
  | cons head rest ih =>
      obtain ⟨tag, inner⟩ := head
      have htag := htags _ List.mem_cons_self
      have hclaimant : graph.Claims path (.enum tag.name) := .enum htag
      rcases bind_eq_error_iff.mp h with hhead | ⟨next, hnext, hrest⟩
      · rcases bind_eq_error_iff.mp hhead with hcheck | ⟨_, _, hhead⟩
        · obtain ⟨reason, rfl, hbreaks⟩ := EnumTag.check_error hcheck
          exact .invalidEnumTag hpath htag hbreaks
        · rcases bind_eq_error_iff.mp hhead with hclaim | ⟨_, _, hhead⟩
          · exact defect_of_claim hwithin hpath hclaimant hclaim
          · cases hhead
      · obtain ⟨_, claimed, hclaim, rfl⟩ := declareTag_eq_ok_iff.mp hnext
        have hclaimed : claimed.Within (graph.Owns roots) :=
          within_of_claim hwithin hpath hclaimant hclaim
        refine ih ?_ (fun other hother => htags other (List.mem_cons_of_mem _ hother)) hrest
        exact fun name text howner => hclaimed name text howner

theorem defect_of_declareFields (hwithin : scope.Within (graph.Owns roots))
    (hpath : Reachable graph.references roots path) {model : ModelDef}
    (hmodel : graph.get? path = some model) {fields : List FieldDef}
    (hfields : ∀ field ∈ fields, field ∈ model.fields)
    (h : scope.declareFields path.shortName fields = .error fault) : graph.Defect roots fault := by
  induction fields generalizing scope with
  | nil => cases h
  | cons field rest ih =>
      have hfield := hfields field List.mem_cons_self
      rcases bind_eq_error_iff.mp h with hclass | ⟨desc, hclass, h⟩
      · obtain ⟨inner, hinner, rfl⟩ := mapError_eq_error_iff.mp hclass
        obtain ⟨ty, reason, rfl⟩ := TypeExpr.unlocated_of_classify hinner
        exact .unsupportedShape hpath hmodel hfield hinner
      · have hdesc : desc ∈ graph.descriptors path :=
          ModelGraph.mem_descriptors hmodel hfield (mapError_eq_ok_iff.mp hclass)
        have htags : ∀ tag ∈ desc.enumTags, graph.Tagged path tag.1 tag.2 :=
          fun tag htag => ⟨desc, hdesc, (Descriptor.mem_enumTags_iff desc).mp htag⟩
        rcases bind_eq_error_iff.mp h with htagged | ⟨tagged, htagged, h⟩
        · exact defect_of_declareTags hwithin hpath htags htagged
        · rcases bind_eq_error_iff.mp h with hrest | ⟨_, _, h⟩
          · refine ih ?_ (fun other hother => hfields other (List.mem_cons_of_mem _ hother)) hrest
            exact within_of_declareTags hwithin hpath htags htagged
          · cases h

/-- A model that is refused has a defect. -/
theorem defect_of_declareModel (hwithin : scope.Within (graph.Owns roots))
    (hpath : Reachable graph.references roots path) {model : ModelDef}
    (hmodel : graph.get? path = some model)
    (h : scope.declareModel path model = .error fault) : graph.Defect roots fault := by
  unfold declareModel at h
  dsimp only at h
  split at h
  · have hname : graph.Claims path (.model path) := .model
    have hfromName : graph.Claims path (.function .fromWire path) := .function .fromWire
    have htoName : graph.Claims path (.function .toWire path) := .function .toWire
    rcases bind_eq_error_iff.mp h with hclaim | ⟨named, hnamed, h⟩
    · exact defect_of_claim hwithin hpath hname hclaim
    have hnamedWithin := within_of_claim hwithin hpath hname hnamed
    rcases bind_eq_error_iff.mp h with hclaim | ⟨fromNamed, hfrom, h⟩
    · exact defect_of_claim hnamedWithin hpath hfromName hclaim
    have hfromWithin := within_of_claim hnamedWithin hpath hfromName hfrom
    rcases bind_eq_error_iff.mp h with hclaim | ⟨toNamed, hto, h⟩
    · exact defect_of_claim hfromWithin hpath htoName hclaim
    have htoWithin := within_of_claim hfromWithin hpath htoName hto
    rcases bind_eq_error_iff.mp h with hfields | ⟨_, _, h⟩
    · exact defect_of_declareFields htoWithin hpath hmodel (fun _ hfield => hfield) hfields
    · cases h
  · rename_i hname
    cases h
    exact .invalidIdentifier hpath (by simpa using hname)

end Scope

namespace TypeIndex

variable {graph : ModelGraph} {roots before : List ModelPath} {index : TypeIndex}
  {fault : GenError}

theorem defect_of_declare (hwithin : index.scope.Within (graph.Owns roots)) {path : ModelPath}
    (hpath : Reachable graph.references roots path)
    (h : declare graph path index = .error fault) : graph.Defect roots fault := by
  rcases bind_eq_error_iff.mp h with hmissing | ⟨model, hmodel, h⟩
  · unfold ModelGraph.require at hmissing
    split at hmissing
    · cases hmissing
    · rename_i hnone
      cases hmissing
      exact .unknownModel hpath hnone
  · rcases bind_eq_error_iff.mp h with hdeclare | ⟨_, _, h⟩
    · exact Scope.defect_of_declareModel hwithin hpath (ModelGraph.require_eq_ok_iff.mp hmodel)
        hdeclare
    · cases h

/-- A traversal stops at a defect of a model that it has reached. -/
theorem defect_of_visit {pending : List ModelPath} (hwithin : index.scope.Within (graph.Owns roots))
    (hpending : ∀ path ∈ pending, Reachable graph.references roots path)
    (h : visit graph pending index = .error fault) : graph.Defect roots fault := by
  fun_induction visit graph pending index with
  | case1 => cases h
  | case2 path pending index _ ih =>
      exact ih hwithin (fun other hother => hpending other (List.mem_cons_of_mem _ hother)) h
  | case3 path pending index _ fault' hdeclare =>
      cases h
      exact defect_of_declare hwithin (hpending path List.mem_cons_self) hdeclare
  | case4 path pending index _ middle object hdeclare ih =>
      have hpath := hpending path List.mem_cons_self
      have hhead := declare_ok hdeclare
      have hdeclares := hhead.declares _ List.mem_cons_self
      refine ih ?_ ?_ h
      · refine hhead.grown.within hwithin fun claimant hclaimant => ?_
        refine Or.inr ⟨path, hpath, claimant, ModelGraph.mem_claimants_iff.mp ?_, rfl, rfl⟩
        rw [ModelGraph.claimants, hdeclares.enumTags_eq]
        simpa [claimants] using hclaimant
      · intro other hother
        rcases List.mem_append.mp hother with hbelow | hafter
        · rw [← hdeclares.references_eq] at hbelow
          exact hpath.step hbelow
        · exact hpending other (List.mem_cons_of_mem _ hafter)

theorem not_requireObject_error {path : ModelPath} (hpath : path ∈ index.paths) :
    index.requireObject path ≠ .error fault := by
  obtain ⟨object, hobject⟩ := exists_object_iff.mpr hpath
  rw [requireObject_eq_ok_iff.mpr hobject]
  exact fun h => by cases h

/-- A variant is refused for what its first field lacks, in itself or beside an earlier variant. -/
theorem Covers.ambiguous_of_discriminantArm (hcovers : Covers graph before index)
    {path : ModelPath} {object : ObjectType} (hobject : index.object? path = some object)
    {expected : Option String} {earlier : UnionArms} {rest : List ModelPath}
    {reason : DiscriminantFault}
    (hexpected : ∀ name ∈ expected, ∃ arm ∈ earlier, ∃ desc, graph.FirstField arm.1 name desc)
    (hearlier : ∀ arm ∈ earlier, ∃ name desc, graph.FirstField arm.1 name desc ∧
      desc.literal? = some arm.2)
    (h : discriminantArm object expected earlier = .error reason) :
    graph.Ambiguous (earlier.map Prod.fst ++ path :: rest) reason := by
  have hdeclares := hcovers.object_declares hobject
  have hmem : path ∈ earlier.map Prod.fst ++ path :: rest := by simp
  have hearlierMem : ∀ arm ∈ earlier, arm.1 ∈ earlier.map Prod.fst ++ path :: rest :=
    fun arm harm => List.mem_append_left _ (List.mem_map_of_mem harm)
  cases armFault_of_discriminantArm h with
  | noFields hfields =>
      rw [hdeclares.name_eq]
      obtain ⟨model, hmodel, hnone⟩ := hdeclares.exists_of_no_fields hfields
      exact .noFields hmem hmodel hnone
  | @firstFieldDiffers _ _ name hfields hname hne =>
      rw [hdeclares.name_eq]
      obtain ⟨arm, harm, desc, hfield⟩ := hexpected name hname
      exact .firstFieldDiffers (hearlierMem arm harm) hmem hfield (hdeclares.firstField hfields) hne
  | notLiteral hfields hnone =>
      rw [hdeclares.name_eq]
      exact .notLiteral hmem (hdeclares.firstField hfields) hnone
  | @sharedLiteral _ _ arm hfields harm hvalue =>
      rw [hdeclares.name_eq]
      obtain ⟨name, desc, hfield, hliteral⟩ := hearlier arm harm
      exact .sharedLiteral rfl (List.mem_map_of_mem harm) hfield (hdeclares.firstField hfields)
        hliteral hvalue

/-- The error of a union whose variants are declared says why they cannot be told apart. -/
theorem Covers.ambiguous_of_discriminantFrom (hcovers : Covers graph before index)
    {union : String} {expected : Option String} {earlier : UnionArms} {variants : List ModelPath}
    (hdeclared : ∀ path ∈ variants, path ∈ index.paths) (hstart : expected = none → variants ≠ [])
    (hexpected : ∀ name ∈ expected, ∃ arm ∈ earlier, ∃ desc, graph.FirstField arm.1 name desc)
    (hearlier : ∀ arm ∈ earlier, ∃ name desc, graph.FirstField arm.1 name desc ∧
      desc.literal? = some arm.2)
    (h : index.discriminantFrom union expected earlier variants = .error fault) :
    ∃ reason, fault = .ambiguousDiscriminant union reason ∧
      graph.Ambiguous (earlier.map Prod.fst ++ variants) reason := by
  induction variants generalizing expected earlier with
  | nil =>
      cases expected with
      | none => exact absurd rfl (hstart rfl)
      | some name => cases h
  | cons path rest ih =>
      rcases bind_eq_error_iff.mp h with hmissing | ⟨object, hobject, h⟩
      · exact absurd hmissing (not_requireObject_error (hdeclared path List.mem_cons_self))
      · have hobject := requireObject_eq_ok_iff.mp hobject
        cases harm : discriminantArm object expected earlier with
        | error reason =>
            rw [harm] at h
            cases h
            exact ⟨reason, rfl,
              hcovers.ambiguous_of_discriminantArm hobject hexpected hearlier harm⟩
        | ok arm =>
            obtain ⟨name, value⟩ := arm
            rw [harm] at h
            obtain ⟨first, others, hfields, rfl, hvalue⟩ := (discriminantArm_eq_ok_iff.mp harm).1
            have hfirst := (hcovers.object_declares hobject).firstField hfields
            have hnextExpected : ∀ name ∈ some first.name,
                ∃ arm ∈ earlier ++ [(path, value)], ∃ desc, graph.FirstField arm.1 name desc := by
              rintro _ ⟨⟩
              exact ⟨_, List.mem_append_right _ List.mem_cons_self, _, hfirst⟩
            have hnextEarlier : ∀ arm ∈ earlier ++ [(path, value)],
                ∃ name desc, graph.FirstField arm.1 name desc ∧ desc.literal? = some arm.2 := by
              intro arm hmem
              rcases List.mem_append.mp hmem with hold | hnew
              · exact hearlier arm hold
              · obtain rfl := List.mem_singleton.mp hnew
                exact ⟨_, _, hfirst, Descriptor.literal?_eq_some_iff.mpr hvalue⟩
            simpa using ih (fun other hother => hdeclared other (List.mem_cons_of_mem _ hother))
              (by simp) hnextExpected hnextEarlier h

theorem Covers.ambiguous_of_discriminant (hcovers : Covers graph before index)
    {variants : List ModelPath} (hdeclared : ∀ path ∈ variants, path ∈ index.paths)
    (hne : variants ≠ []) (h : index.discriminant variants = .error fault) :
    ∃ reason, fault = .ambiguousDiscriminant (unionDisplay variants) reason ∧
      graph.Ambiguous variants reason :=
  hcovers.ambiguous_of_discriminantFrom hdeclared (fun _ => hne) (by simp) (by simp) h

/-- A dispatch can fail only at its discriminant, which finds all variants declared. -/
theorem discriminant_of_dispatch_error {dir : Direction} {variants : List ModelPath} {src : Expr}
    (h : index.dispatch dir variants src = .error fault) :
    index.discriminant variants = .error fault := by
  cases hdisc : index.discriminant variants with
  | ok found =>
      obtain ⟨result, hresult⟩ := @exists_dispatch _ dir _ _ hdisc src
      cases h.symm.trans hresult
  | error other =>
      rcases bind_eq_error_iff.mp h with herror | ⟨found, hfound, _⟩
      · exact hdisc.symm.trans herror
      · cases hdisc.symm.trans hfound

/-- Among declared models a conversion can fail only at a union that cannot be told apart: the
models it calls are there, and it is never asked for a scalar that it cannot convert. -/
theorem exists_discriminant_error_of_convert {dir : Direction} {desc : Descriptor} {src : Expr}
    {depth : Nat} (hdeclared : ∀ path ∈ desc.modelMentions, path ∈ index.paths)
    (h : index.convert dir desc src depth = .error fault) :
    ∃ variants ∈ desc.modelUnions, index.discriminant variants = .error fault := by
  fun_induction TypeIndex.convert index dir desc src depth with
  | case1 => cases h
  | case2 kind src depth hkind =>
      rw [convertScalar_primitive hkind] at h
      cases h
  | case3 value src depth =>
      rw [convertScalar_literal] at h
      cases h
  | case4 variants nullable src depth =>
      rw [convertScalar_unionOfScalars] at h
      cases h
  | case5 inner attachments src depth ih => exact ih hdeclared h
  | case6 inner src depth ih =>
      rcases bind_eq_error_iff.mp h with hinner | ⟨_, _, h⟩
      · exact ih hdeclared hinner
      · cases h
  | case7 element src depth var ih =>
      rcases bind_eq_error_iff.mp h with hinner | ⟨_, _, h⟩
      · exact ih hdeclared hinner
      · cases h
  | case8 key value src depth var ih =>
      rcases bind_eq_error_iff.mp h with hinner | ⟨_, _, h⟩
      · obtain ⟨variants, hvariants, hdisc⟩ :=
          ih (fun path hpath => hdeclared path (List.mem_append_right _ hpath)) hinner
        exact ⟨variants, List.mem_append_right _ hvariants, hdisc⟩
      · cases h
  | case9 path src depth =>
      rcases bind_eq_error_iff.mp (map_eq_error_iff.mp h) with hmissing | ⟨_, _, h⟩
      · exact absurd hmissing (not_requireObject_error (hdeclared path List.mem_cons_self))
      · cases h
  | case10 variants nullable src depth =>
      rcases bind_eq_error_iff.mp h with hdispatch | ⟨_, _, h⟩
      · exact ⟨variants, List.mem_cons_self, discriminant_of_dispatch_error hdispatch⟩
      · cases h

theorem exists_convert_error_of_convertFields {dir : Direction} {model : String}
    {fields : List ObjectField} (h : index.convertFields dir model fields = .error fault) :
    ∃ field ∈ fields, ∃ src depth inner,
      index.convert dir field.descriptor src depth = .error inner ∧
        fault = inner.located (model ++ "." ++ field.name) := by
  induction fields with
  | nil => cases h
  | cons field rest ih =>
      rcases bind_eq_error_iff.mp h with hconvert | ⟨_, _, h⟩
      · obtain ⟨inner, hinner, rfl⟩ := mapError_eq_error_iff.mp hconvert
        rcases bind_eq_error_iff.mp hinner with hinner | ⟨_, _, hinner⟩
        · exact ⟨field, List.mem_cons_self, _, _, inner, hinner, rfl⟩
        · cases hinner
      · rcases bind_eq_error_iff.mp h with hrest | ⟨_, _, h⟩
        · obtain ⟨other, hother, hfound⟩ := ih hrest
          exact ⟨other, List.mem_cons_of_mem _ hother, hfound⟩
        · cases h

/-- The conversion function of a declared model can fail only at a union of models in a field. -/
theorem Covers.defect_of_wireFunction (hcovers : Covers graph before index)
    (hsub : ∀ root ∈ before, root ∈ roots) {dir : Direction} {path : ModelPath}
    (hpath : path ∈ index.paths) (h : index.wireFunction dir path = .error fault) :
    graph.Defect roots fault := by
  rcases bind_eq_error_iff.mp h with hmissing | ⟨object, hobject, h⟩
  · exact absurd hmissing (not_requireObject_error hpath)
  rcases bind_eq_error_iff.mp h with hfields | ⟨_, _, h⟩
  · have hdeclares := hcovers.object_declares (requireObject_eq_ok_iff.mp hobject)
    obtain ⟨field, hfield, src, depth, inner, hconvert, rfl⟩ :=
      exists_convert_error_of_convertFields hfields
    have hdesc : field.descriptor ∈ graph.descriptors path := by
      rw [hdeclares.descriptors_eq]
      exact List.mem_map_of_mem hfield
    have hmodels : ∀ other ∈ field.descriptor.models, other ∈ index.paths := fun other hother =>
      hcovers.closed hpath (List.mem_flatMap.mpr ⟨field.descriptor, hdesc, hother⟩)
    obtain ⟨variants, hvariants, hdisc⟩ := exists_discriminant_error_of_convert
      (fun other hother => hmodels other (Descriptor.mem_models.mpr hother)) hconvert
    have hne : variants ≠ [] := by
      rintro rfl
      have hlength := Descriptor.length_of_mem_modelUnions (hdeclares.wellFormed hfield) hvariants
      simp at hlength
    obtain ⟨reason, rfl, hambiguous⟩ := hcovers.ambiguous_of_discriminant (fun other hother =>
      hmodels other (Descriptor.mem_models_of_mem_modelUnions hvariants other hother)) hne hdisc
    have hreachable := ((hcovers.order.mem_iff_reachable path).mp hpath).mono hsub
    obtain ⟨nullable, hpart⟩ := Descriptor.exists_part_of_mem_modelUnions hvariants
    exact .ambiguousDiscriminant hreachable hdesc hpart hambiguous hambiguous.not_discriminable
  · cases h

theorem exists_wireFunction_error {paths : List ModelPath}
    (h : index.wireFunctions paths = .error fault) :
    ∃ path ∈ paths, ∃ dir, index.wireFunction dir path = .error fault := by
  induction paths with
  | nil => cases h
  | cons path rest ih =>
      rcases bind_eq_error_iff.mp h with hfrom | ⟨_, _, h⟩
      · exact ⟨path, List.mem_cons_self, .fromWire, hfrom⟩
      rcases bind_eq_error_iff.mp h with hto | ⟨_, _, h⟩
      · exact ⟨path, List.mem_cons_self, .toWire, hto⟩
      rcases bind_eq_error_iff.mp h with hrest | ⟨_, _, h⟩
      · obtain ⟨other, hother, hfound⟩ := ih hrest
        exact ⟨other, List.mem_cons_of_mem _ hother, hfound⟩
      · cases h

/-- A root that cannot be added leads to a defect. -/
theorem defect_of_addRoot (hsound : index.Sound) (hcovers : Covers graph before index)
    {root : ModelPath} (hsub : ∀ other ∈ before ++ [root], other ∈ roots)
    (h : addRoot graph root index = .error fault) : graph.Defect roots fault := by
  rcases bind_eq_error_iff.mp h with hvisit | ⟨visited, hvisited, h⟩
  · refine defect_of_visit ?_ (fun path hpath => ?_) hvisit
    · exact hcovers.within hsound fun other hother => hsub other (List.mem_append_left _ hother)
    · exact .root (hsub path (List.mem_append_right _ hpath))
  · obtain ⟨added, hadded, horder⟩ := visit_ok hvisited
    rcases bind_eq_error_iff.mp h with hfunctions | ⟨_, _, h⟩
    · obtain ⟨path, hpath, dir, hfunction⟩ := exists_wireFunction_error hfunctions
      exact (hcovers.added hadded horder).defect_of_wireFunction hsub
        (List.mem_of_mem_drop hpath) hfunction
    · cases h

theorem defect_of_addRoots {pending : List ModelPath} (hsound : index.Sound)
    (hcovers : Covers graph before index) (hsub : ∀ root ∈ before ++ pending, root ∈ roots)
    (h : addRoots graph pending index = .error fault) : graph.Defect roots fault := by
  induction pending generalizing before index with
  | nil => cases h
  | cons root rest ih =>
      rcases bind_eq_error_iff.mp h with hroot | ⟨middle, hmiddle, hrest⟩
      · refine defect_of_addRoot hsound hcovers (fun other hother => hsub other ?_) hroot
        simp only [List.mem_append, List.mem_cons] at hother ⊢
        tauto
      · exact ih (hsound.addRoot hmiddle) (hcovers.addRoot hmiddle) (by simpa using hsub) hrest

theorem defect_of_register (h : register graph roots = .error fault) :
    graph.Defect roots fault :=
  @defect_of_addRoots _ roots [] _ _ roots sound_empty ⟨.done [], by simp [empty]⟩ (by simp) h

/-- The error of a registration names a defect of a model that is reachable from the roots. An
unsupported shape has its location. -/
theorem register_error_defect {graph : ModelGraph} {roots : List ModelPath} {fault : GenError}
    (h : register graph roots = .error fault) :
    graph.Defect roots fault ∧
      ∀ location ty reason, fault = .unsupportedShape location ty reason → location ≠ "" := by
  have hdefect := defect_of_register h
  refine ⟨hdefect, ?_⟩
  rintro location ty reason rfl rfl
  have hlocated := hdefect.located_eq "nowhere"
  simp [GenError.located] at hlocated

/-- An organisation whose users have a field of a type that nothing can be made of. -/
def agesGraph : ModelGraph :=
  .ofList [
    (⟨"app.Org"⟩, ⟨[⟨"members", .list (.model ⟨"app.User"⟩), none⟩]⟩),
    (⟨"app.User"⟩, ⟨[⟨"ages", .list (.dict (.primitive .int) (.primitive .str)), none⟩]⟩)]

/-- The error of that field: it names the type inside the list, and the user where it stands. -/
def agesError : GenError :=
  .unsupportedShape "User.ages" "dict[int, str]" (.mappingKey "int")

theorem register_error_defect_ages :
    register agesGraph [⟨"app.Org"⟩] = .error agesError ∧
      agesGraph.Defect [⟨"app.Org"⟩] agesError := by
  have hfault : fault? (register agesGraph [⟨"app.Org"⟩]) = some agesError := by
    simp only [register, addRoots, addRoot, visit_eq_visitWithin]
    decide +kernel
  have hregister := fault?_eq_some_iff.mp hfault
  exact ⟨hregister, (register_error_defect hregister).1⟩

end TypeIndex

end SchemaWire
