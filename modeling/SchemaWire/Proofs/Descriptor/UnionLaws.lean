import SchemaWire.Proofs.Descriptor.WellFormed

/-!
The laws of unions. A nested union stands for its members, a repeated member adds nothing, and the
absence counts only once and wherever it stands. The main statement is that expressions that differ
in one of these ways have the same descriptor, and that a union is an optional type exactly if one
member is left beside the absence.
-/
namespace SchemaWire

/-- Items can be left out before or after repetitions are dropped. -/
theorem eraseDups_filter {α : Type} [BEq α] [LawfulBEq α] (keep : α → Bool) (items : List α) :
    (items.filter keep).eraseDups = items.eraseDups.filter keep := by
  induction items using filterInduction with
  | nil => rfl
  | cons head rest ih =>
      rw [List.eraseDups_cons]
      by_cases hkeep : keep head = true
      · rw [List.filter_cons_of_pos hkeep, List.filter_cons_of_pos hkeep, List.eraseDups_cons,
          List.filter_comm, ih]
      · have hskip : (rest.filter fun item => !item == head).filter keep = rest.filter keep := by
          rw [List.filter_filter]
          refine List.filter_congr fun item _ => ?_
          by_cases hitem : item = head
          · simp [hitem, hkeep]
          · simp [hitem]
        rw [List.filter_cons_of_neg hkeep, List.filter_cons_of_neg hkeep, ← ih, hskip]

theorem nodup_eraseDups {α : Type} [BEq α] [LawfulBEq α] (items : List α) :
    items.eraseDups.Nodup := by
  induction items using filterInduction with
  | nil => exact List.nodup_nil
  | cons head rest ih =>
      rw [List.eraseDups_cons, List.nodup_cons]
      constructor
      · simp [List.mem_eraseDups]
      · exact ih _

/-- An item that is there already adds nothing. -/
theorem eraseDups_insert_of_mem {α : Type} [BEq α] [LawfulBEq α] {item : α} {before : List α}
    (hmem : item ∈ before) (after : List α) :
    (before ++ item :: after).eraseDups = (before ++ after).eraseDups := by
  rw [List.eraseDups_append, List.eraseDups_append, List.removeAll, List.removeAll,
    List.filter_cons_of_neg (by simpa using hmem)]

namespace TypeExpr

/-- Either both expressions have the same descriptor, or neither has one. -/
def SameDescriptor (first second : TypeExpr) : Prop :=
  ∀ desc, first.classify = .ok desc ↔ second.classify = .ok desc

theorem SameDescriptor.trans {first second third : TypeExpr}
    (hfirst : SameDescriptor first second) (hsecond : SameDescriptor second third) :
    SameDescriptor first third :=
  fun desc => (hfirst desc).trans (hsecond desc)

variable {members others : List TypeExpr}

/-- A union is classified by its present members and by whether the absence is a member. -/
theorem sameDescriptor_union (hpresent : presentMembers members = presentMembers others)
    (habsence : absence ∈ flatten members ↔ absence ∈ flatten others) :
    SameDescriptor (.union members) (.union others) := by
  intro desc
  rw [classify_union_eq_ok_iff, classify_union_eq_ok_iff, hpresent, decide_eq_decide.mpr habsence]

theorem sameDescriptor_of_flatten_eq (h : flatten members = flatten others) :
    SameDescriptor (.union members) (.union others) := by
  apply sameDescriptor_union
  · rw [presentMembers, presentMembers, h]
  · rw [h]

/-- A nested union stands for its members. -/
theorem sameDescriptor_nested (before nested after : List TypeExpr) :
    SameDescriptor (.union (before ++ .union nested :: after))
      (.union (before ++ nested ++ after)) := by
  apply sameDescriptor_of_flatten_eq
  rw [flatten_append, flatten_append, flatten_append, flatten, List.append_assoc]

/-- A member that stands earlier, by itself or in a nested union, adds nothing. -/
theorem sameDescriptor_repeated {before : List TypeExpr} {member : TypeExpr}
    (hmem : member ∈ flatten before) (after : List TypeExpr) :
    SameDescriptor (.union (before ++ member :: after)) (.union (before ++ after)) := by
  have hflatten := flatten_insert before after (isUnion_of_mem_flatten hmem)
  apply sameDescriptor_union
  · rw [presentMembers, presentMembers, hflatten, eraseDups_insert_of_mem hmem, flatten_append]
  · rw [hflatten, flatten_append, List.mem_append, List.mem_append, List.mem_cons]
    constructor
    · rintro (hin | rfl | hin)
      · exact Or.inl hin
      · exact Or.inl hmem
      · exact Or.inr hin
    · exact Or.imp_right Or.inr

theorem presentMembers_eq (members : List TypeExpr) :
    presentMembers members = ((flatten members).filter fun member => member != absence).eraseDups :=
  (eraseDups_filter _ _).symm

/-- The absence is never present, wherever it stands. -/
theorem presentMembers_insert_absence (before after : List TypeExpr) :
    presentMembers (before ++ absence :: after) = presentMembers (before ++ after) := by
  rw [presentMembers_eq, presentMembers_eq, flatten_insert before after rfl, flatten_append,
    List.filter_append, List.filter_append, List.filter_cons_of_neg (by simp)]

theorem absence_mem_flatten_insert (before after : List TypeExpr) :
    absence ∈ flatten (before ++ absence :: after) := by
  rw [flatten_insert before after rfl]
  exact List.mem_append_right _ List.mem_cons_self

/-- The absence can stand anywhere. -/
theorem sameDescriptor_moved {before after before' after' : List TypeExpr}
    (hsame : before ++ after = before' ++ after') :
    SameDescriptor (.union (before ++ absence :: after))
      (.union (before' ++ absence :: after')) := by
  apply sameDescriptor_union
  · rw [presentMembers_insert_absence, presentMembers_insert_absence, hsame]
  · exact iff_of_true (absence_mem_flatten_insert _ _) (absence_mem_flatten_insert _ _)

/-- The absence counts once, also where it is repeated before its first place. -/
theorem sameDescriptor_absence_repeated {before after : List TypeExpr}
    (hmem : absence ∈ flatten (before ++ after)) :
    SameDescriptor (.union (before ++ absence :: after)) (.union (before ++ after)) := by
  apply sameDescriptor_union
  · exact presentMembers_insert_absence before after
  · exact iff_of_true (absence_mem_flatten_insert before after) hmem

/-- A union of one type is that type. -/
theorem sameDescriptor_singleton (expr : TypeExpr) : SameDescriptor (.union [expr]) expr := by
  by_cases hunion : expr.isUnion = true
  · obtain ⟨nested, rfl⟩ := exists_eq_union_of_isUnion hunion
    apply sameDescriptor_of_flatten_eq
    rw [flatten, flatten, List.append_nil]
  have hflatten : flatten [expr] = [expr] := by
    rw [flatten_cons_of_isUnion_eq_false (Bool.eq_false_iff.mpr hunion), flatten]
  intro desc
  by_cases habsence : expr = absence
  · subst habsence
    have hpresent : presentMembers [absence] = [] := by
      simp [presentMembers_eq, hflatten]
    rw [classify_union_eq_ok_iff, hpresent, hflatten, decide_eq_true List.mem_cons_self]
    simp [ofUnion_nil_iff, absence, classify, eq_comm]
  · have hpresent : presentMembers [expr] = [expr] := by
      simp [presentMembers, hflatten, List.eraseDups_cons, habsence]
    have hnullable : absence ∉ flatten [expr] := by
      simpa [hflatten] using Ne.symm habsence
    rw [classify_union_eq_ok_iff, hpresent, decide_eq_false hnullable]
    simp [List.forall₂_cons_left_iff, ofUnion_singleton_iff]

/-- A union that is an optional type has the absence and one present member. A member alone is no
optional type, as it is no union. -/
theorem exists_of_classify_optional {members : List TypeExpr} {desc : Descriptor}
    (h : (TypeExpr.union members).classify = .ok (.optional desc)) :
    ∃ member, presentMembers members = [member] ∧ member.classify = .ok desc ∧
      absence ∈ flatten members := by
  obtain ⟨parts, hparts, hof⟩ := classify_union_eq_ok_iff.mp h
  cases hof with
  | only =>
      obtain ⟨member, _, hclass, hrest, hpresent⟩ := List.forall₂_cons_right_iff.mp hparts
      have hmember : member ∈ presentMembers members := hpresent ▸ List.mem_cons_self
      cases ownsAbsence_of_mem_presentMembers hmember hclass
  | optional hnullable =>
      obtain ⟨member, _, hclass, hrest, hpresent⟩ := List.forall₂_cons_right_iff.mp hparts
      rw [List.forall₂_nil_right_iff.mp hrest] at hpresent
      exact ⟨member, hpresent, hclass, of_decide_eq_true hnullable⟩

/-- A union is an optional type exactly if its different members, those of nested unions included,
are the absence and one more. -/
theorem classify_union_eq_optional_iff (members : List TypeExpr) (desc : Descriptor) :
    (TypeExpr.union members).classify = .ok (.optional desc) ↔
      ∃ member, member ≠ absence ∧ member.classify = .ok desc ∧
        (flatten members).eraseDups.Perm [member, absence] := by
  constructor
  · intro h
    obtain ⟨member, hpresent, hclass, habsence⟩ := exists_of_classify_optional h
    have hmem : ∀ other, other ∈ flatten members ∧ other ≠ absence ↔ other = member := by
      intro other
      rw [← mem_presentMembers_iff, hpresent, List.mem_singleton]
    have hne : member ≠ absence := ((hmem member).mpr rfl).2
    refine ⟨member, hne, hclass, ?_⟩
    apply (List.perm_ext_iff_of_nodup (nodup_eraseDups _) (by simpa using hne)).mpr
    intro other
    rw [List.mem_eraseDups, List.mem_cons, List.mem_singleton, ← hmem other]
    by_cases hother : other = absence
    · simp [hother, habsence]
    · simp [hother]
  · rintro ⟨member, hne, hclass, hperm⟩
    have hpresent : presentMembers members = [member] := by
      have hfilter := hperm.filter fun other => other != absence
      rw [presentMembers]
      simpa [hne] using hfilter
    have habsence : absence ∈ flatten members :=
      List.mem_eraseDups.mp (hperm.mem_iff.mpr (by simp))
    rw [classify_union_eq_ok_iff, hpresent, decide_eq_true habsence]
    exact ⟨[desc], .cons hclass .nil, .optional rfl desc⟩

/-- The laws of unions. The members of a nested union can stand in its place, and so can the only
member of a union stand for it; a member that stands earlier can be repeated, and so can the absence
anywhere; the absence can be moved. The optional types among the unions are those of one member and
the absence. -/
theorem classify_union_laws :
    (∀ before nested after, SameDescriptor (.union (before ++ .union nested :: after))
      (.union (before ++ nested ++ after))) ∧
    (∀ before member after, member ∈ flatten before →
      SameDescriptor (.union (before ++ member :: after)) (.union (before ++ after))) ∧
    (∀ before after before' after', before ++ after = before' ++ after' →
      SameDescriptor (.union (before ++ absence :: after))
        (.union (before' ++ absence :: after'))) ∧
    (∀ before after, absence ∈ flatten (before ++ after) →
      SameDescriptor (.union (before ++ absence :: after)) (.union (before ++ after))) ∧
    (∀ expr, SameDescriptor (.union [expr]) expr) ∧
    ∀ members desc, (TypeExpr.union members).classify = .ok (.optional desc) ↔
      ∃ member, member ≠ absence ∧ member.classify = .ok desc ∧
        (flatten members).eraseDups.Perm [member, absence] := by
  refine ⟨sameDescriptor_nested, ?_, ?_, ?_, sameDescriptor_singleton,
    classify_union_eq_optional_iff⟩
  · exact fun before member after hmem => sameDescriptor_repeated hmem after
  · exact fun before after before' after' hsame => sameDescriptor_moved hsame
  · exact fun before after hmem => sameDescriptor_absence_repeated hmem

/-- A text, a number nested with the absence, then the text and the absence once more. -/
def nestedLabels : TypeExpr :=
  .union [.primitive .str, .union [.primitive .int, absence], .primitive .str, absence]

/-- The nested union opens, what is repeated goes, and the absence comes first. -/
theorem classify_union_laws_nestedLabels :
    SameDescriptor nestedLabels (.union [absence, .primitive .str, .primitive .int]) ∧
      (TypeExpr.union [.union [absence, .primitive .str], absence]).classify =
        .ok (.optional (.primitive .str)) := by
  obtain ⟨hnested, hrepeated, hmoved, habsence, _, hoptional⟩ := classify_union_laws
  constructor
  · apply (hnested [.primitive .str] [.primitive .int, absence] [.primitive .str, absence]).trans
    apply (hrepeated [.primitive .str, .primitive .int, absence] (.primitive .str) [absence]
      (mem_flatten_of_mem rfl (by simp))).trans
    apply (habsence [.primitive .str, .primitive .int, absence] []
      (mem_flatten_of_mem rfl (by simp))).trans
    exact hmoved [.primitive .str, .primitive .int] [] [] [.primitive .str, .primitive .int] rfl
  · refine (hoptional _ _).mpr ⟨.primitive .str, nofun, rfl, ?_⟩
    have hmembers : (flatten [.union [absence, .primitive .str], absence]).eraseDups =
        [absence, .primitive .str] := by
      simp [flatten, List.eraseDups_cons, absence]
    rw [hmembers]
    exact List.Perm.swap _ _ _

end TypeExpr

end SchemaWire
