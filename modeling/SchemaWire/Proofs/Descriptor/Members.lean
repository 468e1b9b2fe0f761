import SchemaWire.Descriptor.Classify
import SchemaWire.Proofs.Result

/-!
What the classification of a union depends on. Nested unions are flattened, repeated members are
dropped and the absence is set apart; the descriptor follows from the members that are left, in
their order, and from whether the absence was among them. Proofs about all type expressions go by
induction over these flattened members.
-/
namespace SchemaWire

/-- A list has a property if it follows from what is kept of the rest, whatever is kept: repetitions
are dropped by filtering what comes after each item. -/
@[elab_as_elim]
theorem filterInduction {α : Type} {motive : List α → Prop} (nil : motive [])
    (cons : ∀ head rest, (∀ keep : α → Bool, motive (rest.filter keep)) → motive (head :: rest))
    (items : List α) : motive items :=
  match items with
  | [] => nil
  | head :: rest => cons head rest fun keep => filterInduction nil cons (rest.filter keep)
termination_by items.length
decreasing_by exact Nat.lt_succ_of_le (List.length_filter_le _ _)

/-- Repetitions can be dropped before or after a function is applied. -/
theorem eraseDupsBy_map {α β : Type} (f : α → β) (same : β → β → Bool) (items : List α) :
    (items.map f).eraseDupsBy same =
      (items.eraseDupsBy fun a b => same (f a) (f b)).map f := by
  induction items using filterInduction with
  | nil => simp
  | cons head rest ih =>
      rw [List.map_cons, List.eraseDupsBy_cons, List.eraseDupsBy_cons, List.map_cons,
        List.filter_map, ih]
      rfl

theorem mem_of_mem_eraseDupsBy {α : Type} {same : α → α → Bool} {items : List α} {item : α}
    (hmem : item ∈ items.eraseDupsBy same) : item ∈ items := by
  induction items using filterInduction with
  | nil => simp at hmem
  | cons head rest ih =>
      rw [List.eraseDupsBy_cons] at hmem
      rcases List.mem_cons.mp hmem with rfl | hrest
      · exact List.mem_cons_self
      · exact List.mem_cons_of_mem head (List.mem_filter.mp (ih _ hrest)).1

/-- Only the comparisons between the items matter. -/
theorem eraseDupsBy_congr {α : Type} {same same' : α → α → Bool} {items : List α}
    (h : ∀ a ∈ items, ∀ b ∈ items, same a b = same' a b) :
    items.eraseDupsBy same = items.eraseDupsBy same' := by
  induction items using filterInduction with
  | nil => rfl
  | cons head rest ih =>
      have hfilter : (rest.filter fun item => same item head = false) =
          rest.filter fun item => same' item head = false :=
        List.filter_congr fun item hitem => by
          rw [h item (List.mem_cons_of_mem _ hitem) head List.mem_cons_self]
      rw [List.eraseDupsBy_cons, List.eraseDupsBy_cons, hfilter, ih]
      intro a ha b hb
      exact h a (List.mem_cons_of_mem _ (List.mem_filter.mp ha).1) b
        (List.mem_cons_of_mem _ (List.mem_filter.mp hb).1)

theorem Descriptor.isModel_iff {desc : Descriptor} :
    desc.isModel = true ↔ ∃ path, desc.peel = .model path := by
  rw [isModel]
  split <;> simp_all

namespace TypeExpr

/-- Whether the members stand for those of the union around it. -/
def isUnion : TypeExpr → Bool
  | .union _ => true
  | _ => false

theorem exists_eq_union_of_isUnion {expr : TypeExpr} (h : expr.isUnion = true) :
    ∃ nested, expr = .union nested := by
  cases expr with
  | union nested => exact ⟨nested, rfl⟩
  | _ => cases h

theorem flatten_cons_of_isUnion_eq_false {member : TypeExpr} (h : member.isUnion = false)
    (rest : List TypeExpr) : flatten (member :: rest) = member :: flatten rest :=
  flatten.eq_3 _ _ fun nested heq => by cases heq; cases h

theorem flatten_append (first second : List TypeExpr) :
    flatten (first ++ second) = flatten first ++ flatten second := by
  fun_induction flatten first with
  | case1 => rfl
  | case2 nested rest _ ih => rw [List.cons_append, flatten, ih, List.append_assoc]
  | case3 member rest hnot ih => rw [List.cons_append, flatten.eq_3 _ _ hnot, ih, List.cons_append]

theorem flatten_insert (before after : List TypeExpr) {member : TypeExpr}
    (hunion : member.isUnion = false) :
    flatten (before ++ member :: after) = flatten before ++ member :: flatten after := by
  rw [flatten_append, flatten_cons_of_isUnion_eq_false hunion]

/-- No nested union is left. -/
theorem isUnion_of_mem_flatten {members : List TypeExpr} {member : TypeExpr}
    (hmem : member ∈ flatten members) : member.isUnion = false := by
  fun_induction flatten members with
  | case1 => cases hmem
  | case2 nested rest ihNested ihRest => exact (List.mem_append.mp hmem).elim ihNested ihRest
  | case3 head rest hnot ih =>
      rcases List.mem_cons.mp hmem with rfl | hin
      · apply Bool.eq_false_iff.mpr
        intro hunion
        obtain ⟨nested, heq⟩ := exists_eq_union_of_isUnion hunion
        exact hnot nested heq
      · exact ih hin

theorem mem_flatten_of_mem {members : List TypeExpr} {member : TypeExpr}
    (hunion : member.isUnion = false) (hmem : member ∈ members) : member ∈ flatten members := by
  obtain ⟨before, after, rfl⟩ := List.append_of_mem hmem
  rw [flatten_insert before after hunion]
  exact List.mem_append_right _ List.mem_cons_self

/-- An expression has a property if it follows for each shape from its parts, for a union from its
flattened members. -/
@[elab_as_elim]
theorem flatInduction {motive : TypeExpr → Prop}
    (primitive : ∀ kind, motive (.primitive kind))
    (literal : ∀ value, motive (.literal value))
    (list : ∀ element, motive element → motive (.list element))
    (dict : ∀ key value, motive key → motive value → motive (.dict key value))
    (union : ∀ members, (∀ member ∈ flatten members, motive member) → motive (.union members))
    (annotated : ∀ inner attachments, motive inner → motive (.annotated inner attachments))
    (model : ∀ path, motive (.model path)) (expr : TypeExpr) : motive expr := by
  refine (classify.mutual_induct motive (fun members => ∀ member ∈ flatten members, motive member)
    primitive literal list dict union annotated model ?nil ?nested ?member).1 expr
  case nil => simp [flatten]
  case nested =>
    intro nested rest ihNested ihRest member hmember
    rw [flatten] at hmember
    exact (List.mem_append.mp hmember).elim (ihNested member) (ihRest member)
  case member =>
    intro head rest hnot ih ihRest member hmember
    rw [flatten.eq_3 _ _ hnot] at hmember
    rcases List.mem_cons.mp hmember with rfl | hin
    · exact ih
    · exact ihRest member hin

theorem classify_dict_eq_ok_iff {key value : TypeExpr} {desc : Descriptor} :
    (TypeExpr.dict key value).classify = .ok desc ↔
      ∃ keyDesc valueDesc, key.classify = .ok keyDesc ∧ keyDesc.isMappingKey = true ∧
        value.classify = .ok valueDesc ∧ desc = .mapping keyDesc valueDesc := by
  rw [classify, bind_eq_ok_iff]
  constructor
  · rintro ⟨keyDesc, hkey, h⟩
    split at h
    · rename_i hstring
      obtain ⟨valueDesc, hvalue, h⟩ := bind_eq_ok_iff.mp h
      exact ⟨keyDesc, valueDesc, hkey, hstring, hvalue, (pure_eq_ok_iff.mp h).symm⟩
    · cases h
  · rintro ⟨keyDesc, valueDesc, hkey, hstring, hvalue, rfl⟩
    refine ⟨keyDesc, hkey, ?_⟩
    rw [if_pos hstring, hvalue]
    rfl

/-- The different members of a union other than the absence, in order. -/
def presentMembers (members : List TypeExpr) : List TypeExpr :=
  (flatten members).eraseDups.filter fun member => member != absence

def unionOfPresent (whole : TypeExpr) (nullable : Bool) : List (Gen Descriptor) → Gen Descriptor
  | [] =>
      if nullable then .ok (.primitive .absence) else .error (.unlocated whole.display .emptyUnion)
  | [only] => if nullable then Descriptor.optional <$> only else only
  | several => do
      let descs ← sequence several
      unionOfSeveral whole nullable descs

theorem mem_presentMembers_iff {members : List TypeExpr} {member : TypeExpr} :
    member ∈ presentMembers members ↔ member ∈ flatten members ∧ member ≠ absence := by
  rw [presentMembers, List.mem_filter, List.mem_eraseDups, bne_iff_ne]

/-- A union is classified through its present members. -/
theorem classify_union_eq (members : List TypeExpr) :
    classify (.union members) =
      unionOfPresent (.union members) (decide (absence ∈ flatten members))
        ((presentMembers members).map classify) := by
  have hdistinct : ((flatten members).map fun member => (member, classify member)).eraseDupsBy
      (fun a b => a.1 == b.1) =
        (flatten members).eraseDups.map fun member => (member, classify member) :=
    eraseDupsBy_map _ _ _
  have hnullable : ((flatten members).eraseDups.map fun member => (member, classify member)).any
      (fun member => member.1 == absence) = decide (absence ∈ flatten members) := by
    rw [Bool.eq_iff_iff, decide_eq_true_iff, List.any_map, List.any_eq_true]
    simp
  have hpresent : ((flatten members).eraseDups.map fun member => (member, classify member)).filter
      (fun member => member.1 != absence) =
        (presentMembers members).map fun member => (member, classify member) :=
    List.filter_map
  rw [classify_union, unionOf, hdistinct, hnullable, hpresent]
  generalize presentMembers members = present
  generalize decide (absence ∈ flatten members) = nullable
  match present, nullable with
  | [], true | [], false | [_], true | [_], false => rfl
  | _ :: _ :: _, _ => simp [unionOfPresent, Function.comp_def]

theorem sequence_eq_ok_iff {α : Type} {results : List (Gen α)} {values : List α} :
    sequence results = .ok values ↔ results = values.map .ok := by
  induction results generalizing values with
  | nil => cases values <;> simp [sequence]
  | cons result rest ih =>
      rw [sequence, bind_eq_ok_iff]
      constructor
      · rintro ⟨value, rfl, hrest⟩
        obtain ⟨others, hothers, hvalues⟩ := bind_eq_ok_iff.mp hrest
        cases pure_eq_ok_iff.mp hvalues
        rw [List.map_cons, ih.mp hothers]
      · intro hmap
        obtain ⟨value, others, rfl, hvalue, hothers⟩ := List.map_eq_cons_iff.mp hmap.symm
        exact ⟨value, hvalue.symm, bind_eq_ok_iff.mpr ⟨others, ih.mpr hothers.symm, rfl⟩⟩

/-- The two kinds of unions of several members: of models, and of scalars and literals. -/
theorem unionOfSeveral_cases {whole : TypeExpr} {nullable : Bool} {descs : List Descriptor}
    {desc : Descriptor} (h : unionOfSeveral whole nullable descs = .ok desc) :
    ((∀ part ∈ descs, part.isModel = true) ∧
        desc = .unionOfModels (modelVariants descs) nullable) ∨
      (∀ part ∈ descs, (part.isSafePrimitive || part.isLiteral) = true) ∧
        desc = .unionOfScalars descs nullable := by
  unfold unionOfSeveral at h
  split at h
  · rename_i hmodels
    cases h
    exact Or.inl ⟨List.all_eq_true.mp hmodels, rfl⟩
  · split at h
    · rename_i hscalars
      cases h
      exact Or.inr ⟨List.all_eq_true.mp hscalars, rfl⟩
    · split at h <;> cases h

/-- How the descriptor of a union comes from the descriptors of its present members. -/
inductive OfUnion (nullable : Bool) : List Descriptor → Descriptor → Prop where
  | absence (h : nullable = true) : OfUnion nullable [] (.primitive .absence)
  | only (h : nullable = false) (part : Descriptor) : OfUnion nullable [part] part
  | optional (h : nullable = true) (part : Descriptor) : OfUnion nullable [part] (.optional part)
  | models {parts : List Descriptor} (hlength : 2 ≤ parts.length)
      (h : ∀ part ∈ parts, part.isModel = true) :
      OfUnion nullable parts (.unionOfModels (modelVariants parts) nullable)
  | scalars {parts : List Descriptor} (hlength : 2 ≤ parts.length)
      (h : ∀ part ∈ parts, (part.isSafePrimitive || part.isLiteral) = true) :
      OfUnion nullable parts (.unionOfScalars parts nullable)

theorem ofUnion_nil_iff {nullable : Bool} {desc : Descriptor} :
    OfUnion nullable [] desc ↔ nullable = true ∧ desc = .primitive .absence := by
  constructor
  · intro h
    cases h with
    | absence hnullable => exact ⟨hnullable, rfl⟩
    | models hlength | scalars hlength => simp at hlength
  · rintro ⟨hnullable, rfl⟩
    exact .absence hnullable

theorem ofUnion_singleton_iff {nullable : Bool} {part desc : Descriptor} :
    OfUnion nullable [part] desc ↔ desc = if nullable then .optional part else part := by
  constructor
  · intro h
    cases h with
    | only hnullable => simp [hnullable]
    | optional hnullable => simp [hnullable]
    | models hlength | scalars hlength => simp at hlength
  · rintro rfl
    cases nullable with
    | true => exact .optional rfl part
    | false => exact .only rfl part

theorem isModel_eq_false_of_scalar {desc : Descriptor}
    (h : (desc.isSafePrimitive || desc.isLiteral) = true) : desc.isModel = false := by
  rw [Descriptor.isSafePrimitive, Descriptor.isLiteral] at h
  rw [Descriptor.isModel]
  cases hpeel : desc.peel with
  | model path => simp [hpeel] at h
  | _ => rfl

theorem unionOfSeveral_eq_ok_iff {whole : TypeExpr} {nullable : Bool} {parts : List Descriptor}
    {desc : Descriptor} (hlength : 2 ≤ parts.length) :
    unionOfSeveral whole nullable parts = .ok desc ↔ OfUnion nullable parts desc := by
  constructor
  · intro h
    rcases unionOfSeveral_cases h with ⟨hmodels, rfl⟩ | ⟨hscalars, rfl⟩
    · exact .models hlength hmodels
    · exact .scalars hlength hscalars
  · intro h
    cases h with
    | absence | only | optional => simp at hlength
    | models _ hmodels => rw [unionOfSeveral, if_pos (List.all_eq_true.mpr hmodels)]
    | scalars _ hscalars =>
        have hsome : ¬ parts.all Descriptor.isModel = true := by
          obtain ⟨first, rest, rfl⟩ := List.exists_cons_of_length_pos (Nat.lt_of_succ_lt hlength)
          simp [isModel_eq_false_of_scalar (hscalars first List.mem_cons_self)]
        rw [unionOfSeveral, if_neg hsome, if_pos (List.all_eq_true.mpr hscalars)]

theorem unionOfPresent_eq_ok_iff {whole : TypeExpr} {nullable : Bool}
    {results : List (Gen Descriptor)} {desc : Descriptor} :
    unionOfPresent whole nullable results = .ok desc ↔
      ∃ parts, results = parts.map .ok ∧ OfUnion nullable parts desc := by
  constructor
  · intro h
    match results, nullable, h with
    | [], true, h =>
        cases h
        exact ⟨[], rfl, .absence rfl⟩
    | [only], true, h =>
        obtain ⟨part, rfl, rfl⟩ := map_eq_ok_iff.mp h
        exact ⟨[part], rfl, .optional rfl part⟩
    | [only], false, h => exact ⟨[desc], by rw [show only = .ok desc from h]; rfl, .only rfl desc⟩
    | first :: second :: rest, nullable, h =>
        obtain ⟨parts, hparts, hseveral⟩ := bind_eq_ok_iff.mp h
        have hmap := sequence_eq_ok_iff.mp hparts
        have hlength := congrArg List.length hmap
        rw [List.length_map, List.length_cons, List.length_cons] at hlength
        exact ⟨parts, hmap, (unionOfSeveral_eq_ok_iff (by omega)).mp hseveral⟩
  · rintro ⟨parts, rfl, h⟩
    match parts, h with
    | [], h =>
        obtain ⟨hnullable, rfl⟩ := ofUnion_nil_iff.mp h
        rw [List.map_nil, unionOfPresent, if_pos hnullable]
    | [part], h =>
        obtain rfl := ofUnion_singleton_iff.mp h
        cases nullable <;> rfl
    | first :: second :: rest, h =>
        refine bind_eq_ok_iff.mpr ⟨first :: second :: rest, sequence_eq_ok_iff.mpr rfl, ?_⟩
        exact (unionOfSeveral_eq_ok_iff (by simp)).mpr h

/-- The descriptor of a union follows from the descriptors of its present members and from whether
the absence is one of its members; without a descriptor for each of them it has none. -/
theorem classify_union_eq_ok_iff {members : List TypeExpr} {desc : Descriptor} :
    (TypeExpr.union members).classify = .ok desc ↔
      ∃ parts, List.Forall₂ (fun member part => classify member = .ok part)
        (presentMembers members) parts ∧
          OfUnion (decide (absence ∈ flatten members)) parts desc := by
  rw [classify_union_eq, unionOfPresent_eq_ok_iff]
  refine exists_congr fun parts => and_congr_left' ?_
  rw [← List.forall₂_eq_eq_eq, List.forall₂_map_left_iff, List.forall₂_map_right_iff]

end TypeExpr

end SchemaWire
