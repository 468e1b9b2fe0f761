import SchemaWire.Proofs.Descriptor.Part
import SchemaWire.Proofs.Index.Diagnostics

/-!
The two directions of a conversion go together. Whether a conversion does something, and why it
cannot be built, can be read off the descriptor and the index alone: neither the direction nor the
expression or the depth has a say in it. So nothing is converted in one direction only.
-/
namespace SchemaWire

open TypeScript (Expr)

namespace Descriptor

/-- A shape with other values on the wire than in the program: a date, a model or a union of
models. -/
def hasWireForm : Descriptor → Bool
  | primitive kind => kind = .datetime
  | model _ | unionOfModels _ _ => true
  | _ => false

/-- Whether such a shape stands outside the keys of mappings. Scalars and their unions have none. -/
def isConverted : Descriptor → Bool
  | primitive kind => kind = .datetime
  | literal _ | unionOfScalars _ _ => false
  | optional inner | list inner | annotated inner _ => inner.isConverted
  | mapping _ value => value.isConverted
  | model _ | unionOfModels _ _ => true

/-- The first descriptor stands somewhere inside the second, outside the keys of mappings, or is the
second. -/
inductive ValuePart : Descriptor → Descriptor → Prop where
  | self (desc : Descriptor) : ValuePart desc desc
  | optional {part inner : Descriptor} (h : ValuePart part inner) :
      ValuePart part (.optional inner)
  | list {part element : Descriptor} (h : ValuePart part element) : ValuePart part (.list element)
  | value {part value : Descriptor} (h : ValuePart part value) (key : Descriptor) :
      ValuePart part (.mapping key value)
  | annotated {part inner : Descriptor} (h : ValuePart part inner)
      (attachments : List Attachment) : ValuePart part (.annotated inner attachments)
  | member {part variant : Descriptor} {variants : List Descriptor} (h : ValuePart part variant)
      (hmem : variant ∈ variants) (nullable : Bool) :
      ValuePart part (.unionOfScalars variants nullable)

variable {part desc : Descriptor}

theorem ValuePart.toPart (h : part.ValuePart desc) : part.Part desc := by
  induction h with
  | self => exact .self _
  | optional _ ih => exact .optional ih
  | list _ ih => exact .list ih
  | value _ key ih => exact .value ih key
  | annotated _ attachments ih => exact .annotated ih attachments
  | member _ hmem nullable ih => exact .member ih hmem nullable

theorem hasWireForm_peel (h : desc.hasWireForm = true) : desc.peel = desc := by
  cases desc <;> first | rfl | cases h

theorem isConverted_of_hasWireForm (h : desc.hasWireForm = true) : desc.isConverted = true := by
  cases desc <;> first | exact h | cases h

/-- Safe scalars and literals are the same on the wire, and so is everything inside them. -/
theorem Part.hasWireForm_eq_false (h : part.Part desc)
    (hscalar : (desc.isSafePrimitive || desc.isLiteral) = true) : part.hasWireForm = false := by
  rw [Bool.eq_false_iff]
  intro hform
  have hpeel : part = desc.peel := (hasWireForm_peel hform).symm.trans (h.peel_eq hscalar)
  rw [isSafePrimitive, isLiteral, ← hpeel] at hscalar
  cases part with
  | primitive kind =>
      obtain rfl : kind = .datetime := of_decide_eq_true hform
      exact absurd hscalar (by decide)
  | literal value => cases hform
  | _ => cases hscalar

theorem ValuePart.isConverted (h : part.ValuePart desc) (hwell : desc.WellFormed)
    (hform : part.hasWireForm = true) : desc.isConverted = true := by
  induction h with
  | self => exact isConverted_of_hasWireForm hform
  | optional _ ih => exact ih hwell.2
  | list _ ih => exact ih hwell
  | value _ key ih => exact ih hwell.2.2
  | annotated _ attachments ih => exact ih hwell
  | member hpart hmem nullable =>
      rw [hpart.toPart.hasWireForm_eq_false (hwell.2 _ hmem)] at hform
      cases hform

theorem exists_valuePart_of_isConverted (h : desc.isConverted = true) :
    ∃ part : Descriptor, part.ValuePart desc ∧ part.hasWireForm = true := by
  fun_induction Descriptor.isConverted desc with
  | case1 kind => exact ⟨_, .self _, h⟩
  | case2 | case3 => cases h
  | case4 inner ih =>
      obtain ⟨part, hpart, hform⟩ := ih h
      exact ⟨part, .optional hpart, hform⟩
  | case5 element ih =>
      obtain ⟨part, hpart, hform⟩ := ih h
      exact ⟨part, .list hpart, hform⟩
  | case6 inner attachments ih =>
      obtain ⟨part, hpart, hform⟩ := ih h
      exact ⟨part, .annotated hpart attachments, hform⟩
  | case7 key value ih =>
      obtain ⟨part, hpart, hform⟩ := ih h
      exact ⟨part, .value hpart key, hform⟩
  | case8 | case9 => exact ⟨_, .self _, rfl⟩

/-- Something is converted exactly if some part outside the keys of mappings has a wire form. -/
theorem isConverted_iff (hwell : desc.WellFormed) :
    desc.isConverted = true ↔ ∃ part : Descriptor, part.ValuePart desc ∧ part.hasWireForm = true :=
  ⟨exists_valuePart_of_isConverted, fun ⟨_, hpart, hform⟩ => hpart.isConverted hwell hform⟩

end Descriptor

namespace TypeIndex

variable {index : TypeIndex} {dir : Direction}

/-- What building a conversion comes to: whether there is something to convert, or why it cannot be
converted. -/
def outcome (index : TypeIndex) : Descriptor → Gen Bool
  | .primitive kind => .ok (kind = .datetime)
  | .literal _ | .unionOfScalars _ _ => .ok false
  | .optional inner | .list inner | .annotated inner _ => index.outcome inner
  | .mapping _ value => index.outcome value
  | .model path => (fun _ => true) <$> index.requireObject path
  | .unionOfModels variants _ => (fun _ => true) <$> index.discriminant variants

theorem isSome_bind_map {α β : Type} (x : Gen (Option α)) (f : α → β) :
    Option.isSome <$> (do let converted ← x; return converted.map f) = Option.isSome <$> x := by
  cases x with
  | error fault => rfl
  | ok converted => cases converted <;> rfl

theorem map_modelCall (path : ModelPath) (src : Expr) :
    (fun _ => true) <$> index.modelCall dir path src =
      (fun _ => true) <$> index.requireObject path := by
  rw [modelCall]
  cases index.requireObject path <;> rfl

theorem map_dispatch (variants : List ModelPath) (src : Expr) :
    (fun _ => true) <$> index.dispatch dir variants src =
      (fun _ => true) <$> index.discriminant variants := by
  cases hdispatch : index.dispatch dir variants src with
  | error fault => rw [discriminant_of_dispatch_error hdispatch]; rfl
  | ok result =>
      obtain ⟨found, hfound, _⟩ := bind_eq_ok_iff.mp hdispatch
      rw [hfound]
      rfl

/-- Neither the direction nor the converted expression nor the depth decides what becomes of a
conversion. -/
theorem isSome_convert (index : TypeIndex) (dir : Direction) (desc : Descriptor) (src : Expr)
    (depth : Nat) : Option.isSome <$> index.convert dir desc src depth = index.outcome desc := by
  fun_induction TypeIndex.convert index dir desc src depth with
  | case1 src depth => rfl
  | case2 kind src depth hkind =>
      rw [convertScalar_primitive hkind, outcome, decide_eq_false hkind]
      rfl
  | case3 value src depth => rfl
  | case4 variants nullable src depth => rfl
  | case5 inner attachments src depth ih => exact ih
  | case6 inner src depth ih => exact (isSome_bind_map _ _).trans ih
  | case7 element src depth var ih => exact (isSome_bind_map _ _).trans ih
  | case8 key value src depth var ih => exact (isSome_bind_map _ _).trans ih
  | case9 path src depth => exact (comp_map _ _ _).symm.trans (map_modelCall path src)
  | case10 variants nullable src depth =>
      rw [outcome, ← map_dispatch variants src]
      cases index.dispatch dir variants src <;> rfl

/-- A conversion that can be built does something exactly if the descriptor asks for it. -/
theorem outcome_ok {desc : Descriptor} {does : Bool} (h : index.outcome desc = .ok does) :
    does = desc.isConverted := by
  fun_induction TypeIndex.outcome index desc with
  | case1 kind => exact (Except.ok.inj h).symm
  | case2 | case3 => exact (Except.ok.inj h).symm
  | case4 inner ih | case5 inner ih | case6 inner attachments ih | case7 key inner ih => exact ih h
  | case8 path | case9 variants nullable =>
      obtain ⟨_, _, rfl⟩ := map_eq_ok_iff.mp h
      rfl

theorem requireObject_eq_error_iff {path : ModelPath} {fault : GenError} :
    index.requireObject path = .error fault ↔
      index.object? path = none ∧ fault = .unknownModel path := by
  unfold requireObject
  cases index.object? path <;> simp [eq_comm]

theorem discriminantFrom_error {union : String} {field : Option String} {earlier : UnionArms}
    {variants : List ModelPath} {fault : GenError}
    (h : index.discriminantFrom union field earlier variants = .error fault) :
    (∃ path ∈ variants, index.object? path = none ∧ fault = .unknownModel path) ∨
      ∃ reason, fault = .ambiguousDiscriminant union reason := by
  induction variants generalizing field earlier with
  | nil =>
      cases field with
      | none =>
          cases h
          exact Or.inr ⟨_, rfl⟩
      | some name => cases h
  | cons path rest ih =>
      rcases bind_eq_error_iff.mp h with hmissing | ⟨object, _, h⟩
      · obtain ⟨hobject, rfl⟩ := requireObject_eq_error_iff.mp hmissing
        exact Or.inl ⟨path, List.mem_cons_self, hobject, rfl⟩
      · split at h
        · cases h
          exact Or.inr ⟨_, rfl⟩
        · rcases ih h with ⟨other, hother, hfault⟩ | hfault
          · exact Or.inl ⟨other, List.mem_cons_of_mem _ hother, hfault⟩
          · exact Or.inr hfault

/-- What cannot be converted mentions a model that is not declared, or holds a union whose variants
cannot be told apart. -/
theorem outcome_error {desc : Descriptor} {fault : GenError}
    (h : index.outcome desc = .error fault) :
    (∃ path ∈ desc.modelMentions, index.object? path = none ∧ fault = .unknownModel path) ∨
      ∃ variants ∈ desc.modelUnions, index.discriminant variants = .error fault ∧
        ∃ reason, fault = .ambiguousDiscriminant (unionDisplay variants) reason := by
  fun_induction TypeIndex.outcome index desc with
  | case1 | case2 | case3 => cases h
  | case4 inner ih | case5 inner ih | case6 inner attachments ih => exact ih h
  | case7 key value ih =>
      rcases ih h with ⟨path, hpath, hfault⟩ | ⟨variants, hvariants, hfault⟩
      · exact Or.inl ⟨path, List.mem_append_right _ hpath, hfault⟩
      · exact Or.inr ⟨variants, List.mem_append_right _ hvariants, hfault⟩
  | case8 path =>
      have hmissing := requireObject_eq_error_iff.mp (map_eq_error_iff.mp h)
      exact Or.inl ⟨path, List.mem_cons_self, hmissing⟩
  | case9 variants nullable =>
      have hdisc := map_eq_error_iff.mp h
      rcases discriminantFrom_error hdisc with hmissing | hambiguous
      · exact Or.inl hmissing
      · exact Or.inr ⟨variants, List.mem_cons_self, hdisc, hambiguous⟩

/-- Both directions of a conversion fail alike, or both succeed and then both do something or both
do nothing, as `Descriptor.isConverted` has it for every descriptor. For a well-formed one this is
to have a date, a model or a union of models outside the keys of mappings; an ill-formed union of
scalars may hold a date, which is not looked for. They fail only for a model that is not declared or
a union without a discriminant. -/
theorem convert_alike (index : TypeIndex) (desc : Descriptor) (src : Expr) (depth : Nat) :
    (∀ fault, index.convert .fromWire desc src depth = .error fault ↔
      index.convert .toWire desc src depth = .error fault) ∧
    (∀ rich wire, index.convert .fromWire desc src depth = .ok rich →
      index.convert .toWire desc src depth = .ok wire →
        (rich = none ↔ wire = none) ∧ (rich = none ↔ desc.isConverted = false)) ∧
    (desc.WellFormed → (desc.isConverted = true ↔
      ∃ part : Descriptor, part.ValuePart desc ∧ part.hasWireForm = true)) ∧
    ∀ dir fault, index.convert dir desc src depth = .error fault →
      (∃ path ∈ desc.modelMentions, index.object? path = none ∧ fault = .unknownModel path) ∨
        ∃ variants ∈ desc.modelUnions, index.discriminant variants = .error fault ∧
          ∃ reason, fault = .ambiguousDiscriminant (unionDisplay variants) reason := by
  have hfault dir fault : index.convert dir desc src depth = .error fault ↔
      index.outcome desc = .error fault := by
    rw [← isSome_convert index dir desc src depth, map_eq_error_iff]
  have hnone dir result (h : index.convert dir desc src depth = .ok result) :
      result = none ↔ desc.isConverted = false := by
    have hdoes : index.outcome desc = .ok result.isSome := by
      rw [← isSome_convert index dir desc src depth, h]
      rfl
    rw [← outcome_ok hdoes, Option.isSome_eq_false_iff, Option.isNone_iff_eq_none]
  refine ⟨fun fault => (hfault _ fault).trans (hfault _ fault).symm, ?_,
    Descriptor.isConverted_iff, fun dir fault h => outcome_error ((hfault dir fault).mp h)⟩
  intro rich wire hrich hwire
  exact ⟨(hnone _ rich hrich).trans (hnone _ wire hwire).symm, hnone _ rich hrich⟩

/-- Optional dates by name are converted in both directions, and a list of a model that is not
declared in neither. -/
theorem convert_alike_dates_by_name :
    (∃ part : Descriptor, part.ValuePart (.mapping (.primitive .str)
        (.optional (.primitive .datetime))) ∧ part.hasWireForm = true) ∧
      ∃ path ∈ (Descriptor.list (.model ⟨"app.User"⟩)).modelMentions,
        empty.convert .toWire (.list (.model ⟨"app.User"⟩)) (.ident "root") 1 =
          .error (.unknownModel path) := by
  have hdates := convert_alike empty
    (.mapping (.primitive .str) (.optional (.primitive .datetime))) (.ident "root") 1
  have hlist := convert_alike empty (.list (.model ⟨"app.User"⟩)) (.ident "root") 1
  have herror : empty.convert .toWire (.list (.model ⟨"app.User"⟩)) (.ident "root") 1 =
      .error (.unknownModel ⟨"app.User"⟩) := rfl
  refine ⟨(hdates.2.2.1 ⟨rfl, trivial, rfl, trivial⟩).mp rfl, ?_⟩
  rcases hlist.2.2.2 .toWire _ herror with ⟨path, hpath, _, heq⟩ | ⟨_, hvariants, _⟩
  · exact ⟨path, hpath, herror.trans (congrArg Except.error heq)⟩
  · cases hvariants

end TypeIndex

end SchemaWire
