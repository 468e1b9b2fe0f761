import Mathlib.Data.Set.Finite.List
import Mathlib.Order.Filter.AtTopBot.Finite
import SchemaWire.Proofs.Semantics.Program
import SchemaWire.Proofs.Semantics.Record

/-!
Conversions reach the corresponding value. The conversion by a descriptor takes any expression for
the one form of a value to an expression for the other form, one lemma for each shape; calls have to
be nested deep enough for the records in the value.
-/
namespace SchemaWire

open TypeScript (Env Expr Fault Operand Value invoke)

namespace TypeIndex

variable {index : TypeIndex} {dir : Direction} {call : String → Value → Except Fault Value}
  {desc : Descriptor} {source target : Value}

/-- The conversion by the descriptor takes expressions for the one value to expressions for the
other. -/
def Transfers (index : TypeIndex) (dir : Direction) (call : String → Value → Except Fault Value)
    (desc : Descriptor) (source target : Value) : Prop :=
  ∀ src depth env result, Env.IsLocal env → index.convert dir desc src depth = .ok result →
    src.eval call env = .ok (.value source) →
      (result.getD src).eval call env = .ok (.value target)

namespace Transfers

theorem of_convert_eq (h : ∀ src depth, index.convert dir desc src depth = .ok none)
    (value : Value) : index.Transfers dir call desc value value := by
  intro src depth env result _ hconvert hsrc
  obtain rfl := Except.ok.inj ((h src depth).symm.trans hconvert)
  exact hsrc

theorem instant {time : Int} (htime : IsInstant time) :
    index.Transfers dir call (.primitive .datetime) (dir.source.instant time)
      (dir.target.instant time) := by
  intro src depth env result henv hconvert hsrc
  cases hconvert
  exact eval_convertDate henv htime hsrc

theorem absent (inner : Descriptor) : index.Transfers dir call (.optional inner) .null .null := by
  intro src depth env result _ hconvert hsrc
  obtain ⟨converted, _, heq⟩ := bind_eq_ok_iff.mp hconvert
  cases pure_eq_ok_iff.mp heq
  cases converted with
  | none => exact hsrc
  | some expr => exact TypeScript.eval_nullGuard_eq_ok_iff.mpr ⟨_, hsrc, Or.inl ⟨rfl, rfl⟩⟩

theorem present {inner : Descriptor} (h : index.Transfers dir call inner source target)
    (hnull : source = .null ↔ target = .null) :
    index.Transfers dir call (.optional inner) source target := by
  intro src depth env result henv hconvert hsrc
  obtain ⟨converted, hinner, heq⟩ := bind_eq_ok_iff.mp hconvert
  cases pure_eq_ok_iff.mp heq
  have htarget := h src (depth + 1) env converted henv hinner hsrc
  cases converted with
  | none => exact htarget
  | some expr =>
      refine TypeScript.eval_nullGuard_eq_ok_iff.mpr ⟨source, hsrc, ?_⟩
      by_cases hsource : source = .null
      · exact Or.inl ⟨hsource, by rw [hnull.mp hsource]⟩
      · exact Or.inr ⟨hsource, htarget⟩

/-- The conversion of the contents of a container, applied to the variable that holds them. -/
theorem eval_variable (h : index.Transfers dir call desc source target) {env : Env}
    (henv : env.IsLocal) {var : String} (hvar : env.lookup var = some source) {depth : Nat}
    {converted : Option Expr}
    (hconvert : index.convert dir desc (.ident var) depth = .ok converted) :
    (converted.getD (.ident var)).eval call env = .ok (.value target) :=
  h _ depth env converted henv hconvert (TypeScript.eval_ident_of_lookup hvar)

/-- Where the contents need no conversion, they stay the same. -/
theorem eq_of_convert_eq_none (h : index.Transfers dir call desc source target) {var : String}
    (hvar : var.toList.head? ∈ [some 'r', some 'v', some 'k']) {depth : Nat}
    (hconvert : index.convert dir desc (.ident var) depth = .ok none) : source = target := by
  have hlocal : Env.IsLocal [(var, source)] := Env.IsLocal.cons (by simp [Env.IsLocal]) hvar source
  have hlookup : List.lookup var [(var, source)] = some source := List.lookup_cons_self
  have heval := h.eval_variable hlocal hlookup hconvert
  rw [Option.getD_none, TypeScript.eval_ident_of_lookup hlookup] at heval
  exact Operand.value.inj (Except.ok.inj heval)

theorem list {element : Descriptor} {pairs : List (Value × Value)}
    (h : ∀ pair ∈ pairs, index.Transfers dir call element pair.1 pair.2) :
    index.Transfers dir call (.list element) (.list (pairs.map Prod.fst))
      (.list (pairs.map Prod.snd)) := by
  intro src depth env result henv hconvert hsrc
  obtain ⟨converted, hinner, heq⟩ := bind_eq_ok_iff.mp hconvert
  cases pure_eq_ok_iff.mp heq
  have hvar := TypeScript.head?_valueVar_mem depth
  cases converted with
  | none =>
      have hsame : pairs.map Prod.fst = pairs.map Prod.snd :=
        List.map_congr_left fun pair hpair => (h pair hpair).eq_of_convert_eq_none hvar hinner
      rw [← hsame]
      exact hsrc
  | some expr =>
      refine TypeScript.eval_convertItems_eq_ok_iff.mpr ⟨_, _, hsrc, ?_, rfl⟩
      rw [List.forall₂_map_left_iff, List.forall₂_map_right_iff, List.forall₂_same]
      intro pair hpair
      exact (h pair hpair).eval_variable (henv.cons hvar pair.1) List.lookup_cons_self hinner

theorem mapping {key value : Descriptor} {entries : List (String × Value × Value)}
    (hascending : entries.Pairwise fun a b => a.1 < b.1)
    (h : ∀ entry ∈ entries, index.Transfers dir call value entry.2.1 entry.2.2) :
    index.Transfers dir call (.mapping key value)
      (.object (entries.map fun entry => (entry.1, entry.2.1)))
      (.object (entries.map fun entry => (entry.1, entry.2.2))) := by
  intro src depth env result henv hconvert hsrc
  obtain ⟨converted, hinner, heq⟩ := bind_eq_ok_iff.mp hconvert
  cases pure_eq_ok_iff.mp heq
  have hvar := TypeScript.head?_valueVar_mem depth
  have hkey := TypeScript.head?_keyVar_mem depth
  cases converted with
  | none =>
      have hsame : entries.map (fun entry => (entry.1, entry.2.1)) =
          entries.map fun entry => (entry.1, entry.2.2) :=
        List.map_congr_left fun entry hentry => by
          rw [(h entry hentry).eq_of_convert_eq_none hvar hinner]
      rw [← hsame]
      exact hsrc
  | some expr =>
      have htargets : (entries.map fun entry => (entry.1, entry.2.2)).Pairwise
          fun a b => a.1 < b.1 := by
        rw [List.pairwise_map]
        exact hascending
      have hsorted : Value.ofEntries (entries.map fun entry => (entry.1, entry.2.2)) =
          .object (entries.map fun entry => (entry.1, entry.2.2)) := by
        rw [Value.ofEntries, Value.sortEntries_of_ascending htargets]
      rw [← hsorted]
      refine (TypeScript.eval_convertEntries_eq_ok_iff henv).mpr ⟨_, _, _, hsrc, rfl, ?_, rfl⟩
      rw [List.forall₂_map_left_iff, List.forall₂_map_right_iff, List.forall₂_same]
      intro entry hentry
      have hlookup : List.lookup (valueVar depth)
          ((keyVar depth, .scalar (.string entry.1)) :: (valueVar depth, entry.2.1) :: env) =
            some entry.2.1 := by
        rw [SortedMap.lookup_cons_of_ne (valueVar_ne_keyVar depth depth), List.lookup_cons_self]
      refine ⟨rfl, ?_⟩
      exact (h entry hentry).eval_variable ((henv.cons hvar entry.2.1).cons hkey _) hlookup hinner

theorem model {path : ModelPath} {object : ObjectType}
    (hobject : index.object? path = some object)
    (hcall : call (dir.functionName object.name) source = .ok target) :
    index.Transfers dir call (.model path) source target := by
  intro src depth env result henv hconvert hsrc
  obtain ⟨expr, hexpr, rfl⟩ := map_eq_ok_iff.mp hconvert
  obtain ⟨declared, hdeclared, rfl⟩ := modelCall_eq_ok_iff.mp hexpr
  obtain rfl := Option.some.inj (hobject.symm.trans hdeclared)
  exact (eval_functionCall_eq_ok_iff henv).mpr ⟨source, target, hsrc, hcall, rfl⟩

theorem call_eq_ok {path : ModelPath} {object : ObjectType}
    (h : index.Transfers dir call (.model path) source target)
    (hobject : index.object? path = some object) :
    call (dir.functionName object.name) source = .ok target := by
  have hlocal : Env.IsLocal [("root", source)] := by simp [Env.IsLocal]
  have hlookup : List.lookup "root" [("root", source)] = some source := List.lookup_cons_self
  have hconvert : index.convert dir (.model path) (.ident "root") 0 =
      .ok (some (.call (.ident (dir.functionName object.name)) [.ident "root"])) :=
    map_eq_ok_iff.mpr ⟨_, modelCall_eq_ok_iff.mpr ⟨object, hobject, rfl⟩, rfl⟩
  have heval := h.eval_variable hlocal hlookup hconvert
  obtain ⟨found, result, hfound, hcall, heq⟩ := (eval_functionCall_eq_ok_iff hlocal).mp heval
  rw [TypeScript.eval_ident_of_lookup hlookup] at hfound
  cases hfound
  cases heq
  exact hcall

theorem noVariant (variants : List ModelPath) :
    index.Transfers dir call (.unionOfModels variants true) .null .null := by
  intro src depth env result _ hconvert hsrc
  obtain ⟨converted, _, heq⟩ := bind_eq_ok_iff.mp hconvert
  cases pure_eq_ok_iff.mp heq
  exact TypeScript.eval_nullGuard_eq_ok_iff.mpr ⟨_, hsrc, Or.inl ⟨rfl, rfl⟩⟩

/-- A variant is found by its mark. -/
theorem variant {variants : List ModelPath} {path : ModelPath}
    (h : index.Transfers dir call (.model path) source target) (hmem : path ∈ variants)
    (hmark : ∀ field mark, index.Marks field path mark → ∃ entries, source = .object entries ∧
      entries.lookup field = some (.scalar mark.scalar)) (nullable : Bool) :
    index.Transfers dir call (.unionOfModels variants nullable) source target := by
  intro src depth env result henv hconvert hsrc
  obtain ⟨converted, hdispatch, heq⟩ := bind_eq_ok_iff.mp hconvert
  cases pure_eq_ok_iff.mp heq
  obtain ⟨⟨field, arms⟩, hdisc, harms⟩ := bind_eq_ok_iff.mp hdispatch
  obtain ⟨hnodup, hmarks, hpaths⟩ := discriminant_arms hdisc
  obtain ⟨arm, harm, rfl⟩ := List.mem_map.mp (hpaths ▸ hmem)
  obtain ⟨entries, rfl, hlookup⟩ := hmark field arm.2 (hmarks arm harm)
  obtain ⟨object, hobject, _⟩ := hmarks arm harm
  have hcall : index.modelCall dir arm.1 src =
      .ok (.call (.ident (dir.functionName object.name)) [src]) :=
    modelCall_eq_ok_iff.mpr ⟨object, hobject, rfl⟩
  have hmember := TypeScript.eval_member_of_lookup hsrc hlookup
  have hmodel := h src depth env _ henv (map_eq_ok_iff.mpr ⟨_, hcall, rfl⟩) hsrc
  have htarget := (eval_dispatchArms_eq_ok_iff hnodup harms).mpr
    ⟨arm, harm, _, hcall, hmember, hmodel⟩
  cases nullable with
  | false => exact htarget
  | true =>
      refine TypeScript.eval_nullGuard_eq_ok_iff.mpr ⟨_, hsrc, Or.inr ⟨?_, htarget⟩⟩
      simp [Value.null]

end Transfers

/-- The conversion function of a model converts a record if the conversions of its fields do. -/
theorem Sound.invoke_recordOf (hsound : index.Sound) {path : ModelPath} {object : ObjectType}
    (hobject : index.object? path = some object)
    (hnames : (object.fields.map ObjectField.name).Nodup)
    (hplain : Value.prototypeKey ∉ object.fields.map ObjectField.name)
    {before after : ObjectField → Value} {depth : Nat}
    (h : ∀ field ∈ object.fields, index.Transfers dir (invoke index.program depth)
      field.descriptor (before field) (after field)) :
    invoke index.program (depth + 1) (dir.functionName object.name)
      (recordOf object.fields before) = .ok (recordOf object.fields after) := by
  have hkeys : Value.prototypeKey ∉
      (object.fields.map fun field => (field.name, after field)).map Prod.fst := by
    rw [List.map_map]
    exact hplain
  refine (hsound.invoke_eq_ok_iff hobject).mpr ⟨depth, _, rfl, ?_,
    (Value.ofLiteral_of_not_mem hkeys).symm⟩
  rw [List.forall₂_map_right_iff, List.forall₂_same]
  intro field hfield
  obtain ⟨converted, hconverted⟩ := hsound.exists_convert_field hobject hfield dir
  refine ⟨rfl, _, bind_eq_ok_iff.mpr ⟨converted, hconverted, rfl⟩, ?_⟩
  have hroot : (Expr.ident "root").eval (invoke index.program depth)
      [("root", recordOf object.fields before)] =
        .ok (.value (recordOf object.fields before)) :=
    TypeScript.eval_ident_of_lookup List.lookup_cons_self
  exact h field hfield _ _ _ _ (by simp [Env.IsLocal]) hconverted
    (TypeScript.eval_member_of_lookup hroot (lookup_sortEntries_fields hnames hfield before))

theorem eventually_forall_mem {α : Type} {items : List α} {holds : Nat → α → Prop}
    (h : ∀ item ∈ items, ∀ᶠ depth in Filter.atTop, holds depth item) :
    ∀ᶠ depth in Filter.atTop, ∀ item ∈ items, holds depth item :=
  (Filter.eventually_all_finite items.finite_toSet).mpr h

theorem eventually_succ {holds : Nat → Prop}
    (h : ∀ᶠ depth in Filter.atTop, holds (depth + 1)) : ∀ᶠ depth in Filter.atTop, holds depth := by
  rw [← Filter.map_add_atTop_eq_nat 1]
  exact h

/-- With calls nested deep enough, every value is converted to the value it corresponds to. -/
theorem Sound.eventually_transfers (hsound : index.Sound)
    (hnames : ∀ path object, index.object? path = some object →
      (object.fields.map ObjectField.name).Nodup)
    (h : Corresponds index.plain dir desc source target) (hwell : desc.WellFormed) :
    ∀ᶠ depth in Filter.atTop,
      index.Transfers dir (invoke index.program depth) desc source target := by
  induction h with
  | @scalar kind value hadmits =>
      have hkind : ∀ src depth, index.convert dir (.primitive kind) src depth = .ok none := by
        cases kind with
        | datetime => cases hadmits
        | _ => exact fun _ _ => rfl
      exact .of_forall fun _ => .of_convert_eq hkind _
  | instant htime => exact .of_forall fun _ => .instant htime
  | literal value => exact .of_forall fun _ => .of_convert_eq (fun _ _ => rfl) _
  | absent inner => exact .of_forall fun _ => .absent inner
  | present hinner ih => exact (ih hwell.2).mono fun _ h => h.present hinner.null_iff
  | list _ ih =>
      exact (eventually_forall_mem fun pair hpair => ih pair hpair hwell).mono fun _ => .list
  | mapping hascending _ ih =>
      exact (eventually_forall_mem fun entry hentry => ih entry hentry hwell.2.2).mono
        fun _ => .mapping hascending
  | annotated _ ih => exact ih hwell
  | @model path object before after hobject _ ih =>
      obtain ⟨hdeclared, hplain⟩ := hsound.object?_plain_eq_some_iff.mp hobject
      have hfields : ∀ field ∈ object.fields, ∀ᶠ depth in Filter.atTop, index.Transfers dir
          (invoke index.program depth) field.descriptor (before field) (after field) := by
        intro field hfield
        exact ih field hfield (hsound.wellFormed _ (mem_objects_of_object? hdeclared) field hfield)
      refine eventually_succ ((eventually_forall_mem hfields).mono fun depth h => ?_)
      have hnodup := hnames path object hdeclared
      exact .model hdeclared (hsound.invoke_recordOf hdeclared hnodup hplain h)
  | @variant variants nullable path source target hmem hmodel ih =>
      have hmark : ∀ field mark, index.Marks field path mark → ∃ entries,
          source = .object entries ∧ entries.lookup field = some (.scalar mark.scalar) := by
        rintro field mark ⟨object, hobject, hmarked⟩
        have hconforms := hmodel.conforms_source.mono hsound.extends_plain
        exact hconforms.lookup_of_marked hobject (hnames path object hobject) hmarked
      exact (ih trivial).mono fun _ h => h.variant hmem hmark nullable
  | noVariant variants => exact .of_forall fun _ => .noVariant variants
  | member hmem hvalue _ =>
      obtain ⟨hmember, hkept⟩ := Descriptor.passthrough_of_safe (hwell.2 _ hmem)
      rw [hvalue.eq_of_isPassthrough hmember hkept]
      exact .of_forall fun _ => .of_convert_eq (fun _ _ => rfl) _
  | noMember variants => exact .of_forall fun _ => .of_convert_eq (fun _ _ => rfl) _

end TypeIndex

end SchemaWire
