import SchemaWire.Proofs.Semantics.Program
import SchemaWire.Proofs.Semantics.Record

/-!
What conversions return. An object literal never has a property under the key of the prototype, so
a value that a conversion returns is made of records of plain models only.
-/
namespace SchemaWire

open TypeScript (Env Expr Fault Operand Value invoke)

/-- A record that an object literal denotes has no field under the key of the prototype. -/
theorem not_mem_names_of_ofLiteral {fields : List ObjectField} {get : ObjectField → Value}
    {results : List (String × Value)} (h : recordOf fields get = .ofLiteral results) :
    Value.prototypeKey ∉ fields.map ObjectField.name := by
  intro hmem
  have hkeys := (mem_keys_recordOf (rfl : recordOf fields get = .object _)).mpr hmem
  exact Value.prototypeKey_not_mem_of_ofLiteral h.symm hkeys

namespace TypeIndex

variable {index : TypeIndex} {form : Form} {dir : Direction} {path : ModelPath}
  {object : ObjectType} {value : Value}

/-- The value is one that a conversion by the descriptor returns. -/
def Yields (index : TypeIndex) (dir : Direction) (desc : Descriptor) (value : Value) : Prop :=
  ∃ src depth limit env result, Env.IsLocal env ∧ index.convert dir desc src depth = .ok result ∧
    (result.getD src).eval (invoke index.program limit) env = .ok (.value value)

namespace Yields

/-- A variable yields its value where no conversion is needed. -/
theorem of_variable {desc : Descriptor} {var : String}
    (hvar : var.toList.head? ∈ [some 'r', some 'v', some 'k']) {depth : Nat}
    (hconvert : index.convert dir desc (.ident var) depth = .ok none) (value : Value) :
    index.Yields dir desc value := by
  have hlocal : Env.IsLocal [(var, value)] := Env.IsLocal.cons (by simp [Env.IsLocal]) hvar value
  exact ⟨.ident var, depth, 0, [(var, value)], none, hlocal, hconvert,
    TypeScript.eval_ident_of_lookup List.lookup_cons_self⟩

theorem optional {inner : Descriptor} (h : index.Yields dir (.optional inner) value) :
    value = .null ∨ index.Yields dir inner value := by
  obtain ⟨src, depth, limit, env, result, henv, hconvert, heval⟩ := h
  obtain ⟨converted, hinner, heq⟩ := bind_eq_ok_iff.mp hconvert
  cases pure_eq_ok_iff.mp heq
  cases converted with
  | none => exact Or.inr ⟨src, _, limit, env, none, henv, hinner, heval⟩
  | some expr =>
      obtain ⟨found, _, ⟨_, heq⟩ | ⟨_, hpresent⟩⟩ := TypeScript.eval_nullGuard_eq_ok_iff.mp heval
      · exact Or.inl (Operand.value.inj heq)
      · exact Or.inr ⟨src, _, limit, env, some expr, henv, hinner, hpresent⟩

theorem list {element : Descriptor} {items : List Value}
    (h : index.Yields dir (.list element) (.list items)) :
    ∀ item ∈ items, index.Yields dir element item := by
  obtain ⟨src, depth, limit, env, result, henv, hconvert, heval⟩ := h
  obtain ⟨converted, hinner, heq⟩ := bind_eq_ok_iff.mp hconvert
  cases pure_eq_ok_iff.mp heq
  have hvar := TypeScript.head?_valueVar_mem depth
  intro item hitem
  cases converted with
  | none => exact of_variable hvar hinner item
  | some expr =>
      obtain ⟨arguments, results, _, hresults, heq⟩ :=
        TypeScript.eval_convertItems_eq_ok_iff.mp heval
      cases Operand.value.inj heq
      obtain ⟨argument, _, hitem⟩ := exists_left_of_forall₂ hresults item hitem
      exact ⟨_, _, limit, _, some expr, henv.cons hvar argument, hinner, hitem⟩

theorem mapping {key desc : Descriptor} {entries : List (String × Value)}
    (h : index.Yields dir (.mapping key desc) (.object entries)) :
    ∀ entry ∈ entries, index.Yields dir desc entry.2 := by
  obtain ⟨src, depth, limit, env, result, henv, hconvert, heval⟩ := h
  obtain ⟨converted, hinner, heq⟩ := bind_eq_ok_iff.mp hconvert
  cases pure_eq_ok_iff.mp heq
  have hvar := TypeScript.head?_valueVar_mem depth
  have hkey := TypeScript.head?_keyVar_mem depth
  intro entry hentry
  cases converted with
  | none => exact of_variable hvar hinner entry.2
  | some expr =>
      obtain ⟨found, arguments, results, _, _, hresults, heq⟩ :=
        (TypeScript.eval_convertEntries_eq_ok_iff henv).mp heval
      cases Operand.value.inj heq
      obtain ⟨argument, _, _, hentry⟩ :=
        exists_left_of_forall₂ hresults entry (Value.mem_of_mem_sortEntries hentry)
      exact ⟨_, _, limit, _, some expr, (henv.cons hvar argument.2).cons hkey _, hinner, hentry⟩

/-- What the conversion by a model yields, its conversion function returns. -/
theorem model (h : index.Yields dir (.model path) value)
    (hobject : index.object? path = some object) :
    ∃ limit found, invoke index.program limit (dir.functionName object.name) found =
      .ok value := by
  obtain ⟨src, depth, limit, env, result, henv, hconvert, heval⟩ := h
  obtain ⟨expr, hexpr, rfl⟩ := map_eq_ok_iff.mp hconvert
  obtain ⟨declared, hdeclared, rfl⟩ := modelCall_eq_ok_iff.mp hexpr
  obtain rfl := Option.some.inj (hobject.symm.trans hdeclared)
  obtain ⟨found, result, _, hcall, heq⟩ := (eval_functionCall_eq_ok_iff henv).mp heval
  cases Operand.value.inj heq
  exact ⟨limit, found, hcall⟩

end Yields

/-- A field of a returned record is what the conversion of the field yields. -/
theorem Sound.yields_recordOf (hsound : index.Sound) (hobject : index.object? path = some object)
    (hnames : (object.fields.map ObjectField.name).Nodup) {get : ObjectField → Value}
    (h : index.Yields dir (.model path) (recordOf object.fields get)) :
    Value.prototypeKey ∉ object.fields.map ObjectField.name ∧
      ∀ field ∈ object.fields, index.Yields dir field.descriptor (get field) := by
  obtain ⟨limit, found, hcall⟩ := h.model hobject
  obtain ⟨inner, results, rfl, hresults, heq⟩ := (hsound.invoke_eq_ok_iff hobject).mp hcall
  have hplain := not_mem_names_of_ofLiteral heq
  refine ⟨hplain, fun field hfield => ?_⟩
  have hname : field.name ≠ Value.prototypeKey := by
    intro hname
    exact hplain (hname ▸ List.mem_map_of_mem hfield)
  obtain ⟨value, hlookup, _, converted, hconverted, heval⟩ :=
    exists_lookup_of_convertsField hnames hresults heq.symm hfield hname
  rw [lookup_sortEntries_fields hnames hfield] at hlookup
  cases hlookup
  obtain ⟨result, hresult, heq⟩ := bind_eq_ok_iff.mp hconverted
  cases pure_eq_ok_iff.mp heq
  exact ⟨_, 1, inner, _, result, by simp [Env.IsLocal], hresult, heval⟩

theorem Sound.prototypeKey_not_mem_of_invoke (hsound : index.Sound)
    (hobject : index.object? path = some object) {limit : Nat} {found : Value}
    {entries : List (String × Value)}
    (hcall : invoke index.program limit (dir.functionName object.name) found =
      .ok (.object entries)) :
    Value.prototypeKey ∉ entries.map Prod.fst := by
  obtain ⟨_, results, _, _, heq⟩ := (hsound.invoke_eq_ok_iff hobject).mp hcall
  exact Value.prototypeKey_not_mem_of_ofLiteral heq.symm

/-- A conversion function passes a literal field on. -/
theorem Sound.lookup_of_invoke (hsound : index.Sound) (hobject : index.object? path = some object)
    (hnames : (object.fields.map ObjectField.name).Nodup) {field : String} {mark : LiteralValue}
    (hmarked : object.Marked field mark) (hfield : field ≠ Value.prototypeKey) {limit : Nat}
    {found : Value} {entries : List (String × Value)}
    (hcall : invoke index.program limit (dir.functionName object.name) found =
      .ok (.object entries)) :
    ∃ value, entries.lookup field = some value ∧
      (Operand.value found).member field = .ok (.value value) := by
  obtain ⟨inner, results, rfl, hresults, heq⟩ := (hsound.invoke_eq_ok_iff hobject).mp hcall
  obtain ⟨first, rest, hfirst, rfl, hpeel⟩ := hmarked
  have hmem : first ∈ object.fields := by
    rw [hfirst]
    exact List.mem_cons_self
  obtain ⟨value, hlookup, _, converted, hconverted, heval⟩ :=
    exists_lookup_of_convertsField hnames hresults heq.symm hmem hfield
  refine ⟨value, hlookup, ?_⟩
  obtain ⟨result, hresult, heq⟩ := bind_eq_ok_iff.mp hconverted
  cases pure_eq_ok_iff.mp heq
  have hkept := Descriptor.isPassthrough_of_peel hpeel
  obtain rfl := Except.ok.inj
    ((convert_of_isPassthrough index dir hkept _ 1).symm.trans hresult)
  rw [Option.getD_none, Expr.eval, TypeScript.eval_ident_of_lookup List.lookup_cons_self] at heval
  exact heval

/-- A union yields a variant through the conversion function of this variant. -/
theorem Sound.yields_variant (hsound : index.Sound)
    (hnames : ∀ path object, index.object? path = some object →
      (object.fields.map ObjectField.name).Nodup)
    {variants : List ModelPath} {nullable : Bool} (hmem : path ∈ variants)
    (hmodel : Conforms index form (.model path) value)
    (h : index.Yields dir (.unionOfModels variants nullable) value) :
    index.Yields dir (.model path) value := by
  obtain ⟨src, depth, limit, env, result, henv, hconvert, heval⟩ := h
  obtain ⟨expr, hdispatch, heq⟩ := bind_eq_ok_iff.mp hconvert
  cases pure_eq_ok_iff.mp heq
  obtain ⟨⟨field, arms⟩, hdisc, harms⟩ := bind_eq_ok_iff.mp hdispatch
  obtain ⟨hnodup, hmarks, hpaths⟩ := discriminant_arms hdisc
  have hresult : expr.eval (invoke index.program limit) env = .ok (.value value) := by
    cases nullable with
    | false => exact heval
    | true =>
        obtain ⟨found, _, ⟨_, heq⟩ | ⟨_, hpresent⟩⟩ := TypeScript.eval_nullGuard_eq_ok_iff.mp heval
        · exact absurd (Operand.value.inj heq) hmodel.ne_null
        · exact hpresent
  obtain ⟨other, hother, converted, hcall, hmember, hconverted⟩ :=
    (eval_dispatchArms_eq_ok_iff hnodup harms).mp hresult
  obtain ⟨arm, harm, rfl⟩ := List.mem_map.mp (hpaths ▸ hmem)
  obtain ⟨object, hobject, hmarked⟩ := hmarks arm harm
  obtain ⟨entries, rfl, hlookup⟩ := hmodel.lookup_of_marked hobject (hnames _ _ hobject) hmarked
  obtain ⟨chosen, hchosen, hchosenMarked⟩ := hmarks other hother
  obtain ⟨declared, hdeclared, rfl⟩ := modelCall_eq_ok_iff.mp hcall
  obtain rfl := Option.some.inj (hchosen.symm.trans hdeclared)
  obtain ⟨found, _, hfound, hinvoke, heq⟩ := (eval_functionCall_eq_ok_iff henv).mp hconverted
  cases Operand.value.inj heq
  have hfield : field ≠ Value.prototypeKey := by
    rintro rfl
    exact hsound.prototypeKey_not_mem_of_invoke hchosen hinvoke
      (exists_lookup_iff_mem_keys.mp ⟨_, hlookup⟩)
  obtain ⟨kept, hkept, hread⟩ :=
    hsound.lookup_of_invoke hchosen (hnames _ _ hchosen) hchosenMarked hfield hinvoke
  -- the mark that chose the function is the mark of the record that the function returned
  obtain rfl := Option.some.inj (hlookup.symm.trans hkept)
  rw [Expr.eval, hfound] at hmember
  have hsame := Except.ok.inj (hread.symm.trans hmember)
  have hmark := LiteralValue.scalar_injective (Value.scalar.inj (Operand.value.inj hsame))
  obtain rfl := List.inj_on_of_nodup_map hnodup harm hother hmark
  exact ⟨src, depth, limit, env, _, henv, map_eq_ok_iff.mpr ⟨_, hcall, rfl⟩, hconverted⟩

theorem Sound.conforms_plain (hsound : index.Sound)
    (hnames : ∀ path object, index.object? path = some object →
      (object.fields.map ObjectField.name).Nodup)
    {desc : Descriptor} (h : Conforms index form desc value) (hwell : desc.WellFormed)
    (hyields : index.Yields dir desc value) : Conforms index.plain form desc value := by
  induction h with
  | scalar hadmits => exact .scalar hadmits
  | instant htime => exact .instant htime
  | literal value => exact .literal value
  | absent inner => exact .absent inner
  | @present inner value _ ih =>
      rcases hyields.optional with rfl | hinner
      · exact .absent inner
      · exact .present (ih hwell.2 hinner)
  | list _ ih => exact .list fun item hitem => ih item hitem hwell (hyields.list item hitem)
  | mapping hascending _ ih =>
      refine .mapping hascending fun entry hentry => ?_
      exact ih entry hentry hwell.2.2 (hyields.mapping entry hentry)
  | annotated _ ih => exact .annotated (ih hwell hyields)
  | @model path object get hobject _ ih =>
      obtain ⟨hplain, hfields⟩ :=
        hsound.yields_recordOf hobject (hnames path object hobject) hyields
      refine .model (hsound.object?_plain_eq_some_iff.mpr ⟨hobject, hplain⟩) fun field hfield => ?_
      have hdesc := hsound.wellFormed _ (mem_objects_of_object? hobject) field hfield
      exact ih field hfield hdesc (hfields field hfield)
  | variant hmem hmodel ih =>
      exact .variant hmem (ih trivial (hsound.yields_variant hnames hmem hmodel hyields))
  | noVariant variants => exact .noVariant variants
  | @member variants nullable desc value hmem _ ih =>
      obtain ⟨hmember, hkept⟩ := Descriptor.passthrough_of_safe (hwell.2 _ hmem)
      have hvar := TypeScript.head?_valueVar_mem 0
      have hconvert := convert_of_isPassthrough index dir hkept (.ident (valueVar 0)) 0
      exact .member hmem (ih hmember (.of_variable hvar hconvert value))
  | noMember variants => exact .noMember variants

end TypeIndex

end SchemaWire
