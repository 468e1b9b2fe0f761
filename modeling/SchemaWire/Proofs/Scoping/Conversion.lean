import SchemaWire.Proofs.Index.Registration
import SchemaWire.Proofs.Scoping.Mention
import SchemaWire.Proofs.Wire.LocalName

/-!
The names that conversions mention. A conversion calls conversion functions of declared models,
globals and, exactly if there is a union of models at some depth, the helper that ends a dispatch.
Its lambdas bind variables that are new where they stand.
-/
namespace SchemaWire

open TypeScript (AllResolve Expr Mention Ty)

namespace TypeIndex

/-- What conversions rely on: the globals, the conversion functions and types of declared models,
the end of a dispatch if there is one, and that no local name is taken. -/
structure Provides (index : TypeIndex) (values types : List String) : Prop where
  globalValue : ∀ name ∈ globalNames, name ∈ values
  globalType : ∀ name ∈ globalNames, name ∈ types
  function : ∀ (dir : Direction) (path : ModelPath) (object : ObjectType),
    index.object? path = some object → dir.functionName object.name ∈ values
  named : ∀ path ∈ index.paths, path.shortName ∈ types
  unreachable : index.needsUnreachable = true → HelperName.unreachable ∈ values
  fresh : ∀ depth name, IsLocal depth name → name ∉ values

variable {index : TypeIndex} {values types locals : List String} {dir : Direction} {depth : Nat}

theorem Provides.resolves_global (h : index.Provides values types) {name : String}
    (hglobal : name ∈ globalNames) (hlocals : ∀ name ∈ locals, IsLocal depth name) :
    (Mention.value name locals).Resolves values types ∧
      (Mention.callee name locals).Resolves values types := by
  have hnot : name ∉ locals := fun hmem => (hlocals name hmem).not_outer.1 hglobal
  have hmem := h.globalValue name hglobal
  exact ⟨TypeScript.resolves_outer hnot hmem, hnot, hmem⟩

theorem resolves_helper {name : String} (hhelper : name ∈ HelperName.all)
    (hmem : name ∈ values) (hlocals : ∀ name ∈ locals, IsLocal depth name) :
    (Mention.callee name locals).Resolves values types :=
  ⟨fun hlocal => (hlocals name hlocal).not_outer.2.1 hhelper, hmem⟩

theorem Provides.resolves_function (h : index.Provides values types) {path : ModelPath}
    {object : ObjectType} (hobject : index.object? path = some object)
    (hlocals : ∀ name ∈ locals, IsLocal depth name) :
    (Mention.callee (dir.functionName object.name) locals).Resolves values types :=
  ⟨fun hlocal => (hlocals _ hlocal).not_outer.2.2 dir object.name rfl,
    h.function dir path object hobject⟩

theorem Provides.resolves_modelCall (h : index.Provides values types) {path : ModelPath}
    {src call : Expr} (hcall : index.modelCall dir path src = .ok call)
    (hlocals : ∀ name ∈ locals, IsLocal depth name)
    (hsrc : AllResolve values types (src.mentions locals)) :
    AllResolve values types (call.mentions locals) := by
  obtain ⟨object, hobject, rfl⟩ := modelCall_eq_ok_iff.mp hcall
  have hfunction : (Mention.callee (dir.functionName object.name) locals).Resolves
      values types := h.resolves_function hobject hlocals
  simp [hfunction, hsrc]

theorem Provides.resolves_dispatchArms (h : index.Provides values types) {field : String}
    {src expr : Expr} {arms : UnionArms} (harms : index.dispatchArms dir field src arms = .ok expr)
    (hunreachable : HelperName.unreachable ∈ values)
    (hlocals : ∀ name ∈ locals, IsLocal depth name)
    (hsrc : AllResolve values types (src.mentions locals)) :
    AllResolve values types (expr.mentions locals) := by
  induction arms generalizing expr with
  | nil =>
      cases harms
      have hend : (Mention.callee HelperName.unreachable locals).Resolves values types :=
        resolves_helper (by decide) hunreachable hlocals
      simpa using hend
  | cons arm rest ih =>
      obtain ⟨converted, otherwise, hcall, hrest, rfl⟩ := dispatchArms_cons_eq_ok_iff.mp harms
      simp [hsrc, h.resolves_modelCall hcall hlocals hsrc, ih hrest]

theorem Provides.resolves_dispatch (h : index.Provides values types) {variants : List ModelPath}
    {src expr : Expr} (hdispatch : index.dispatch dir variants src = .ok expr)
    (hunreachable : HelperName.unreachable ∈ values)
    (hlocals : ∀ name ∈ locals, IsLocal depth name)
    (hsrc : AllResolve values types (src.mentions locals)) :
    AllResolve values types (expr.mentions locals) := by
  obtain ⟨found, _, harms⟩ := bind_eq_ok_iff.mp hdispatch
  exact h.resolves_dispatchArms harms hunreachable hlocals hsrc

theorem name_mem_sourceTy {ty : Ty} (hnames : ∀ word, .name word ∈ ty.atoms → word ∈ types) :
    ∀ word, .name word ∈ (dir.sourceTy ty).atoms → word ∈ types := by
  cases dir with
  | fromWire => exact fun word hword => by cases hword
  | toWire => exact hnames

/-- The type under which the entries of a mapping are taken has the names of the mapping's type. -/
theorem name_mem_recordTy {key value : Descriptor}
    (hnames : ∀ word, .name word ∈ (Descriptor.mapping key value).render.atoms → word ∈ types) :
    ∀ word, .name word ∈ (Ty.record key.render (dir.sourceTy value.render)).atoms →
      word ∈ types := by
  intro word hword
  simp only [Ty.atoms, List.mem_cons, List.mem_append] at hword
  rcases hword with heq | hkey | hvalue
  · exact hnames word (by simp [Descriptor.render, Ty.atoms, heq])
  · exact hnames word (by simp [Descriptor.render, Ty.atoms, hkey])
  · exact name_mem_sourceTy
      (fun word hword => hnames word (by simp [Descriptor.render, Ty.atoms, hword])) word hvalue

/-- The variables of a lambda are new, inside a function and outside of it. -/
theorem Provides.new_vars (h : index.Provides values types)
    (hlocals : ∀ name ∈ locals, IsLocal depth name) :
    ∀ var ∈ [keyVar depth, valueVar depth], var ∉ locals ∧ var ∉ values := by
  have hvalue : valueVar depth ∉ locals := fun hmem => (hlocals _ hmem).ne_vars.1 rfl
  have hkey : keyVar depth ∉ locals := fun hmem => (hlocals _ hmem).ne_vars.2 rfl
  simp only [List.forall_mem_cons, List.not_mem_nil, false_implies, implies_true, and_true]
  exact ⟨⟨hkey, h.fresh _ _ (.keyVar depth)⟩, hvalue, h.fresh _ _ (.valueVar depth)⟩

theorem Provides.resolves_convertItems (h : index.Provides values types) {src body : Expr} {ty : Ty}
    (hlocals : ∀ name ∈ locals, IsLocal depth name)
    (hty : ∀ word, .name word ∈ ty.atoms → word ∈ types)
    (hsrc : AllResolve values types (src.mentions locals))
    (hbody : AllResolve values types (body.mentions (valueVar depth :: locals))) :
    AllResolve values types ((convertItems src (valueVar depth) ty body).mentions locals) := by
  have hnew := h.new_vars hlocals
  have hparam : AllResolve values types
      (TypeScript.paramMentions locals [.typed (valueVar depth) ty]) :=
    TypeScript.resolves_paramMentions (List.nodup_singleton _)
      (fun name hname => hnew name (List.mem_cons_of_mem _ hname)) (by simpa using hty)
  simp [convertItems, methodCall, TypeScript.withParams, hsrc, hparam, hbody]

theorem Provides.resolves_convertEntries (h : index.Provides values types) {src body : Expr}
    {keyTy valueTy : Ty} (hlocals : ∀ name ∈ locals, IsLocal depth name)
    (hty : ∀ word, .name word ∈ (Ty.record keyTy valueTy).atoms → word ∈ types)
    (hsrc : AllResolve values types (src.mentions locals))
    (hbody : AllResolve values types (body.mentions (valueVar depth :: keyVar depth :: locals))) :
    AllResolve values types ((convertEntries src (keyVar depth) (valueVar depth) keyTy valueTy
      body).mentions locals) := by
  have hparam : AllResolve values types
      (TypeScript.paramMentions locals [.items [keyVar depth, valueVar depth]]) :=
    TypeScript.resolves_paramMentions (by simpa using (valueVar_ne_keyVar depth depth).symm)
      (h.new_vars hlocals) (by simp)
  have hkey : (Mention.value (keyVar depth) (valueVar depth :: keyVar depth :: locals)).Resolves
      values types :=
    TypeScript.resolves_local (List.mem_cons_of_mem _ List.mem_cons_self)
      (h.fresh _ _ (.keyVar depth))
  have hobject := (h.resolves_global (by decide : "Object" ∈ globalNames) hlocals).1
  have hcast : AllResolve values types (Ty.record keyTy valueTy).mentions :=
    TypeScript.resolves_ty.mpr hty
  simp [convertEntries, methodCall, TypeScript.withParams, hobject, hsrc, hcast, hparam, hkey,
    hbody]

theorem resolves_nullGuard {src body : Expr}
    (hsrc : AllResolve values types (src.mentions locals))
    (hbody : AllResolve values types (body.mentions locals)) :
    AllResolve values types ((nullGuard src body).mentions locals) := by
  simp [nullGuard, hsrc, hbody]

theorem Provides.resolves_convertDate (h : index.Provides values types) {src : Expr}
    (hlocals : ∀ name ∈ locals, IsLocal depth name)
    (hsrc : AllResolve values types (src.mentions locals)) :
    AllResolve values types ((convertDate src dir).mentions locals) := by
  cases dir with
  | fromWire =>
      have hdate := (h.resolves_global (by decide : "Date" ∈ globalNames) hlocals).2
      simp [convertDate, millisPerSecond, hdate, hsrc]
  | toWire =>
      simpa [convertDate, millisPerSecond, methodCall] using hsrc

theorem Provides.resolves_valueVar (h : index.Provides values types) (depth : Nat)
    (outer : List String) :
    AllResolve values types
      ((Expr.ident (valueVar depth)).mentions (valueVar depth :: outer)) :=
  List.forall_mem_singleton.mpr
    (TypeScript.resolves_local List.mem_cons_self (h.fresh _ _ (.valueVar depth)))

/-- Local names stay local names inside of a lambda. -/
theorem succ_locals (hlocals : ∀ name ∈ locals, IsLocal depth name) :
    ∀ name ∈ locals, IsLocal (depth + 1) name :=
  fun name hname => (hlocals name hname).succ

/-- A conversion mentions what its source mentions, what is provided, and the variables of its
lambdas. -/
theorem Provides.resolves_convert (h : index.Provides values types) {desc : Descriptor}
    {src expr : Expr} (hconvert : index.convert dir desc src depth = .ok (some expr))
    (hunion : desc.hasUnionOfModels = true → HelperName.unreachable ∈ values)
    (hnames : ∀ word, .name word ∈ desc.render.atoms → word ∈ types)
    (hlocals : ∀ name ∈ locals, IsLocal depth name)
    (hsrc : AllResolve values types (src.mentions locals)) :
    AllResolve values types (expr.mentions locals) := by
  replace hconvert := convert_eq_some_iff.mp hconvert
  induction hconvert generalizing locals with
  | date src depth => exact h.resolves_convertDate hlocals hsrc
  | annotated _ ih => exact ih hunion hnames hlocals hsrc
  | @optional inner _ _ _ _ ih =>
      have hinner : ∀ word, .name word ∈ inner.render.atoms → word ∈ types :=
        fun word hword => hnames word (by simpa [Descriptor.render] using hword)
      exact resolves_nullGuard hsrc (ih hunion hinner (succ_locals hlocals) hsrc)
  | @list element _ _ depth _ ih =>
      have hinside : ∀ name ∈ valueVar depth :: locals, IsLocal (depth + 1) name :=
        List.forall_mem_cons.mpr ⟨.valueVar depth, succ_locals hlocals⟩
      have helement : ∀ word, .name word ∈ element.render.atoms → word ∈ types :=
        fun word hword => hnames word (by simp [Descriptor.render, Ty.atoms, hword])
      exact h.resolves_convertItems hlocals (name_mem_sourceTy helement) hsrc
        (ih hunion helement hinside (h.resolves_valueVar depth locals))
  | @mapping key value _ _ depth _ ih =>
      have hinside : ∀ name ∈ valueVar depth :: keyVar depth :: locals,
          IsLocal (depth + 1) name :=
        List.forall_mem_cons.mpr ⟨.valueVar depth,
          List.forall_mem_cons.mpr ⟨.keyVar depth, succ_locals hlocals⟩⟩
      have hvalue : ∀ word, .name word ∈ value.render.atoms → word ∈ types :=
        fun word hword => hnames word (by simp [Descriptor.render, Ty.atoms, hword])
      exact h.resolves_convertEntries hlocals (name_mem_recordTy hnames) hsrc
        (ih hunion hvalue hinside (h.resolves_valueVar depth (keyVar depth :: locals)))
  | model hcall => exact h.resolves_modelCall hcall hlocals hsrc
  | union hdispatch => exact h.resolves_dispatch hdispatch (hunion rfl) hlocals hsrc
  | nullableUnion hdispatch =>
      exact resolves_nullGuard hsrc (h.resolves_dispatch hdispatch (hunion rfl) hlocals hsrc)

theorem calls_unreachable_of_dispatchArms {field : String} {src expr : Expr} {arms : UnionArms}
    (harms : index.dispatchArms dir field src arms = .ok expr) :
    .callee HelperName.unreachable locals ∈ expr.mentions locals := by
  induction arms generalizing expr with
  | nil =>
      cases harms
      exact List.mem_cons_self
  | cons arm rest ih =>
      obtain ⟨converted, otherwise, _, hrest, rfl⟩ := dispatchArms_cons_eq_ok_iff.mp harms
      exact List.mem_append_right _ (ih hrest)

/-- Where there is a union of models at some depth, the conversion calls the helper that ends its
dispatch. -/
theorem calls_unreachable_of_convert {desc : Descriptor} {src : Expr} {result : Option Expr}
    (hconvert : index.convert dir desc src depth = .ok result)
    (hunion : desc.hasUnionOfModels = true) (locals : List String) :
    ∃ expr, result = some expr ∧
      ∃ inner, .callee HelperName.unreachable inner ∈ expr.mentions locals := by
  fun_induction TypeIndex.convert index dir desc src depth generalizing result locals with
  | case5 inner attachments src depth ih => exact ih hconvert hunion locals
  | case6 inner src depth ih =>
      obtain ⟨converted, hinner, heq⟩ := bind_eq_ok_iff.mp hconvert
      cases pure_eq_ok_iff.mp heq
      obtain ⟨body, rfl, scope, hcall⟩ := ih hinner hunion locals
      exact ⟨_, rfl, scope, by simp [nullGuard, hcall]⟩
  | case7 element src depth var =>
      rename_i ih
      obtain ⟨converted, hinner, heq⟩ := bind_eq_ok_iff.mp hconvert
      cases pure_eq_ok_iff.mp heq
      obtain ⟨body, rfl, scope, hcall⟩ := ih hinner hunion (var :: locals)
      refine ⟨_, rfl, scope, ?_⟩
      simp [convertItems, methodCall, TypeScript.withParams, hcall]
  | case8 key value src depth var =>
      rename_i ih
      obtain ⟨converted, hinner, heq⟩ := bind_eq_ok_iff.mp hconvert
      cases pure_eq_ok_iff.mp heq
      obtain ⟨body, rfl, scope, hcall⟩ := ih hinner hunion (var :: keyVar depth :: locals)
      refine ⟨_, rfl, scope, ?_⟩
      simp [convertEntries, methodCall, TypeScript.withParams, hcall]
  | case10 variants nullable src depth =>
      obtain ⟨converted, hdispatch, heq⟩ := bind_eq_ok_iff.mp hconvert
      cases pure_eq_ok_iff.mp heq
      obtain ⟨found, _, harms⟩ := bind_eq_ok_iff.mp hdispatch
      refine ⟨_, rfl, locals, ?_⟩
      have hcall : .callee HelperName.unreachable locals ∈ converted.mentions locals :=
        calls_unreachable_of_dispatchArms harms
      cases nullable <;> simp [nullGuard, hcall]
  | _ => cases hunion

theorem Provides.resolves_convertOrKeep (h : index.Provides values types) {desc : Descriptor}
    {src expr : Expr} (hconvert : index.convertOrKeep dir desc src depth = .ok expr)
    (hunion : desc.hasUnionOfModels = true → HelperName.unreachable ∈ values)
    (hnames : ∀ word, .name word ∈ desc.render.atoms → word ∈ types)
    (hlocals : ∀ name ∈ locals, IsLocal depth name)
    (hsrc : AllResolve values types (src.mentions locals)) :
    AllResolve values types (expr.mentions locals) := by
  rcases convertOrKeep_eq_ok_iff.mp hconvert with hconverted | ⟨_, rfl⟩
  · exact h.resolves_convert hconverted hunion hnames hlocals hsrc
  · exact hsrc

/-- The types of declared models are provided under their names. -/
theorem Provides.name_mem (h : index.Provides values types) (hindex : index.Consistent)
    {path : ModelPath} {object : ObjectType} (hobject : index.object? path = some object) :
    object.name ∈ types := by
  have hmem := mem_objects_of_object? hobject
  rw [hindex.named _ hmem]
  exact h.named path (List.mem_map_of_mem hmem)

/-- The types of declared fields are closed. -/
theorem Provides.name_mem_fieldTy (h : index.Provides values types) (hindex : index.Consistent)
    {path : ModelPath} {object : ObjectType} (hobject : index.object? path = some object)
    {field : ObjectField} (hfield : field ∈ object.fields) :
    ∀ word, .name word ∈ field.ty.atoms → word ∈ types := by
  intro word hword
  have hbuiltin : ∀ name ∈ ["Array", "Date", "Record"], name ∈ globalNames := by decide
  rcases hindex.name_mem_fieldTy hobject hfield hword with hmem | ⟨other, hother, rfl⟩
  · exact h.globalType word (hbuiltin word hmem)
  · exact h.named other hother

/-- The conversion of a declared field is closed wherever it stands. -/
theorem Provides.resolves_field (h : index.Provides values types) (hindex : index.Consistent)
    {path : ModelPath} {object : ObjectType} (hobject : index.object? path = some object)
    {field : ObjectField} (hfield : field ∈ object.fields) {src expr : Expr}
    (hconvert : index.convertOrKeep dir field.descriptor src depth = .ok expr)
    (hlocals : ∀ name ∈ locals, IsLocal depth name)
    (hsrc : AllResolve values types (src.mentions locals)) :
    AllResolve values types (expr.mentions locals) := by
  have hmem := mem_objects_of_object? hobject
  refine h.resolves_convertOrKeep hconvert (fun hunion => h.unreachable ?_) ?_ hlocals hsrc
  · exact List.any_eq_true.mpr ⟨_, hmem, List.any_eq_true.mpr ⟨field, hfield, hunion⟩⟩
  · rw [← hindex.rendered _ hmem field hfield]
    exact h.name_mem_fieldTy hindex hobject hfield

/-- A conversion function mentions what its root, its types and the entries of its result do. -/
theorem Converts.mentions_eq {object : ObjectType} {function : WireFunction}
    {entries : List TypeScript.ObjectEntry} (h : index.Converts dir object function entries) :
    ∃ source target : Ty,
      (∀ ty ∈ [source, target], ty = .primitive .any ∨ ty = .named object.name) ∧
      function.declared.mentions = .binding "root" [] ::
        (source.mentions ++ target.mentions ++ Expr.entryMentions ["root"] entries) := by
  obtain ⟨source, target, hparams, hresult, htyped⟩ := h.typed
  refine ⟨source, target, htyped, ?_⟩
  simp [TypeScript.Function.mentions, hparams, hresult, h.body_eq, TypeScript.paramMentions,
    TypeScript.bindings, TypeScript.withParams, TypeScript.Stmt.declaredNames]

/-- Every conversion function of the index is closed. -/
theorem Provides.resolves_wireFunction (h : index.Provides values types)
    (hindex : index.Consistent) {entry : ModelPath × WireFunction}
    (hentry : entry ∈ index.fromWire ++ index.toWire) :
    AllResolve values types entry.2.declared.mentions := by
  obtain ⟨dir, path, object, entries, hobject, hconverts⟩ := hindex.converts hentry
  obtain ⟨source, target, htyped, hmentions⟩ := hconverts.mentions_eq
  have hroot : IsLocal 1 "root" := Or.inl (by decide)
  have htypes : ∀ ty ∈ [source, target], AllResolve values types ty.mentions := by
    intro ty hty
    refine TypeScript.resolves_ty.mpr fun word hword => ?_
    rcases htyped ty hty with rfl | rfl
    · cases hword
    · cases List.mem_singleton.mp hword
      exact h.name_mem hindex hobject
  rw [hmentions, TypeScript.allResolve_cons, TypeScript.allResolve_append,
    TypeScript.allResolve_append]
  refine ⟨⟨List.not_mem_nil, h.fresh _ _ hroot⟩, ⟨htypes source List.mem_cons_self,
    htypes target (List.mem_cons_of_mem _ List.mem_cons_self)⟩, fun mention hmention => ?_⟩
  obtain ⟨property, hproperty, hin⟩ := Expr.mem_entryMentions.mp hmention
  obtain ⟨field, hfield, converted, hconverted, rfl⟩ :=
    exists_left_of_forall₂ (convertFields_eq_ok_iff.mp hconverts.entries_ok) property hproperty
  refine h.resolves_field hindex hobject hfield hconverted
    (List.forall_mem_singleton.mpr hroot) ?_ mention hin
  simpa using TypeScript.resolves_local List.mem_cons_self (h.fresh _ _ hroot)

/-- If there is a union of models in some field, the functions of its model call `unreachable`. -/
theorem Consistent.exists_calls_unreachable (hindex : index.Consistent)
    (hneeds : index.needsUnreachable = true) :
    ∃ entry ∈ index.fromWire ++ index.toWire,
      entry.2.declared.Calls HelperName.unreachable := by
  obtain ⟨⟨path, object⟩, hmem, hobject⟩ := List.any_eq_true.mp hneeds
  obtain ⟨field, hfield, hunion⟩ := List.any_eq_true.mp hobject
  obtain ⟨entry, hentry, _, hbuilt⟩ :=
    exists_right_of_forall₂ hindex.fromWire path (List.mem_map_of_mem hmem)
  obtain ⟨declared, entries, hdeclared, hconverts⟩ := wireFunction_ok hbuilt
  obtain rfl : object = declared :=
    Option.some.inj ((hindex.object?_eq_some_iff.mpr hmem).symm.trans hdeclared)
  obtain ⟨property, hproperty, converted, hconverted, rfl⟩ :=
    exists_right_of_forall₂ (convertFields_eq_ok_iff.mp hconverts.entries_ok) field hfield
  obtain ⟨result, hresult, heq⟩ := bind_eq_ok_iff.mp hconverted
  cases pure_eq_ok_iff.mp heq
  obtain ⟨expr, rfl, scope, hcall⟩ := calls_unreachable_of_convert hresult hunion ["root"]
  have hin := Expr.mem_entryMentions.mpr ⟨_, hproperty, hcall⟩
  obtain ⟨source, target, _, hmentions⟩ := hconverts.mentions_eq
  refine ⟨entry, List.mem_append_left _ hentry, scope, ?_⟩
  rw [hmentions]
  exact List.mem_cons_of_mem _ (List.mem_append_right _ hin)

end TypeIndex

end SchemaWire
