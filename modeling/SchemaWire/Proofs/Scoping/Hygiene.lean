import SchemaWire.Proofs.Scoping.Mention
import SchemaWire.Proofs.Wire.Conversion
import SchemaWire.Proofs.Wire.LocalName

/-!
Conversions are hygienic. What a conversion mentions is its source, a number of times, and what it
adds around it. The source always stands outside of all lambdas of the conversion, whatever names it
uses; the lambdas bind new variables that are numbered from the depth on; and all else that is
mentioned comes from outside.
-/
namespace SchemaWire

namespace TypeScript

/-- A name is free in an expression: it is mentioned where no local name of the expression
hides it. -/
def Expr.IsFree (expr : Expr) (name : String) : Prop :=
  ∃ scope, name ∉ scope ∧ (.value name scope ∈ expr.mentions [] ∨
    .callee name scope ∈ expr.mentions [] ∨ .word name scope ∈ expr.mentions [])

/-- Mentions that are some copies of those of a source and others that are added to them. -/
def ConsistOf (copies : Nat) (source added mentions : List Mention) : Prop :=
  mentions.Perm ((List.replicate copies source).flatten ++ added)

namespace ConsistOf

variable {copies more : Nat} {source added others mentions rest : List Mention}

theorem copy (source : List Mention) : ConsistOf 1 source [] source := by
  simp [ConsistOf]

theorem addition (source added : List Mention) : ConsistOf 0 source added added :=
  List.Perm.refl _

theorem append (h : ConsistOf copies source added mentions)
    (hrest : ConsistOf more source others rest) :
    ConsistOf (copies + more) source (added ++ others) (mentions ++ rest) := by
  refine (List.Perm.append h hrest).trans ?_
  rw [List.replicate_add, List.flatten_append, List.append_assoc, List.append_assoc]
  exact (List.perm_append_comm_assoc _ _ _).append_left _

theorem mem_iff (h : ConsistOf copies source added mentions) (hcopies : 0 < copies)
    {mention : Mention} : mention ∈ mentions ↔ mention ∈ source ∨ mention ∈ added := by
  rw [List.Perm.mem_iff h, List.mem_append, List.mem_flatten]
  simp [List.mem_replicate, Nat.ne_of_gt hcopies]

end ConsistOf

end TypeScript

open TypeScript (ConsistOf Expr Mention Ty)

/-- The variable of a lambda at a depth, or deeper. -/
def IsLambdaVar (depth : Nat) (name : String) : Prop :=
  ∃ level, depth ≤ level ∧ (name = valueVar level ∨ name = keyVar level)

namespace IsLambdaVar

variable {depth : Nat} {name : String}

theorem of_eq (h : name = valueVar depth ∨ name = keyVar depth) : IsLambdaVar depth name :=
  ⟨depth, Nat.le_refl depth, h⟩

theorem of_succ (h : IsLambdaVar (depth + 1) name) : IsLambdaVar depth name := by
  obtain ⟨level, hlevel, heq⟩ := h
  exact ⟨level, Nat.le_of_succ_le hlevel, heq⟩

/-- A deeper lambda has other variables. -/
theorem ne_vars (h : IsLambdaVar (depth + 1) name) :
    ¬ (name = valueVar depth ∨ name = keyVar depth) := by
  obtain ⟨level, hlevel, rfl | rfl⟩ := h
  · rintro (heq | heq)
    · exact absurd (valueVar_inj.mp heq) (Nat.ne_of_gt hlevel)
    · exact valueVar_ne_keyVar level depth heq
  · rintro (heq | heq)
    · exact valueVar_ne_keyVar depth level heq.symm
    · exact absurd (keyVar_inj.mp heq) (Nat.ne_of_gt hlevel)

/-- The variables of lambdas hide no global, helper or conversion function. -/
theorem not_outer (h : IsLambdaVar depth name) :
    name ∉ globalNames ∧ name ∉ HelperName.all ∧
      ∀ (dir : Direction) (typeName : String), name ≠ dir.functionName typeName := by
  obtain ⟨level, _, heq⟩ := h
  exact @IsLocal.not_outer (level + 1) name (Or.inr ⟨level, Nat.lt_succ_self level, heq⟩)

end IsLambdaVar

namespace TypeIndex

/-- What a conversion may call: the class of dates, the end of a dispatch, and the conversion
functions of declared models. -/
def IsCallable (index : TypeIndex) (dir : Direction) (name : String) : Prop :=
  name = "Date" ∨ name = HelperName.unreachable ∨
    ∃ path object, index.object? path = some object ∧ name = dir.functionName object.name

/-- A mention that a conversion at a depth adds around its source, with `locals` in scope around the
conversion: `inner` are the variables of the lambdas in between. -/
inductive Adds (index : TypeIndex) (dir : Direction) (depth : Nat) (locals : List String) :
    Mention → Prop where
  | binding {name : String} {inner : List String} (hname : IsLambdaVar depth name)
      (hinner : ∀ other ∈ inner, IsLambdaVar depth other) (hnew : name ∉ inner) :
      Adds index dir depth locals (.binding name (inner ++ locals))
  | lambdaVar {name : String} {inner : List String}
      (hinner : ∀ other ∈ inner, IsLambdaVar depth other) (hmem : name ∈ inner) :
      Adds index dir depth locals (.value name (inner ++ locals))
  | object {inner : List String} (hinner : ∀ other ∈ inner, IsLambdaVar depth other) :
      Adds index dir depth locals (.value "Object" (inner ++ locals))
  | call {name : String} {inner : List String}
      (hinner : ∀ other ∈ inner, IsLambdaVar depth other) (hname : index.IsCallable dir name) :
      Adds index dir depth locals (.callee name (inner ++ locals))
  | type (name : String) : Adds index dir depth locals (.type name)

variable {index : TypeIndex} {dir : Direction} {depth : Nat} {locals : List String}
  {mention : Mention}

theorem IsCallable.not_isLambdaVar {name : String} (h : index.IsCallable dir name) :
    ¬ IsLambdaVar depth name := by
  intro hvar
  obtain ⟨hglobal, hhelper, hfunction⟩ := hvar.not_outer
  rcases h with rfl | rfl | ⟨path, object, _, rfl⟩
  · exact hglobal (by decide)
  · exact hhelper (by decide)
  · exact hfunction dir object.name rfl

/-- What is added inside a lambda is added around it, with its variables in between. -/
theorem Adds.around {vars : List String}
    (hvars : ∀ var ∈ vars, var = valueVar depth ∨ var = keyVar depth)
    (h : index.Adds dir (depth + 1) (vars ++ locals) mention) :
    index.Adds dir depth locals mention := by
  have hinner {inner : List String} (hdeep : ∀ other ∈ inner, IsLambdaVar (depth + 1) other) :
      ∀ other ∈ inner ++ vars, IsLambdaVar depth other :=
    List.forall_mem_append.mpr
      ⟨fun other hother => (hdeep other hother).of_succ, fun var hvar => .of_eq (hvars var hvar)⟩
  cases h with
  | binding hname hdeep hnew =>
      rw [← List.append_assoc]
      refine .binding hname.of_succ (hinner hdeep) fun hmem => ?_
      exact (List.mem_append.mp hmem).elim hnew fun hvar => hname.ne_vars (hvars _ hvar)
  | lambdaVar hdeep hmem =>
      rw [← List.append_assoc]
      exact .lambdaVar (hinner hdeep) (List.mem_append_left _ hmem)
  | object hdeep =>
      rw [← List.append_assoc]
      exact .object (hinner hdeep)
  | call hdeep hname =>
      rw [← List.append_assoc]
      exact .call (hinner hdeep) hname
  | type name => exact .type name

theorem Adds.of_succ (h : index.Adds dir (depth + 1) locals mention) :
    index.Adds dir depth locals mention :=
  @Adds.around _ _ _ _ _ [] (List.forall_mem_nil _) h

theorem adds_call {name : String} (h : index.IsCallable dir name) :
    index.Adds dir depth locals (.callee name locals) :=
  @Adds.call _ _ _ _ name [] (List.forall_mem_nil _) h

theorem adds_object : index.Adds dir depth locals (.value "Object" locals) :=
  @Adds.object _ _ _ _ [] (List.forall_mem_nil _)

theorem adds_ty (ty : Ty) : ∀ mention ∈ ty.mentions, index.Adds dir depth locals mention := by
  intro mention hmention
  obtain ⟨word, _, rfl⟩ := TypeScript.mem_mentions_ty.mp hmention
  exact .type word

/-- Whatever its source is, a conversion mentions the source a number of times, in the scope of the
whole conversion, and besides what it adds. -/
def Surrounds (index : TypeIndex) (dir : Direction) (desc : Descriptor) (depth : Nat)
    (locals : List String) (copies : Nat) (added : List Mention) : Prop :=
  (∀ mention ∈ added, index.Adds dir depth locals mention) ∧
    ∀ src expr, index.convert dir desc src depth = .ok (some expr) →
      ConsistOf copies (src.mentions locals) added (expr.mentions locals)

theorem modelCall_consistOf {path : ModelPath} {object : ObjectType}
    (hobject : index.object? path = some object) (locals : List String) {src expr : Expr}
    (h : index.modelCall dir path src = .ok expr) :
    ConsistOf 1 (src.mentions locals) [.callee (dir.functionName object.name) locals]
      (expr.mentions locals) := by
  obtain ⟨found, hfound, rfl⟩ := modelCall_eq_ok_iff.mp h
  cases hobject.symm.trans hfound
  simpa using (ConsistOf.addition (src.mentions locals)
    [.callee (dir.functionName object.name) locals]).append (.copy (src.mentions locals))

/-- Each arm has two copies of the source, one in its test and one in its call. -/
theorem exists_consistOf_dispatchArms {field : String} {src expr : Expr} {arms : UnionArms}
    (harms : index.dispatchArms dir field src arms = .ok expr) (depth : Nat)
    (locals : List String) :
    ∃ added, (∀ mention ∈ added, index.Adds dir depth locals mention) ∧
      ∀ other result, index.dispatchArms dir field other arms = .ok result →
        ConsistOf (2 * arms.length) (other.mentions locals) added (result.mentions locals) := by
  induction arms generalizing expr with
  | nil =>
      refine ⟨[.callee HelperName.unreachable locals], ?_, fun other result hresult => ?_⟩
      · exact List.forall_mem_singleton.mpr (adds_call (Or.inr (Or.inl rfl)))
      · cases hresult
        exact .addition _ _
  | cons arm rest ih =>
      obtain ⟨converted, otherwise, hcall, hrest, _⟩ := dispatchArms_cons_eq_ok_iff.mp harms
      obtain ⟨object, hobject, _⟩ := modelCall_eq_ok_iff.mp hcall
      obtain ⟨added, hadded, hlater⟩ := ih hrest
      have hfunction : index.IsCallable dir (dir.functionName object.name) :=
        Or.inr (Or.inr ⟨arm.1, object, hobject, rfl⟩)
      refine ⟨.callee (dir.functionName object.name) locals :: added,
        List.forall_mem_cons.mpr ⟨adds_call hfunction, hadded⟩, fun other result hresult => ?_⟩
      obtain ⟨call, last, hcall, hlast, rfl⟩ := dispatchArms_cons_eq_ok_iff.mp hresult
      have harm := ((ConsistOf.copy (other.mentions locals)).append
        (modelCall_consistOf hobject locals hcall)).append (hlater other last hlast)
      simpa [Nat.mul_succ, Nat.add_comm] using harm

/-- A union has at least one arm, so that its dispatch has copies of the source. -/
theorem exists_consistOf_dispatch {variants : List ModelPath} {src expr : Expr}
    (h : index.dispatch dir variants src = .ok expr) (depth : Nat) (locals : List String) :
    ∃ copies added, 0 < copies ∧ (∀ mention ∈ added, index.Adds dir depth locals mention) ∧
      ∀ other result, index.dispatch dir variants other = .ok result →
        ConsistOf copies (other.mentions locals) added (result.mentions locals) := by
  obtain ⟨⟨field, arms⟩, hfound, harms⟩ := bind_eq_ok_iff.mp h
  obtain ⟨added, hadded, hcopies⟩ := exists_consistOf_dispatchArms harms depth locals
  have hlength : arms.length = variants.length := by
    rw [← (discriminant_arms hfound).2.2, List.length_map]
  have hvariants := List.length_pos_iff.mpr (discriminant_eq_ok_iff.mp hfound).1
  refine ⟨2 * arms.length, added, by omega, hadded, fun other result hresult => ?_⟩
  obtain ⟨found, hother, hresult⟩ := bind_eq_ok_iff.mp hresult
  cases hfound.symm.trans hother
  exact hcopies other result hresult

/-- The absent value is told apart by one more copy of the source. -/
theorem consistOf_nullGuard {copies : Nat} {src body : Expr} {added : List Mention}
    (h : ConsistOf copies (src.mentions locals) added (body.mentions locals)) :
    ConsistOf (1 + copies) (src.mentions locals) added ((nullGuard src body).mentions locals) := by
  simpa [nullGuard] using (ConsistOf.copy (src.mentions locals)).append h

/-- The list is mentioned outside of the lambda that is mapped over it. -/
theorem consistOf_convertItems (src body : Expr) (var : String) (ty : Ty) :
    ConsistOf 1 (src.mentions locals)
      (TypeScript.paramMentions locals [.typed var ty] ++ body.mentions ([var] ++ locals))
      ((convertItems src var ty body).mentions locals) := by
  simpa [convertItems, methodCall, TypeScript.withParams] using
    (ConsistOf.copy (src.mentions locals)).append (.addition _ _)

/-- The mapping is mentioned outside of the lambda that is mapped over its entries. -/
theorem consistOf_convertEntries (src body : Expr) (key value : String) (keyTy valueTy : Ty) :
    ConsistOf 1 (src.mentions locals)
      ([.value "Object" locals, .value "Object" locals] ++ ((Ty.record keyTy valueTy).mentions ++
        (TypeScript.paramMentions locals [.items [key, value]] ++
          ([.value key ([value, key] ++ locals)] ++ body.mentions ([value, key] ++ locals)))))
      ((convertEntries src key value keyTy valueTy body).mentions locals) := by
  simpa [convertEntries, methodCall, TypeScript.withParams] using
    ((ConsistOf.addition (src.mentions locals)
      [.value "Object" locals, .value "Object" locals]).append
        (.copy (src.mentions locals))).append (.addition _ _)

/-- The variables of a lambda are bound one after the other, each of them new. -/
theorem adds_bindings {vars inner : List String} (hnodup : vars.Nodup)
    (hvars : ∀ var ∈ vars, IsLambdaVar depth var ∧ var ∉ inner)
    (hinner : ∀ other ∈ inner, IsLambdaVar depth other) :
    ∀ mention ∈ TypeScript.bindings (inner ++ locals) vars,
      index.Adds dir depth locals mention := by
  induction vars generalizing inner with
  | nil => exact List.forall_mem_nil _
  | cons var rest ih =>
      obtain ⟨⟨hvar, hnew⟩, hrest⟩ := List.forall_mem_cons.mp hvars
      obtain ⟨hnot, hnodup⟩ := List.nodup_cons.mp hnodup
      refine List.forall_mem_cons.mpr ⟨.binding hvar hinner hnew, @ih (var :: inner) hnodup ?_ ?_⟩
      · intro other hother
        refine ⟨(hrest other hother).1, fun hmem => ?_⟩
        rcases List.mem_cons.mp hmem with rfl | hin
        · exact hnot hother
        · exact (hrest other hother).2 hin
      · exact List.forall_mem_cons.mpr ⟨hvar, hinner⟩

theorem adds_paramMentions {params : List TypeScript.Param}
    (hnodup : (params.flatMap TypeScript.Param.names).Nodup)
    (hvars : ∀ var ∈ params.flatMap TypeScript.Param.names,
      var = valueVar depth ∨ var = keyVar depth) :
    ∀ mention ∈ TypeScript.paramMentions locals params,
      index.Adds dir depth locals mention := by
  refine List.forall_mem_append.mpr ⟨?_, fun mention hmention => ?_⟩
  · exact @adds_bindings _ _ _ locals _ [] hnodup
      (fun var hvar => ⟨.of_eq (hvars var hvar), List.not_mem_nil⟩) (List.forall_mem_nil _)
  · obtain ⟨param, _, hin⟩ := List.mem_flatMap.mp hmention
    obtain ⟨ty, _, hmem⟩ := List.mem_flatMap.mp hin
    exact adds_ty ty mention hmem

/-- The body of a lambda converts one of its variables. -/
theorem adds_body {desc : Descriptor} {body : Expr} {var : String} {vars : List String}
    {copies : Nat} {added : List Mention} (hcopies : 0 < copies)
    (h : index.Surrounds dir desc (depth + 1) (vars ++ locals) copies added)
    (hbody : index.convert dir desc (.ident var) (depth + 1) = .ok (some body))
    (hvars : ∀ var ∈ vars, var = valueVar depth ∨ var = keyVar depth) (hmem : var ∈ vars) :
    ∀ mention ∈ body.mentions (vars ++ locals), index.Adds dir depth locals mention := by
  intro mention hmention
  rcases ((h.2 _ body hbody).mem_iff hcopies).mp hmention with hvar | hin
  · cases List.mem_singleton.mp hvar
    exact .lambdaVar (fun var hvar => .of_eq (hvars var hvar)) hmem
  · exact (h.1 mention hin).around hvars

/-! Each kind of descriptor: what its conversion adds, and how often the source stands in it. -/

theorem exists_surrounds_date (index : TypeIndex) (dir : Direction) (depth : Nat)
    (locals : List String) :
    ∃ added, index.Surrounds dir (.primitive .datetime) depth locals 1 added := by
  cases dir with
  | fromWire =>
      refine ⟨[.callee "Date" locals], List.forall_mem_singleton.mpr (adds_call (Or.inl rfl)),
        fun src expr hexpr => ?_⟩
      cases convert_eq_some_iff.mp hexpr
      simpa [convertDate, millisPerSecond] using
        (ConsistOf.addition (src.mentions locals) [.callee "Date" locals]).append
          (.copy (src.mentions locals))
  | toWire =>
      refine ⟨[], List.forall_mem_nil _, fun src expr hexpr => ?_⟩
      cases convert_eq_some_iff.mp hexpr
      simpa [convertDate, millisPerSecond, methodCall] using ConsistOf.copy (src.mentions locals)

theorem Surrounds.annotated {inner : Descriptor} {copies : Nat} {added : List Mention}
    (h : index.Surrounds dir inner depth locals copies added) (attachments : List Attachment) :
    index.Surrounds dir (.annotated inner attachments) depth locals copies added :=
  h

theorem Surrounds.optional {inner : Descriptor} {copies : Nat} {added : List Mention}
    (h : index.Surrounds dir inner (depth + 1) locals copies added) :
    index.Surrounds dir (.optional inner) depth locals (1 + copies) added := by
  refine ⟨fun mention hmention => (h.1 mention hmention).of_succ, fun src expr hexpr => ?_⟩
  cases convert_eq_some_iff.mp hexpr with
  | optional hinner => exact consistOf_nullGuard (h.2 src _ (convert_eq_some_iff.mpr hinner))

/-- What is inside of the lambda does not depend on the list, only on the variable. -/
theorem surrounds_list {element : Descriptor} {body : Expr}
    (hinner : index.ConvertsTo dir element (.ident (valueVar depth)) (depth + 1) body)
    (hbody : ∀ mention ∈ body.mentions ([valueVar depth] ++ locals),
      index.Adds dir depth locals mention) :
    index.Surrounds dir (.list element) depth locals 1
      (TypeScript.paramMentions locals [.typed (valueVar depth) (dir.sourceTy element.render)] ++
        body.mentions ([valueVar depth] ++ locals)) := by
  have hparams := @adds_paramMentions index dir depth locals
    [.typed (valueVar depth) (dir.sourceTy element.render)] (List.nodup_singleton _)
    (List.forall_mem_singleton.mpr (Or.inl rfl))
  refine ⟨List.forall_mem_append.mpr ⟨hparams, hbody⟩, fun src expr hexpr => ?_⟩
  cases convert_eq_some_iff.mp hexpr with
  | list hfound =>
      cases hinner.unique hfound
      exact consistOf_convertItems src body (valueVar depth) _

theorem exists_surrounds_mapping {key value : Descriptor} {body : Expr}
    (hinner : index.ConvertsTo dir value (.ident (valueVar depth)) (depth + 1) body)
    (hbody : ∀ mention ∈ body.mentions ([valueVar depth, keyVar depth] ++ locals),
      index.Adds dir depth locals mention) :
    ∃ added, index.Surrounds dir (.mapping key value) depth locals 1 added := by
  have hobjects : ∀ mention ∈ [Mention.value "Object" locals, .value "Object" locals],
      index.Adds dir depth locals mention := by
    simp [adds_object]
  have hcast := @adds_ty index dir depth locals (.record key.render (dir.sourceTy value.render))
  have hparams := @adds_paramMentions index dir depth locals
    [.items [keyVar depth, valueVar depth]]
    (by simpa using (valueVar_ne_keyVar depth depth).symm) (by simp)
  have hkey : index.Adds dir depth locals
      (.value (keyVar depth) ([valueVar depth, keyVar depth] ++ locals)) :=
    .lambdaVar (List.forall_mem_cons.mpr
      ⟨.of_eq (Or.inl rfl), List.forall_mem_singleton.mpr (.of_eq (Or.inr rfl))⟩) (by simp)
  have hlambda := List.forall_mem_append.mpr
    ⟨hparams, List.forall_mem_append.mpr ⟨List.forall_mem_singleton.mpr hkey, hbody⟩⟩
  refine ⟨_, List.forall_mem_append.mpr ⟨hobjects, List.forall_mem_append.mpr ⟨hcast, hlambda⟩⟩,
    fun src expr hexpr => ?_⟩
  cases convert_eq_some_iff.mp hexpr with
  | mapping hfound =>
      cases hinner.unique hfound
      exact consistOf_convertEntries src body (keyVar depth) (valueVar depth) _ _

theorem surrounds_model {path : ModelPath} {object : ObjectType}
    (hobject : index.object? path = some object) :
    index.Surrounds dir (.model path) depth locals 1
      [.callee (dir.functionName object.name) locals] := by
  have hfunction : index.IsCallable dir (dir.functionName object.name) :=
    Or.inr (Or.inr ⟨path, object, hobject, rfl⟩)
  refine ⟨List.forall_mem_singleton.mpr (adds_call hfunction), fun src expr hexpr => ?_⟩
  cases convert_eq_some_iff.mp hexpr with
  | model hcall => exact modelCall_consistOf hobject locals hcall

theorem exists_surrounds_union {variants : List ModelPath} {src expr : Expr}
    (h : index.dispatch dir variants src = .ok expr) (nullable : Bool) (depth : Nat)
    (locals : List String) :
    ∃ copies added, 0 < copies ∧
      index.Surrounds dir (.unionOfModels variants nullable) depth locals copies added := by
  obtain ⟨copies, added, hcopies, hadded, hplain⟩ := exists_consistOf_dispatch h depth locals
  cases nullable with
  | false =>
      refine ⟨copies, added, hcopies, hadded, fun other result hresult => ?_⟩
      cases convert_eq_some_iff.mp hresult with
      | union hdispatch => exact hplain other _ hdispatch
  | true =>
      refine ⟨1 + copies, added, Nat.add_pos_left Nat.one_pos copies, hadded,
        fun other result hresult => ?_⟩
      cases convert_eq_some_iff.mp hresult with
      | nullableUnion hdispatch => exact consistOf_nullGuard (hplain other _ hdispatch)

/-- What a conversion adds around its source does not depend on the source. -/
theorem exists_surrounds {desc : Descriptor} {src expr : Expr}
    (h : index.convert dir desc src depth = .ok (some expr)) (locals : List String) :
    ∃ copies added, 0 < copies ∧ index.Surrounds dir desc depth locals copies added := by
  replace h := convert_eq_some_iff.mp h
  induction h generalizing locals with
  | date src depth =>
      obtain ⟨added, hadded⟩ := exists_surrounds_date index dir depth locals
      exact ⟨1, added, Nat.one_pos, hadded⟩
  | @annotated _ attachments _ _ _ _ ih =>
      obtain ⟨copies, added, hcopies, hsurrounds⟩ := ih locals
      exact ⟨copies, added, hcopies, hsurrounds.annotated attachments⟩
  | optional _ ih =>
      obtain ⟨copies, added, _, hsurrounds⟩ := ih locals
      exact ⟨1 + copies, added, Nat.add_pos_left Nat.one_pos copies, hsurrounds.optional⟩
  | @list _ _ _ depth hinner ih =>
      obtain ⟨copies, added, hcopies, hsurrounds⟩ := ih ([valueVar depth] ++ locals)
      have hbody := adds_body hcopies hsurrounds (convert_eq_some_iff.mpr hinner)
        (List.forall_mem_singleton.mpr (Or.inl rfl)) List.mem_cons_self
      exact ⟨1, _, Nat.one_pos, surrounds_list hinner hbody⟩
  | @mapping _ _ _ _ depth hinner ih =>
      obtain ⟨copies, added, hcopies, hsurrounds⟩ := ih ([valueVar depth, keyVar depth] ++ locals)
      have hbody := adds_body hcopies hsurrounds (convert_eq_some_iff.mpr hinner) (by simp)
        List.mem_cons_self
      obtain ⟨added, hadded⟩ := exists_surrounds_mapping hinner hbody
      exact ⟨1, added, Nat.one_pos, hadded⟩
  | model hcall =>
      obtain ⟨object, hobject, _⟩ := modelCall_eq_ok_iff.mp hcall
      exact ⟨1, _, Nat.one_pos, surrounds_model hobject⟩
  | @union _ _ _ depth hdispatch => exact exists_surrounds_union hdispatch false depth locals
  | @nullableUnion _ _ _ depth hdispatch =>
      exact exists_surrounds_union hdispatch true depth locals

/-- Conversions are hygienic. Whatever the source of a conversion is, it stands in the result in the
scope of the whole result only, so that no lambda captures any of its names. Every variable that a
lambda of the conversion binds is numbered from the depth on, and no lambda around it binds the same
one. The names that are free in the result are those of the source, and beyond them only `Object`
and what the conversion calls. -/
theorem convert_hygienic {desc : Descriptor} {src expr : Expr}
    (h : index.convert dir desc src depth = .ok (some expr)) :
    (∃ (copies : Nat) (added : List Mention), 0 < copies ∧
      (∀ other result, index.convert dir desc other depth = .ok (some result) →
        ConsistOf copies (other.mentions []) added (result.mentions [])) ∧
      (∀ name scope, .binding name scope ∈ added → IsLambdaVar depth name ∧ name ∉ scope) ∧
      ∀ name scope, .callee name scope ∈ added → name ∉ scope) ∧
    (∀ name, src.IsFree name → expr.IsFree name) ∧
    ∀ name, expr.IsFree name → src.IsFree name ∨ name = "Object" ∨ index.IsCallable dir name := by
  obtain ⟨copies, added, hcopies, hadded, hconsist⟩ := exists_surrounds h []
  have hmem : ∀ mention, mention ∈ expr.mentions [] ↔
      mention ∈ src.mentions [] ∨ mention ∈ added :=
    fun mention => (hconsist src expr h).mem_iff hcopies
  refine ⟨⟨copies, added, hcopies, hconsist, ?_, ?_⟩, ?_, ?_⟩
  · intro name scope hin
    cases hadded _ hin with
    | binding hname _ hnew => exact ⟨hname, by simpa using hnew⟩
  · intro name scope hin
    cases hadded _ hin with
    | call hinner hname =>
        exact fun hvar => hname.not_isLambdaVar (hinner name (by simpa using hvar))
  · rintro name ⟨scope, hscope, hfree⟩
    simp only [Expr.IsFree, hmem]
    exact ⟨scope, hscope, hfree.imp Or.inl (Or.imp Or.inl Or.inl)⟩
  · rintro name ⟨scope, hscope, hfree⟩
    simp only [hmem] at hfree
    rcases hfree with (hsrc | hin) | (hsrc | hin) | (hsrc | hin)
    · exact Or.inl ⟨scope, hscope, Or.inl hsrc⟩
    · cases hadded _ hin with
      | lambdaVar _ hvar => exact absurd (List.mem_append_left _ hvar) hscope
      | object _ => exact Or.inr (Or.inl rfl)
    · exact Or.inl ⟨scope, hscope, Or.inr (Or.inl hsrc)⟩
    · cases hadded _ hin with
      | call _ hname => exact Or.inr (Or.inr hname)
    · exact Or.inl ⟨scope, hscope, Or.inr (Or.inr hsrc)⟩
    · cases hadded _ hin

/-- A list of lists of dates in a variable `v2`: the inner lambda binds a `v2` as well, and the
source stays free. -/
theorem convert_hygienic_sameName :
    ∃ expr, empty.convert .fromWire (.list (.list (.primitive .datetime))) (.ident "v2") 1 =
        .ok (some expr) ∧ expr.IsFree "v2" ∧
      ∀ name, expr.IsFree name →
        name = "v2" ∨ name = "Object" ∨ empty.IsCallable .fromWire name := by
  have hdates : empty.convert .fromWire (.list (.list (.primitive .datetime))) (.ident "v2") 1 =
      .ok (some (convertItems (.ident "v2") "v1" (.primitive .any)
        (convertItems (.ident "v1") "v2" (.primitive .any)
          (convertDate (.ident "v2") .fromWire)))) := rfl
  obtain ⟨_, hsource, hfree⟩ := convert_hygienic hdates
  refine ⟨_, hdates, hsource "v2" ⟨[], List.not_mem_nil, Or.inl List.mem_cons_self⟩, ?_⟩
  intro name hname
  refine (hfree name hname).imp_left ?_
  rintro ⟨scope, _, hmention⟩
  simp only [Expr.mentions, List.mem_singleton, reduceCtorEq, or_false] at hmention
  exact (Mention.value.inj hmention).1

end TypeIndex

end SchemaWire
