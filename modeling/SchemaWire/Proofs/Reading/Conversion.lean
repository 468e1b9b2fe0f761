import SchemaWire.Proofs.Descriptor.Bare
import SchemaWire.Proofs.Descriptor.Rendered
import SchemaWire.Proofs.Index.Operations
import SchemaWire.Proofs.Naming.Predefined
import SchemaWire.Proofs.Reading.Written

/-!
Reading conversions. What conversions build needs no parentheses as long as they start from a name
or from accesses to properties: conditionals stand only in branches, arguments and the bodies of
lambdas, and every operand of an operator is a name, an access, a call or a literal. The types in a
conversion are those of the items of lists and of the entries of mappings. The main statement is
that every conversion, and every object that a conversion function returns, is read back from its
text exactly if these types can be told from theirs.
-/
namespace SchemaWire

open TypeScript (BinaryOp Expr Lexeme ObjectEntry Param PrimitiveTy Ty isBareName isIdentifier
  readExpr)

namespace TypeScript

/-- A name or a chain of accesses to properties that begins at one. -/
inductive Expr.IsAccess : Expr → Prop where
  | ident {name : String} (hname : isIdentifier name = true) : IsAccess (.ident name)
  | member {owner : Expr} (howner : IsAccess owner) (property : String) :
      IsAccess (.member owner property)

def Expr.BeginsWithWord (expr : Expr) : Prop :=
  ∃ word, expr.lexemes.head? = some (.word word)

theorem Expr.BeginsWithWord.not_brace {expr : Expr} (h : expr.BeginsWithWord) :
    expr.lexemes.head? ≠ some (.mark .braceOpen) := by
  obtain ⟨word, hword⟩ := h
  simp [hword]

/-- The first part of an expression begins it. -/
theorem Expr.BeginsWithWord.leads {expr whole : Expr} (h : expr.BeginsWithWord)
    {rest : List Lexeme} (heq : whole.lexemes = expr.lexemes ++ rest) : whole.BeginsWithWord := by
  obtain ⟨word, hword⟩ := h
  exact ⟨word, by rw [heq, List.head?_append, hword, Option.some_or]⟩

namespace Expr.IsAccess

variable {expr : Expr}

theorem level_eq (h : expr.IsAccess) : expr.level = 7 := by
  cases h <;> rfl

theorem clear (h : expr.IsAccess) (types : Ty → Prop) : expr.Clear types := by
  induction h with
  | ident hname => exact .ident hname
  | member howner property ih => exact .member ih howner.level_eq property

@[simp]
theorem types_eq_nil (h : expr.IsAccess) : expr.types = [] := by
  induction h with
  | ident hname => rfl
  | member howner property ih => exact ih

theorem beginsWithWord (h : expr.IsAccess) : expr.BeginsWithWord := by
  induction h with
  | ident hname => exact ⟨_, rfl⟩
  | member howner property ih => exact ih.leads rfl

end Expr.IsAccess

theorem Ty.Plain.nullable {names : String → Prop} {ty : Ty} (h : ty.Plain names) :
    ty.nullable.Plain names := by
  fun_cases Ty.nullable ty with
  | case1 => exact h
  | case2 members =>
      cases h with
      | union hlength hsingle h =>
          refine .union (by simp; omega) ?_ ?_ <;>
            simp only [List.forall_mem_append, List.forall_mem_singleton]
          · exact ⟨hsingle, rfl⟩
          · exact ⟨h, .primitive .null⟩
  | case3 => exact h
  | case4 _ hunion _ =>
      have hsingle : ty.isUnion = false := by
        cases ty with
        | union members => exact absurd rfl (hunion members)
        | _ => rfl
      exact .union (Nat.le_refl 2)
        (List.forall_mem_cons.mpr ⟨hsingle, List.forall_mem_singleton.mpr rfl⟩)
        (List.forall_mem_cons.mpr ⟨h, List.forall_mem_singleton.mpr (.primitive .null)⟩)

end TypeScript

/-- A union of plain types that are no unions is plain. -/
theorem plain_renderUnion {names : String → Prop} {members : List Ty}
    (h : ∀ member ∈ members, member.Plain names ∧ member.isUnion = false) (nullable : Bool) :
    (renderUnion members nullable).Plain names := by
  have hkept : ∀ member ∈ (members.filter fun member => !isNullTy member).eraseDups,
      member.Plain names ∧ member.isUnion = false := by
    intro member hmem
    exact h member (List.mem_of_mem_filter (List.mem_eraseDups.mp hmem))
  unfold renderUnion
  dsimp only
  generalize (members.filter fun member => !isNullTy member).eraseDups = kept at hkept
  generalize (nullable || members.any isNullTy) = nullable
  match kept with
  | [] => exact .primitive .null
  | [only] =>
      have honly := (hkept only List.mem_cons_self).1
      cases nullable with
      | false => exact honly
      | true => exact honly.nullable
  | first :: second :: rest =>
      have hunion : (Ty.union (first :: second :: rest)).Plain names :=
        .union (by simp) (fun member hmem => (hkept member hmem).2)
          fun member hmem => (hkept member hmem).1
      cases nullable with
      | false => exact hunion
      | true => exact hunion.nullable

namespace Descriptor

/-- The types that a conversion of the descriptor has in it: those under which the items of lists
and the entries of mappings are taken. -/
def writtenTypes (dir : Direction) : Descriptor → List Ty
  | list inner => dir.sourceTy inner.render :: inner.writtenTypes dir
  | mapping key value =>
      .record key.render (dir.sourceTy value.render) :: value.writtenTypes dir
  | optional inner | annotated inner _ => inner.writtenTypes dir
  | primitive _ | literal _ | model _ | unionOfModels _ _ | unionOfScalars _ _ => []

/-- The keys of mappings are string-like, at every depth. -/
def StringKeys : Descriptor → Prop
  | mapping key value => key.isMappingKey = true ∧ value.StringKeys
  | optional inner | list inner | annotated inner _ => inner.StringKeys
  | primitive _ | literal _ | model _ | unionOfModels _ _ | unionOfScalars _ _ => True

theorem WellFormed.stringKeys {desc : Descriptor} (h : desc.WellFormed) : desc.StringKeys := by
  fun_induction StringKeys desc with
  | case1 key value ih => exact ⟨h.1, ih h.2.2⟩
  | case2 inner ih => exact ih h.2
  | case3 inner ih => exact ih h
  | case4 inner attachments ih => exact ih h
  | _ => trivial

theorem render_of_isMappingKey {key : Descriptor} (h : key.isMappingKey = true) :
    key.render = .primitive .string := by
  rw [← render_peel]
  rcases peel_of_isMappingKey h with hpeel | hpeel <;> rw [hpeel, render, PrimitiveKind.render]

end Descriptor

/-- No keyword has a digit in it, so that a numbered name is none. -/
theorem isIdentifier_numbered {letter : Char} (hletter : TypeScript.isNameStart letter = true)
    (depth : Nat) : isIdentifier (String.singleton letter ++ toString depth) = true := by
  have htext : (String.singleton letter ++ toString depth).toList =
      letter :: Nat.toDigits 10 depth := by simp [Nat.toString_eq_repr, Nat.toList_repr]
  have hdigits : ∀ c ∈ Nat.toDigits 10 depth, c.isDigit = true := fun c =>
    Nat.isDigit_of_mem_toDigits (by decide) (by decide)
  have hbare : isBareName (String.singleton letter ++ toString depth) = true := by
    rw [isBareName, htext, TypeScript.isBareChars, hletter, Bool.true_and, List.all_eq_true]
    exact fun c hc => TypeScript.isNamePart_of_isDigit (hdigits c hc)
  have hletters : (TypeScript.reservedWords.all fun word =>
      word.toList.all fun c => !c.isDigit) = true := by decide
  have hwords : ∀ word ∈ TypeScript.reservedWords, ∀ c ∈ word.toList, c.isDigit = false := by
    simpa only [List.all_eq_true, Bool.not_eq_true'] using hletters
  have hreserved : TypeScript.isReserved (String.singleton letter ++ toString depth) = false := by
    rw [Bool.eq_false_iff]
    intro hmem
    obtain ⟨c, hc⟩ := List.exists_mem_of_ne_nil _ (@Nat.toDigits_ne_nil depth 10)
    have hnot := hwords _ (List.contains_iff_mem.mp hmem) c
      (by rw [htext]; exact List.mem_cons_of_mem _ hc)
    exact Bool.false_ne_true (hnot.symm.trans (hdigits c hc))
  rw [isIdentifier, hbare, hreserved]
  rfl

theorem isIdentifier_valueVar (depth : Nat) : isIdentifier (valueVar depth) = true :=
  @isIdentifier_numbered 'v' (by decide) depth

theorem isIdentifier_keyVar (depth : Nat) : isIdentifier (keyVar depth) = true :=
  @isIdentifier_numbered 'k' (by decide) depth

namespace TypeIndex

/-- A name in the types of conversions: that of a declared model, or of dates. -/
def TypeName (index : TypeIndex) (name : String) : Prop :=
  name = "Date" ∨ ∃ path ∈ index.paths, path.shortName = name

variable {index : TypeIndex} {dir : Direction} {names : String → Prop}

theorem Consistent.isIdentifier_shortName (hindex : index.Consistent) {path : ModelPath}
    {object : ObjectType} (hobject : index.object? path = some object) :
    isIdentifier path.shortName = true := by
  have hvalid := hindex.valid _ (mem_objects_of_object? hobject)
  exact hvalid

theorem Consistent.plain_named (hindex : index.Consistent) {path : ModelPath} {object : ObjectType}
    (hobject : index.object? path = some object) :
    (Ty.named path.shortName).Plain index.TypeName := by
  have hpath : path ∈ index.paths := exists_object_iff.mp ⟨object, hobject⟩
  exact .named (hindex.isIdentifier_shortName hobject) (Or.inr ⟨path, hpath, rfl⟩)

/-- The keys of a mapping are strings. -/
theorem plain_render_of_isMappingKey {key : Descriptor} (h : key.isMappingKey = true) :
    key.render.Plain names := by
  rw [Descriptor.render_of_isMappingKey h]
  exact .primitive .string

theorem declared_of_discriminant {variants : List ModelPath} {found : String × UnionArms}
    (h : index.discriminant variants = .ok found) :
    ∀ path ∈ variants, ∃ object, index.object? path = some object := by
  obtain ⟨_, values, hmarks, _⟩ := discriminant_eq_ok_iff.mp h
  intro path hpath
  obtain ⟨value, _, object, hobject, _⟩ := exists_right_of_forall₂ hmarks path hpath
  exact ⟨object, hobject⟩

theorem Consistent.plain_unionOfModels (hindex : index.Consistent) {variants : List ModelPath}
    {src expr : Expr} (hdispatch : index.dispatch dir variants src = .ok expr) (nullable : Bool) :
    (Descriptor.unionOfModels variants nullable).render.Plain index.TypeName := by
  obtain ⟨found, hfound, _⟩ := bind_eq_ok_iff.mp hdispatch
  refine plain_renderUnion (List.forall_mem_map.mpr fun path hpath => ?_) nullable
  obtain ⟨object, hobject⟩ := declared_of_discriminant hfound path hpath
  exact ⟨hindex.plain_named hobject, rfl⟩

/-- What is converted has a plain type. -/
theorem Consistent.plain_render (hindex : index.Consistent) {desc : Descriptor} {src expr : Expr}
    {depth : Nat} (hkeys : desc.StringKeys)
    (hconvert : index.convert dir desc src depth = .ok (some expr)) :
    desc.render.Plain index.TypeName := by
  replace hconvert := convert_eq_some_iff.mp hconvert
  induction hconvert with
  | date src depth => exact .named (by decide) (Or.inl rfl)
  | annotated _ ih => exact ih hkeys
  | optional _ ih => exact (ih hkeys).nullable
  | list _ ih => exact .array (ih hkeys)
  | mapping _ ih => exact .record (plain_render_of_isMappingKey hkeys.1) (ih hkeys.2)
  | model hcall =>
      obtain ⟨object, hobject, _⟩ := modelCall_eq_ok_iff.mp hcall
      exact hindex.plain_named hobject
  | union hdispatch => exact hindex.plain_unionOfModels hdispatch false
  | nullableUnion hdispatch => exact hindex.plain_unionOfModels hdispatch true

/-! What conversions build, by its outermost form. -/

section Forms

variable {types : Ty → Prop}

/-- Calling a name or a property of a closed value needs no parentheses. -/
theorem clear_methodCall {owner : Expr} {args : List Expr} (howner : owner.Clear types)
    (hlevel : owner.level = 7) (method : String) (hargs : ∀ arg ∈ args, arg.Clear types) :
    (methodCall owner method args).Clear types :=
  .call (.member howner hlevel method) rfl hargs

theorem clear_convertDate {src : Expr} (hsrc : src.IsAccess) (dir : Direction) :
    (convertDate src dir).Clear types ∧ (convertDate src dir).BeginsWithWord := by
  have hclear := hsrc.clear types
  have hmillis : millisPerSecond.Clear types := .literal _
  cases dir with
  | fromWire =>
      have hproduct : (Expr.binary src .times millisPerSecond).Clear types :=
        .binary hclear hmillis (by rw [hsrc.level_eq]; decide) (by decide)
      exact ⟨.construct (by decide) (List.forall_mem_singleton.mpr hproduct), _, rfl⟩
  | toWire =>
      have htime : (methodCall src "getTime" []).Clear types :=
        clear_methodCall hclear hsrc.level_eq "getTime" (List.forall_mem_nil _)
      have hword : (methodCall src "getTime" []).BeginsWithWord :=
        (hsrc.member "getTime").beginsWithWord.leads rfl
      exact ⟨.binary htime hmillis (Nat.le_of_ble_eq_true rfl) (by decide), hword.leads rfl⟩

/-- A choice by a comparison of accesses with a literal. -/
theorem clear_choice {src whenTrue whenFalse : Expr} (hsrc : src.IsAccess)
    (value : TypeScript.Literal) (htrue : whenTrue.Clear types) (hfalse : whenFalse.Clear types) :
    (Expr.conditional (.binary src .strictEqual (.literal value)) whenTrue whenFalse).Clear types ∧
      (Expr.conditional (.binary src .strictEqual (.literal value))
        whenTrue whenFalse).BeginsWithWord := by
  have hliteral : BinaryOp.strictEqual.level < (Expr.literal value).level := by
    cases value <;> simp [Expr.level, BinaryOp.level]
  have htest : (Expr.binary src .strictEqual (.literal value)).Clear types :=
    .binary (hsrc.clear types) (.literal value) (by rw [hsrc.level_eq]; decide) hliteral
  have hword : (Expr.binary src .strictEqual (.literal value)).BeginsWithWord :=
    hsrc.beginsWithWord.leads rfl
  exact ⟨.conditional htest htrue hfalse (Nat.le_succ 2), hword.leads rfl⟩

theorem clear_nullGuard {src body : Expr} (hsrc : src.IsAccess) (hbody : body.Clear types) :
    (nullGuard src body).Clear types ∧ (nullGuard src body).BeginsWithWord :=
  clear_choice hsrc .null (.literal .null) hbody

theorem clear_convertItems {src body : Expr} {var : String} {ty : Ty} (hsrc : src.IsAccess)
    (hvar : isIdentifier var = true) (hty : types ty) (hbody : body.Clear types)
    (hword : body.BeginsWithWord) :
    (convertItems src var ty body).Clear types ∧ (convertItems src var ty body).BeginsWithWord := by
  have hparam : (Param.typed var ty).Plain types :=
    ⟨rfl, hvar, fun other heq => by cases heq; exact hty⟩
  have hlambda : (Expr.arrow [.typed var ty] body).Clear types :=
    .arrow (List.forall_mem_singleton.mpr hparam) hbody hword.not_brace
  exact ⟨clear_methodCall (hsrc.clear types) hsrc.level_eq "map"
    (List.forall_mem_singleton.mpr hlambda), (hsrc.member "map").beginsWithWord.leads rfl⟩

theorem clear_convertEntries {src body : Expr} {key value : String} {keyTy valueTy : Ty}
    (hsrc : src.IsAccess) (hkey : isIdentifier key = true) (hvalue : isIdentifier value = true)
    (hty : types (.record keyTy valueTy)) (hbody : body.Clear types) :
    (convertEntries src key value keyTy valueTy body).Clear types ∧
      (convertEntries src key value keyTy valueTy body).BeginsWithWord := by
  have haccess : (Expr.ident "Object").IsAccess := .ident (by decide)
  have hobject := haccess.clear types
  have hcast : (Expr.cast src (.record keyTy valueTy)).Clear types :=
    .cast (hsrc.clear types) (by rw [hsrc.level_eq]; decide) hty
  have hentries := clear_methodCall hobject rfl "entries" (List.forall_mem_singleton.mpr hcast)
  have hpair : (Expr.array [.ident key, body]).Clear types :=
    .array (List.forall_mem_cons.mpr ⟨.ident hkey, List.forall_mem_singleton.mpr hbody⟩)
  have hparam : (Param.items [key, value]).Plain types :=
    ⟨rfl, List.forall_mem_cons.mpr ⟨hkey, List.forall_mem_singleton.mpr hvalue⟩,
      fun ty heq => by cases heq⟩
  have hlambda : (Expr.arrow [.items [key, value]] (.array [.ident key, body])).Clear types :=
    .arrow (List.forall_mem_singleton.mpr hparam) hpair (by simp [Expr.lexemes])
  have hmapped := clear_methodCall hentries rfl "map" (List.forall_mem_singleton.mpr hlambda)
  exact ⟨clear_methodCall hobject rfl "fromEntries" (List.forall_mem_singleton.mpr hmapped),
    (haccess.member "fromEntries").beginsWithWord.leads rfl⟩

theorem Consistent.clear_modelCall (hindex : index.Consistent) {path : ModelPath} {src expr : Expr}
    (hsrc : src.IsAccess) (hcall : index.modelCall dir path src = .ok expr)
    (types : Ty → Prop) : expr.Clear types ∧ expr.BeginsWithWord := by
  obtain ⟨object, hobject, rfl⟩ := modelCall_eq_ok_iff.mp hcall
  have hvalid : isIdentifier object.name = true := by
    rw [hindex.name_eq hobject]
    exact hindex.isIdentifier_shortName hobject
  have hname := dir.isIdentifier_functionName hvalid
  exact ⟨.call (.ident hname) rfl (List.forall_mem_singleton.mpr (hsrc.clear types)), _, rfl⟩

theorem Consistent.clear_dispatchArms (hindex : index.Consistent) {field : String}
    {src expr : Expr} {arms : UnionArms} (hsrc : src.IsAccess)
    (harms : index.dispatchArms dir field src arms = .ok expr) (types : Ty → Prop) :
    expr.Clear types ∧ expr.BeginsWithWord := by
  induction arms generalizing expr with
  | nil =>
      cases harms
      exact ⟨.call (.ident (by decide)) rfl (List.forall_mem_nil _), _, rfl⟩
  | cons arm rest ih =>
      obtain ⟨converted, otherwise, hcall, hrest, rfl⟩ := dispatchArms_cons_eq_ok_iff.mp harms
      exact clear_choice (hsrc.member field) arm.2.render
        (hindex.clear_modelCall hsrc hcall types).1 (ih hrest).1

theorem Consistent.clear_dispatch (hindex : index.Consistent) {variants : List ModelPath}
    {src expr : Expr} (hsrc : src.IsAccess)
    (hdispatch : index.dispatch dir variants src = .ok expr) (types : Ty → Prop) :
    expr.Clear types ∧ expr.BeginsWithWord := by
  obtain ⟨found, _, harms⟩ := bind_eq_ok_iff.mp hdispatch
  exact hindex.clear_dispatchArms hsrc harms types

/-- A conversion of accesses needs no parentheses, at any depth. -/
theorem Consistent.clear_convert (hindex : index.Consistent) {desc : Descriptor} {src expr : Expr}
    {depth : Nat} (hsrc : src.IsAccess)
    (hconvert : index.convert dir desc src depth = .ok (some expr)) :
    expr.Clear (fun _ => True) ∧ expr.BeginsWithWord := by
  replace hconvert := convert_eq_some_iff.mp hconvert
  induction hconvert with
  | date src depth => exact clear_convertDate hsrc dir
  | annotated _ ih => exact ih hsrc
  | optional _ ih => exact clear_nullGuard hsrc (ih hsrc).1
  | list _ ih =>
      obtain ⟨hbody, hword⟩ := ih (.ident (isIdentifier_valueVar _))
      exact clear_convertItems hsrc (isIdentifier_valueVar _) trivial hbody hword
  | mapping _ ih =>
      obtain ⟨hbody, _⟩ := ih (.ident (isIdentifier_valueVar _))
      exact clear_convertEntries hsrc (isIdentifier_keyVar _) (isIdentifier_valueVar _) trivial
        hbody
  | model hcall => exact hindex.clear_modelCall hsrc hcall _
  | union hdispatch => exact hindex.clear_dispatch hsrc hdispatch _
  | nullableUnion hdispatch =>
      exact clear_nullGuard hsrc (hindex.clear_dispatch hsrc hdispatch _).1

end Forms

/-! The types in conversions. -/

theorem types_modelCall {path : ModelPath} {src expr : Expr} (hsrc : src.IsAccess)
    (hcall : index.modelCall dir path src = .ok expr) : expr.types = [] := by
  obtain ⟨object, _, rfl⟩ := modelCall_eq_ok_iff.mp hcall
  simp [Expr.typesAll, hsrc]

theorem types_dispatchArms {field : String} {src expr : Expr} {arms : UnionArms}
    (hsrc : src.IsAccess) (harms : index.dispatchArms dir field src arms = .ok expr) :
    expr.types = [] := by
  induction arms generalizing expr with
  | nil =>
      cases harms
      rfl
  | cons arm rest ih =>
      obtain ⟨converted, otherwise, hcall, hrest, rfl⟩ := dispatchArms_cons_eq_ok_iff.mp harms
      simp [hsrc, types_modelCall hsrc hcall, ih hrest]

theorem types_dispatch {variants : List ModelPath} {src expr : Expr} (hsrc : src.IsAccess)
    (hdispatch : index.dispatch dir variants src = .ok expr) : expr.types = [] := by
  obtain ⟨found, _, harms⟩ := bind_eq_ok_iff.mp hdispatch
  exact types_dispatchArms hsrc harms

theorem types_convert {desc : Descriptor} {src expr : Expr} {depth : Nat} (hsrc : src.IsAccess)
    (hconvert : index.convert dir desc src depth = .ok (some expr)) :
    expr.types = desc.writtenTypes dir := by
  have hvar (depth : Nat) : (Expr.ident (valueVar depth)).IsAccess :=
    .ident (isIdentifier_valueVar depth)
  replace hconvert := convert_eq_some_iff.mp hconvert
  induction hconvert with
  | date src depth =>
      cases dir <;> simp [convertDate, methodCall, millisPerSecond, Expr.typesAll, hsrc,
        Descriptor.writtenTypes]
  | annotated _ ih => exact ih hsrc
  | optional _ ih => simp [nullGuard, hsrc, ih hsrc, Descriptor.writtenTypes]
  | list _ ih =>
      simp [convertItems, methodCall, Param.typed, Expr.typesAll, hsrc, ih (hvar _),
        Descriptor.writtenTypes]
  | mapping _ ih =>
      simp [convertEntries, methodCall, Param.items, Expr.typesAll, hsrc, ih (hvar _),
        Descriptor.writtenTypes]
  | model hcall => exact types_modelCall hsrc hcall
  | union hdispatch => exact types_dispatch hsrc hdispatch
  | nullableUnion hdispatch => simp [nullGuard, hsrc, types_dispatch hsrc hdispatch,
      Descriptor.writtenTypes]

theorem plain_sourceTy {ty : Ty} (h : ty.Plain names) : (dir.sourceTy ty).Plain names := by
  cases dir with
  | fromWire => exact .primitive .any
  | toWire => exact h

/-- With string-like keys the types in conversions are plain. -/
theorem Consistent.plain_writtenTypes (hindex : index.Consistent) {desc : Descriptor}
    {src expr : Expr} {depth : Nat} (hkeys : desc.StringKeys)
    (hconvert : index.convert dir desc src depth = .ok (some expr)) :
    ∀ ty ∈ desc.writtenTypes dir, ty.Plain index.TypeName := by
  replace hconvert := convert_eq_some_iff.mp hconvert
  induction hconvert with
  | annotated _ ih | optional _ ih => exact ih hkeys
  | list hinner ih =>
      have hconverted := convert_eq_some_iff.mpr hinner
      exact List.forall_mem_cons.mpr
        ⟨plain_sourceTy (hindex.plain_render hkeys hconverted), ih hkeys⟩
  | mapping hinner ih =>
      have hty := hindex.plain_render hkeys.2 (convert_eq_some_iff.mpr hinner)
      exact List.forall_mem_cons.mpr
        ⟨.record (plain_render_of_isMappingKey hkeys.1) (plain_sourceTy hty), ih hkeys.2⟩
  | _ => exact List.forall_mem_nil _

theorem Consistent.clear_of_stringKeys (hindex : index.Consistent) {desc : Descriptor}
    {src expr : Expr} {depth : Nat} (hkeys : desc.StringKeys) (hsrc : src.IsAccess)
    (hconvert : index.convert dir desc src depth = .ok (some expr)) :
    expr.Clear (Ty.Plain index.TypeName) :=
  (hindex.clear_convert hsrc hconvert).1.of_types
    (types_convert hsrc hconvert ▸ hindex.plain_writtenTypes hkeys hconvert)

theorem Consistent.clear_convertOrKeep (hindex : index.Consistent) {desc : Descriptor}
    {src expr : Expr} {depth : Nat} (hkeys : desc.StringKeys) (hsrc : src.IsAccess)
    (hconvert : index.convertOrKeep dir desc src depth = .ok expr) :
    expr.Clear (Ty.Plain index.TypeName) := by
  rcases convertOrKeep_eq_ok_iff.mp hconvert with hconverted | ⟨_, rfl⟩
  · exact hindex.clear_of_stringKeys hkeys hsrc hconverted
  · exact hsrc.clear _

/-- The object that a conversion function returns needs no parentheses. -/
theorem Consistent.clear_object (hindex : index.Consistent) {model : String}
    {fields : List ObjectField} {entries : List ObjectEntry}
    (hkeys : ∀ field ∈ fields, field.descriptor.StringKeys)
    (hentries : index.convertFields dir model fields = .ok entries) :
    (Expr.object entries).Clear (Ty.Plain index.TypeName) := by
  have hroot : (Expr.ident "root").IsAccess := .ident (by decide)
  have hvalues : ∃ values : List (String × Expr),
      entries = values.map (fun field => .property field.1 field.2) ∧
        ∀ field ∈ values, field.2.Clear (Ty.Plain index.TypeName) := by
    rw [convertFields_eq_ok_iff] at hentries
    induction hentries with
    | nil => exact ⟨[], rfl, List.forall_mem_nil _⟩
    | @cons field entry fields entries hfield hrest ih =>
        obtain ⟨hkey, hkeys⟩ := List.forall_mem_cons.mp hkeys
        obtain ⟨converted, hconverted, rfl⟩ := hfield
        obtain ⟨values, rfl, hvalues⟩ := ih hkeys
        have hclear := hindex.clear_convertOrKeep hkey (hroot.member field.name) hconverted
        exact ⟨(field.name, converted) :: values, rfl, List.forall_mem_cons.mpr ⟨hclear, hvalues⟩⟩
  obtain ⟨values, rfl, hvalues⟩ := hvalues
  exact .object hvalues

/-- No declared model has the name of a predefined type. -/
def NamesApart (index : TypeIndex) : Prop :=
  ∀ path ∈ index.paths, ∀ kind : PrimitiveTy, kind.print ≠ path.shortName

theorem readExpr_print_of_namesApart {expr : Expr} (h : expr.Clear (Ty.Plain index.TypeName))
    (hapart : index.NamesApart) : readExpr expr.print = some expr := by
  refine h.readExpr_print_iff.mpr fun ty hty => (h.types_of ty hty).mono ?_
  rintro name (rfl | ⟨path, hpath, rfl⟩)
  · intro kind
    cases kind <;> decide
  · exact hapart path hpath

/-- Lists of users by name, where they are known. -/
def usersByName : Descriptor :=
  .mapping (.primitive .str) (.optional (.list (.model ⟨"app.User"⟩)))

end TypeIndex

end SchemaWire
