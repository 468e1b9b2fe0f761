import SchemaWire.Proofs.Index.Registration
import SchemaWire.Proofs.Naming.Module
import SchemaWire.Proofs.Printed.CommentText

/-!
The comments of a generated module. Defaults, paths of routes, names of fields and types are put
into comments as they are. The main statement is that every comment ends where it is meant to
exactly if none of these texts holds a star that is followed by a slash; a default such as the
schedule `*/5 * * * *` therefore ends its comment, and the rest of it is read as code.
-/
namespace SchemaWire

namespace TypeScript

/-- The comment of a property: the text between its opening and its end. -/
def Property.comments (property : Property) : List String :=
  property.doc.toList.map fun doc => "* " ++ doc ++ " "

def TypeDecl.comments (decl : TypeDecl) : List String :=
  match decl.body with
  | .object properties => properties.flatMap Property.comments
  | .enumeration _ => []

def Function.comments (function : Function) : List String :=
  match function.doc with
  | [] => []
  | doc => ["*\n" ++ joinWith "" (doc.map printDocLine) ++ " "]

/-- The comments of a declaration. Raw text is written without any. -/
def Declaration.comments : Declaration → List String
  | .function declared => declared.comments
  | .block _ => []

def Module.comments (module : Module) : List String :=
  module.types.flatMap TypeDecl.comments ++ module.functions.flatMap Declaration.comments

/-- The comment stands in the text. -/
def HasComment (text comment : String) : Prop :=
  ("/*" ++ comment ++ "*/").toList <:+: text.toList

theorem HasComment.append_left {text comment : String} (h : HasComment text comment)
    (before : String) : HasComment (before ++ text) comment := by
  rw [HasComment, @String.toList_append before]
  exact h.trans (List.suffix_append _ _).isInfix

theorem HasComment.append_right {text comment : String} (h : HasComment text comment)
    (after : String) : HasComment (text ++ after) comment := by
  rw [HasComment, @String.toList_append text]
  exact h.trans (List.prefix_append _ _).isInfix

theorem HasComment.joinWith {text comment : String} (h : HasComment text comment)
    {texts : List String} (hmem : text ∈ texts) : HasComment (joinWith "" texts) comment := by
  induction texts with
  | nil => cases hmem
  | cons first rest ih =>
      cases rest with
      | nil =>
          rw [← List.mem_singleton.mp hmem]
          exact h
      | cons next others =>
          rw [joinWith.eq_3 _ _ _ (List.cons_ne_nil _ _)]
          rcases List.mem_cons.mp hmem with rfl | hin
          · exact (h.append_right _).append_right _
          · exact (ih hin).append_left _

theorem hasComment_self {comment before after : String} :
    HasComment (before ++ "/*" ++ comment ++ "*/" ++ after) comment := by
  refine ⟨before.toList, after.toList, ?_⟩
  simp only [String.toList_append, List.append_assoc]

theorem Property.hasComment {property : Property} {comment : String}
    (hmem : comment ∈ property.comments) : HasComment property.printLines comment := by
  obtain ⟨doc, hdoc, rfl⟩ := List.mem_map.mp hmem
  have hlines : property.printLines = "  " ++ "/*" ++ ("* " ++ doc ++ " ") ++ "*/" ++
      ("\n" ++ ("  " ++ property.print ++ ";\n")) := by
    rw [printLines, Option.mem_toList.mp hdoc, ← String.toList_inj]
    simp [String.toList_append]
  rw [hlines]
  exact hasComment_self

theorem TypeDecl.hasComment {decl : TypeDecl} {comment : String} (hmem : comment ∈ decl.comments) :
    HasComment decl.print comment := by
  rw [comments] at hmem
  rw [print]
  refine HasComment.append_left ?_ _
  split at hmem
  · rename_i properties hbody
    obtain ⟨property, hproperty, hin⟩ := List.mem_flatMap.mp hmem
    rw [hbody]
    cases properties with
    | nil => cases hproperty
    | cons first rest =>
        have hprinted := (property.hasComment hin).joinWith (List.mem_map_of_mem hproperty)
        exact (hprinted.append_left _).append_right _
  · cases hmem

theorem Function.hasComment {function : Function} {comment : String}
    (hmem : comment ∈ function.comments) : HasComment function.print comment := by
  rw [comments] at hmem
  split at hmem
  · cases hmem
  · rename_i doc hne
    cases List.mem_singleton.mp hmem
    have hdoc : printDoc function.doc =
        "" ++ "/*" ++ ("*\n" ++ TypeScript.joinWith "" (function.doc.map printDocLine) ++ " ") ++
          "*/" ++ "\n" := by
      rw [printDoc.eq_2 _ hne, ← String.toList_inj]
      simp [String.toList_append]
    have hself : HasComment (printDoc function.doc) _ := hdoc ▸ hasComment_self
    rw [print]
    exact ((((((hself.append_right _).append_right _).append_right _).append_right
      _).append_right _).append_right _).append_right _ |>.append_right _ |>.append_right _

/-- The comments of a module stand in its text. -/
theorem Module.hasComment {module : Module} {comment : String}
    (hmem : comment ∈ module.comments) : HasComment module.print comment := by
  rw [print]
  rcases List.mem_append.mp hmem with htype | hfunction
  · obtain ⟨decl, hdecl, hin⟩ := List.mem_flatMap.mp htype
    have hprinted : decl.print ++ "\n" ∈ module.types.map fun decl => decl.print ++ "\n" :=
      List.mem_map_of_mem hdecl
    have htypes := ((decl.hasComment hin).append_right "\n").joinWith hprinted
    exact (htypes.append_left _).append_right _
  · obtain ⟨declared, hdeclared, hin⟩ := List.mem_flatMap.mp hfunction
    cases declared with
    | block body => cases hin
    | function function =>
        have hprinted : (Declaration.function function).print ++ "\n" ∈
            module.functions.map fun declared => declared.print ++ "\n" :=
          List.mem_map_of_mem hdeclared
        exact (((function.hasComment hin).append_right "\n").joinWith hprinted).append_left _

theorem Property.staysOpen_comments {property : Property} :
    (∀ comment ∈ property.comments, StaysOpen comment) ↔
      ∀ doc ∈ property.doc, StaysOpen doc := by
  rw [comments, List.forall_mem_map]
  simp only [Option.mem_toList]
  refine forall₂_congr fun doc _ => ?_
  rw [staysOpen_append_plain (by decide), staysOpen_append_iff_right (by decide) (by decide)]

theorem staysOpen_printDocLine {line : String} :
    StaysOpen (printDocLine line) ↔ StaysOpen line := by
  rw [printDocLine]
  split
  · rename_i hempty
    subst hempty
    decide
  · rw [staysOpen_append_plain (by decide), staysOpen_append_iff_right (by decide) (by decide)]

theorem getLast?_printDocLine (line : String) :
    (printDocLine line).toList.getLast? = some '\n' := by
  rw [printDocLine]
  split
  · decide
  · have hfeed : "\n".toList = ['\n'] := by decide
    rw [String.toList_append, hfeed, List.getLast?_concat]

theorem staysOpen_docLines {lines : List String} :
    StaysOpen (joinWith "" (lines.map printDocLine)) ↔ ∀ line ∈ lines, StaysOpen line := by
  induction lines with
  | nil => simp [joinWith, StaysOpen]
  | cons line rest ih =>
      cases rest with
      | nil => simpa [joinWith] using staysOpen_printDocLine
      | cons next others =>
          rw [List.map_cons, joinWith.eq_3 _ _ _ (by simp), String.append_empty,
            staysOpen_append (Or.inl (by simp [getLast?_printDocLine])), staysOpen_printDocLine, ih,
            @List.forall_mem_cons _ _ line]

theorem Function.staysOpen_comments {function : Function} :
    (∀ comment ∈ function.comments, StaysOpen comment) ↔
      ∀ line ∈ function.doc, StaysOpen line := by
  rw [comments]
  split
  · rename_i hdoc
    simp [hdoc]
  · rw [List.forall_mem_singleton, staysOpen_append_plain (by decide),
      staysOpen_append_iff_right (by decide) (by decide), staysOpen_docLines]

end TypeScript

open TypeScript (EndsAsMeant HasComment StaysOpen endsAsMeant_iff)

/-- The comments of a declared type stay open if its text defaults do. -/
theorem ObjectType.staysOpen_comments {object : ObjectType} :
    (∀ comment ∈ object.typeDecl.comments, StaysOpen comment) ↔
      ∀ field ∈ object.fields, ∀ text, field.default = some (.str text) → StaysOpen text := by
  have hvalue : ∀ value : LiteralValue, StaysOpen (defaultDoc value) ↔
      ∀ text, value = .str text → StaysOpen text := by
    intro value
    rw [defaultDoc, TypeScript.staysOpen_plain_append (by decide), TypeScript.staysOpen_literal]
    cases value <;> simp [LiteralValue.render, TypeScript.Literal.atoms]
  simp only [typeDecl, TypeScript.TypeDecl.comments, List.forall_mem_flatMap, List.forall_mem_map,
    TypeScript.Property.staysOpen_comments, Option.mem_map, forall_exists_index, and_imp,
    forall_apply_eq_imp_iff₂, hvalue]
  refine forall₂_congr fun field _ => ?_
  constructor
  · exact fun h text hdefault => h (.str text) hdefault text rfl
  · rintro h _ hdefault text rfl
    exact h text hdefault

namespace RouteDef

variable {index : TypeIndex} {route : RouteDef} {matchInfo body response : Option ObjectType}

theorem staysOpen_paramDocs {arg : String} (harg : TypeScript.IsPlain arg) {object : ObjectType} :
    (∀ line ∈ paramDocs arg object, StaysOpen line) ↔
      ∀ field ∈ object.fields, StaysOpen field.ty.print ∧ StaysOpen field.name := by
  rw [paramDocs, List.forall_mem_map]
  refine forall₂_congr fun field _ => ?_
  rw [TypeScript.staysOpen_separated (by decide) (by decide),
    TypeScript.staysOpen_append_plain harg, TypeScript.staysOpen_append_plain (by decide),
    TypeScript.staysOpen_plain_append (by decide)]

/-- The lines of a wrapper's comment stay open if its path does, and with it the types and names
of all fields that it documents. -/
theorem staysOpen_docLines {args : List (String × ObjectType)}
    (hargs : ∀ arg ∈ args, TypeScript.IsPlain arg.1) :
    (∀ line ∈ route.docLines args, StaysOpen line) ↔
      StaysOpen route.path ∧ ∀ arg ∈ args, ∀ field ∈ arg.2.fields,
        StaysOpen field.ty.print ∧ StaysOpen field.name := by
  have hmethod : TypeScript.IsPlain (route.method.name ++ " ") := by
    cases route.method <;> decide
  have hdocs : (∀ line ∈ args.flatMap fun arg => paramDocs arg.1 arg.2, StaysOpen line) ↔
      ∀ arg ∈ args, ∀ field ∈ arg.2.fields, StaysOpen field.ty.print ∧ StaysOpen field.name := by
    rw [List.forall_mem_flatMap]
    exact forall₂_congr fun arg harg => staysOpen_paramDocs (hargs arg harg)
  rw [← hdocs, docLines, ← TypeScript.staysOpen_plain_append hmethod]
  generalize (args.flatMap fun arg => paramDocs arg.1 arg.2) = docs
  cases docs with
  | nil => simp
  | cons first rest => simp [(by decide : StaysOpen "")]

theorem isPlain_of_mem_arguments :
    ∀ arg ∈ arguments matchInfo body, TypeScript.IsPlain arg.1 := by
  have hmatchInfo : TypeScript.IsPlain "matchInfo" := by decide
  have hbody : TypeScript.IsPlain "body" := by decide
  simp [arguments, or_imp, forall_and, hmatchInfo, hbody]

end RouteDef

namespace TypeIndex

variable {index : TypeIndex} {routes : List RouteDef}

/-- The type of a declared field stays open exactly if the string literals inside it do. -/
theorem Consistent.staysOpen_fieldTy (hindex : index.Consistent) {path : ModelPath}
    {object : ObjectType} (hobject : index.object? path = some object) {field : ObjectField}
    (hfield : field ∈ object.fields) : StaysOpen field.ty.print ↔
      ∀ text, (Descriptor.literal (.str text)).Part field.descriptor → StaysOpen text := by
  have hbuiltIn : ∀ word ∈ ["Array", "Date", "Record"], TypeScript.IsPlain word := by decide
  simp only [← hindex.text_mem_fieldTy hobject hfield]
  refine TypeScript.staysOpen_ty field.ty fun word hword => ?_
  rcases hindex.name_mem_fieldTy hobject hfield hword with hmem | ⟨other, hother, rfl⟩
  · exact hbuiltIn word hmem
  · obtain ⟨entry, hentry, rfl⟩ := List.mem_map.mp hother
    exact TypeScript.isPlain_of_isIdentifier (hindex.valid entry hentry)

/-- The comment of a wrapper stays open exactly if the path and what it says about the fields do. -/
theorem Consistent.staysOpen_wrapper (hindex : index.Consistent) {route : RouteDef}
    {function : TypeScript.Function} (h : route.wrapper index = .ok function) :
    (∀ comment ∈ function.comments, StaysOpen comment) ↔
      StaysOpen route.path ∧ ∀ path ∈ route.matchInfo.toList ++ route.body.toList, ∀ object,
        index.object? path = some object → ∀ field ∈ object.fields,
          (∀ text, (Descriptor.literal (.str text)).Part field.descriptor → StaysOpen text) ∧
            StaysOpen field.name := by
  obtain ⟨matchInfo, body, response, segments, parts, hmatchInfo, hbody, _, _, rfl⟩ :=
    RouteDef.wrapper_parts h
  have hargs := @RouteDef.forall_mem_arguments_iff index route matchInfo body hmatchInfo hbody
    fun object => ∀ field ∈ object.fields, StaysOpen field.ty.print ∧ StaysOpen field.name
  rw [TypeScript.Function.staysOpen_comments, RouteDef.wrapperOf,
    RouteDef.staysOpen_docLines RouteDef.isPlain_of_mem_arguments, hargs]
  refine and_congr_right fun _ => forall₄_congr fun path _ object hobject => ?_
  exact forall₂_congr fun field hfield =>
    and_congr_left fun _ => hindex.staysOpen_fieldTy hobject hfield

/-- The texts of the schema that are put into comments: defaults, the paths of routes, and of the
fields that routes match and send the names and the string literals in the types. -/
inductive Documents (index : TypeIndex) (routes : List RouteDef) : String → Prop where
  | default {path : ModelPath} {object : ObjectType} {field : ObjectField} {text : String}
      (hobject : index.object? path = some object) (hfield : field ∈ object.fields)
      (hdefault : field.default = some (.str text)) : Documents index routes text
  | path {route : RouteDef} (hroute : route ∈ routes) : Documents index routes route.path
  | name {route : RouteDef} {path : ModelPath} {object : ObjectType} {field : ObjectField}
      (hroute : route ∈ routes) (hpath : path ∈ route.matchInfo.toList ++ route.body.toList)
      (hobject : index.object? path = some object) (hfield : field ∈ object.fields) :
      Documents index routes field.name
  | literal {route : RouteDef} {path : ModelPath} {object : ObjectType} {field : ObjectField}
      {text : String} (hroute : route ∈ routes)
      (hpath : path ∈ route.matchInfo.toList ++ route.body.toList)
      (hobject : index.object? path = some object) (hfield : field ∈ object.fields)
      (hpart : (Descriptor.literal (.str text)).Part field.descriptor) : Documents index routes text

/-- The comments of the declared types stay open if the defaults do. Enums and forms have none. -/
theorem Consistent.staysOpen_types (hindex : index.Consistent) {forms : List ObjectType}
    (hforms : RouteDef.forms index routes = .ok forms) :
    (∀ comment ∈ (index.enums.typeDecls ++ (index.objects.map fun entry => entry.2.typeDecl) ++
        forms.map ObjectType.typeDecl).flatMap TypeScript.TypeDecl.comments, StaysOpen comment) ↔
      ∀ path object, index.object? path = some object → ∀ field ∈ object.fields, ∀ text,
        field.default = some (.str text) → StaysOpen text := by
  have henums : index.enums.typeDecls.flatMap TypeScript.TypeDecl.comments = [] := by
    simp [EnumRegistry.typeDecls, List.flatMap_map, TypeScript.TypeDecl.comments]
  have hform : ∀ form ∈ forms, ∀ comment ∈ form.typeDecl.comments, StaysOpen comment := by
    intro form hform
    obtain ⟨route, _, hroute⟩ := RouteDef.mem_of_forms hforms form hform
    refine ObjectType.staysOpen_comments.mpr fun field hfield text hdefault => ?_
    obtain ⟨_, _, _, _, origin, _, rfl⟩ := RouteDef.form_parts hroute form rfl field hfield
    cases hdefault
  rw [List.flatMap_append, List.flatMap_append, henums, List.nil_append, List.forall_mem_append,
    and_iff_left]
  · simp only [List.flatMap_map, List.forall_mem_flatMap, ObjectType.staysOpen_comments,
      hindex.object?_eq_some_iff, Prod.forall]
  · simpa only [List.flatMap_map, List.forall_mem_flatMap] using hform

/-- The comments of the functions stay open if those of the wrappers do. Conversion functions have
none. -/
theorem Consistent.staysOpen_functions (hindex : index.Consistent)
    {wrappers : List TypeScript.Function}
    (hwrappers : RouteDef.wrappers index routes = .ok wrappers) :
    (∀ comment ∈ ((index.fromWire ++ index.toWire).map (fun entry =>
        TypeScript.Declaration.function entry.2.declared) ++
          wrappers.map TypeScript.Declaration.function).flatMap TypeScript.Declaration.comments,
        StaysOpen comment) ↔
      ∀ route ∈ routes, ∀ function, route.wrapper index = .ok function →
        ∀ comment ∈ function.comments, StaysOpen comment := by
  have hconversions : ((index.fromWire ++ index.toWire).map fun entry =>
      TypeScript.Declaration.function entry.2.declared).flatMap
        TypeScript.Declaration.comments = [] := by
    rw [List.flatMap_map, List.flatMap_eq_nil_iff]
    intro entry hentry
    obtain ⟨_, _, _, _, _, hconverts⟩ := hindex.converts hentry
    simp [TypeScript.Declaration.comments, TypeScript.Function.comments, hconverts.doc_eq]
  rw [List.flatMap_append, hconversions, List.nil_append]
  simp only [List.flatMap_map, List.forall_mem_flatMap, TypeScript.Declaration.comments,
    RouteDef.mem_wrappers_iff hwrappers, forall_exists_index, and_imp]
  exact ⟨fun h route hroute function hok => h function route hroute hok,
    fun h function route hroute hok => h route hroute function hok⟩

/-- The comments of a module stay open exactly if the texts that are put into them do. -/
theorem Consistent.staysOpen_module {module : TypeScript.Module} (hindex : index.Consistent)
    (hmodule : index.module routes = .ok module) :
    (∀ comment ∈ module.comments, StaysOpen comment) ↔
      ∀ text, index.Documents routes text → StaysOpen text := by
  obtain ⟨forms, wrappers, hforms, hwrappers, _, htypes, hfunctions⟩ := module_parts hmodule
  rw [TypeScript.Module.comments, htypes, hfunctions, List.forall_mem_append,
    hindex.staysOpen_types hforms, hindex.staysOpen_functions hwrappers]
  constructor
  · rintro ⟨hdefaults, hroutes⟩ text htext
    have hroute : ∀ route ∈ routes, _ := fun route hroute =>
      let ⟨function, hfunction⟩ := RouteDef.exists_wrapper hwrappers route hroute
      (hindex.staysOpen_wrapper hfunction).mp (hroutes route hroute function hfunction)
    cases htext with
    | default hobject hfield hdefault => exact hdefaults _ _ hobject _ hfield _ hdefault
    | path hmem => exact (hroute _ hmem).1
    | name hmem hpath hobject hfield => exact ((hroute _ hmem).2 _ hpath _ hobject _ hfield).2
    | literal hmem hpath hobject hfield hpart =>
        exact ((hroute _ hmem).2 _ hpath _ hobject _ hfield).1 _ hpart
  · intro h
    constructor
    · exact fun path object hobject field hfield text hdefault =>
        h text (.default hobject hfield hdefault)
    · refine fun route hroute function hfunction => (hindex.staysOpen_wrapper hfunction).mpr ?_
      exact ⟨h _ (.path hroute), fun path hpath object hobject field hfield =>
        ⟨fun text hpart => h text (.literal hroute hpath hobject hfield hpart),
          h _ (.name hroute hpath hobject hfield)⟩⟩

end TypeIndex

/-- The comments that are put into a generated module end where they are meant to exactly if no text
of the schema that is put into one holds a star that is followed by a slash. -/
theorem generate_comments_end_iff {graph : ModelGraph} {roots : List ModelPath}
    {routes : List RouteDef} {generated : Generated}
    (h : generate graph roots routes = .ok generated) :
    ∃ index module, indexFor graph roots routes = .ok index ∧
      index.module routes = .ok module ∧ generated.code = module.print ∧
      (∀ comment ∈ module.comments, HasComment generated.code comment) ∧
      ((∀ comment ∈ module.comments, EndsAsMeant comment) ↔
        ∀ text, index.Documents routes text → StaysOpen text) := by
  obtain ⟨index, module, hindex, hmodule, rfl⟩ := generate_eq_ok_iff.mp h
  refine ⟨index, module, hindex, hmodule, rfl, fun comment => module.hasComment, ?_⟩
  simp only [endsAsMeant_iff]
  exact (sound_indexFor hindex).staysOpen_module hmodule

/-- A model with a schedule as its default. -/
def scheduleGraph : ModelGraph :=
  .ofList [(⟨"app.Job"⟩, ⟨[⟨"schedule", .primitive .str, some (.str "*/5 * * * *")⟩]⟩)]

theorem generate_comments_end_iff_schedule :
    ∃ generated module, generate scheduleGraph [⟨"app.Job"⟩] [] = .ok generated ∧
      generated.code = TypeScript.Module.print module ∧
      ∃ comment ∈ module.comments, HasComment generated.code comment ∧ ¬EndsAsMeant comment := by
  have hroots : withRouteModels [⟨"app.Job"⟩] [] = [⟨"app.Job"⟩] := rfl
  have hok : (generate scheduleGraph [⟨"app.Job"⟩] []).toOption.isSome = true := by
    simp only [generate, indexFor, hroots, TypeIndex.register, TypeIndex.addRoots,
      TypeIndex.addRoot, TypeIndex.visit_eq_visitWithin]
    decide +kernel
  have hdefaults : ((indexFor scheduleGraph [⟨"app.Job"⟩] []).toOption.bind fun index =>
      index.object? ⟨"app.Job"⟩).map (fun object => object.fields.map ObjectField.default) =
        some [some (.str "*/5 * * * *")] := by
    simp only [indexFor, hroots, TypeIndex.register, TypeIndex.addRoots, TypeIndex.addRoot,
      TypeIndex.visit_eq_visitWithin]
    decide +kernel
  obtain ⟨generated, hgenerated⟩ := exists_ok_of_isSome hok
  obtain ⟨index, module, hindex, _, hcode, hplaced, hend⟩ := generate_comments_end_iff hgenerated
  rw [hindex] at hdefaults
  obtain ⟨object, hobject, hfields⟩ := Option.map_eq_some_iff.mp hdefaults
  obtain ⟨field, hfield, hdefault⟩ := List.mem_map.mp (hfields ▸ List.mem_cons_self)
  have hcloses : ¬StaysOpen "*/5 * * * *" := by decide
  have hnot : ¬∀ comment ∈ module.comments, EndsAsMeant comment := fun hall =>
    hcloses (hend.mp hall _ (.default hobject hfield hdefault))
  push Not at hnot
  obtain ⟨comment, hcomment, hbroken⟩ := hnot
  exact ⟨generated, module, hgenerated, hcode, comment, hcomment, hplaced comment hcomment, hbroken⟩

end SchemaWire
