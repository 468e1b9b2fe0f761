import SchemaWire.Proofs.Scoping.Mention
import SchemaWire.Proofs.Wire.LocalName

/-!
The names that helpers mention. Helpers are raw text, so their names are read from its words: every
word is bound in the helper itself or refers to one of a few names outside.
-/
namespace SchemaWire.RouteHelpers

open TypeScript (AllResolve Declaration Mention)

/-- The names that helpers bind. -/
def boundNames : List String :=
  ["body", "errors", "item", "key", "query", "res", "status", "statusText", "text", "validation",
    "value"]

/-- The words of a declaration are bound in it or among the given ones outside. -/
def UsesOnly (declaration : Declaration) (outer : List String) : Prop :=
  ∀ mention ∈ declaration.mentions, ∃ name locals, mention = .word name locals ∧
    (∀ other ∈ locals, other ∈ boundNames) ∧ (name ∈ locals ∨ name ∈ outer)

theorem UsesOnly.resolves {declaration : Declaration} {outer values types : List String}
    (h : UsesOnly declaration outer) (hbound : ∀ name ∈ boundNames, name ∉ values)
    (houter : ∀ name ∈ outer, name ∈ values ∨ name ∈ types) :
    AllResolve values types declaration.mentions := by
  intro mention hmention
  obtain ⟨name, locals, rfl, hlocals, hname⟩ := h mention hmention
  rw [Mention.Resolves]
  split
  · exact fun hmem => hbound name (hlocals name ‹_›) hmem
  · rename_i hnot
    exact houter name (hname.resolve_left hnot)

/-- The words of lines of text. -/
theorem usesOnly_block {lines outer : List String}
    (hlines : (∀ line ∈ lines.map String.toList, '\n' ∉ line ∧ '\r' ∉ line) ∧
      (∀ name ∈ TypeScript.boundWords ((lines.map String.toList).flatMap
        (TypeScript.lineTokens [] [])), name ∈ boundNames) ∧
      ∀ name ∈ TypeScript.usedWords ((lines.map String.toList).flatMap
        (TypeScript.lineTokens [] [])), name ∈ TypeScript.boundWords
          ((lines.map String.toList).flatMap (TypeScript.lineTokens [] [])) ∨ name ∈ outer)
    (hlast : ∀ line ∈ lines.getLast?, line ≠ "") : UsesOnly (block lines) outer := by
  obtain ⟨hplain, hbound, hused⟩ := hlines
  have hcut : Text.lines (TypeScript.joinWith "\n" lines) = lines :=
    Text.lines_joinWith (fun line hline => hplain _ (List.mem_map_of_mem hline)) hlast
  rw [List.flatMap_map] at hbound hused
  intro mention hmention
  have hword : mention ∈ TypeScript.rawMentions [] (TypeScript.joinWith "\n" lines) := by
    simpa [block, Declaration.text, Declaration.mentions] using hmention
  rw [TypeScript.rawMentions, hcut, List.append_nil] at hword
  obtain ⟨name, hname, rfl⟩ := List.mem_map.mp hword
  exact ⟨name, _, rfl, hbound, hused name hname⟩

theorem usesOnly_apiError : UsesOnly apiError (HelperName.apiError ::
    HelperName.isValidationErrorResponse :: ValidationModels.response.shortName ::
    Direction.fromWire.functionName ValidationModels.response.shortName :: globalNames) := by
  refine usesOnly_block ?_ (by decide)
  simp only [List.map_cons, List.map_nil, String.toList_append, HelperName.apiError,
    HelperName.isValidationErrorResponse, ValidationModels.response]
  repeat rw [String.toList_ofList]
  decide +kernel

theorem usesOnly_validationGuard :
    UsesOnly validationGuard (HelperName.isValidationErrorResponse :: globalNames) := by
  refine usesOnly_block ?_ (by decide)
  simp only [List.map_cons, List.map_nil, String.toList_append,
    HelperName.isValidationErrorResponse]
  repeat rw [String.toList_ofList]
  decide +kernel

theorem usesOnly_readErrorBody :
    UsesOnly readErrorBody (HelperName.readErrorBody :: globalNames) := by
  refine usesOnly_block ?_ (by decide)
  simp only [List.map_cons, List.map_nil, String.toList_append, HelperName.readErrorBody]
  repeat rw [String.toList_ofList]
  decide +kernel

theorem usesOnly_encodeQuery : UsesOnly encodeQuery (HelperName.encodeQuery :: globalNames) := by
  refine usesOnly_block ?_ (by decide)
  simp only [List.map_cons, List.map_nil, String.toList_append, HelperName.encodeQuery]
  repeat rw [String.toList_ofList]
  decide +kernel

theorem usesOnly_unreachable : UsesOnly unreachable (HelperName.unreachable :: globalNames) := by
  refine usesOnly_block ?_ (by decide)
  simp only [List.map_cons, List.map_nil, String.toList_append, HelperName.unreachable]
  repeat rw [String.toList_ofList]
  decide +kernel

/-- What helpers bind is no name that a module may refer to. -/
theorem not_outer_of_mem_boundNames {name : String} (h : name ∈ boundNames) :
    name ∉ globalNames ∧ name ∉ HelperName.all ∧
      ∀ (dir : Direction) (typeName : String), name ≠ dir.functionName typeName := by
  have hbound : ∀ name ∈ boundNames, name ∉ globalNames ∧ name ∉ HelperName.all ∧
      name.toList.head? ∉ [some 'g', some 'c'] := by decide
  obtain ⟨hglobal, hhelper, hhead⟩ := hbound name h
  exact ⟨hglobal, hhelper, fun dir typeName heq => hhead (heq ▸ dir.head?_functionName typeName)⟩

/-- The helpers among the declarations of a module. -/
theorem mem_preamble {routes : List RouteDef} {needsUnreachable : Bool} {declared : Declaration}
    (h : declared ∈ forRoutes routes ++ if needsUnreachable then [unreachable] else []) :
    (routes ≠ [] ∧ declared ∈ [apiError, validationGuard, readErrorBody]) ∨
      declared = encodeQuery ∨ declared = unreachable := by
  rcases List.mem_append.mp h with hroute | hend
  · unfold forRoutes at hroute
    split at hroute
    · cases hroute
    · rename_i hne
      rcases List.mem_append.mp hroute with hshared | hquery
      · exact Or.inl ⟨fun hnil => hne (List.isEmpty_iff.mpr hnil), hshared⟩
      · split at hquery
        · exact Or.inr (Or.inl (List.mem_singleton.mp hquery))
        · cases hquery
  · split at hend
    · exact Or.inr (Or.inr (List.mem_singleton.mp hend))
    · cases hend

end SchemaWire.RouteHelpers
