import SchemaWire.Generate
import SchemaWire.Proofs.Index.Enums
import SchemaWire.Proofs.Index.Registrable

/-!
Which names a module declares at its top level, where they come from, and which of them the check
of the route names keeps apart. Helpers are raw text, so their names are read from it.
-/
namespace SchemaWire

open TypeScript (isIdentifier)

namespace Text

theorem lookup_upperCaseExpansions {n : Nat} (h : n < 128) :
    upperCaseExpansions.lookup n = none := by
  have hforms : ∀ form ∈ upperCaseExpansions, 128 ≤ form.1 := by decide
  refine List.lookup_eq_none_iff.mpr fun form hform => bne_iff_ne.mpr fun heq => ?_
  have hle := hforms form hform
  omega

/-- Before the small letters no character has an upper-case form. -/
theorem upperCase_of_lt {c : Char} (h : c.toNat < 97) : upperCase c = [c] := by
  have hruns : ∀ run ∈ upperCaseRuns, 97 ≤ run.first := by decide +kernel
  have hrun : upperCaseRuns.findSome? (·.upper? c.toNat) = none := by
    refine List.findSome?_eq_none_iff.mpr fun run hrun => ?_
    have hle := hruns run hrun
    have hnot : ¬ run.first ≤ c.toNat := by omega
    simp [CaseRun.upper?, hnot]
  rw [upperCase, lookup_upperCaseExpansions (by omega), hrun]

theorem upperCase_of_small {c : Char} (hfirst : 97 ≤ c.toNat) (hlast : c.toNat ≤ 122) :
    upperCase c = [Char.ofNat (c.toNat - 32)] := by
  have hruns : upperCaseRuns = ⟨97, 122, 1, -32⟩ :: upperCaseRuns.tail := rfl
  have hupper : CaseRun.upper? ⟨97, 122, 1, -32⟩ c.toNat = some (c.toNat - 32) := by
    simp [CaseRun.upper?, hfirst, hlast]
    omega
  rw [upperCase, lookup_upperCaseExpansions (by omega), hruns, List.findSome?_cons, hupper]

end Text

namespace TypeScript

/-- Takes a word off the front of a line. -/
def dropWord? (word : String) (line : List Char) : Option (List Char) :=
  if word.toList.isPrefixOf line then some (line.drop word.length) else none

/-- The name that a line of raw text declares at the top level, if it declares one. -/
def lineDeclares? (line : List Char) : Option String :=
  let bare := (dropWord? "export " line).getD line
  let called := (dropWord? "async " bare).getD bare
  ((dropWord? "class " called).orElse fun _ => dropWord? "function " called).map fun rest =>
    String.ofList (rest.takeWhile isNamePart)

def Stmt.declaredNames : Stmt → List String
  | .const name _ _ => [name]
  | .raw text => (Text.lines text).filterMap fun line => lineDeclares? line.toList
  | .ret _ | .cond _ _ | .throw _ => []

def Declaration.declaredNames : Declaration → List String
  | .function declared => [declared.name]
  | .block body => body.flatMap Stmt.declaredNames

/-- All names that a module declares at its top level, in order. -/
def Module.declaredNames (module : Module) : List String :=
  module.preamble.flatMap Declaration.declaredNames ++ module.types.map TypeDecl.name ++
    module.functions.flatMap Declaration.declaredNames

theorem isBareChars_upperCase {c : Char} (h : isNameStart c = true) :
    isBareChars (Text.upperCase c) = true := by
  by_cases hsmall : 97 ≤ c.toNat
  · have hlast : c.toNat ≤ 122 := by
      -- a name starts with a letter, of either case, or with one of two signs
      have hstart : (decide ('A'.val ≤ c.val ∧ c.val ≤ 'Z'.val) ||
          decide ('a'.val ≤ c.val) && decide (c.val ≤ 'z'.val) || c == '_' || c == '$') = true := h
      simp only [Bool.or_eq_true, Bool.and_eq_true, decide_eq_true_eq, beq_iff_eq,
        UInt32.le_iff_toNat_le] at hstart
      rcases hstart with ((⟨_, h⟩ | ⟨_, h⟩) | rfl) | rfl
      · exact Nat.le_trans h (by decide)
      · exact h
      · decide
      · decide
    have hcapitals : ∀ n < 26, isBareChars [Char.ofNat (n + 65)] = true := by decide
    have hcapital := hcapitals (c.toNat - 97) (by omega)
    rw [Text.upperCase_of_small hsmall hlast]
    have heq : c.toNat - 32 = c.toNat - 97 + 65 := by omega
    rw [heq]
    exact hcapital
  · rw [Text.upperCase_of_lt (Nat.not_le.mp hsmall), isBareChars, h]
    rfl

theorem isBareName_capitalize {word : String} (h : isBareName word = true) :
    isBareName (Text.capitalize word) = true := by
  unfold isBareName at h ⊢
  rw [Text.capitalize, String.toList_ofList]
  cases hchars : word.toList with
  | nil => simp [hchars, isBareChars] at h
  | cons c rest =>
      simp only [hchars, isBareChars, Bool.and_eq_true, List.all_eq_true] at h
      have hfirst := isBareChars_upperCase h.1
      rw [Text.capitalizeChars]
      cases hupper : Text.upperCase c with
      | nil => simp [hupper, isBareChars] at hfirst
      | cons d others =>
          simp only [hupper, isBareChars, Bool.and_eq_true, List.all_eq_true] at hfirst
          simp only [List.cons_append, isBareChars, Bool.and_eq_true, List.all_eq_true]
          refine ⟨hfirst.1, fun e he => ?_⟩
          exact (List.mem_append.mp he).elim (hfirst.2 e) (h.2 e)

end TypeScript

namespace Text

theorem lineChars_append {line rest : List Char} {chars : List Char} (hchars : '\n' ∉ chars) :
    lineChars line (chars ++ rest) = lineChars (chars.reverse ++ line) rest := by
  induction chars generalizing line with
  | nil => rfl
  | cons c others ih =>
      rw [List.mem_cons, not_or] at hchars
      rw [List.cons_append, lineChars.eq_4 _ _ _ (fun heq => hchars.1 heq.symm), ih hchars.2]
      simp

/-- A text put together from lines is cut into these lines. -/
theorem lines_joinWith {texts : List String}
    (hplain : ∀ text ∈ texts, '\n' ∉ text.toList ∧ '\r' ∉ text.toList)
    (hlast : ∀ text ∈ texts.getLast?, text ≠ "") :
    lines (TypeScript.joinWith "\n" texts) = texts := by
  fun_induction TypeScript.joinWith "\n" texts with
  | case1 => rfl
  | case2 text =>
      have hne : text.toList ≠ [] := by
        intro hnil
        exact hlast text rfl (String.toList_eq_nil_iff.mp hnil)
      have htext := @lineChars_append [] [] text.toList (hplain text List.mem_cons_self).1
      rw [List.append_nil] at htext
      simp [lines, htext, lineChars, hne]
  | case3 text others hothers ih =>
      have hhead := hplain text List.mem_cons_self
      have hrest := ih (fun other hother => hplain other (List.mem_cons_of_mem _ hother)) (by
        intro other hother
        refine hlast other ?_
        cases others with
        | nil => cases hother
        | cons next rest => rwa [List.getLast?_cons_cons])
      have hline : ∀ before, text.toList.reverse ≠ '\r' :: before := by
        intro before heq
        refine hhead.2 ?_
        rw [← List.mem_reverse, heq]
        exact List.mem_cons_self
      rw [lines] at hrest ⊢
      have hfeed : "\n".toList = ['\n'] := rfl
      rw [String.toList_append, String.toList_append, hfeed, List.append_assoc,
        lineChars_append hhead.1, List.append_nil, List.singleton_append,
        lineChars.eq_3 _ _ hline, List.map_cons, hrest]
      simp

end Text

namespace RouteHelpers

/-- A helper declares what its lines declare. -/
theorem declaredNames_block {lines names : List String}
    (hlines : (∀ line ∈ lines.map String.toList, '\n' ∉ line ∧ '\r' ∉ line) ∧
      (lines.map String.toList).filterMap TypeScript.lineDeclares? = names)
    (hlast : ∀ line ∈ lines.getLast?, line ≠ "") : (block lines).declaredNames = names := by
  have hcut : Text.lines (TypeScript.joinWith "\n" lines) = lines :=
    Text.lines_joinWith (fun line hline => hlines.1 _ (List.mem_map_of_mem hline)) hlast
  rw [← hlines.2, List.filterMap_map]
  simp [block, TypeScript.Declaration.text, TypeScript.Declaration.declaredNames,
    TypeScript.Stmt.declaredNames, hcut]

-- the kernel reads the characters of a long literal slowly, so they are written out before
theorem declaredNames_apiError : apiError.declaredNames = [HelperName.apiError] := by
  refine declaredNames_block ?_ (by decide)
  simp only [List.map_cons, List.map_nil, String.toList_append, HelperName.apiError,
    HelperName.isValidationErrorResponse, ValidationModels.response]
  repeat rw [String.toList_ofList]
  decide

theorem declaredNames_validationGuard :
    validationGuard.declaredNames = [HelperName.isValidationErrorResponse] := by
  refine declaredNames_block ?_ (by decide)
  simp only [List.map_cons, List.map_nil, String.toList_append,
    HelperName.isValidationErrorResponse]
  repeat rw [String.toList_ofList]
  decide

theorem declaredNames_readErrorBody :
    readErrorBody.declaredNames = [HelperName.readErrorBody] := by
  refine declaredNames_block ?_ (by decide)
  simp only [List.map_cons, List.map_nil, String.toList_append, HelperName.readErrorBody]
  repeat rw [String.toList_ofList]
  decide

theorem declaredNames_encodeQuery : encodeQuery.declaredNames = [HelperName.encodeQuery] := by
  refine declaredNames_block ?_ (by decide)
  simp only [List.map_cons, List.map_nil, String.toList_append, HelperName.encodeQuery]
  repeat rw [String.toList_ofList]
  decide

theorem declaredNames_unreachable : unreachable.declaredNames = [HelperName.unreachable] := by
  refine declaredNames_block ?_ (by decide)
  simp only [List.map_cons, List.map_nil, String.toList_append, HelperName.unreachable]
  repeat rw [String.toList_ofList]
  decide

/-- The helpers that a module declares have different names, which are reserved for them. -/
theorem declaredNames_preamble (routes : List RouteDef) (needsUnreachable : Bool) :
    ((forRoutes routes ++ if needsUnreachable then [unreachable] else []).flatMap
        TypeScript.Declaration.declaredNames).Nodup ∧
      ∀ name ∈ (forRoutes routes ++ if needsUnreachable then [unreachable] else []).flatMap
        TypeScript.Declaration.declaredNames, name ∈ HelperName.all := by
  unfold forRoutes
  generalize routes.isEmpty = empty
  generalize routes.any RouteDef.sendsQuery = queries
  cases empty <;> cases queries <;> cases needsUnreachable <;>
    simp only [Bool.false_eq_true, if_true, if_false, List.flatMap_append, List.flatMap_cons,
      List.flatMap_nil, declaredNames_apiError, declaredNames_validationGuard,
      declaredNames_readErrorBody, declaredNames_encodeQuery, declaredNames_unreachable] <;>
    decide

theorem helperNames_ok :
    ∀ name ∈ HelperName.all, isIdentifier name = true ∧ name ∉ globalNames ∧
      name ∈ reservedOwners.map Prod.fst := by
  decide

end RouteHelpers

end SchemaWire
