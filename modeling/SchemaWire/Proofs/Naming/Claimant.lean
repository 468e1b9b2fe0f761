import SchemaWire.Index.Register
import SchemaWire.Proofs.Result

/-!
Claimants: the declarations that take a top-level name. A claimant determines the name it takes and
the text under which the scope records it as the owner. Main statements: two claimants of one valid
name with the same owner text are the same, and no claimant of a valid name goes by the text that
owns the reserved names. The scope, which compares texts, therefore tells declarations apart.
-/
namespace SchemaWire

open TypeScript (isIdentifier)

namespace TypeScript

theorem isNamePart_of_mem_isIdentifier {name : String} (h : isIdentifier name = true) {c : Char}
    (hmem : c ∈ name.toList) : isNamePart c = true := by
  have hbare := isBareName_of_isIdentifier h
  unfold isBareName at hbare
  cases hchars : name.toList with
  | nil => simp [hchars] at hmem
  | cons first rest =>
      rw [hchars] at hbare hmem
      simp only [isBareChars, Bool.and_eq_true, List.all_eq_true] at hbare
      rcases List.mem_cons.mp hmem with rfl | hrest
      · exact isNamePart_of_isNameStart hbare.1
      · exact hbare.2 c hrest

theorem not_isIdentifier_of_mem {name : String} {c : Char} (hpart : isNamePart c = false)
    (hmem : c ∈ name.toList) : isIdentifier name = false := by
  cases hvalid : isIdentifier name with
  | false => rfl
  | true =>
      rw [isNamePart_of_mem_isIdentifier hvalid hmem] at hpart
      cases hpart

theorem isUpper_of_isReserved {word : String} (h : isReserved word = true) :
    ∀ c ∈ word.toList, c.isUpper = false := by
  have hall : ∀ reserved ∈ reservedWords, reserved.toList.all (fun c => !c.isUpper) = true := by
    decide
  intro c hc
  have hnot := List.all_eq_true.mp (hall word (List.contains_iff_mem.mp h)) c hc
  simpa using hnot

/-- A bare name goes on with name characters, and no reserved word has a capital. -/
theorem isIdentifier_append {first rest : String} (hfirst : isBareName first = true)
    (hrest : rest.toList.all isNamePart = true) (hupper : ∃ c ∈ rest.toList, c.isUpper) :
    isIdentifier (first ++ rest) = true := by
  have hreserved : isReserved (first ++ rest) = false := by
    cases hword : isReserved (first ++ rest) with
    | false => rfl
    | true =>
        obtain ⟨c, hc, hcapital⟩ := hupper
        rw [isUpper_of_isReserved hword c (by simp [hc])] at hcapital
        cases hcapital
  have hbare : isBareName (first ++ rest) = true := by
    unfold isBareName at hfirst ⊢
    rw [String.toList_append]
    cases hchars : first.toList with
    | nil => simp [hchars, isBareChars] at hfirst
    | cons c others =>
        simp only [hchars, isBareChars, Bool.and_eq_true, List.all_eq_true] at hfirst
        simp only [List.cons_append, isBareChars, Bool.and_eq_true, List.all_eq_true]
        refine ⟨hfirst.1, fun d hd => ?_⟩
        exact (List.mem_append.mp hd).elim (hfirst.2 d) (List.all_eq_true.mp hrest d)
  rw [isIdentifier, hbare, hreserved]
  rfl

end TypeScript

namespace Text

/-- Two texts that differ within their fixed beginnings differ, whatever follows. -/
theorem append_ne_append (n : Nat) {before before' : String} (rest rest' : List Char)
    (h : n ≤ before.toList.length ∧ n ≤ before'.toList.length ∧
      before.toList.take n ≠ before'.toList.take n) :
    before.toList ++ rest ≠ before'.toList ++ rest' := by
  intro heq
  have htake := congrArg (List.take n) heq
  rw [List.take_append_of_le_length h.1, List.take_append_of_le_length h.2.1] at htake
  exact h.2.2 htake

theorem lastSegment_of_not_mem {sep : Char} {text : List Char} (hnot : sep ∉ text) :
    lastSegment sep text = text := by
  have hall : ∀ c ∈ text.reverse, decide (c ≠ sep) = true := by
    intro c hc
    simp only [ne_eq, decide_not, Bool.not_eq_eq_eq_not, Bool.not_true, decide_eq_false_iff_not]
    rintro rfl
    exact hnot (List.mem_reverse.mp hc)
  have htake : text.reverse.takeWhile (· ≠ sep) = text.reverse := by
    simpa using @List.takeWhile_append_of_pos _ _ _ [] hall
  rw [lastSegment, htake, List.reverse_reverse]

theorem lastSegment_append_of_mem {sep : Char} (before : List Char) {text : List Char}
    (hmem : sep ∈ text) : lastSegment sep (before ++ text) = lastSegment sep text := by
  have hlt : (text.reverse.takeWhile (· ≠ sep)).length ≠ text.reverse.length := by
    intro heq
    have hself := (List.takeWhile_prefix (· ≠ sep) (l := text.reverse)).eq_of_length heq
    have hall := List.all_takeWhile (p := (· ≠ sep)) (l := text.reverse)
    rw [hself, List.all_eq_true] at hall
    simpa using hall sep (List.mem_reverse.mpr hmem)
  rw [lastSegment, List.reverse_append, List.takeWhile_append, if_neg hlt]
  rfl

end Text

namespace ModelPath

theorem shortName_eq_text {path : ModelPath} (hnot : '.' ∉ path.text.toList) :
    path.shortName = path.text := by
  rw [shortName, Text.lastSegment_of_not_mem hnot, String.ofList_toList]

/-- Whatever stands before a path has no say in its short name, once the path has a dot. -/
theorem shortName_append {path : ModelPath} (before : String) (hmem : '.' ∈ path.text.toList) :
    (ModelPath.mk (before ++ path.text)).shortName = path.shortName := by
  rw [shortName, String.toList_append, Text.lastSegment_append_of_mem _ hmem, shortName]

end ModelPath

/-- A declaration that takes a top-level name. -/
inductive Claimant where
  | model (path : ModelPath)
  | function (dir : Direction) (path : ModelPath)
  | enum (name : String)
deriving DecidableEq, Repr

namespace Claimant

def name : Claimant → String
  | model path => path.shortName
  | function dir path => dir.functionName path.shortName
  | enum name => name

/-- What stands before the path in the text that owns the name of a conversion function. -/
def functionWords : Direction → String
  | .fromWire => "the from-wire function of "
  | .toWire => "the to-wire function of "

def owner : Claimant → String
  | model path => path.text
  | function dir path => functionWords dir ++ path.text
  | enum name => "enum " ++ name

theorem toList_owner_function (dir : Direction) (path : ModelPath) :
    (function dir path).owner.toList = (functionWords dir).toList ++ path.text.toList :=
  String.toList_append

theorem toList_owner_enum (tag : String) :
    (enum tag).owner.toList = "enum ".toList ++ tag.toList :=
  String.toList_append

end Claimant

theorem Direction.length_lt_functionName (dir : Direction) (typeName : String) :
    typeName.length < (dir.functionName typeName).length := by
  have hget : "get".length = 3 := rfl
  have hconvert : "convert".length = 7 := rfl
  cases dir <;> simp only [Direction.functionName, String.length_append] <;> omega

/-- The conversion functions of a model with a valid name have valid names. -/
theorem Direction.isIdentifier_functionName {typeName : String}
    (hvalid : isIdentifier typeName = true) (dir : Direction) :
    isIdentifier (dir.functionName typeName) = true := by
  have hname : typeName.toList.all TypeScript.isNamePart = true := by
    rw [List.all_eq_true]
    intro c hc
    exact TypeScript.isNamePart_of_mem_isIdentifier hvalid hc
  have hparts : ∀ suffix : String, suffix.toList.all TypeScript.isNamePart = true →
      (typeName ++ suffix).toList.all TypeScript.isNamePart = true := by
    intro suffix hsuffix
    rw [String.toList_append, List.all_append, hname, hsuffix]
    rfl
  have hupper : ∀ suffix : String, (∃ c ∈ suffix.toList, c.isUpper) →
      ∃ c ∈ (typeName ++ suffix).toList, c.isUpper := by
    rintro suffix ⟨c, hc, hcapital⟩
    exact ⟨c, by simp [hc], hcapital⟩
  cases dir with
  | fromWire =>
      rw [functionName, String.append_assoc]
      exact TypeScript.isIdentifier_append (by decide) (hparts _ (by decide))
        (hupper _ ⟨'F', by decide, rfl⟩)
  | toWire =>
      rw [functionName, String.append_assoc]
      exact TypeScript.isIdentifier_append (by decide) (hparts _ (by decide))
        (hupper _ ⟨'W', by decide, rfl⟩)

/-- A model whose path repeats another path after some words is not declared under a name made
from the other path's short name. -/
theorem ModelPath.shortName_ne_functionName {path other : ModelPath} {before : String}
    (htext : path.text = before ++ other.text) (hspace : ' ' ∈ before.toList)
    (hdot : '.' ∉ before.toList) (hvalid : isIdentifier path.shortName = true) (dir : Direction) :
    path.shortName ≠ dir.functionName other.shortName := by
  intro hname
  by_cases hmem : '.' ∈ other.text.toList
  · have hshort : path.shortName = other.shortName := by
      rw [← ModelPath.shortName_append before hmem, ← htext]
    have hlength := dir.length_lt_functionName other.shortName
    rw [← hname, hshort] at hlength
    exact Nat.lt_irrefl _ hlength
  · have hnot : '.' ∉ path.text.toList := by
      rw [htext, String.toList_append, List.mem_append]
      exact not_or.mpr ⟨hdot, hmem⟩
    rw [ModelPath.shortName_eq_text hnot, htext] at hvalid
    have hspace' : ' ' ∈ (before ++ other.text).toList := by
      rw [String.toList_append]
      exact List.mem_append_left _ hspace
    rw [TypeScript.not_isIdentifier_of_mem (by decide) hspace'] at hvalid
    cases hvalid

/-- A model does not go by the owner text of an enum of its own name. -/
theorem ModelPath.text_ne_enum {path : ModelPath} (hvalid : isIdentifier path.shortName = true) :
    path.text ≠ "enum " ++ path.shortName := by
  intro htext
  have hnot : '.' ∉ path.text.toList := by
    rw [htext, String.toList_append, List.mem_append]
    refine not_or.mpr ⟨by decide, fun hdot => ?_⟩
    rw [TypeScript.not_isIdentifier_of_mem (by decide) hdot] at hvalid
    cases hvalid
  rw [ModelPath.shortName_eq_text hnot] at htext
  have hlength := congrArg String.length htext
  rw [String.length_append] at hlength
  have : "enum ".length = 5 := rfl
  omega

namespace Claimant

theorem owner_model_ne_function {path other : ModelPath} {dir : Direction}
    (hvalid : isIdentifier path.shortName = true)
    (hname : (model path).name = (function dir other).name) :
    (model path).owner ≠ (function dir other).owner := by
  intro howner
  refine ModelPath.shortName_ne_functionName howner ?_ ?_ hvalid dir hname
  · cases dir <;> decide
  · cases dir <;> decide

theorem owner_function_ne_enum (dir : Direction) (path : ModelPath) (tag : String) :
    (function dir path).owner ≠ (enum tag).owner := by
  intro howner
  have hchars := congrArg String.toList howner
  rw [toList_owner_function, toList_owner_enum] at hchars
  refine Text.append_ne_append 1 _ _ ?_ hchars
  cases dir <;> decide

theorem owner_model_ne_enum {path : ModelPath} {tag : String}
    (hvalid : isIdentifier path.shortName = true) (hname : (model path).name = (enum tag).name) :
    (model path).owner ≠ (enum tag).owner := by
  change path.shortName = tag at hname
  subst hname
  exact ModelPath.text_ne_enum hvalid

theorem eq_of_owner_function_eq {dir other : Direction} {path second : ModelPath}
    (howner : (function dir path).owner = (function other second).owner) :
    function dir path = function other second := by
  have hchars := congrArg String.toList howner
  rw [toList_owner_function, toList_owner_function] at hchars
  have hdir : dir = other := by
    cases dir <;> cases other
    · rfl
    · exact absurd hchars (Text.append_ne_append 5 _ _ (by decide))
    · exact absurd hchars (Text.append_ne_append 5 _ _ (by decide))
    · rfl
  subst hdir
  have htext := String.toList_inj.mp (List.append_cancel_left hchars)
  exact congrArg (fun text => function dir ⟨text⟩) htext

/-- Claimants of one valid name with the same owner text are the same. -/
theorem eq_of_owner_eq {first second : Claimant} (hvalid : isIdentifier first.name = true)
    (hname : first.name = second.name) (howner : first.owner = second.owner) : first = second := by
  have hvalid' : isIdentifier second.name = true := hname ▸ hvalid
  cases first with
  | model path =>
      cases second with
      | model other => exact congrArg (fun text => model ⟨text⟩) howner
      | function dir other => exact absurd howner (owner_model_ne_function hvalid hname)
      | enum tag => exact absurd howner (owner_model_ne_enum hvalid hname)
  | function dir path =>
      cases second with
      | model other => exact absurd howner.symm (owner_model_ne_function hvalid' hname.symm)
      | function other second => exact eq_of_owner_function_eq howner
      | enum tag => exact absurd howner (owner_function_ne_enum dir path tag)
  | enum tag =>
      cases second with
      | model other => exact absurd howner.symm (owner_model_ne_enum hvalid' hname.symm)
      | function dir path => exact absurd howner.symm (owner_function_ne_enum dir path tag)
      | enum other => exact congrArg enum hname

/-- The texts that own the reserved names. -/
def reservedTexts : List String :=
  ["the TypeScript global", "a generated helper"]

theorem mem_reservedTexts {entry : String × String} (hmem : entry ∈ reservedOwners) :
    entry.2 ∈ reservedTexts := by
  rw [reservedOwners, List.mem_append, List.mem_map, List.mem_map] at hmem
  rcases hmem with ⟨_, _, rfl⟩ | ⟨_, _, rfl⟩ <;> simp [reservedTexts]

/-- No claimant of a valid name goes by a text that owns reserved names. -/
theorem owner_not_mem_reservedTexts {claimant : Claimant}
    (hvalid : isIdentifier claimant.name = true) : claimant.owner ∉ reservedTexts := by
  cases claimant with
  | model path =>
      intro hmem
      change path.text ∈ reservedTexts at hmem
      have hnot : '.' ∉ path.text.toList ∧ ' ' ∈ path.text.toList := by
        revert hmem
        generalize path.text = text
        revert text
        decide
      rw [name, ModelPath.shortName_eq_text hnot.1,
        TypeScript.not_isIdentifier_of_mem (by decide) hnot.2] at hvalid
      cases hvalid
  | function dir path =>
      intro hmem
      simp only [reservedTexts, List.mem_cons, List.not_mem_nil, or_false] at hmem
      rcases hmem with howner | howner
      · have hchars := congrArg String.toList howner
        rw [toList_owner_function, ← List.append_nil "the TypeScript global".toList] at hchars
        exact Text.append_ne_append 5 _ _ (by cases dir <;> decide) hchars
      · have hchars := congrArg String.toList howner
        rw [toList_owner_function, ← List.append_nil "a generated helper".toList] at hchars
        exact Text.append_ne_append 1 _ _ (by cases dir <;> decide) hchars
  | enum tag =>
      intro hmem
      simp only [reservedTexts, List.mem_cons, List.not_mem_nil, or_false] at hmem
      rcases hmem with howner | howner
      · have hchars := congrArg String.toList howner
        rw [toList_owner_enum, ← List.append_nil "the TypeScript global".toList] at hchars
        exact Text.append_ne_append 1 _ _ (by decide) hchars
      · have hchars := congrArg String.toList howner
        rw [toList_owner_enum, ← List.append_nil "a generated helper".toList] at hchars
        exact Text.append_ne_append 1 _ _ (by decide) hchars

end Claimant

end SchemaWire
