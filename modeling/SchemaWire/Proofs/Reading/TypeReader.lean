import SchemaWire.Proofs.Reading.Listed

/-!
Reading types. A union is read as all its members, the arguments of a named type as long as there
are commas. The main statement is that a type that needs no parentheses is read back from its text,
where a name that is spelled like a predefined type counts as that type.
-/
namespace SchemaWire.TypeScript

def Literal.lexeme : Literal → Lexeme
  | .string text => .string text
  | .int value => .numeral value
  | .bool true => .word "true"
  | .bool false => .word "false"
  | .null => .word "null"

def PrimitiveTy.ofWord? (word : String) : Option PrimitiveTy :=
  [string, number, boolean, null, undefined, any].find? fun kind => kind.print = word

theorem PrimitiveTy.ofWord?_print (kind : PrimitiveTy) :
    PrimitiveTy.ofWord? kind.print = some kind := by
  cases kind <;> decide

theorem PrimitiveTy.ofWord?_eq_none {word : String} (h : ∀ kind : PrimitiveTy, kind.print ≠ word) :
    PrimitiveTy.ofWord? word = none :=
  List.find?_eq_none.mpr fun kind _ => by simpa using h kind

namespace Ty

def isUnion : Ty → Bool
  | .union _ => true
  | _ => false

/-- The union of some types, or the only type. -/
def ofMembers : List Ty → Ty
  | [only] => only
  | members => .union members

def ofWord? (word : String) : Option Ty :=
  match PrimitiveTy.ofWord? word with
  | some kind => some (.primitive kind)
  | none =>
      if word = "true" then some (.literal (.bool true))
      else if word = "false" then some (.literal (.bool false))
      else if isIdentifier word then some (.named word)
      else none

def applied? (name : String) (args : List Ty) : Option Ty :=
  match name, args with
  | "Array", [element] => some (.array element)
  | "Record", [key, value] => some (.record key value)
  | _, [] => none
  | _, _ => if isIdentifier name then some (.generic name args) else none

def appliedLexemes (name : String) (args : List (List Lexeme)) : List Lexeme :=
  .word name :: .mark .less :: (separated .comma args ++ [.mark .greater])

mutual
def lexemes : Ty → List Lexeme
  | .primitive kind => [.word kind.print]
  | .array element => appliedLexemes "Array" [element.lexemes]
  | .union members => separated .bar (lexemesAll members)
  | .record key value => appliedLexemes "Record" [key.lexemes, value.lexemes]
  | .literal value => [value.lexeme]
  | .named name => [.word name]
  | .generic name args => appliedLexemes name (lexemesAll args)

def lexemesAll : List Ty → List (List Lexeme)
  | [] => []
  | ty :: rest => ty.lexemes :: lexemesAll rest
end

mutual
/-- The type as it is spelled: a name like that of a predefined type is that type. -/
def spelled : Ty → Ty
  | .primitive kind => .primitive kind
  | .array element => .array element.spelled
  | .union members => .union (spelledAll members)
  | .record key value => .record key.spelled value.spelled
  | .literal value => .literal value
  | .named name => ((PrimitiveTy.ofWord? name).map Ty.primitive).getD (.named name)
  | .generic name args => .generic name (spelledAll args)

def spelledAll : List Ty → List Ty
  | [] => []
  | ty :: rest => ty.spelled :: spelledAll rest
end

theorem lexemesAll_eq_map (tys : List Ty) : lexemesAll tys = tys.map lexemes := by
  induction tys with
  | nil => rfl
  | cons ty rest ih => rw [lexemesAll, ih, List.map_cons]

theorem spelledAll_eq_map (tys : List Ty) : spelledAll tys = tys.map spelled := by
  induction tys with
  | nil => rfl
  | cons ty rest ih => rw [spelledAll, ih, List.map_cons]

end Ty

mutual
/-- The members of a union, or the only type, at the start of the lexemes. -/
def readMembers (lexemes : List Lexeme) : Option (List Ty × List Lexeme) :=
  match readAtom lexemes with
  | some (first, .mark .bar :: rest) =>
      if rest.length < lexemes.length then do
        let (others, after) ← readMembers rest
        return (first :: others, after)
      else none
  | some (first, rest) => some ([first], rest)
  | none => none
termination_by 3 * lexemes.length + 1

/-- The type at the start of the lexemes, as far as it is no union. -/
def readAtom : List Lexeme → Option (Ty × List Lexeme)
  | .word name :: .mark .less :: lexemes => do
      let (args, rest) ← readListed .greater lexemes.length (fun part _ => readTy part) lexemes
        (Nat.le_refl _)
      let ty ← Ty.applied? name args
      return (ty, rest)
  | .word name :: lexemes => do
      let ty ← Ty.ofWord? name
      return (ty, lexemes)
  | .string text :: lexemes => some (.literal (.string text), lexemes)
  | .numeral value :: lexemes => some (.literal (.int value), lexemes)
  | _ => none
termination_by lexemes => 3 * lexemes.length

/-- The type at the start of the lexemes, and what comes after it. -/
def readTy (lexemes : List Lexeme) : Option (Ty × List Lexeme) := do
  let (members, rest) ← readMembers lexemes
  return (Ty.ofMembers members, rest)
termination_by 3 * lexemes.length + 2
end

/-- A list whose items are read without regard to the list they stand in. -/
def readList {α : Type} (close : Mark) (item : List Lexeme → Option (α × List Lexeme))
    (lexemes : List Lexeme) : Option (List α × List Lexeme) :=
  readListed close lexemes.length (fun part _ => item part) lexemes (Nat.le_refl _)

example : readTy [.word "Record", .mark .less, .word "string", .mark .comma, .word "User",
    .mark .bar, .word "null", .mark .greater, .mark .parenClose] =
    some (.record (.primitive .string) (.union [.named "User", .primitive .null]),
      [.mark .parenClose]) := by decide +kernel

namespace Ty

/-- A type that needs no parentheses: its unions have several members, none of them a union, and
`null` is the predefined type. The names are identifiers among the given ones, and lists and records
are not spelled as other named types. -/
inductive Plain (names : String → Prop) : Ty → Prop where
  | primitive (kind : PrimitiveTy) : Plain names (.primitive kind)
  | literal {value : Literal} (h : value ≠ .null) : Plain names (.literal value)
  | named {name : String} (hvalid : isIdentifier name = true) (hname : names name) :
      Plain names (.named name)
  | array {element : Ty} (h : Plain names element) : Plain names (.array element)
  | record {key value : Ty} (hkey : Plain names key) (hvalue : Plain names value) :
      Plain names (.record key value)
  | generic {name : String} {args : List Ty} (hvalid : isIdentifier name = true)
      (hne : args ≠ []) (hnotArray : name = "Array" → args.length ≠ 1)
      (hnotRecord : name = "Record" → args.length ≠ 2) (h : ∀ arg ∈ args, Plain names arg) :
      Plain names (.generic name args)
  | union {members : List Ty} (hlength : 2 ≤ members.length)
      (hsingle : ∀ member ∈ members, member.isUnion = false)
      (h : ∀ member ∈ members, Plain names member) : Plain names (.union members)

theorem ofMembers_of_length {members : List Ty} (h : 2 ≤ members.length) :
    ofMembers members = .union members := by
  match members, h with
  | _ :: _ :: _, _ => rfl

/-- A type that can be told from its text: no name in it is that of a predefined type. -/
def Proper : Ty → Prop :=
  Plain fun name => ∀ kind : PrimitiveTy, kind.print ≠ name

theorem Plain.mono {names others : String → Prop} {ty : Ty} (h : ty.Plain names)
    (himp : ∀ name, names name → others name) : ty.Plain others := by
  induction h with
  | primitive kind => exact .primitive kind
  | literal h => exact .literal h
  | named hvalid hname => exact .named hvalid (himp _ hname)
  | array _ ih => exact .array ih
  | record _ _ ihKey ihValue => exact .record ihKey ihValue
  | generic hvalid hne hnotArray hnotRecord _ ih =>
      exact .generic hvalid hne hnotArray hnotRecord ih
  | union hlength hsingle _ ih => exact .union hlength hsingle ih

theorem ofWord?_named {name : String} (h : isIdentifier name = true) :
    ofWord? name = some (Ty.named name).spelled := by
  have hbool : name ≠ "true" ∧ name ≠ "false" := by
    constructor <;> rintro rfl <;> exact absurd h (by decide)
  rw [ofWord?, spelled]
  cases PrimitiveTy.ofWord? name <;> simp [h, hbool]

theorem applied?_generic {name : String} {args : List Ty} (hvalid : isIdentifier name = true)
    (hne : args ≠ []) (hnotArray : name = "Array" → args.length ≠ 1)
    (hnotRecord : name = "Record" → args.length ≠ 2) :
    applied? name args = some (.generic name args) := by
  unfold applied?
  split
  · exact absurd rfl (hnotArray rfl)
  · exact absurd rfl (hnotRecord rfl)
  · exact absurd rfl hne
  · exact if_pos hvalid

theorem ofWord?_print (kind : PrimitiveTy) : ofWord? kind.print = some (.primitive kind) := by
  rw [ofWord?, PrimitiveTy.ofWord?_print]

end Ty

variable {names : String → Prop} {rest : List Lexeme}

/-- A type ends before the lexemes. -/
def EndsTy (rest : List Lexeme) : Prop :=
  rest.head? ≠ some (.mark .less) ∧ rest.head? ≠ some (.mark .bar)

theorem readAtom_word {name : String} {ty : Ty} (hword : Ty.ofWord? name = some ty)
    (hrest : rest.head? ≠ some (.mark .less)) :
    readAtom (.word name :: rest) = some (ty, rest) := by
  rw [readAtom.eq_2 _ _ fun lexemes heq => hrest (by rw [heq]; rfl), hword]
  rfl

theorem readMembers_only {lexemes : List Lexeme} {ty : Ty}
    (hatom : readAtom lexemes = some (ty, rest)) (hrest : rest.head? ≠ some (.mark .bar)) :
    readMembers lexemes = some ([ty], rest) := by
  rw [readMembers]
  split
  · rename_i first others heq
    rw [hatom] at heq
    cases heq
    exact absurd rfl hrest
  · rename_i first others _ heq
    rw [hatom] at heq
    cases heq
    rfl
  · rename_i heq
    rw [hatom] at heq
    cases heq

theorem readMembers_bar {lexemes after : List Lexeme} {ty : Ty} {members : List Ty}
    (hatom : readAtom lexemes = some (ty, .mark .bar :: rest))
    (hlength : rest.length < lexemes.length) (hmembers : readMembers rest = some (members, after)) :
    readMembers lexemes = some (ty :: members, after) := by
  rw [readMembers, hatom]
  simp only [if_pos hlength, hmembers]
  rfl

theorem readTy_eq {lexemes : List Lexeme} {members : List Ty}
    (h : readMembers lexemes = some (members, rest)) :
    readTy lexemes = some (Ty.ofMembers members, rest) := by
  rw [readTy, h]
  rfl

theorem readTy_mark (mark : Mark) : readTy (.mark mark :: rest) = none := by
  rw [readTy, readMembers, readAtom]
  · rfl
  all_goals simp

/-- A named type is read with its arguments. -/
theorem readAtom_applied {name : String} {args : List Ty} {ty : Ty}
    (hargs : ∀ arg ∈ args, ∀ rest : List Lexeme, EndsTy rest →
      readTy (arg.lexemes ++ rest) = some (arg.spelled, rest))
    (hty : Ty.applied? name (args.map Ty.spelled) = some ty) (rest : List Lexeme) :
    readAtom (Ty.appliedLexemes name (args.map Ty.lexemes) ++ rest) = some (ty, rest) := by
  have hone : ∀ arg ∈ args, ∀ mark : Mark, mark = .comma ∨ mark = .greater → ∀ rest,
      readTy (arg.lexemes ++ .mark mark :: rest) = some (arg.spelled, .mark mark :: rest) := by
    rintro arg hmem mark (rfl | rfl) rest <;> exact hargs arg hmem _ ⟨by simp, by simp⟩
  rw [Ty.appliedLexemes, List.cons_append, List.cons_append, List.append_assoc,
    List.singleton_append, readAtom, readListed_separated (by decide)
      (fun rest _ => readTy_mark .greater)
      (fun arg hmem mark hmark rest _ => hone arg hmem mark hmark rest) rfl]
  simp only [Option.bind_eq_bind, Option.bind_some, hty]
  rfl

/-- Types that are read one by one are read as members of a union. -/
theorem readMembers_separated {members : List Ty} (hne : members ≠ [])
    (h : ∀ member ∈ members, ∀ rest : List Lexeme, rest.head? ≠ some (.mark .less) →
      readAtom (member.lexemes ++ rest) = some (member.spelled, rest)) (hrest : EndsTy rest) :
    readMembers (separated .bar (members.map Ty.lexemes) ++ rest) =
      some (members.map Ty.spelled, rest) := by
  induction members with
  | nil => exact absurd rfl hne
  | cons first others ih =>
      have hfirst := h first List.mem_cons_self
      cases others with
      | nil => exact readMembers_only (hfirst rest hrest.1) hrest.2
      | cons second others =>
          have hothers := ih (List.cons_ne_nil _ _)
            fun member hmem => h member (List.mem_cons_of_mem _ hmem)
          rw [List.map_cons, List.map_cons, separated_cons_cons, List.append_assoc,
            List.cons_append]
          refine readMembers_bar (hfirst _ (by simp)) ?_ hothers
          simp only [List.length_append, List.length_cons]
          omega

theorem readTy_atom {lexemes : List Lexeme} {ty : Ty} (hatom : readAtom lexemes = some (ty, rest))
    (hrest : rest.head? ≠ some (.mark .bar)) : readTy lexemes = some (ty, rest) :=
  readTy_eq (readMembers_only hatom hrest)

theorem spells_literal (value : Literal) : Spells value.print [value.lexeme] := by
  cases value with
  | string text => exact (closed_string text).spells
  | int value => exact spells_numeral value
  | bool value => cases value <;> exact spells_word (by decide)
  | null => exact spells_word (by decide)

namespace Ty

/-- A type is read back as it is spelled: by itself where it is no union, and as a whole. -/
theorem Plain.reads {ty : Ty} (h : ty.Plain names) :
    (ty.isUnion = false → ∀ rest : List Lexeme, rest.head? ≠ some (.mark .less) →
      readAtom (ty.lexemes ++ rest) = some (ty.spelled, rest)) ∧
    ∀ rest : List Lexeme, EndsTy rest → readTy (ty.lexemes ++ rest) = some (ty.spelled, rest) := by
  have of_atom {ty : Ty} (hatom : ∀ rest : List Lexeme, rest.head? ≠ some (.mark .less) →
      readAtom (ty.lexemes ++ rest) = some (ty.spelled, rest)) :
      (ty.isUnion = false → ∀ rest : List Lexeme, rest.head? ≠ some (.mark .less) →
        readAtom (ty.lexemes ++ rest) = some (ty.spelled, rest)) ∧
      ∀ rest : List Lexeme, EndsTy rest → readTy (ty.lexemes ++ rest) = some (ty.spelled, rest) :=
    ⟨fun _ => hatom, fun rest hrest => readTy_atom (hatom rest hrest.1) hrest.2⟩
  induction h with
  | primitive kind => exact of_atom fun rest => readAtom_word (ofWord?_print kind)
  | named hvalid _ => exact of_atom fun rest => readAtom_word (ofWord?_named hvalid)
  | @literal value h =>
      refine of_atom fun rest hrest => ?_
      cases value with
      | string text => rw [lexemes, Literal.lexeme, spelled, List.singleton_append, readAtom]
      | int value => rw [lexemes, Literal.lexeme, spelled, List.singleton_append, readAtom]
      | bool value => cases value <;> exact readAtom_word (by decide) hrest
      | null => exact absurd rfl h
  | @generic name args hvalid hne hnotArray hnotRecord _ ih =>
      have hargs : ∀ arg ∈ args, ∀ rest : List Lexeme, EndsTy rest →
          readTy (arg.lexemes ++ rest) = some (arg.spelled, rest) := fun arg hmem => (ih arg hmem).2
      refine of_atom fun rest _ => ?_
      rw [lexemes, lexemesAll_eq_map, spelled, spelledAll_eq_map]
      exact readAtom_applied hargs (applied?_generic hvalid (by simpa using hne)
        (by simpa using hnotArray) (by simpa using hnotRecord)) rest
  | @array element helement ih =>
      have hargs : ∀ arg ∈ [element], ∀ rest : List Lexeme, EndsTy rest →
          readTy (arg.lexemes ++ rest) = some (arg.spelled, rest) :=
        List.forall_mem_singleton.mpr ih.2
      exact of_atom fun rest _ => readAtom_applied hargs rfl rest
  | @record key value hkey hvalue ihKey ihValue =>
      have hargs : ∀ arg ∈ [key, value], ∀ rest : List Lexeme, EndsTy rest →
          readTy (arg.lexemes ++ rest) = some (arg.spelled, rest) :=
        List.forall_mem_cons.mpr ⟨ihKey.2, List.forall_mem_singleton.mpr ihValue.2⟩
      exact of_atom fun rest _ => readAtom_applied hargs rfl rest
  | @union members hlength hsingle h ih =>
      refine ⟨fun hnot => by simp [isUnion] at hnot, fun rest hrest => ?_⟩
      have hne : members ≠ [] := by
        rintro rfl
        exact absurd hlength (by decide)
      have hmembers := readMembers_separated hne
        (fun member hmem => (ih member hmem).1 (hsingle member hmem)) hrest
      rw [lexemes, lexemesAll_eq_map, spelled, spelledAll_eq_map, readTy_eq hmembers,
        ofMembers_of_length (by simpa using hlength)]

theorem readTy_lexemes {ty : Ty} (h : ty.Plain names) (hrest : EndsTy rest) :
    readTy (ty.lexemes ++ rest) = some (ty.spelled, rest) :=
  h.reads.2 rest hrest

theorem Plain.lexemes_ne_nil {ty : Ty} (h : ty.Plain names) : ty.lexemes ≠ [] := by
  cases h with
  | @union members hlength hsingle h =>
      match members, hlength with
      | first :: second :: rest, _ => simp [lexemes, lexemesAll, separated_cons_cons]
  | _ => simp [lexemes, appliedLexemes]

/-- A type that can be told from its text is spelled as it is. -/
theorem Proper.spelled_eq {ty : Ty} (h : ty.Proper) : ty.spelled = ty := by
  induction h with
  | primitive kind => rfl
  | literal h => rfl
  | named hvalid hname =>
      rw [spelled, PrimitiveTy.ofWord?_eq_none hname]
      rfl
  | array helement ih => rw [spelled, ih]
  | record hkey hvalue ihKey ihValue => rw [spelled, ihKey, ihValue]
  | generic _ _ _ _ _ ih | union _ _ _ ih =>
      rw [spelled, spelledAll_eq_map, List.map_congr_left ih, List.map_id']

/-- The text of a named type with arguments is read as its lexemes. -/
theorem spells_applied {name : String} (hname : isBareName name = true) {texts : List String}
    {args : List (List Lexeme)} (h : List.Forall₂ Spells texts args) :
    Spells (name ++ "<" ++ joinWith ", " texts ++ ">") (appliedLexemes name args) := by
  have hless : Closed "<" [.mark .less] := closed_mark rfl rfl
  have hgreater : Closed ">" [.mark .greater] := closed_mark rfl rfl
  have hopen : Closed (name ++ "<") [.word name, .mark .less] :=
    (spells_word hname).append hless (breaks_of_head rfl (by decide))
  exact ((hopen.append_spells (spells_listed h)).append hgreater
    (breaks_of_head rfl (by decide))).spells

/-- The text of a type is read as its lexemes. -/
theorem Plain.spells {ty : Ty} (h : ty.Plain names) : Spells ty.print ty.lexemes := by
  induction h with
  | primitive kind => exact spells_word (by cases kind <;> decide)
  | literal h => exact spells_literal _
  | named hvalid _ => exact spells_word (isBareName_of_isIdentifier hvalid)
  | @generic name args hvalid hne hnotArray hnotRecord _ ih =>
      rw [print, lexemes, lexemesAll_eq_map, printAll_eq_map]
      refine spells_applied (isBareName_of_isIdentifier hvalid) ?_
      exact List.forall₂_map_left_iff.mpr
        (List.forall₂_map_right_iff.mpr (List.forall₂_same.mpr ih))
  | @array element helement ih =>
      have htext : (Ty.array element).print =
          "Array" ++ "<" ++ joinWith ", " [element.print] ++ ">" := by
        simp [print, joinWith]
      rw [htext]
      exact spells_applied (by decide) (.cons ih .nil)
  | @record key value hkey hvalue ihKey ihValue =>
      have htext : (Ty.record key value).print =
          "Record" ++ "<" ++ joinWith ", " [key.print, value.print] ++ ">" := by
        simp [print, joinWith, String.append_assoc]
      rw [htext]
      exact spells_applied (by decide) (.cons ihKey (.cons ihValue .nil))
  | @union members hlength hsingle h ih =>
      have hbar : Closed " | " [.mark .bar] := closed_operator '|' [] rfl rfl
      rw [print, lexemes, lexemesAll_eq_map, printAll_eq_map]
      refine spells_joinWith hbar (breaks_of_head rfl (by decide)) ?_
      exact List.forall₂_map_left_iff.mpr
        (List.forall₂_map_right_iff.mpr (List.forall₂_same.mpr ih))

end Ty

end SchemaWire.TypeScript
