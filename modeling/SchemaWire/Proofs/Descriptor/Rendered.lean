import SchemaWire.Descriptor.Render
import SchemaWire.Proofs.Descriptor.Part

/-!
What rendered types are made of. Apart from punctuation and predefined words a type consists of
names and of the texts of string literals; those of a rendered type are what the parts of its
descriptor put there, and nothing is lost when the members of unions are merged.
-/
namespace SchemaWire

namespace TypeScript

/-- A name or the text of a string literal. -/
inductive Atom where
  | name (word : String)
  | text (value : String)
deriving DecidableEq, Repr

def Literal.atoms : Literal → List Atom
  | .string text => [.text text]
  | .int _ | .bool _ | .null => []

mutual
/-- The atoms of a type, from left to right. -/
def Ty.atoms : Ty → List Atom
  | .primitive _ => []
  | .array element => .name "Array" :: element.atoms
  | .union members => Ty.atomsAll members
  | .record key value => .name "Record" :: (key.atoms ++ value.atoms)
  | .literal value => value.atoms
  | .named name => [.name name]
  | .generic name args => .name name :: Ty.atomsAll args

def Ty.atomsAll : List Ty → List Atom
  | [] => []
  | ty :: rest => ty.atoms ++ Ty.atomsAll rest
end

theorem Ty.mem_atomsAll {atom : Atom} {tys : List Ty} :
    atom ∈ Ty.atomsAll tys ↔ ∃ ty ∈ tys, atom ∈ ty.atoms := by
  induction tys with
  | nil => simp [Ty.atomsAll]
  | cons ty rest ih => simp [Ty.atomsAll, ih]

@[simp]
theorem Ty.mem_atoms_nullable {atom : Atom} {ty : Ty} :
    atom ∈ ty.nullable.atoms ↔ atom ∈ ty.atoms := by
  fun_cases Ty.nullable ty with
  | case1 => rfl
  | case2 members => simp [Ty.atoms, Ty.mem_atomsAll, or_and_right, exists_or]
  | case3 => rfl
  | case4 => simp [Ty.atoms, Ty.atomsAll]

end TypeScript

open TypeScript (Atom Ty)

theorem atoms_of_isNullTy {ty : Ty} (h : isNullTy ty = true) : ty.atoms = [] := by
  unfold isNullTy at h
  split at h
  · rfl
  · rfl
  · cases h

/-- A rendered union has the atoms of its members. -/
theorem mem_atoms_renderUnion {atom : Atom} {members : List Ty} {nullable : Bool} :
    atom ∈ (renderUnion members nullable).atoms ↔ ∃ ty ∈ members, atom ∈ ty.atoms := by
  have hkept : (∃ ty ∈ (members.filter fun member => !isNullTy member).eraseDups,
      atom ∈ ty.atoms) ↔ ∃ ty ∈ members, atom ∈ ty.atoms := by
    simp only [List.mem_eraseDups, List.mem_filter, Bool.not_eq_eq_eq_not, Bool.not_true]
    constructor
    · rintro ⟨ty, ⟨hmem, _⟩, hatom⟩
      exact ⟨ty, hmem, hatom⟩
    · rintro ⟨ty, hmem, hatom⟩
      refine ⟨ty, ⟨hmem, Bool.eq_false_iff.mpr fun hnull => ?_⟩, hatom⟩
      rw [atoms_of_isNullTy hnull] at hatom
      cases hatom
  rw [← hkept]
  unfold renderUnion
  dsimp only
  generalize (members.filter fun member => !isNullTy member).eraseDups = kept
  generalize (nullable || members.any isNullTy) = nullable
  match kept with
  | [] => simp [Ty.atoms]
  | [only] => cases nullable <;> simp
  | first :: second :: rest => cases nullable <;> simp [Ty.atoms, Ty.mem_atomsAll]

namespace Descriptor

/-- The atoms that a descriptor puts into its type itself, apart from those of its parts. -/
def ownAtoms : Descriptor → List Atom
  | primitive .datetime => [.name "Date"]
  | literal (.str text) => [.text text]
  | list _ => [.name "Array"]
  | mapping _ _ => [.name "Record"]
  | model path => [.name path.shortName]
  | unionOfModels variants _ => variants.map fun path => .name path.shortName
  | _ => []

/-- The atoms of a rendered type are the own atoms of the parts of its descriptor. -/
theorem mem_atoms_render {atom : Atom} (desc : Descriptor) :
    atom ∈ desc.render.atoms ↔ ∃ part : Descriptor, part.Part desc ∧ atom ∈ part.ownAtoms := by
  induction desc using partInduction with
  | primitive kind =>
      cases kind <;> simp [render, PrimitiveKind.render, Ty.atoms, ownAtoms]
  | literal value =>
      cases value <;>
        simp [render, LiteralValue.render, Ty.atoms, TypeScript.Literal.atoms, ownAtoms]
  | model path => simp [render, Ty.atoms, ownAtoms]
  | unionOfModels variants nullable =>
      simp [render, mem_atoms_renderUnion, Ty.atoms, ownAtoms, eq_comm]
  | optional inner ih => simp [render, ih, ownAtoms, or_and_right, exists_or]
  | annotated inner attachments ih => simp [render, ih, ownAtoms, or_and_right, exists_or]
  | list element ih => simp [render, Ty.atoms, ih, ownAtoms, or_and_right, exists_or]
  | mapping key value ihKey ihValue =>
      simp [render, Ty.atoms, ihKey, ihValue, ownAtoms, or_and_right, exists_or]
  | unionOfScalars variants nullable ih =>
      simp only [render, renderAll_eq_map, mem_atoms_renderUnion, List.mem_map,
        exists_exists_and_eq_and, part_unionOfScalars_iff]
      constructor
      · rintro ⟨variant, hmem, hatom⟩
        obtain ⟨part, hin, hown⟩ := (ih variant hmem).mp hatom
        exact ⟨part, Or.inr ⟨variant, hmem, hin⟩, hown⟩
      · rintro ⟨part, rfl | ⟨variant, hmem, hin⟩, hown⟩
        · cases hown
        · exact ⟨variant, hmem, (ih variant hmem).mpr ⟨part, hin, hown⟩⟩

/-- The texts in a rendered type are those of the string literals inside the descriptor. -/
theorem text_mem_atoms_render {desc : Descriptor} {text : String} :
    .text text ∈ desc.render.atoms ↔ (literal (.str text)).Part desc := by
  rw [mem_atoms_render]
  constructor
  · rintro ⟨part, hpart, hown⟩
    fun_cases ownAtoms part with
    | case2 other =>
        rw [ownAtoms, List.mem_singleton, Atom.text.injEq] at hown
        rwa [hown]
    | _ => simp [ownAtoms] at hown
  · exact fun hpart => ⟨_, hpart, List.mem_cons_self⟩

/-- The names in a rendered type are built in, or those of models that the descriptor names. -/
theorem name_mem_atoms_render {desc : Descriptor} {word : String}
    (h : .name word ∈ desc.render.atoms) :
    word ∈ ["Array", "Date", "Record"] ∨ ∃ path, desc.Names path ∧ path.shortName = word := by
  obtain ⟨part, hpart, hown⟩ := (mem_atoms_render desc).mp h
  fun_cases ownAtoms part with
  | case5 path =>
      rw [ownAtoms, List.mem_singleton, Atom.name.injEq] at hown
      exact Or.inr ⟨path, Or.inl hpart, hown.symm⟩
  | case6 variants nullable =>
      obtain ⟨path, hmem, hname⟩ := List.mem_map.mp hown
      exact Or.inr ⟨path, Or.inr ⟨variants, nullable, hpart, hmem⟩, Atom.name.inj hname⟩
  | _ => simp_all [ownAtoms]

end Descriptor

end SchemaWire
