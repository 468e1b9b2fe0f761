import Mathlib.Data.List.Forall2
import SchemaWire.Proofs.Reading.Lexeme

/-!
Reading lists. Items stand between commas up to a closing mark; what an item is, is a parameter. The
main statement is that items that are read back one by one are read back as a list.
-/
namespace SchemaWire.TypeScript

/-- Puts a mark between parts. -/
def separated (mark : Mark) : List (List Lexeme) → List Lexeme
  | [] => []
  | [part] => part
  | part :: parts => part ++ .mark mark :: separated mark parts

theorem separated_cons_cons (mark : Mark) (first second : List Lexeme) (rest : List (List Lexeme)) :
    separated mark (first :: second :: rest) =
      first ++ .mark mark :: separated mark (second :: rest) := rfl

/-- Texts with separators are read as their lexemes with marks between them. -/
theorem spells_joinWith {sep : String} {mark : Mark} (hsep : Closed sep [.mark mark])
    (hbreaks : ∀ rest, Breaks (sep.toList ++ rest)) {texts : List String}
    {parts : List (List Lexeme)} (h : List.Forall₂ Spells texts parts) :
    Spells (joinWith sep texts) (separated mark parts) := by
  induction h with
  | nil => exact fun rest _ => by simp [joinWith, separated]
  | @cons text part texts parts hfirst hrest ih =>
      cases hrest with
      | nil => exact hfirst
      | @cons next other texts parts _ _ =>
          rw [separated_cons_cons, List.append_cons]
          exact (hfirst.append hsep hbreaks).append_spells ih

theorem spells_listed {texts : List String} {parts : List (List Lexeme)}
    (h : List.Forall₂ Spells texts parts) :
    Spells (joinWith ", " texts) (separated .comma parts) :=
  spells_joinWith (closed_mark_blank rfl rfl) (breaks_of_head rfl (by decide)) h

variable {α β : Type} {close : Mark} {bound : Nat} {lexemes rest : List Lexeme}

def afterMark? (mark : Mark) : List Lexeme → Option (List Lexeme)
  | .mark other :: rest => if other = mark then some rest else none
  | _ => none

/-- Items between commas up to a closing mark, and what comes after it. The lexemes that an item is
read from are no more than the bound. -/
def readListed (close : Mark) (bound : Nat)
    (item : (lexemes : List Lexeme) → lexemes.length ≤ bound → Option (α × List Lexeme))
    (lexemes : List Lexeme) (h : lexemes.length ≤ bound) : Option (List α × List Lexeme) :=
  match item lexemes h with
  | some (first, .mark mark :: rest) =>
      if mark = close then some ([first], rest)
      else if hcomma : mark = .comma ∧ rest.length < lexemes.length then do
        let (others, after) ← readListed close bound item rest (by omega)
        return (first :: others, after)
      else none
  | some _ => none
  | none => do
      let rest ← afterMark? close lexemes
      return ([], rest)
termination_by lexemes.length

variable {item : (lexemes : List Lexeme) → lexemes.length ≤ bound → Option (α × List Lexeme)}

theorem readListed_close (h : (.mark close :: rest : List Lexeme).length ≤ bound)
    (hitem : item (.mark close :: rest) h = none) :
    readListed close bound item (.mark close :: rest) h = some ([], rest) := by
  rw [readListed, hitem]
  simp only [afterMark?, if_pos]
  rfl

theorem readListed_last {first : α} (h : lexemes.length ≤ bound)
    (hitem : item lexemes h = some (first, .mark close :: rest)) :
    readListed close bound item lexemes h = some ([first], rest) := by
  rw [readListed, hitem]
  exact if_pos rfl

theorem readListed_comma {first : α} {others : List α} {after : List Lexeme} (hne : close ≠ .comma)
    (h : lexemes.length ≤ bound) (hitem : item lexemes h = some (first, .mark .comma :: rest))
    (hlength : rest.length < lexemes.length)
    (hothers : ∀ h, readListed close bound item rest h = some (others, after)) :
    readListed close bound item lexemes h = some (first :: others, after) := by
  rw [readListed, hitem]
  simp only [if_neg hne.symm, hlength, and_self, dite_true, hothers]
  rfl

/-- Items that are read one by one, before a comma or the closing mark, are read as a list. -/
theorem readListed_separated {lexemesOf : β → List Lexeme} {read : β → α} {values : List β}
    (hne : close ≠ .comma)
    (hempty : ∀ rest h, item (.mark close :: rest) h = none)
    (hitem : ∀ value ∈ values, ∀ mark, mark = .comma ∨ mark = close → ∀ rest h,
      item (lexemesOf value ++ .mark mark :: rest) h = some (read value, .mark mark :: rest))
    (heq : separated .comma (values.map lexemesOf) ++ .mark close :: rest = lexemes)
    (h : lexemes.length ≤ bound) :
    readListed close bound item lexemes h = some (values.map read, rest) := by
  induction values generalizing lexemes with
  | nil =>
      subst heq
      exact readListed_close h (hempty rest h)
  | cons first others ih =>
      have hfirst := hitem first List.mem_cons_self
      cases others with
      | nil =>
          subst heq
          exact readListed_last h (hfirst close (Or.inr rfl) rest h)
      | cons second others =>
          rw [List.map_cons, List.map_cons, separated_cons_cons, List.append_assoc,
            List.cons_append] at heq
          subst heq
          refine readListed_comma hne h (hfirst .comma (Or.inl rfl) _ h) ?_
            (ih (fun value hmem => hitem value (List.mem_cons_of_mem _ hmem)) rfl)
          simp only [List.length_append, List.length_cons]
          omega

end SchemaWire.TypeScript
