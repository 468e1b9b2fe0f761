import Mathlib.Data.List.Chain
import SchemaWire.Proofs.Descriptor.Rendered
import SchemaWire.Proofs.Naming.Claimant

/-!
Texts in comments. A comment ends at the first star that is followed by a slash, so a text can
stand in a comment exactly if none of its stars is. Quoting a text does not help: a type that is
printed into a comment stays in it exactly if the texts of its string literals do.
-/
namespace SchemaWire.TypeScript

/-- A text that can stand in a comment: no star in it is followed by a slash. -/
def StaysOpen (text : String) : Prop :=
  text.toList.IsChain fun a b => ¬(a = '*' ∧ b = '/')

instance : DecidablePred StaysOpen := fun text =>
  inferInstanceAs (Decidable (text.toList.IsChain fun a b => ¬(a = '*' ∧ b = '/')))

/-- What follows a comment, given all that follows the two characters that open it. -/
def afterComment? : List Char → Option (List Char)
  | [] => none
  | '*' :: '/' :: rest => some rest
  | _ :: rest => afterComment? rest

/-- A comment with this inside ends where it is closed, whatever follows. -/
def EndsAsMeant (inside : String) : Prop :=
  ∀ rest, afterComment? (inside.toList ++ '*' :: '/' :: rest) = some rest

theorem afterComment?_cons {a b : Char} (h : ¬(a = '*' ∧ b = '/')) (rest : List Char) :
    afterComment? (a :: b :: rest) = afterComment? (b :: rest) := by
  rw [afterComment?]
  rintro _ rfl heq
  cases heq
  exact h ⟨rfl, rfl⟩

/-- Where the comment has ended too late or too early, more or less than the rest is left. -/
theorem isChain_of_afterComment? {inside tail rest : List Char}
    (h : afterComment? (inside ++ tail) = some rest) (hlength : rest.length < tail.length) :
    inside.IsChain fun a b => ¬(a = '*' ∧ b = '/') := by
  induction inside with
  | nil => exact .nil
  | cons a others ih =>
      cases others with
      | nil => exact .singleton a
      | cons b others =>
          by_cases hclose : a = '*' ∧ b = '/'
          · obtain ⟨rfl, rfl⟩ := hclose
            simp only [List.cons_append, afterComment?, Option.some.injEq] at h
            rw [← h, List.length_append] at hlength
            omega
          · rw [List.cons_append, List.cons_append, afterComment?_cons hclose] at h
            exact .cons_cons hclose (ih h)

/-- A comment ends where it is meant to exactly if its inside stays open. -/
theorem endsAsMeant_iff {inside : String} : EndsAsMeant inside ↔ StaysOpen inside := by
  constructor
  · intro h
    exact isChain_of_afterComment? (h []) (by simp)
  · intro h rest
    rw [StaysOpen] at h
    generalize inside.toList = chars at h
    induction h with
    | nil => rfl
    | singleton a =>
        rw [List.singleton_append, afterComment?_cons (by simp)]
        rfl
    | cons_cons hopen _ ih =>
        rw [List.cons_append, List.cons_append, afterComment?_cons hopen]
        exact ih

/-- Two texts stay open together if they do not close a comment where they meet. -/
theorem staysOpen_append {first second : String}
    (hmeet : first.toList.getLast? ≠ some '*' ∨ second.toList.head? ≠ some '/') :
    StaysOpen (first ++ second) ↔ StaysOpen first ∧ StaysOpen second := by
  rw [StaysOpen, String.toList_append, List.isChain_append]
  have hboundary : ∀ a ∈ first.toList.getLast?, ∀ b ∈ second.toList.head?,
      ¬(a = '*' ∧ b = '/') := by
    rintro a ha b hb ⟨rfl, rfl⟩
    exact hmeet.elim (· ha) (· hb)
  exact ⟨fun h => ⟨h.1, h.2.1⟩, fun h => ⟨h.1, h.2, hboundary⟩⟩

theorem staysOpen_append_iff_right {first second : String} (hopen : StaysOpen first)
    (hlast : first.toList.getLast? ≠ some '*') :
    StaysOpen (first ++ second) ↔ StaysOpen second := by
  rw [staysOpen_append (Or.inl hlast), and_iff_right hopen]

theorem staysOpen_of_star_not_mem {text : String} (h : '*' ∉ text.toList) : StaysOpen text := by
  rw [StaysOpen, List.isChain_iff_forall_rel_of_append_cons_cons]
  rintro a b before after hsplit ⟨rfl, _⟩
  rw [hsplit] at h
  exact h (by simp)

/-- A text without stars and slashes, such as a name, a number or punctuation. -/
def IsPlain (text : String) : Prop :=
  '*' ∉ text.toList ∧ '/' ∉ text.toList

instance : DecidablePred IsPlain := fun text =>
  inferInstanceAs (Decidable ('*' ∉ text.toList ∧ '/' ∉ text.toList))

theorem IsPlain.append {first second : String} (hfirst : IsPlain first) (hsecond : IsPlain second) :
    IsPlain (first ++ second) := by
  simp only [IsPlain, String.toList_append, List.mem_append, not_or] at *
  exact ⟨⟨hfirst.1, hsecond.1⟩, hfirst.2, hsecond.2⟩

theorem IsPlain.staysOpen {text : String} (h : IsPlain text) : StaysOpen text :=
  staysOpen_of_star_not_mem h.1

/-- Plain texts around another one make no difference. -/
theorem staysOpen_plain_append {plain text : String} (h : IsPlain plain) :
    StaysOpen (plain ++ text) ↔ StaysOpen text :=
  staysOpen_append_iff_right h.staysOpen fun hlast => h.1 (List.mem_of_getLast? hlast)

theorem staysOpen_append_plain {text plain : String} (h : IsPlain plain) :
    StaysOpen (text ++ plain) ↔ StaysOpen text := by
  rw [staysOpen_append (Or.inr fun hhead => h.2 (List.mem_of_head? hhead)),
    and_iff_left h.staysOpen]

/-- A plain text keeps apart what stands around it. -/
theorem staysOpen_separated {first sep second : String} (hsep : IsPlain sep) (hne : sep ≠ "") :
    StaysOpen (first ++ sep ++ second) ↔ StaysOpen first ∧ StaysOpen second := by
  rw [staysOpen_append ?_, staysOpen_append_plain hsep]
  refine Or.inl fun hlast => ?_
  have hchars : sep.toList ≠ [] := mt String.toList_eq_nil_iff.mp hne
  rw [String.toList_append, List.getLast?_append_of_ne_nil _ hchars] at hlast
  exact hsep.1 (List.mem_of_getLast? hlast)

theorem staysOpen_joinWith {sep : String} (hsep : IsPlain sep) (hne : sep ≠ "")
    {texts : List String} :
    StaysOpen (joinWith sep texts) ↔ ∀ text ∈ texts, StaysOpen text := by
  induction texts with
  | nil => simp [joinWith, StaysOpen]
  | cons text rest ih =>
      cases rest with
      | nil => simp [joinWith]
      | cons next others =>
          rw [joinWith.eq_3 _ _ _ (List.cons_ne_nil _ _), staysOpen_separated hsep hne, ih,
            @List.forall_mem_cons _ _ text]

theorem getLast?_escapeChar (c : Char) : (escapeChar c).getLast? = some '*' ↔ c = '*' := by
  fun_cases escapeChar c <;> simp

theorem head?_escapeChar (c : Char) : (escapeChar c).head? = some '/' ↔ c = '/' := by
  fun_cases escapeChar c <;> simp

theorem head?_flatMap_escapeChar (chars : List Char) :
    (chars.flatMap escapeChar).head? = some '/' ↔ chars.head? = some '/' := by
  cases chars with
  | nil => simp
  | cons c rest =>
      have hne : escapeChar c ≠ [] := by
        fun_cases escapeChar c <;> simp
      rw [List.flatMap_cons, List.head?_append_of_ne_nil _ hne, head?_escapeChar]
      simp

/-- Escaping keeps every star and every slash in its place. -/
theorem staysOpen_escapeString {text : String} :
    StaysOpen (escapeString text) ↔ StaysOpen text := by
  rw [StaysOpen, StaysOpen, escapeString, String.toList_ofList]
  generalize text.toList = chars
  induction chars with
  | nil => simp
  | cons c rest ih =>
      have hself : (escapeChar c).IsChain fun a b => ¬(a = '*' ∧ b = '/') := by
        fun_cases escapeChar c <;> simp
      have hmeet : (∀ a ∈ (escapeChar c).getLast?, ∀ b ∈ (rest.flatMap escapeChar).head?,
          ¬(a = '*' ∧ b = '/')) ↔ ∀ b ∈ rest.head?, ¬(c = '*' ∧ b = '/') := by
        constructor
        · rintro h _ hb ⟨rfl, rfl⟩
          exact h '*' ((getLast?_escapeChar '*').mpr rfl) '/'
            ((head?_flatMap_escapeChar rest).mpr hb) ⟨rfl, rfl⟩
        · rintro h _ ha _ hb ⟨rfl, rfl⟩
          exact h '/' ((head?_flatMap_escapeChar rest).mp hb) ⟨(getLast?_escapeChar c).mp ha, rfl⟩
      rw [List.flatMap_cons, List.isChain_append, List.isChain_cons, ih, hmeet]
      exact ⟨fun h => ⟨h.2.2, h.2.1⟩, fun h => ⟨hself, h.2, h.1⟩⟩

theorem staysOpen_stringLiteral {text : String} :
    StaysOpen (stringLiteral text) ↔ StaysOpen text := by
  rw [stringLiteral, staysOpen_append_plain (by decide), staysOpen_plain_append (by decide),
    staysOpen_escapeString]

theorem isPlain_int (value : Int) : IsPlain (toString value) := by
  have hdigits : ∀ n : Nat, ∀ c ∈ n.repr.toList, c.isDigit = true := by
    intro n c hc
    rw [Nat.toList_repr] at hc
    exact Nat.isDigit_of_mem_toDigits (by decide) (by decide) hc
  have hnat : ∀ n : Nat, IsPlain n.repr := fun n =>
    ⟨fun hmem => absurd (hdigits n _ hmem) (by decide),
      fun hmem => absurd (hdigits n _ hmem) (by decide)⟩
  cases value with
  | ofNat n => exact hnat n
  | negSucc n => exact IsPlain.append (by decide) (hnat (n + 1))

/-- A literal stays open if its text does, where it has one. -/
theorem staysOpen_literal {value : Literal} :
    StaysOpen value.print ↔ ∀ text, .text text ∈ value.atoms → StaysOpen text := by
  cases value with
  | string text => simp [Literal.print, Literal.atoms, staysOpen_stringLiteral]
  | int number => simpa [Literal.print, Literal.atoms] using (isPlain_int number.toInt).staysOpen
  | bool flag => cases flag <;> simp [Literal.print, Literal.atoms] <;> decide
  | null => simpa [Literal.print, Literal.atoms] using (by decide : StaysOpen "null")

/-- Several types, with a plain text between them, stay open if each of them does. -/
theorem staysOpen_joinWith_printAll {sep : String} (hsep : IsPlain sep) (hne : sep ≠ "")
    {members : List Ty}
    (h : ∀ member ∈ members, StaysOpen member.print ↔
      ∀ text, .text text ∈ member.atoms → StaysOpen text) :
    StaysOpen (joinWith sep (Ty.printAll members)) ↔
      ∀ text, .text text ∈ Ty.atomsAll members → StaysOpen text := by
  rw [staysOpen_joinWith hsep hne, Ty.printAll_eq_map, List.forall_mem_map]
  simp only [Ty.mem_atomsAll]
  constructor
  · rintro hopen text ⟨member, hmem, htext⟩
    exact (h member hmem).mp (hopen member hmem) text htext
  · intro hopen member hmem
    exact (h member hmem).mpr fun text htext => hopen text ⟨member, hmem, htext⟩

/-- A type whose names are plain stays open exactly if the texts of its literals do. -/
theorem staysOpen_ty (ty : Ty) (hnames : ∀ word, .name word ∈ ty.atoms → IsPlain word) :
    StaysOpen ty.print ↔ ∀ text, .text text ∈ ty.atoms → StaysOpen text := by
  match ty with
  | .primitive kind =>
      have hkind : StaysOpen kind.print := by cases kind <;> decide
      simpa [Ty.print, Ty.atoms] using hkind
  | .literal value => exact staysOpen_literal
  | .named name =>
      have hname : StaysOpen name := (hnames name (by simp [Ty.atoms])).staysOpen
      simpa [Ty.print, Ty.atoms] using hname
  | .array element =>
      have ih := staysOpen_ty element fun word hword => hnames word (by simp [Ty.atoms, hword])
      rw [Ty.print, staysOpen_append_plain (by decide), staysOpen_plain_append (by decide), ih]
      simp [Ty.atoms]
  | .record key value =>
      have ihKey := staysOpen_ty key fun word hword => hnames word (by simp [Ty.atoms, hword])
      have ihValue := staysOpen_ty value fun word hword => hnames word (by simp [Ty.atoms, hword])
      rw [Ty.print, staysOpen_append_plain (by decide),
        staysOpen_separated (by decide) (by decide), staysOpen_plain_append (by decide), ihKey,
        ihValue]
      simp [Ty.atoms, or_imp, forall_and]
  | .union members =>
      have ih : ∀ member ∈ members, StaysOpen member.print ↔
          ∀ text, .text text ∈ member.atoms → StaysOpen text := fun member hmem =>
        staysOpen_ty member fun word hword =>
          hnames word (Ty.mem_atomsAll.mpr ⟨member, hmem, hword⟩)
      rw [Ty.print, staysOpen_joinWith_printAll (by decide) (by decide) ih, Ty.atoms]
  | .generic name args =>
      have hname : IsPlain name := hnames name (by simp [Ty.atoms])
      have ih : ∀ arg ∈ args, StaysOpen arg.print ↔
          ∀ text, .text text ∈ arg.atoms → StaysOpen text := fun arg hmem =>
        staysOpen_ty arg fun word hword =>
          hnames word (List.mem_cons_of_mem _ (Ty.mem_atomsAll.mpr ⟨arg, hmem, hword⟩))
      rw [Ty.print, staysOpen_append_plain (by decide),
        staysOpen_plain_append (hname.append (by decide)),
        staysOpen_joinWith_printAll (by decide) (by decide) ih]
      simp [Ty.atoms]

theorem isPlain_of_isIdentifier {name : String} (h : isIdentifier name = true) : IsPlain name := by
  have hnot : ∀ {c}, isNamePart c = false → c ∉ name.toList := by
    intro c hpart hmem
    rw [not_isIdentifier_of_mem hpart hmem] at h
    cases h
  exact ⟨hnot (by decide), hnot (by decide)⟩

end SchemaWire.TypeScript
