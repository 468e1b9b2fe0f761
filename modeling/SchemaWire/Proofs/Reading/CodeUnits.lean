/-!
Code units. A string of the generated language is a sequence of 16-bit units: a character below
65536 is one unit, every other one a pair of surrogates. The main statement is that different texts
have different units.
-/
namespace SchemaWire.TypeScript

/-- The units of a code point. -/
def codePointUnits (point : Nat) : List Nat :=
  if point < 0x10000 then [point]
  else [0xD800 + (point - 0x10000) / 0x400, 0xDC00 + (point - 0x10000) % 0x400]

def codeUnits (text : List Char) : List Nat :=
  text.flatMap fun c => codePointUnits c.toNat

example : codeUnits ['a', '😀'] = [0x61, 0xD83D, 0xDE00] := by decide

@[simp]
theorem codeUnits_nil : codeUnits [] = [] :=
  rfl

@[simp]
theorem codeUnits_cons (c : Char) (rest : List Char) :
    codeUnits (c :: rest) = codePointUnits c.toNat ++ codeUnits rest :=
  rfl

/-- No character is a surrogate, and none is beyond the last code point. -/
theorem toNat_char (c : Char) : c.toNat < 0xD800 ∨ 0xDFFF < c.toNat ∧ c.toNat < 0x110000 :=
  c.valid

/-- The first character can be told from the units of a text. -/
theorem eq_of_codePointUnits_append {c d : Char} {first second : List Nat}
    (h : codePointUnits c.toNat ++ first = codePointUnits d.toNat ++ second) :
    c = d ∧ first = second := by
  have hc := toNat_char c
  have hd := toNat_char d
  suffices hboth : c.toNat = d.toNat ∧ first = second from
    ⟨Char.toNat_inj.mp hboth.1, hboth.2⟩
  unfold codePointUnits at h
  split at h <;> split at h <;>
    simp only [List.cons_append, List.nil_append, List.cons.injEq] at h
  · exact h
  · omega
  · omega
  · exact ⟨by omega, h.2.2⟩

/-- Texts of the same units are the same. -/
theorem codeUnits_injective {first second : List Char} (h : codeUnits first = codeUnits second) :
    first = second := by
  have hne : ∀ (c : Char) (rest : List Char), codeUnits (c :: rest) ≠ [] := by
    intro c rest
    simp only [codeUnits_cons, codePointUnits]
    split <;> simp
  induction first generalizing second with
  | nil =>
      cases second with
      | nil => rfl
      | cons d rest => exact absurd h.symm (hne d rest)
  | cons c rest ih =>
      cases second with
      | nil => exact absurd h (hne c rest)
      | cons d others =>
          obtain ⟨rfl, hrest⟩ := eq_of_codePointUnits_append h
          rw [ih hrest]

end SchemaWire.TypeScript
