import SchemaWire.Text.UpperCaseTable

/-!
Upper-casing: the full upper-case form of a character, which may be several characters, and
the capitalised form of a word.
-/
namespace SchemaWire.Text

/-- The code point a run assigns to `n`, if the run covers it. -/
def CaseRun.upper? (run : CaseRun) (n : Nat) : Option Nat :=
  if run.first ≤ n && n ≤ run.last && (n - run.first) % run.step == 0 then
    some (Int.toNat (n + run.shift))
  else
    none

/-- The full upper-case form; a character without one is its own. -/
def upperCase (c : Char) : List Char :=
  match upperCaseExpansions.lookup c.toNat with
  | some form => form.map Char.ofNat
  | none =>
      match upperCaseRuns.findSome? (·.upper? c.toNat) with
      | some n => [Char.ofNat n]
      | none => [c]

def capitalizeChars : List Char → List Char
  | [] => []
  | c :: rest => upperCase c ++ rest

def capitalize (word : String) : String :=
  String.ofList (capitalizeChars word.toList)

example : capitalize "ßig" = "SSig" := by decide +kernel

example : capitalize "" = "" := rfl

end SchemaWire.Text
