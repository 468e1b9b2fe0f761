import SchemaWire.Wire.Convert

/-!
The local names of generated functions. Their first characters tell them from everything that the
functions refer to outside: globals, helpers and conversion functions. The variables of lambdas are
numbered by depth, so that one in a deeper lambda is new.
-/
namespace SchemaWire

theorem head?_valueVar (depth : Nat) : (valueVar depth).toList.head? = some 'v' := by
  simp [valueVar]

theorem head?_keyVar (depth : Nat) : (keyVar depth).toList.head? = some 'k' := by
  simp [keyVar]

theorem Direction.head?_functionName (dir : Direction) (name : String) :
    (dir.functionName name).toList.head? ∈ [some 'g', some 'c'] := by
  cases dir <;> simp [functionName]

/-- A number can be read back from its digits. -/
theorem toString_nat_inj {first second : Nat} :
    toString first = toString second ↔ first = second := by
  refine ⟨fun heq => ?_, congrArg toString⟩
  have hdigits := congrArg (fun text => Nat.ofDigitChars 10 text.toList 0) heq
  simpa only [Nat.toString_eq_repr, Nat.toList_repr, Nat.ofDigitChars_ten_toDigits] using hdigits

theorem valueVar_inj {first second : Nat} : valueVar first = valueVar second ↔ first = second := by
  rw [valueVar, valueVar, String.append_right_inj, toString_nat_inj]

theorem keyVar_inj {first second : Nat} : keyVar first = keyVar second ↔ first = second := by
  rw [keyVar, keyVar, String.append_right_inj, toString_nat_inj]

theorem valueVar_ne_keyVar (first second : Nat) : valueVar first ≠ keyVar second := by
  intro heq
  have hhead := head?_valueVar first
  rw [heq, head?_keyVar] at hhead
  cases hhead

/-- The parameters and constants of generated functions. -/
def fixedLocals : List String :=
  ["root", "matchInfo", "body", "options", "query", "res"]

/-- A parameter or constant of a generated function, or the variable of a lambda around a depth. -/
def IsLocal (depth : Nat) (name : String) : Prop :=
  name ∈ fixedLocals ∨ ∃ level < depth, name = valueVar level ∨ name = keyVar level

namespace IsLocal

variable {depth : Nat} {name : String}

theorem succ (h : IsLocal depth name) : IsLocal (depth + 1) name :=
  h.imp_right fun ⟨level, hlevel, heq⟩ => ⟨level, Nat.lt_succ_of_lt hlevel, heq⟩

theorem valueVar (depth : Nat) : IsLocal (depth + 1) (valueVar depth) :=
  Or.inr ⟨depth, Nat.lt_succ_self depth, Or.inl rfl⟩

theorem keyVar (depth : Nat) : IsLocal (depth + 1) (keyVar depth) :=
  Or.inr ⟨depth, Nat.lt_succ_self depth, Or.inr rfl⟩

/-- The variables of a lambda are not bound around it. -/
theorem ne_vars (h : IsLocal depth name) :
    name ≠ SchemaWire.valueVar depth ∧ name ≠ SchemaWire.keyVar depth := by
  rcases h with hfixed | ⟨level, hlevel, rfl | rfl⟩
  · have hheads : ∀ fixed ∈ fixedLocals, fixed.toList.head? ∉ [some 'v', some 'k'] := by decide
    have hhead := hheads name hfixed
    constructor
    · rintro rfl
      simp [head?_valueVar] at hhead
    · rintro rfl
      simp [head?_keyVar] at hhead
  · exact ⟨fun heq => absurd (valueVar_inj.mp heq) (Nat.ne_of_lt hlevel),
      valueVar_ne_keyVar level depth⟩
  · exact ⟨(valueVar_ne_keyVar depth level).symm,
      fun heq => absurd (keyVar_inj.mp heq) (Nat.ne_of_lt hlevel)⟩

/-- No local name is that of a global, a helper or a conversion function. -/
theorem not_outer (h : IsLocal depth name) :
    name ∉ globalNames ∧ name ∉ HelperName.all ∧
      ∀ (dir : Direction) (typeName : String), name ≠ dir.functionName typeName := by
  have hfixed : ∀ fixed ∈ fixedLocals, fixed ∉ globalNames ∧ fixed ∉ HelperName.all ∧
      fixed.toList.head? ∉ [some 'g', some 'c'] := by decide
  have hvars : ∀ outer ∈ globalNames ++ HelperName.all,
      outer.toList.head? ∉ [some 'v', some 'k'] := by decide
  have hheads : name ∈ fixedLocals ∨ name.toList.head? ∈ [some 'v', some 'k'] := by
    refine h.imp_right ?_
    rintro ⟨level, _, rfl | rfl⟩
    · simp [head?_valueVar]
    · simp [head?_keyVar]
  rcases hheads with hmem | hhead
  · obtain ⟨hglobal, hhelper, hfunction⟩ := hfixed name hmem
    exact ⟨hglobal, hhelper, fun dir typeName heq =>
      hfunction (heq ▸ dir.head?_functionName typeName)⟩
  · refine ⟨fun hmem => hvars name (List.mem_append_left _ hmem) hhead,
      fun hmem => hvars name (List.mem_append_right _ hmem) hhead, ?_⟩
    rintro dir typeName rfl
    have hfunction := dir.head?_functionName typeName
    simp only [List.mem_cons, List.not_mem_nil, or_false] at hhead hfunction
    rcases hhead with heq | heq <;> rw [heq] at hfunction <;> simp at hfunction

end IsLocal

end SchemaWire
