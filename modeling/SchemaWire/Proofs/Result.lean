import Mathlib.Data.List.Forall2
import SchemaWire.Error

/-!
Taking results apart: what the parts of a computation gave when the whole succeeded, and which part
failed when it did not.
-/
namespace SchemaWire

variable {ε α β : Type}

theorem bind_eq_ok_iff {x : Except ε α} {f : α → Except ε β} {b : β} :
    (x >>= f) = .ok b ↔ ∃ a, x = .ok a ∧ f a = .ok b := by
  cases x <;> simp [bind, Except.bind]

theorem map_eq_ok_iff {x : Except ε α} {f : α → β} {b : β} :
    f <$> x = .ok b ↔ ∃ a, x = .ok a ∧ f a = b := by
  cases x <;> simp [Functor.map, Except.map]

theorem mapError_eq_ok_iff {x : Except ε α} {f : ε → β} {a : α} :
    x.mapError f = .ok a ↔ x = .ok a := by
  cases x <;> simp [Except.mapError]

theorem pure_eq_ok_iff {a b : α} : (pure a : Except ε α) = .ok b ↔ a = b := by
  simp [pure, Except.pure]

theorem bind_eq_error_iff {x : Except ε α} {f : α → Except ε β} {e : ε} :
    (x >>= f) = .error e ↔ x = .error e ∨ ∃ a, x = .ok a ∧ f a = .error e := by
  cases x <;> simp [bind, Except.bind]

theorem map_eq_error_iff {x : Except ε α} {f : α → β} {e : ε} :
    f <$> x = .error e ↔ x = .error e := by
  cases x <;> simp [Functor.map, Except.map]

theorem mapError_eq_error_iff {x : Except ε α} {f : ε → β} {b : β} :
    x.mapError f = .error b ↔ ∃ e, x = .error e ∧ f e = b := by
  cases x <;> simp [Except.mapError]

/-- A traversal succeeds with the results of its steps, in order. -/
theorem mapM_eq_ok_iff {f : α → Except ε β} {items : List α} {results : List β} :
    items.mapM f = .ok results ↔
      List.Forall₂ (fun item result => f item = .ok result) items results := by
  induction items generalizing results with
  | nil => simp [pure, Except.pure, eq_comm]
  | cons item rest ih =>
      rw [List.mapM_cons, bind_eq_ok_iff]
      constructor
      · rintro ⟨result, hresult, h⟩
        obtain ⟨others, hothers, h⟩ := bind_eq_ok_iff.mp h
        cases pure_eq_ok_iff.mp h
        exact .cons hresult (ih.mp hothers)
      · intro h
        obtain _ | @⟨_, result, _, others, hresult, hothers⟩ := h
        exact ⟨result, hresult, bind_eq_ok_iff.mpr ⟨others, ih.mpr hothers, rfl⟩⟩

theorem exists_left_of_forall₂ {rel : α → β → Prop} {lefts : List α}
    {rights : List β} (h : List.Forall₂ rel lefts rights) :
    ∀ right ∈ rights, ∃ left ∈ lefts, rel left right := by
  induction h with
  | nil => simp
  | @cons left right lefts rights hhead _ ih =>
      intro item hitem
      rcases List.mem_cons.mp hitem with rfl | hin
      · exact ⟨left, List.mem_cons_self, hhead⟩
      · obtain ⟨other, hother, hrel⟩ := ih item hin
        exact ⟨other, List.mem_cons_of_mem _ hother, hrel⟩

theorem exists_right_of_forall₂ {rel : α → β → Prop} {lefts : List α}
    {rights : List β} (h : List.Forall₂ rel lefts rights) :
    ∀ left ∈ lefts, ∃ right ∈ rights, rel left right := by
  intro left hleft
  obtain ⟨right, hright, hrel⟩ := exists_left_of_forall₂ h.flip left hleft
  exact ⟨right, hright, hrel⟩

theorem toOption_eq_some_iff {x : Except ε α} {a : α} : x.toOption = some a ↔ x = .ok a := by
  cases x <;> simp [Except.toOption]

theorem exists_ok_of_isSome {x : Except ε α} (h : x.toOption.isSome = true) : ∃ a, x = .ok a := by
  cases x with
  | ok a => exact ⟨a, rfl⟩
  | error e => cases h

def fault? : Except ε α → Option ε
  | .ok _ => none
  | .error e => some e

theorem fault?_eq_some_iff {x : Except ε α} {e : ε} : fault? x = some e ↔ x = .error e := by
  cases x <;> simp [fault?]

end SchemaWire
