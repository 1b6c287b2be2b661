/-!
# Cuts of lists

A list that is the one of two others in a row, and at the same time cut at one of its elements, has
the element in one of the two (`append_eq_append_cons_iff`). Words, sequences of tokens and what
waits in a yard are all cut in this way. Texts are cut where a character comes up first
(`append_cons_inj_of_not_mem`).
-/

namespace PositionAutomaton

variable {α : Type} {a : α} {u v x y : List α}

/-- The list `u ++ v` is cut at an element `a` in one of its parts. -/
theorem append_eq_append_cons_iff :
    u ++ v = x ++ a :: y ↔
      (∃ y₁, u = x ++ a :: y₁ ∧ y = y₁ ++ v) ∨ ∃ x₂, x = u ++ x₂ ∧ v = x₂ ++ a :: y := by
  rw [List.append_eq_append_iff]
  constructor
  · rintro (⟨x₂, hx, hv⟩ | ⟨z, hu, hz⟩)
    · exact .inr ⟨x₂, hx, hv⟩
    · -- `z` is what lies between the cuts; the element is its first one, if it has one
      rcases List.cons_eq_append_iff.1 hz with ⟨rfl, hv⟩ | ⟨y₁, rfl, hy⟩
      · exact .inr ⟨[], by simpa using hu.symm, by simpa using hv⟩
      · exact .inl ⟨y₁, hu, hy⟩
  · rintro (⟨y₁, hu, hy⟩ | ⟨x₂, hx, hv⟩)
    · exact .inr ⟨a :: y₁, hu, by simp [hy]⟩
    · exact .inl ⟨x₂, hx, hv⟩

/-- Lists that are cut where `a` comes up first are equal if both of their parts are. -/
theorem append_cons_inj_of_not_mem (hu : a ∉ u) (hx : a ∉ x) :
    u ++ a :: v = x ++ a :: y ↔ u = x ∧ v = y := by
  constructor
  · intro h
    rcases append_eq_append_cons_iff.1 h with ⟨y₁, rfl, -⟩ | ⟨x₂, rfl, hv⟩
    · exact absurd (by simp) hu
    · -- what `x` has more than `u` would start with the element
      cases x₂ with
      | nil => exact ⟨by simp, by simpa using hv⟩
      | cons b x₂ =>
        obtain ⟨rfl, -⟩ := List.cons.inj hv
        exact absurd (by simp) hx
  · rintro ⟨rfl, rfl⟩
    rfl

end PositionAutomaton
