import PositionAutomaton.Boundary
import PositionAutomaton.OrderedSet.Lemmas
import PositionAutomaton.Proofs.Regex.Words

/-!
# What boundaries say about words

The boundary of an expression is exact: it says whether the empty word is a word of the
expression, and lists the positions that words start with and those that they end with.
-/

namespace PositionAutomaton

namespace Regex

variable {r : Regex Position} {p : Position}

/-- The boundary of `r` is nullable if the empty word is a word of `r`. -/
theorem nullable_boundary_iff : r.boundary.nullable = true ↔ r.Matches [] := by
  induction r with
  | leaf p => simp [boundary, Boundary.leaf]
  | star r _ => simpa [boundary, Boundary.star] using Matches.starNil r
  | alt l r ihl ihr => simp [boundary, Boundary.alt, ihl, ihr]
  | cat l r ihl ihr =>
    rw [boundary, Boundary.cat, Bool.and_eq_true, ihl, ihr, matches_cat_iff]
    constructor
    · rintro ⟨hl, hr⟩
      exact ⟨[], [], rfl, hl, hr⟩
    · rintro ⟨u, v, huv, hl, hr⟩
      obtain ⟨rfl, rfl⟩ := List.append_eq_nil_iff.1 huv.symm
      exact ⟨hl, hr⟩

/-- The first positions of the boundary of `r` are those that words of `r` start with. -/
theorem mem_first_boundary_iff : p ∈ r.boundary.first ↔ r.Starts p := by
  induction r with
  | leaf q => simp [boundary, Boundary.leaf, starts_leaf_iff]
  | star r ih => rw [starts_star_iff, ← ih, boundary, Boundary.star]
  | alt l r ihl ihr => simp [boundary, Boundary.alt, starts_alt_iff, ihl, ihr]
  | cat l r ihl ihr =>
    rw [starts_cat_iff, ← nullable_boundary_iff, ← ihl, ← ihr]
    -- the first positions of the right side count only behind a nullable left side
    by_cases hl : l.boundary.nullable = true
    · simp [boundary, Boundary.cat, hl]
    · simp [boundary, Boundary.cat, hl]

/-- The last positions of the boundary of `r` are those that words of `r` end with. -/
theorem mem_last_boundary_iff : p ∈ r.boundary.last ↔ r.Ends p := by
  induction r with
  | leaf q => simp [boundary, Boundary.leaf, ends_leaf_iff]
  | star r ih => rw [ends_star_iff, ← ih, boundary, Boundary.star]
  | alt l r ihl ihr => simp [boundary, Boundary.alt, ends_alt_iff, ihl, ihr]
  | cat l r ihl ihr =>
    rw [ends_cat_iff, ← nullable_boundary_iff, ← ihl, ← ihr]
    -- the last positions of the left side count only before a nullable right side
    by_cases hr : r.boundary.nullable = true
    · simp [boundary, Boundary.cat, hr, or_comm]
    · simp [boundary, Boundary.cat, hr]

end Regex

end PositionAutomaton
