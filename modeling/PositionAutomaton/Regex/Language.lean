import PositionAutomaton.Regex.Basic

/-!
# The words of a regular expression

`Regex.Matches r w` says that the word `w` belongs to the regular language of `r`. The
lemmas read it off from the form of the expression.
-/

namespace PositionAutomaton

namespace Regex

variable {α : Type} {l r : Regex α} {w : List α}

/-- The words that an expression matches. -/
inductive Matches : Regex α → List α → Prop where
  /-- A leaf matches the word of itself. -/
  | leaf (a : α) : Matches (leaf a) [a]
  /-- A repetition matches the empty word. -/
  | starNil (r : Regex α) : Matches (star r) []
  /-- A repetition matches a match of what is repeated, followed by a match of itself. -/
  | starAppend {r : Regex α} {u v : List α} :
      Matches r u → Matches (star r) v → Matches (star r) (u ++ v)
  /-- A choice matches what its left side matches. -/
  | altLeft {l : Regex α} (r : Regex α) {u : List α} : Matches l u → Matches (alt l r) u
  /-- A choice matches what its right side matches. -/
  | altRight (l : Regex α) {r : Regex α} {u : List α} : Matches r u → Matches (alt l r) u
  /-- A concatenation matches a match of its left side followed by one of its right side. -/
  | cat {l r : Regex α} {u v : List α} :
      Matches l u → Matches r v → Matches (cat l r) (u ++ v)

/-- The leaf `a` matches the word of `a` alone. -/
@[simp]
theorem matches_leaf_iff {a : α} : Matches (.leaf a) w ↔ w = [a] := by
  constructor
  · intro h
    cases h
    rfl
  · rintro rfl
    exact .leaf a

/-- The choice between `l` and `r` matches what one of them matches. -/
@[simp]
theorem matches_alt_iff : Matches (.alt l r) w ↔ Matches l w ∨ Matches r w := by
  constructor
  · intro h
    cases h with
    | altLeft _ h => exact .inl h
    | altRight _ h => exact .inr h
  · rintro (h | h)
    · exact .altLeft r h
    · exact .altRight l h

/-- The concatenation of `l` and `r` matches the words that split into matches of `l` and `r`. -/
theorem matches_cat_iff :
    Matches (.cat l r) w ↔ ∃ u v, w = u ++ v ∧ Matches l u ∧ Matches r v := by
  constructor
  · intro h
    cases h with
    | cat hl hr => exact ⟨_, _, rfl, hl, hr⟩
  · rintro ⟨u, v, rfl, hl, hr⟩
    exact .cat hl hr

/-- The repetition of `r` matches the words that split into matches of `r`. -/
theorem matches_star_iff :
    Matches (.star r) w ↔ ∃ us : List (List α), w = us.flatten ∧ ∀ u ∈ us, Matches r u := by
  constructor
  · intro h
    -- for an induction on the match, the repetition has to be a variable
    generalize hs : Regex.star r = s at h
    induction h with
    | leaf | altLeft | altRight | cat => cases hs
    | starNil => exact ⟨[], rfl, by simp⟩
    | starAppend hu _ _ ih =>
      cases hs
      obtain ⟨us, rfl, hus⟩ := ih rfl
      exact ⟨_ :: us, rfl, List.forall_mem_cons.2 ⟨hu, hus⟩⟩
  · rintro ⟨us, rfl, hus⟩
    induction us with
    | nil => exact .starNil r
    | cons u us ih =>
      obtain ⟨hu, hus⟩ := List.forall_mem_cons.1 hus
      exact .starAppend hu (ih hus)

end Regex

end PositionAutomaton
