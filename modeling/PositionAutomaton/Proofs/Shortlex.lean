import Mathlib.Data.List.Shortlex

/-!
# The order of words

Words are ordered by their length first, and words of the same length by the first symbol in which
they differ. What the order does to words that are longer by a symbol is
`precedes_append_singleton_iff`.
-/

namespace PositionAutomaton

/-- The word `u` comes before the word `v`: it is shorter, or it is as long and has the lesser code
point where the two differ first. -/
def Precedes (u v : List Char) : Prop :=
  List.Shortlex (· < ·) u v

namespace Precedes

variable {u v w : List Char} {c d : Char}

/-- A word comes before another if it is shorter, or as long and lexicographically less. -/
theorem iff_length_or_lex :
    Precedes u v ↔ u.length < v.length ∨ u.length = v.length ∧ List.Lex (· < ·) u v :=
  List.shortlex_def

/-- The empty word comes before longer ones. -/
theorem nil_append_singleton (u : List Char) (c : Char) : Precedes [] (u ++ [c]) :=
  List.Shortlex.of_length_lt (by simp)

/-- No word comes before itself. -/
theorem irrefl (u : List Char) : ¬Precedes u u := by
  rw [iff_length_or_lex]
  rintro (h | ⟨-, h⟩)
  · exact Nat.lt_irrefl _ h
  · exact List.lex_irrefl Char.lt_irrefl u h

/-- What comes before a word comes before later ones. -/
theorem trans (huv : Precedes u v) (hvw : Precedes v w) : Precedes u w := by
  rw [iff_length_or_lex] at huv hvw ⊢
  rcases huv with huv | ⟨huv, hlex⟩
  · exact .inl (by omega)
  · rcases hvw with hvw | ⟨hvw, hlex'⟩
    · exact .inl (by omega)
    · exact .inr ⟨huv.trans hvw, List.lex_trans Char.lt_trans hlex hlex'⟩

/-- Of two words, one comes before the other only if that does not come before it. -/
theorem not_precedes (h : Precedes u v) : ¬Precedes v u :=
  fun h' => irrefl u (h.trans h')

/-- Lists of one length that are longer by an element are compared by what they were, and by the
element where that is the same. -/
theorem lex_append_singleton_iff (h : u.length = v.length) :
    List.Lex (· < ·) (u ++ [c]) (v ++ [d]) ↔ List.Lex (· < ·) u v ∨ u = v ∧ c < d := by
  induction u generalizing v with
  | nil =>
    obtain rfl := List.length_eq_zero_iff.1 h.symm
    simp
  | cons a u ih =>
    cases v with
    | nil => simp at h
    | cons b v =>
      have hlength : u.length = v.length := by simpa using h
      rw [List.cons_append, List.cons_append, List.cons_lex_cons_iff, List.cons_lex_cons_iff,
        ih hlength, List.cons_eq_cons, and_or_left, or_assoc, and_assoc]

/-- Words that are longer by a symbol are ordered by what they were, and by the symbol where that is
the same. -/
theorem append_singleton_iff :
    Precedes (u ++ [c]) (v ++ [d]) ↔ Precedes u v ∨ u = v ∧ c < d := by
  simp only [iff_length_or_lex, List.length_append, List.length_singleton]
  by_cases h : u.length = v.length
  · rw [lex_append_singleton_iff h]
    simp [h]
  · have hne : u ≠ v := fun huv => h (congrArg List.length huv)
    simp [h, hne]

end Precedes

end PositionAutomaton
