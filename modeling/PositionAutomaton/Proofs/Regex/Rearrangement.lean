import PositionAutomaton.Proofs.Regex.Words

/-!
# Rearrangements of regular expressions

Some expressions with the same leaves in the same order have the same words, whatever the leaves
are: choices and concatenations may be grouped in another way, a repetition need not be repeated,
and in a repetition two repetitions in a row are a choice. `Rearranges` applies such a law somewhere
inside an expression. It keeps the leaves (`Rearranges.leaves_eq`) and the words
(`Rearranges.matches_iff`).
-/

namespace PositionAutomaton

namespace Regex

variable {α : Type} {l r l' r' : Regex α} {u v w : List α}

/-- The relation `R` goes along with the operators of expressions. -/
structure IsCongruence (R : Regex α → Regex α → Prop) : Prop where
  /-- Every expression is related to itself. -/
  refl (r : Regex α) : R r r
  /-- Repetitions of related expressions are related. -/
  star {r s : Regex α} : R r s → R (.star r) (.star s)
  /-- Choices between related expressions are related. -/
  alt {l r l' r' : Regex α} : R l l' → R r r' → R (.alt l r) (.alt l' r')
  /-- Concatenations of related expressions are related. -/
  cat {l r l' r' : Regex α} : R l l' → R r r' → R (.cat l r) (.cat l' r')

/-- `Rearranges r s` says that `s` is `r` with laws applied to some of its subexpressions. -/
inductive Rearranges : Regex α → Regex α → Prop where
  /-- Concatenations may be grouped from the left. -/
  | catAssoc (l m r : Regex α) : Rearranges (.cat l (.cat m r)) (.cat (.cat l m) r)
  /-- Choices may be grouped from the left. -/
  | altAssoc (l m r : Regex α) : Rearranges (.alt l (.alt m r)) (.alt (.alt l m) r)
  /-- A repetition need not be repeated. -/
  | starStar (r : Regex α) : Rearranges (.star (.star r)) (.star r)
  /-- In a repetition, two repetitions in a row are a choice. -/
  | starCat (l r : Regex α) : Rearranges (.star (.cat (.star l) (.star r))) (.star (.alt l r))
  /-- An expression may be left as it is. -/
  | refl (r : Regex α) : Rearranges r r
  /-- Laws may be applied to what is repeated. -/
  | star {r s : Regex α} : Rearranges r s → Rearranges (.star r) (.star s)
  /-- Laws may be applied to the sides of a choice. -/
  | alt {l r l' r' : Regex α} :
      Rearranges l l' → Rearranges r r' → Rearranges (.alt l r) (.alt l' r')
  /-- Laws may be applied to the sides of a concatenation. -/
  | cat {l r l' r' : Regex α} :
      Rearranges l l' → Rearranges r r' → Rearranges (.cat l r) (.cat l' r')

/-- The relation `Rearranges` goes along with the operators. -/
theorem isCongruence_rearranges : IsCongruence (Rearranges (α := α)) :=
  ⟨.refl, .star, .alt, .cat⟩

/-- A rearrangement `r'` of `r` has the same leaves, in the same order. -/
theorem Rearranges.leaves_eq (h : Rearranges r r') : r.leaves = r'.leaves := by
  induction h with
  | catAssoc l m r | altAssoc l m r => simp [leaves]
  | starStar r => rfl
  | starCat l r => rfl
  | refl r => rfl
  | star _ ih => exact ih
  | alt _ _ ihl ihr | cat _ _ ihl ihr => rw [leaves, leaves, ihl, ihr]

/-! ### Words of rearranged expressions -/

/-- Concatenations of `l`, `m` and `r` have the same words, however they are grouped. -/
theorem matches_cat_cat_iff {m : Regex α} :
    Matches (.cat l (.cat m r)) w ↔ Matches (.cat (.cat l m) r) w := by
  simp only [matches_cat_iff]
  constructor
  · rintro ⟨u, -, rfl, hu, v, x, rfl, hv, hx⟩
    exact ⟨u ++ v, x, by simp, ⟨u, v, rfl, hu, hv⟩, hx⟩
  · rintro ⟨-, x, rfl, ⟨u, v, rfl, hu, hv⟩, hx⟩
    exact ⟨u, v ++ x, by simp, hu, v, x, rfl, hv, hx⟩

/-- A repetition of `r` has only words of the repetition of `r'` if the words of `r` are such
words. -/
theorem Matches.star_of_forall (h : Matches (.star r) w)
    (hr : ∀ u, Matches r u → Matches (.star r') u) : Matches (.star r') w := by
  obtain ⟨us, rfl, hus⟩ := matches_star_iff.1 h
  clear h
  induction us with
  | nil => exact .starNil r'
  | cons u us ih =>
    obtain ⟨hu, hus⟩ := List.forall_mem_cons.1 hus
    exact (hr u hu).star_append (ih hus)

/-- Repetitions of `r` and `r'` have the same words if each word of what is repeated is a word of
the other repetition. -/
theorem matches_star_iff_of_forall (hr : ∀ u, Matches r u → Matches (.star r') u)
    (hr' : ∀ u, Matches r' u → Matches (.star r) u) :
    Matches (.star r) w ↔ Matches (.star r') w :=
  ⟨fun h => h.star_of_forall hr, fun h => h.star_of_forall hr'⟩

/-- A rearrangement `r'` of `r` has the same words. -/
theorem Rearranges.matches_iff (h : Rearranges r r') : Matches r w ↔ Matches r' w := by
  induction h generalizing w with
  | catAssoc l m r => exact matches_cat_cat_iff
  | altAssoc l m r => simp only [matches_alt_iff, or_assoc]
  | starStar r =>
    exact matches_star_iff_of_forall (fun _ h => h) fun _ h => h.star_single.star_single
  | starCat l r =>
    refine matches_star_iff_of_forall (fun w h => ?_) fun w h => ?_
    -- words of the two repetitions are made of words of the choice
    · obtain ⟨u, v, rfl, hu, hv⟩ := matches_cat_iff.1 h
      exact (hu.star_of_forall fun _ h => (Matches.altLeft r h).star_single).star_append
        (hv.star_of_forall fun _ h => (Matches.altRight l h).star_single)
    · -- a word of one side is that of its repetition, with the empty word of the other
      rcases matches_alt_iff.1 h with h | h
      · simpa using (Matches.cat h.star_single (.starNil r)).star_single
      · simpa using (Matches.cat (.starNil l) h.star_single).star_single
  | refl r => rfl
  | star _ ih =>
    exact matches_star_iff_of_forall (fun _ h => (ih.1 h).star_single)
      fun _ h => (ih.2 h).star_single
  | alt _ _ ihl ihr => rw [matches_alt_iff, matches_alt_iff, ihl, ihr]
  | cat _ _ ihl ihr => simp only [matches_cat_iff, ihl, ihr]

end Regex

end PositionAutomaton
