import Mathlib.Data.List.Induction

/-!
# Parentheses without partner

What is wrong with the parentheses of a text, said of its characters alone. A closing
parenthesis is stray if it closes no group or an empty one (`Stray`), and an opening one is
open if no group that starts there is closed in what follows (`Closes`).

A text has a first stray parenthesis (`noStray_or_exists_stray`) and a last open one
(`allClosed_or_exists_not_closes`), unless it has none. Where nothing stays open there are at
least as many closing parentheses as opening ones (`AllClosed.count_le`).
-/

namespace PositionAutomaton

/-- A closing parenthesis behind the characters `before` follows an opening one directly, or there
is no group that it closes. -/
def Stray (before : List Char) : Prop :=
  before.getLast? = some '(' ∨ before.count ')' = before.count '('

/-- No closing parenthesis of a text `cs` is stray. -/
def NoStray (cs : List Char) : Prop :=
  ∀ before after, cs = before ++ ')' :: after → ¬Stray before

/-- A group that was opened just before the characters `cs` is closed in them: one of their closing
parentheses has as many opening as closing ones before it. -/
def Closes (cs : List Char) : Prop :=
  ∃ inner after, cs = inner ++ ')' :: after ∧ inner.count ')' = inner.count '('

/-- Every group that a text `cs` opens is closed in it. -/
def AllClosed (cs : List Char) : Prop :=
  ∀ before after, cs = before ++ '(' :: after → Closes after

variable {cs ds : List Char} {c : Char}

/-! ### Stray parentheses -/

/-- Without the character `)` none is stray. -/
theorem noStray_of_not_mem (h : ')' ∉ cs) : NoStray cs := by
  rintro before after rfl
  exact absurd (by simp) h

/-- The start `cs` of a text without stray parentheses has none. -/
theorem NoStray.of_append (h : NoStray (cs ++ ds)) : NoStray cs := by
  rintro before after rfl
  exact h before (after ++ ds) (by simp)

/-- Another character `c` is stray only if it is a closing parenthesis where one is stray. -/
theorem noStray_append_singleton_iff :
    NoStray (cs ++ [c]) ↔ NoStray cs ∧ (c = ')' → ¬Stray cs) := by
  constructor
  · intro h
    refine ⟨h.of_append, ?_⟩
    rintro rfl
    exact h cs [] rfl
  · rintro ⟨hcs, hc⟩ before after hsplit
    rcases List.eq_nil_or_concat after with rfl | ⟨after, d, rfl⟩
    · -- the parenthesis is the last character
      obtain ⟨rfl, hlast⟩ := List.append_inj' hsplit rfl
      exact hc (List.cons.inj hlast).1
    · rw [List.concat_eq_append, ← List.cons_append, ← List.append_assoc] at hsplit
      exact hcs before after (List.append_inj' hsplit rfl).1

/-- A text `cs` has no stray parenthesis, or a first one. -/
theorem noStray_or_exists_stray (cs : List Char) :
    NoStray cs ∨ ∃ before after, cs = before ++ ')' :: after ∧ NoStray before ∧ Stray before := by
  induction cs using List.reverseRecOn with
  | nil => exact .inl (noStray_of_not_mem List.not_mem_nil)
  | append_singleton cs c ih =>
    rcases ih with hcs | ⟨before, after, rfl, hbefore, hstray⟩
    · by_cases hc : c = ')' ∧ Stray cs
      · obtain ⟨rfl, hstray⟩ := hc
        exact .inr ⟨cs, [], rfl, hcs, hstray⟩
      · exact .inl (noStray_append_singleton_iff.2 ⟨hcs, not_and.1 hc⟩)
    · exact .inr ⟨before, after ++ [c], by simp, hbefore, hstray⟩

/-- Behind an opening parenthesis that stays open, in `ds`, there is no stray one that was not stray
before. -/
theorem NoStray.of_not_closes (h : NoStray (cs ++ '(' :: ds)) (hds : ¬Closes ds) :
    NoStray ds := by
  rintro before after rfl (hlast | hcount)
  · refine h (cs ++ '(' :: before) after (by simp) (.inl ?_)
    rw [List.getLast?_append, List.getLast?_cons, hlast]
    rfl
  · exact hds ⟨before, after, rfl, hcount⟩

/-! ### Open groups -/

/-- The character `)` closes the group. -/
theorem Closes.mem (h : Closes cs) : ')' ∈ cs := by
  obtain ⟨inner, after, rfl, -⟩ := h
  simp

/-- Without the character `(` every group is closed. -/
theorem allClosed_of_not_mem (h : '(' ∉ cs) : AllClosed cs := by
  rintro before after rfl
  exact absurd (by simp) h

/-- The end `ds` of a text in which every group is closed is such a text. -/
theorem AllClosed.of_append (h : AllClosed (cs ++ ds)) : AllClosed ds := by
  rintro before after rfl
  exact h (cs ++ before) after (by simp)

/-- In front of a text `cs` in which every group is closed, another character leaves a group open
only if it opens one that is not closed. -/
theorem AllClosed.cons (h : AllClosed cs) (hc : c = '(' → Closes cs) : AllClosed (c :: cs) := by
  intro before after hsplit
  cases before with
  | nil =>
    obtain ⟨rfl, rfl⟩ := List.cons.inj hsplit
    exact hc rfl
  | cons d before =>
    obtain ⟨-, hsplit⟩ := List.cons.inj hsplit
    exact h before after hsplit

/-- In a text `cs` every group is closed, or there is a last one that is not. -/
theorem allClosed_or_exists_not_closes (cs : List Char) :
    AllClosed cs ∨
      ∃ before after, cs = before ++ '(' :: after ∧ ¬Closes after ∧ AllClosed after := by
  induction cs with
  | nil => exact .inl (allClosed_of_not_mem List.not_mem_nil)
  | cons c cs ih =>
    rcases ih with hcs | ⟨before, after, rfl, hafter, hall⟩
    · by_cases hc : c = '(' ∧ ¬Closes cs
      · obtain ⟨rfl, hopen⟩ := hc
        exact .inr ⟨[], cs, rfl, hopen, hcs⟩
      · exact .inl (hcs.cons fun h => not_not.1 fun hopen => hc ⟨h, hopen⟩)
    · exact .inr ⟨c :: before, after, rfl, hafter, hall⟩

/-- A text `cs` in which every group is closed has at least as many closing parentheses as opening
ones. -/
theorem AllClosed.count_le (h : AllClosed cs) : cs.count '(' ≤ cs.count ')' := by
  induction hlength : cs.length using Nat.strongRecOn generalizing cs with
  | ind n ih =>
    subst hlength
    cases cs with
    | nil => exact Nat.le_refl _
    | cons c cs =>
      have htail : AllClosed cs := AllClosed.of_append (show AllClosed ([c] ++ cs) from h)
      by_cases hc : c = '('
      · -- behind the end of its group, the rest is a shorter text of this form
        subst hc
        obtain ⟨inner, after, rfl, hcount⟩ := h [] cs rfl
        rw [List.append_cons] at htail
        have hafter := ih after.length (by simp; omega) htail.of_append rfl
        simp
        omega
      · have hcs := ih cs.length (by simp) htail rfl
        rw [List.count_cons_of_ne hc]
        exact Nat.le_trans hcs List.count_le_count_cons

end PositionAutomaton
