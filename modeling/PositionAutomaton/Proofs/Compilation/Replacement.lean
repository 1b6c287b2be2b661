import PositionAutomaton.Proofs.Compilation.Tree
import PositionAutomaton.Proofs.Regex.Rearrangement

/-!
# Replacing a group of a text

The parentheses of a phrase match (`Derives.balanced`). A phrase that begins before a group of a
larger text therefore ends before the group or behind it (`Balanced.split`), and whatever the text
around a group is, the group stands for one subexpression of what the text is read as. If a group is
replaced by another one, the subexpression is replaced as well (`Derives.exists_replaced`).
-/

namespace PositionAutomaton

variable {cs ds pre post tail inner : List Char}

/-! ### Matching parentheses -/

/-- The parentheses of a text `cs` match. -/
structure Balanced (cs : List Char) : Prop where
  /-- No start of the text closes more groups than it opens. -/
  count_le : ∀ before after, cs = before ++ after → before.count ')' ≤ before.count '('
  /-- The text closes as many groups as it opens. -/
  count_eq : cs.count ')' = cs.count '('

/-- A character that is no parenthesis matches. -/
theorem balanced_singleton {c : Char} (hopening : c ≠ '(') (hclosing : c ≠ ')') :
    Balanced [c] where
  count_le before after h := by
    rcases List.singleton_eq_append_iff.1 h with ⟨rfl, -⟩ | ⟨rfl, -⟩
    · simp
    · simp [hopening, hclosing]
  count_eq := by simp [hopening, hclosing]

/-- Two texts in a row have matching parentheses if both have. -/
theorem Balanced.append (hcs : Balanced cs) (hds : Balanced ds) : Balanced (cs ++ ds) where
  count_le before after h := by
    rcases List.append_eq_append_iff.1 h with ⟨rest, rfl, hrest⟩ | ⟨rest, hrest, -⟩
    · have hcount := hds.count_le rest after hrest
      rw [List.count_append, List.count_append, hcs.count_eq]
      omega
    · exact hcs.count_le before rest hrest
  count_eq := by rw [List.count_append, List.count_append, hcs.count_eq, hds.count_eq]

/-- The group of a text `cs` has matching parentheses if `cs` has. -/
theorem Balanced.group (h : Balanced cs) : Balanced ('(' :: cs ++ [')']) where
  count_le before after hsplit := by
    cases before with
    | nil => simp
    | cons c before =>
      obtain ⟨rfl, htail⟩ := List.cons.inj hsplit
      rcases List.append_eq_append_iff.1 htail with ⟨rest, rfl, hrest⟩ | ⟨rest, hrest, -⟩
      · -- behind what is in the group there is at most its end
        have hcount : rest.count ')' ≤ 1 := by
          have hlength := congrArg List.length hrest
          simp only [List.length_append, List.length_singleton] at hlength
          exact Nat.le_trans List.count_le_length (by omega)
        have hcs := h.count_eq
        simp only [List.count_cons, List.count_append]
        simp
        omega
      · have hcount := h.count_le before rest hrest
        simp
        omega
  count_eq := by
    have hcs := h.count_eq
    simp
    omega

/-- The parentheses of a phrase match, whatever its kind `k`. -/
theorem Derives.balanced {k : Phrase} {r : Regex Char} (h : Derives k cs r) : Balanced cs := by
  induction h with
  | letter hc => exact balanced_singleton (by rintro rfl; cases hc) (by rintro rfl; cases hc)
  | group _ ih => exact ih.group
  | once _ ih | single _ ih | only _ ih => exact ih
  | star _ ih => exact ih.append (balanced_singleton (by decide) (by decide))
  | append _ _ ihl ihr => exact ihl.append ihr
  | bar _ _ ihl ihr =>
    exact ihl.append ((balanced_singleton (by decide) (by decide)).append ihr)

/-- A text in which the group before `ds` stays open has no matching parentheses. -/
theorem not_balanced_of_open (h : ds.count ')' ≤ ds.count '(') : ¬Balanced (pre ++ '(' :: ds) := by
  intro hbalanced
  have hpre := hbalanced.count_le pre ('(' :: ds) rfl
  have hcount := hbalanced.count_eq
  simp at hcount
  omega

/-- A text `cs` with matching parentheses that is the start of a text with a group of `inner` ends
behind the group or before it. -/
theorem Balanced.split (h : Balanced cs) (hinner : Balanced inner)
    (hsplit : cs ++ tail = pre ++ '(' :: (inner ++ ')' :: post)) :
    (∃ rest, cs = pre ++ '(' :: (inner ++ ')' :: rest) ∧ post = rest ++ tail) ∨
      ∃ rest, pre = cs ++ rest ∧ tail = rest ++ '(' :: (inner ++ ')' :: post) := by
  rcases List.append_eq_append_iff.1 hsplit with ⟨rest, hpre, htail⟩ | ⟨rest, rfl, hrest⟩
  · exact .inr ⟨rest, hpre, htail⟩
  · cases rest with
    | nil => exact .inr ⟨[], by simp, hrest.symm⟩
    | cons c rest =>
      obtain ⟨rfl, hinside⟩ := List.cons.inj hrest
      -- the group starts in `cs`, and would stay open there if it did not end in `cs` as well
      rcases List.append_eq_append_iff.1 hinside with ⟨behind, rfl, hbehind⟩ | ⟨left, hleft, -⟩
      · cases behind with
        | nil =>
          rw [List.append_nil] at h
          exact absurd h (not_balanced_of_open (Nat.le_of_eq hinner.count_eq))
        | cons c behind =>
          obtain ⟨rfl, hpost⟩ := List.cons.inj hbehind
          exact .inl ⟨behind, rfl, hpost⟩
      · exact absurd h (not_balanced_of_open (hinner.count_le _ _ hleft))

/-- What is in a group that ends a text, `inner`, is the whole text `cs` before the end. -/
theorem Balanced.eq_of_append_eq (h : Balanced cs) (hinner : Balanced inner)
    (hsplit : cs ++ [')'] = inner ++ ')' :: post) : cs = inner ∧ post = [] := by
  rcases List.append_eq_append_iff.1 hsplit with ⟨rest, rfl, hrest⟩ | ⟨rest, rfl, hrest⟩
  · rcases List.singleton_eq_append_iff.1 hrest with ⟨rfl, hpost⟩ | ⟨-, hnil⟩
    · exact ⟨by simp, (List.cons.inj hpost).2⟩
    · cases hnil
  · cases rest with
    | nil => exact ⟨by simp, (List.cons.inj hrest).2⟩
    | cons c rest =>
      -- the end of the group would close one group too many
      obtain ⟨rfl, -⟩ := List.cons.inj hrest
      have hcount := h.count_le (inner ++ [')']) rest (by simp)
      have heq := hinner.count_eq
      simp at hcount
      omega

namespace Derives

variable {R : Regex Char → Regex Char → Prop} {k : Phrase} {e f r : Regex Char}

/-- If the group of `cs` in a phrase is replaced by the group of `ds`, then a phrase of the same
kind `k` remains, and what it is read as, `s`, is related to `r` by the congruence `R` if `e` is to
`f`. -/
theorem exists_replaced (hR : Regex.IsCongruence R) (he : Derives .choice cs e)
    (hf : Derives .choice ds f) (h : Derives k (pre ++ '(' :: (cs ++ ')' :: post)) r) :
    ∃ s, Derives k (pre ++ '(' :: (ds ++ ')' :: post)) s ∧ (R e f → R r s) := by
  generalize htext : pre ++ '(' :: (cs ++ ')' :: post) = text at h
  -- the group lies in one of the phrases that `text` is made of, and is `text` in the end
  induction h generalizing pre post with
  | @letter c hc =>
    have hlength := congrArg List.length htext
    simp at hlength
    omega
  | @group inner r hr ih =>
    cases pre with
    | nil =>
      -- the group is the one that is replaced
      obtain ⟨-, hsplit⟩ := List.cons.inj htext
      obtain ⟨rfl, rfl⟩ := hr.balanced.eq_of_append_eq he.balanced hsplit.symm
      obtain rfl := hr.unique he
      exact ⟨f, .group hf, id⟩
    | cons c pre =>
      obtain ⟨rfl, hsplit⟩ := List.cons.inj htext
      rcases hr.balanced.split he.balanced hsplit.symm with
        ⟨rest, rfl, rfl⟩ | ⟨rest, -, hrest⟩
      · obtain ⟨s, hs, hrs⟩ := ih rfl
        refine ⟨s, ?_, hrs⟩
        have hgroup := Derives.group hs
        simpa using hgroup
      · have hlength := congrArg List.length hrest
        simp at hlength
        omega
  | once hr ih =>
    obtain ⟨s, hs, hrs⟩ := ih htext
    exact ⟨s, .once hs, hrs⟩
  | single hr ih =>
    obtain ⟨s, hs, hrs⟩ := ih htext
    exact ⟨s, .single hs, hrs⟩
  | only hr ih =>
    obtain ⟨s, hs, hrs⟩ := ih htext
    exact ⟨s, .only hs, hrs⟩
  | star hr ih =>
    rcases hr.balanced.split he.balanced htext.symm with ⟨rest, rfl, rfl⟩ | ⟨rest, -, hrest⟩
    · obtain ⟨s, hs, hrs⟩ := ih rfl
      refine ⟨.star s, ?_, fun hef => hR.star (hrs hef)⟩
      have hstar := Derives.star hs
      simpa using hstar
    · have hlength := congrArg List.length hrest
      simp at hlength
      omega
  | append hl hr ihl ihr =>
    rcases hl.balanced.split he.balanced htext.symm with ⟨rest, rfl, rfl⟩ | ⟨rest, rfl, rfl⟩
    · obtain ⟨s, hs, hls⟩ := ihl rfl
      refine ⟨.cat s _, ?_, fun hef => hR.cat (hls hef) (hR.refl _)⟩
      have happend := Derives.append hs hr
      simpa using happend
    · obtain ⟨s, hs, hrs⟩ := ihr rfl
      refine ⟨.cat _ s, ?_, fun hef => hR.cat (hR.refl _) (hrs hef)⟩
      have happend := Derives.append hl hs
      simpa using happend
  | bar hl hr ihl ihr =>
    rcases hl.balanced.split he.balanced htext.symm with ⟨rest, rfl, rfl⟩ | ⟨rest, rfl, hrest⟩
    · obtain ⟨s, hs, hls⟩ := ihl rfl
      refine ⟨.alt s _, ?_, fun hef => hR.alt (hls hef) (hR.refl _)⟩
      have hbar := Derives.bar hs hr
      simpa using hbar
    · -- the bar is no parenthesis, so that it stands before the group
      cases rest with
      | nil => exact absurd (List.cons.inj hrest).1 (by decide)
      | cons c rest =>
        obtain ⟨rfl, rfl⟩ := List.cons.inj hrest
        obtain ⟨s, hs, hrs⟩ := ihr rfl
        refine ⟨.alt _ s, ?_, fun hef => hR.alt (hR.refl _) (hrs hef)⟩
        have hbar := Derives.bar hl hs
        simpa using hbar

end Derives

end PositionAutomaton
