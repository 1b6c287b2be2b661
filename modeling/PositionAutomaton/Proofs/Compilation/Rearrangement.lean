import PositionAutomaton.Proofs.Automaton.SameWords
import PositionAutomaton.Proofs.Compilation.Acceptance
import PositionAutomaton.Proofs.Compilation.Replacement

/-!
# Rearranged expressions have equal automata

A rearrangement keeps the leaves of an expression and their order, and thus the numbering of its
positions (`Regex.Rearranges.number`). The numbered expressions of two texts that are read as
rearranged expressions therefore have the same words, and the texts have the same automaton, not
only automata that accept the same words (`compile_eq_of_rearranges`). Since a group of a text
stands for one subexpression, this is so wherever rearranged expressions are put in place of a group
(`sameAutomaton_of_rearranged`).
-/

namespace PositionAutomaton

/-- Rearranged expressions `r` and `s` stay rearranged when `Regex.number` numbers their leaves. -/
theorem Regex.Rearranges.number {α : Type} {r s : Regex α} (h : Rearranges r s) (start : Nat) :
    Rearranges (r.number start) (s.number start) := by
  induction h generalizing start with
  | catAssoc l m r =>
    simp only [Regex.number, leaves, List.length_append, ← Nat.add_assoc]
    exact .catAssoc _ _ _
  | altAssoc l m r =>
    simp only [Regex.number, leaves, List.length_append, ← Nat.add_assoc]
    exact .altAssoc _ _ _
  | starStar r => exact .starStar _
  | starCat l r => exact .starCat _ _
  | refl r => exact .refl _
  | star _ ih => exact .star (ih start)
  | alt hl _ ihl ihr =>
    -- the left side has as many leaves as before, so that the right one is numbered as before
    rw [Regex.number, Regex.number, ← hl.leaves_eq]
    exact .alt (ihl start) (ihr _)
  | cat hl _ ihl ihr =>
    rw [Regex.number, Regex.number, ← hl.leaves_eq]
    exact .cat (ihl start) (ihr _)

variable {e f g pre post s t : String} {r r' : Regex Char}

/-- The numbered expressions of rearranged expressions have the `SameWords`: they differ in the form
of their trees only. -/
theorem Regex.Rearranges.sameWords (h : r.Rearranges r') :
    (Expression.ofRegex r).SameWords (.ofRegex r') where
  symbols_eq := by rw [Expression.ofRegex, Expression.ofRegex, h.leaves_eq]
  endMark_eq := by rw [Expression.ofRegex, Expression.ofRegex, h.leaves_eq]
  matches_iff w := by
    rw [Expression.ofRegex, Expression.ofRegex, h.leaves_eq]
    exact ((h.number 0).cat (.refl _)).matches_iff

/-- Texts `s` and `t` that are read as rearranged expressions have the same automaton. -/
theorem compile_eq_of_rearranges (hs : Derives .choice s.toList r)
    (ht : Derives .choice t.toList r') (h : r.Rearranges r')
    (hsize : s.utf8ByteSize < Offset.bound) (hsize' : t.utf8ByteSize < Offset.bound) :
    ∃ a, compile s = .ok a ∧ compile t = .ok a := by
  have hfolded (r : Regex Char) : r.map (Token.folded false) = r := r.map_id
  have hs := hs.ofText_eq_ok false hsize
  have ht := ht.ofText_eq_ok false hsize'
  rw [hfolded] at hs ht
  obtain ⟨a, ha⟩ := Automaton.exists_build_ofExpression_eq_ok (.ofRegex r)
  refine ⟨a, compile_eq_ok_iff.2 ⟨_, hs, ha⟩, compile_eq_ok_iff.2 ⟨_, ht, ?_⟩⟩
  rw [← h.sameWords.build_eq, ha]

/-! ### Groups -/

/-- A text `s` in parentheses. -/
def grouped (s : String) : String :=
  "(" ++ s ++ ")"

/-- The characters of `grouped s`. -/
@[simp]
theorem toList_grouped (s : String) : (grouped s).toList = '(' :: (s.toList ++ [')']) := by
  simp [grouped]

/-- Two texts `s` and `t` have the same automaton, as long as there are offsets for their ends. -/
def SameAutomaton (s t : String) : Prop :=
  s.utf8ByteSize < Offset.bound → t.utf8ByteSize < Offset.bound →
    ∃ a, compile s = .ok a ∧ compile t = .ok a

namespace Derives

/-- A choice `s` in parentheses is a repetition. -/
theorem toList_group (h : Derives .choice s.toList r) :
    Derives .repetition (grouped s).toList r := by
  rw [toList_grouped]
  exact .once (.group h)

/-- A repetition is a choice. -/
theorem of_repetition (h : Derives .repetition s.toList r) : Derives .choice s.toList r :=
  .only (.single h)

/-- A repetition `s` with a star behind it is a repetition. -/
theorem toList_star (h : Derives .repetition s.toList r) :
    Derives .repetition (s ++ "*").toList (.star r) := by
  rw [String.toList_append]
  exact .star h

/-- Two repetitions `s` and `t` in a row are a choice. -/
theorem toList_append (hs : Derives .repetition s.toList r)
    (ht : Derives .repetition t.toList r') : Derives .choice (s ++ t).toList (.cat r r') := by
  rw [String.toList_append]
  exact .only (.append (.single hs) ht)

/-- Two repetitions `s` and `t` with a bar between them are a choice. -/
theorem toList_bar (hs : Derives .repetition s.toList r) (ht : Derives .repetition t.toList r') :
    Derives .choice (s ++ "|" ++ t).toList (.alt r r') := by
  rw [String.toList_append, String.toList_append, List.append_assoc]
  exact .bar hs.of_repetition (.single ht)

end Derives

/-- A text that is compiled and not empty derives from the grammar. -/
theorem exists_derives_of_compile_eq_ok (hne : s ≠ "") (h : ∃ a, compile s = .ok a) :
    ∃ r, Derives .choice s.toList r :=
  (eq_empty_or_derives_of_compile_eq_ok h).resolve_left hne

/-- Rearranged expressions, written as `s` and `t`, have the same automaton in place of a group
between `pre` and `post`. -/
theorem sameAutomaton_of_rearranged {re rp : Regex Char}
    (hplace : Derives .choice (pre ++ grouped e ++ post).toList rp)
    (he : Derives .choice e.toList re) (hs : Derives .choice s.toList r)
    (ht : Derives .choice t.toList r') (h : r.Rearranges r') :
    SameAutomaton (pre ++ grouped s ++ post) (pre ++ grouped t ++ post) := by
  have htext (x : String) : (pre ++ grouped x ++ post).toList =
      pre.toList ++ '(' :: (x.toList ++ ')' :: post.toList) := by
    simp
  rw [htext] at hplace
  obtain ⟨rs, hrs, -⟩ := Derives.exists_replaced Regex.isCongruence_rearranges he hs hplace
  obtain ⟨rt, hrt, hrearranges⟩ :=
    Derives.exists_replaced Regex.isCongruence_rearranges hs ht hrs
  rw [← htext] at hrs hrt
  exact compile_eq_of_rearranges hrs hrt (hrearranges h)

/-- In place of a group of a text that is compiled, the following texts have the same automaton:
concatenations and choices however they are grouped, an expression with and without parentheses
around it, a repetition and a repetition of it, and in a repetition the concatenation of two
repetitions and the choice. -/
theorem sameAutomaton_of_laws (hne : e ≠ "" ∧ f ≠ "" ∧ g ≠ "") (he : ∃ a, compile e = .ok a)
    (hf : ∃ a, compile f = .ok a) (hg : ∃ a, compile g = .ok a)
    (hplace : ∃ a, compile (pre ++ grouped e ++ post) = .ok a) :
    let place (x : String) := pre ++ grouped x ++ post
    SameAutomaton (place (grouped e ++ grouped (grouped f ++ grouped g)))
        (place (grouped (grouped e ++ grouped f) ++ grouped g)) ∧
      SameAutomaton (place (grouped e ++ "|" ++ grouped (grouped f ++ "|" ++ grouped g)))
        (place (grouped (grouped e ++ "|" ++ grouped f) ++ "|" ++ grouped g)) ∧
      SameAutomaton (place (grouped (grouped e))) (place e) ∧
      SameAutomaton (place (grouped e ++ "*" ++ "*")) (place (grouped e ++ "*")) ∧
      SameAutomaton (place (grouped (grouped e ++ "*" ++ (grouped f ++ "*")) ++ "*"))
        (place (grouped (grouped e ++ "|" ++ grouped f) ++ "*")) := by
  obtain ⟨re, hre⟩ := exists_derives_of_compile_eq_ok hne.1 he
  obtain ⟨rf, hrf⟩ := exists_derives_of_compile_eq_ok hne.2.1 hf
  obtain ⟨rg, hrg⟩ := exists_derives_of_compile_eq_ok hne.2.2 hg
  obtain ⟨rp, hrp⟩ := exists_derives_of_compile_eq_ok (by simp [grouped]) hplace
  intro place
  have hge := hre.toList_group
  have hgf := hrf.toList_group
  have hgg := hrg.toList_group
  refine ⟨?_, ?_, ?_, ?_, ?_⟩
  · exact sameAutomaton_of_rearranged hrp hre
      (hge.toList_append (hgf.toList_append hgg).toList_group)
      ((hge.toList_append hgf).toList_group.toList_append hgg) (.catAssoc re rf rg)
  · exact sameAutomaton_of_rearranged hrp hre (hge.toList_bar (hgf.toList_bar hgg).toList_group)
      ((hge.toList_bar hgf).toList_group.toList_bar hgg) (.altAssoc re rf rg)
  · exact sameAutomaton_of_rearranged hrp hre hge.of_repetition.toList_group.of_repetition hre
      (.refl re)
  · exact sameAutomaton_of_rearranged hrp hre hge.toList_star.toList_star.of_repetition
      hge.toList_star.of_repetition (.starStar re)
  · exact sameAutomaton_of_rearranged hrp hre
      (hge.toList_star.toList_append hgf.toList_star).toList_group.toList_star.of_repetition
      (hge.toList_bar hgf).toList_group.toList_star.of_repetition (.starCat re rf)

/-- The laws for `a|b`, `c*` and `d` in `x((a|b))*y`. -/
theorem sameAutomaton_inside_repeated_group :
    (∃ a, compile "x(((a|b)((c*)(d))))*y" = .ok a ∧ compile "x((((a|b)(c*))(d)))*y" = .ok a) ∧
      ∃ a, compile "x((((a|b)*(c*)*)*))*y" = .ok a ∧ compile "x((((a|b)|(c*))*))*y" = .ok a := by
  have he : ∃ a, compile "a|b" = .ok a :=
    exists_compile_eq_ok_iff.2 ⟨_, _, _, _, rfl, rfl, rfl, rfl⟩
  have hf : ∃ a, compile "c*" = .ok a :=
    exists_compile_eq_ok_iff.2 ⟨_, _, _, _, rfl, rfl, rfl, rfl⟩
  have hg : ∃ a, compile "d" = .ok a :=
    exists_compile_eq_ok_iff.2 ⟨_, _, _, _, rfl, rfl, rfl, rfl⟩
  have hplace : ∃ a, compile ("x(" ++ grouped "a|b" ++ ")*y") = .ok a :=
    exists_compile_eq_ok_iff.2 ⟨_, _, _, _, rfl, rfl, rfl, rfl⟩
  obtain ⟨hcat, -, -, -, hstar⟩ := sameAutomaton_of_laws (by decide) he hf hg hplace
  exact ⟨hcat (by decide) (by decide), hstar (by decide) (by decide)⟩

end PositionAutomaton
