import PositionAutomaton.Regex.Basic

/-!
# The grammar of expressions

How a text is read as a regular expression. A choice is made of sequences, a sequence of
repetitions, and a repetition is an atom with stars behind it; an atom is a letter or a
choice in parentheses. Choices and sequences group from the left.
-/

namespace PositionAutomaton

/-- The kinds of phrases that a text is made of. -/
inductive Phrase where
  /-- Sequences with bars between them. -/
  | choice
  /-- Repetitions side by side. -/
  | sequence
  /-- An atom with any number of stars. -/
  | repetition
  /-- A letter or a group. -/
  | atom

/-- `Derives k cs r` says that the characters `cs` are a phrase of kind `k`, which is read as
the expression `r`. -/
inductive Derives : Phrase → List Char → Regex Char → Prop where
  /-- A letter of ASCII reads itself. -/
  | letter {c : Char} : c.isAlpha = true → Derives .atom [c] (.leaf c)
  /-- Parentheses make an atom of a choice. -/
  | group {cs : List Char} {r : Regex Char} :
      Derives .choice cs r → Derives .atom ('(' :: cs ++ [')']) r
  /-- An atom is a repetition. -/
  | once {cs : List Char} {r : Regex Char} : Derives .atom cs r → Derives .repetition cs r
  /-- A star repeats what stands before it. -/
  | star {cs : List Char} {r : Regex Char} :
      Derives .repetition cs r → Derives .repetition (cs ++ ['*']) (.star r)
  /-- A repetition is a sequence. -/
  | single {cs : List Char} {r : Regex Char} :
      Derives .repetition cs r → Derives .sequence cs r
  /-- A repetition behind a sequence is concatenated with it. -/
  | append {cs ds : List Char} {l r : Regex Char} :
      Derives .sequence cs l → Derives .repetition ds r → Derives .sequence (cs ++ ds) (.cat l r)
  /-- A sequence is a choice. -/
  | only {cs : List Char} {r : Regex Char} : Derives .sequence cs r → Derives .choice cs r
  /-- A bar chooses between the choice before it and the sequence behind it. -/
  | bar {cs ds : List Char} {l r : Regex Char} :
      Derives .choice cs l → Derives .sequence ds r →
        Derives .choice (cs ++ '|' :: ds) (.alt l r)

end PositionAutomaton
