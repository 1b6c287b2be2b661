/-!
# Regular expressions

Regular expressions as trees, over leaves of any type: the characters that a user writes,
or the positions that number them.
-/

namespace PositionAutomaton

/-- A regular expression with leaves of type `α`. -/
inductive Regex (α : Type) where
  /-- Reads one symbol. -/
  | leaf (a : α)
  /-- Any number of repetitions. -/
  | star (inner : Regex α)
  /-- Either of two expressions. -/
  | alt (left right : Regex α)
  /-- One expression after the other. -/
  | cat (left right : Regex α)
  deriving DecidableEq

namespace Regex

variable {α β : Type}

/-- The leaves of an expression, from left to right. -/
def leaves : Regex α → List α
  | leaf a => [a]
  | star r => r.leaves
  | alt l r => l.leaves ++ r.leaves
  | cat l r => l.leaves ++ r.leaves

/-- The expression with `f a` for every leaf `a`. -/
def map (f : α → β) : Regex α → Regex β
  | leaf a => leaf (f a)
  | star r => star (r.map f)
  | alt l r => alt (l.map f) (r.map f)
  | cat l r => cat (l.map f) (r.map f)

/-- Replacing every leaf by itself changes nothing. -/
@[simp]
theorem map_id (r : Regex α) : r.map (fun a => a) = r := by
  induction r with
  | leaf a => rfl
  | star r ih => rw [map, ih]
  | alt l r ihl ihr => rw [map, ihl, ihr]
  | cat l r ihl ihr => rw [map, ihl, ihr]

/-- If `f` takes different leaves to different ones, expressions that `map f` makes equal are
equal. -/
theorem map_injective {f : α → β} (hf : ∀ a b, f a = f b → a = b) {r s : Regex α}
    (h : r.map f = s.map f) : r = s := by
  induction r generalizing s with
  | leaf a =>
    cases s with
    | leaf b => exact congrArg leaf (hf a b (leaf.inj h))
    | star | alt | cat => cases h
  | star r ih =>
    cases s with
    | star s => exact congrArg star (ih (star.inj h))
    | leaf | alt | cat => cases h
  | alt l r ihl ihr =>
    cases s with
    | alt l' r' => rw [ihl (alt.inj h).1, ihr (alt.inj h).2]
    | leaf | star | cat => cases h
  | cat l r ihl ihr =>
    cases s with
    | cat l' r' => rw [ihl (cat.inj h).1, ihr (cat.inj h).2]
    | leaf | star | alt => cases h

end Regex

end PositionAutomaton
