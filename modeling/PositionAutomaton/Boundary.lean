import PositionAutomaton.PositionSet
import PositionAutomaton.Regex.Basic

/-!
# Boundaries

The boundary of a numbered expression says how its words begin and end: whether the empty
word is one, and at which positions the others start and stop. It is found from the
boundaries of the operands.
-/

namespace PositionAutomaton

/-- How the words of an expression over positions begin and end. -/
structure Boundary where
  /-- Whether the empty word is a word of the expression. -/
  nullable : Bool
  /-- The positions that words start with. -/
  first : PositionSet
  /-- The positions that words end with. -/
  last : PositionSet
  deriving DecidableEq

namespace Boundary

/-- The boundary of a leaf, whose only word is `p`. -/
def leaf (p : Position) : Boundary :=
  ⟨false, .singleton p, .singleton p⟩

/-- The boundary of a repetition, where `b` is that of its operand. -/
def star (b : Boundary) : Boundary :=
  { b with nullable := true }

/-- The boundary of a choice, where `b` and `c` are those of its operands. -/
def alt (b c : Boundary) : Boundary :=
  ⟨b.nullable || c.nullable, b.first.union c.first, b.last.union c.last⟩

/-- The boundary of a concatenation, where `b` and `c` are those of its operands. Words start in the
right operand where `b` is nullable, and end in the left operand where `c` is. -/
def cat (b c : Boundary) : Boundary where
  nullable := b.nullable && c.nullable
  first := if b.nullable then b.first.union c.first else b.first
  last := if c.nullable then b.last.union c.last else c.last

end Boundary

/-- The boundary of an expression over positions. -/
def Regex.boundary : Regex Position → Boundary
  | leaf p => .leaf p
  | star r => r.boundary.star
  | alt l r => l.boundary.alt r.boundary
  | cat l r => l.boundary.cat r.boundary

end PositionAutomaton
