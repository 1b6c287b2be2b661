import PositionAutomaton.Offset
import PositionAutomaton.Position

/-!
# Errors

Why no automaton can be built, as causes. The wording of each cause is in
`Malformation.message` and `Error.message`.
-/

namespace PositionAutomaton

/-- What is wrong with an expression at a place. -/
inductive Malformation where
  /-- A character that no expression contains. -/
  | invalidCharacter (c : Char)
  /-- A character that is set aside for the end mark. -/
  | reservedCharacter (c : Char)
  /-- An opening parenthesis directly followed by a closing one. -/
  | emptyGroup
  /-- An operator with fewer operands than it takes. -/
  | missingOperand (operator : Char)
  /-- A parenthesis in a postfix sequence. -/
  | unexpectedToken (c : Char)
  /-- A sequence that leaves another number of operands than one. -/
  | danglingOperands (count : Nat)
  /-- A sequence without end mark. -/
  | missingEndMark
  /-- A sequence with a second end mark. -/
  | duplicateEndMark
  deriving DecidableEq

/-- What is wrong, in words. -/
def Malformation.message : Malformation → String
  | invalidCharacter c => "invalid character '" ++ c.toString ++ "'"
  | reservedCharacter c => "reserved character '" ++ c.toString ++ "'"
  | emptyGroup => "empty group"
  | missingOperand c => "operator '" ++ c.toString ++ "' is missing an operand"
  | unexpectedToken c => "unexpected '" ++ c.toString ++ "' in postfix sequence"
  | danglingOperands count => toString count ++ " expressions without an operator"
  | missingEndMark => "missing end marker"
  | duplicateEndMark => "more than one end marker"

/-- Why a construction failed. -/
inductive Error where
  /-- The expression is malformed at a place. -/
  | malformed (offset : Offset) (reason : Malformation)
  /-- A parenthesis has no partner. -/
  | unbalanced (offset : Offset)
  /-- The automaton has more states than allowed. -/
  | tooManyStates (limit : Nat)
  /-- The end of a token lies beyond the greatest offset. -/
  | offsetOverflow (offset : Offset)
  /-- A follow table lacks the row of a position that reads a symbol. -/
  | missingRow (position : Position)
  deriving DecidableEq

/-- Why a construction failed, in words. A malformation is worded by `Malformation.message`. -/
def Error.message : Error → String
  | malformed offset reason =>
    "Malformed regular expression at " ++ offset.text ++ ": " ++ reason.message ++ "."
  | unbalanced offset =>
    "Unbalanced parentheses in regular expression at " ++ offset.text ++ "."
  | tooManyStates limit => "The dfa requires more than " ++ toString limit ++ " states."
  | offsetOverflow offset => "No offset is left for the end of the token at " ++ offset.text ++ "."
  | missingRow position => "The follow table has no row for position " ++ position.text ++ "."

end PositionAutomaton
