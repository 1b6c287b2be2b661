import PositionAutomaton.Offset

/-!
# Tokens

The symbols that expressions are written in, with the places they come from. Besides what
a user writes there are two tokens that only sequences made from an expression hold: the
concatenation between neighbouring operands, and the mark at the end.
-/

namespace PositionAutomaton

/-- What a token stands for. -/
inductive Kind where
  /-- A letter, which reads itself. -/
  | letter
  /-- The start of a group. -/
  | opening
  /-- The end of a group. -/
  | closing
  /-- Any number of repetitions of the operand before it. -/
  | star
  /-- The choice between the operands on both sides. -/
  | bar
  /-- The concatenation before the operand that starts at `offset`. -/
  | concat
  /-- The end mark at `offset`. -/
  | endMark
  deriving DecidableEq

namespace Kind

/-- How tightly an operator binds; other tokens have no precedence. -/
def precedence? : Kind → Option Nat
  | star => some 3
  | concat => some 2
  | bar => some 1
  | letter | opening | closing | endMark => none

/-- Whether an operand can end in a token of this kind. -/
def endsOperand : Kind → Bool
  | letter | star | closing => true
  | opening | bar | concat | endMark => false

/-- Whether an operand can start with a token of this kind. -/
def startsOperand : Kind → Bool
  | letter | opening => true
  | closing | star | bar | concat | endMark => false

end Kind

/-- A symbol of an expression. -/
structure Token where
  /-- What the token stands for. -/
  kind : Kind
  /-- The character it is written as. -/
  value : Char
  /-- The place it comes from. -/
  offset : Offset
  deriving DecidableEq

namespace Token

/-- The character a concatenation is written as. -/
def concatSign : Char := '.'

/-- The character the end mark is written as. -/
def endSign : Char := '#'

/-- The concatenation before the operand at a place. -/
def concat (offset : Offset) : Token :=
  ⟨.concat, concatSign, offset⟩

/-- The end mark at a place. -/
def endMark (offset : Offset) : Token :=
  ⟨.endMark, endSign, offset⟩

/-- The characters of `tokens`, one after the other. -/
def render (tokens : List Token) : String :=
  String.ofList (tokens.map value)

end Token

end PositionAutomaton
