/-!
# Offsets

Places in the text of an expression, counted in bytes of its UTF-8 form. An offset that is
computed from another one has to fit into 64 bits.
-/

namespace PositionAutomaton

/-- A place in a text, as the number of bytes before it. -/
structure Offset where
  /-- The number of bytes before the place. -/
  bytes : Nat := 0
  deriving DecidableEq, Inhabited

namespace Offset

/-- The first number of bytes that no offset can have. -/
def bound : Nat := UInt64.size

/-- The offset `bytes` bytes behind `o`, if it is below the `bound`. -/
def advance? (o : Offset) (bytes : Nat) : Option Offset :=
  if o.bytes + bytes < bound then some ⟨o.bytes + bytes⟩ else none

/-- The number of bytes in decimal, after the word `offset`. -/
def text (o : Offset) : String :=
  "offset " ++ toString o.bytes

/-- Offsets are ordered by their numbers of bytes. -/
instance : Ord Offset :=
  ⟨fun o p => compare o.bytes p.bytes⟩

end Offset

end PositionAutomaton
