import PositionAutomaton.Postfix
import PositionAutomaton.Regex.Basic

/-!
# Numbered expressions

A regular expression whose leaves are their positions, with the symbol that is read at
each position. One leaf is the end mark, at which nothing is read: a word of the expression
that stands before the end mark is a word that the user's expression matches.

`Expression.ofPostfix` puts the tree together from a postfix sequence, with the operands
that still lack their operator on a stack.
-/

namespace PositionAutomaton

/-- A regular expression with numbered leaves, one of them its end mark. -/
structure Expression where
  /-- The tree over the positions. -/
  tree : Regex Position
  /-- What is read at each position: a letter, or nothing at the end mark. -/
  symbols : Array (Option Char)
  /-- The position of the end mark. -/
  endMark : Position
  deriving DecidableEq

namespace Expression

/-- The number of positions of `e`. -/
def positionCount (e : Expression) : Nat :=
  e.symbols.size

/-- The letter that is read at `p`. There is none at the end mark, nor at positions that `e` does
not have. -/
def symbol? (e : Expression) (p : Position) : Option Char :=
  e.symbols[p.index]?.join

/-- What is put together from the start of a postfix sequence. -/
structure Assembly where
  /-- The operands that still lack their operator, the last one first. -/
  operands : List (Regex Position) := []
  /-- What is read at the positions given so far. -/
  symbols : Array (Option Char) := #[]
  /-- The position of the end mark, once there is one. -/
  endMark : Option Position := none

namespace Assembly

/-- The position of the next leaf, behind those given so far. -/
def next (a : Assembly) : Position :=
  Position.ofIndex a.symbols.size

/-- Adds a leaf at which `symbol` is read. -/
def push (a : Assembly) (symbol : Option Char) : Assembly :=
  { a with
    operands := .leaf a.next :: a.operands
    symbols := a.symbols.push symbol }

/-- Applies a repetition, whose token is `t`, to the last operand. -/
def star (a : Assembly) (t : Token) : Except Error Assembly :=
  match a.operands with
  | r :: rest => .ok { a with operands := .star r :: rest }
  | [] => .error (.malformed t.offset (.missingOperand t.value))

/-- Applies the operator `op`, whose token is `t`, to the last two operands. -/
def join (a : Assembly) (op : Regex Position → Regex Position → Regex Position) (t : Token) :
    Except Error Assembly :=
  match a.operands with
  | r :: l :: rest => .ok { a with operands := op l r :: rest }
  | _ => .error (.malformed t.offset (.missingOperand t.value))

/-- Adds the end mark, of which there may be only one. A second one is reported at `t`. -/
def finish (a : Assembly) (t : Token) : Except Error Assembly :=
  match a.endMark with
  | some _ => .error (.malformed t.offset .duplicateEndMark)
  | none => .ok { a.push none with endMark := some a.next }

/-- Takes in `t` as the next token of the sequence. -/
def step (a : Assembly) (t : Token) : Except Error Assembly :=
  match t.kind with
  | .letter => .ok (a.push (some t.value))
  | .endMark => a.finish t
  | .star => a.star t
  | .bar => a.join .alt t
  | .concat => a.join .cat t
  | .opening | .closing => .error (.malformed t.offset (.unexpectedToken t.value))

/-- What is put together from `tokens`, one after the other. -/
def run (tokens : List Token) : Except Error Assembly :=
  tokens.foldlM step {}

/-- The expression, if one operand is left and there is an end mark. Complaints are about
the place `last`. -/
def result (a : Assembly) (last : Offset) : Except Error Expression :=
  match a.operands, a.endMark with
  | [tree], some endMark => .ok ⟨tree, a.symbols, endMark⟩
  | [_], none => .error (.malformed last .missingEndMark)
  | operands, _ => .error (.malformed last (.danglingOperands operands.length))

end Assembly

/-- The expression that the postfix sequence `p` stands for, its leaves numbered from the left. -/
def ofPostfix (p : Postfix) : Except Error Expression := do
  let a ← Assembly.run p.tokens
  a.result (p.tokens.getLast?.elim {} (·.offset))

end Expression

end PositionAutomaton
