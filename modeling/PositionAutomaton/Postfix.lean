import PositionAutomaton.Error
import PositionAutomaton.Token.Basic

/-!
# Postfix sequences

A sequence of tokens in which every operator stands behind its operands, so that no
parentheses are needed. `Postfix.ofTokens` finds it in one pass, in which the operators
wait on a stack, the yard, until an operator that binds less tightly, the end of their
group or the end of the sequence sends them on.

Only the nesting of the parentheses is checked here. Whether each operator has its
operands is found when an expression is put together from the sequence.
-/

namespace PositionAutomaton

/-- A sequence of tokens with the operators behind their operands. -/
structure Postfix where
  /-- The tokens of the sequence. -/
  tokens : List Token
  deriving DecidableEq

namespace Postfix

/-- The characters of the tokens of `p`, one after the other. -/
def text (p : Postfix) : String :=
  Token.render p.tokens

/-- The yard: what the conversion of a sequence to postfix order holds between two
tokens. -/
structure Yard where
  /-- The tokens that are in their place. -/
  output : Array Token := #[]
  /-- The operators and open groups that wait, the last one first. -/
  waiting : List Token := []
  /-- The kind of the last token that was read. -/
  previous : Option Kind := none

namespace Yard

/-- Puts `t` in its place, behind the other output. -/
def emit (y : Yard) (t : Token) : Yard :=
  { y with output := y.output.push t }

/-- Lets `t` wait, in front of the other waiting tokens. -/
def hold (y : Yard) (t : Token) : Yard :=
  { y with waiting := t :: y.waiting }

/-- Whether the waiting token `t` goes before an operator of the kind `kind`: it is an operator that
binds at least as tightly. -/
def precedes (kind : Kind) (t : Token) : Bool :=
  match t.kind.precedence?, kind.precedence? with
  | some p, some q => decide (q ≤ p)
  | _, _ => false

/-- Sends on the operators that `precedes` lets go before an operator of the kind `kind`. -/
def release (y : Yard) (kind : Kind) : Yard :=
  { y with
    output := y.output ++ y.waiting.takeWhile (precedes kind)
    waiting := y.waiting.dropWhile (precedes kind) }

/-- Sends on the operators of the innermost open group, which `t` closes. -/
def closeGroup (y : Yard) (t : Token) : Except Error Yard :=
  match y.waiting.dropWhile (·.kind ≠ .opening) with
  | [] => .error (.unbalanced t.offset)
  | _ :: outer =>
    .ok { y with
      output := y.output ++ y.waiting.takeWhile (·.kind ≠ .opening)
      waiting := outer }

/-- Sends on all operators; no group may be open. -/
def flush (y : Yard) : Except Error Yard :=
  match y.waiting.find? (·.kind = .opening) with
  | some group => .error (.unbalanced group.offset)
  | none => .ok { y with output := y.output ++ y.waiting, waiting := [] }

/-- Puts the end mark `t` in its place, and behind it the concatenation with what it ends, if there
is something. -/
def close (y : Yard) (t : Token) : Yard :=
  if y.output.isEmpty then y.emit t else (y.emit t).emit (Token.concat t.offset)

/-- Takes `t` in, according to its kind. -/
def accept (y : Yard) (t : Token) : Except Error Yard :=
  match t.kind with
  | .letter | .star => .ok (y.emit t)
  | .opening => .ok (y.hold t)
  | .closing =>
    if y.previous = some .opening then .error (.malformed t.offset .emptyGroup)
    else y.closeGroup t
  | .bar | .concat => .ok ((y.release t.kind).hold t)
  | .endMark => do
    let flushed ← y.flush
    return flushed.close t

/-- Reads `t` as the next token. -/
def step (y : Yard) (t : Token) : Except Error Yard := do
  let next ← y.accept t
  return { next with previous := some t.kind }

/-- The yard after all of `tokens` are read. -/
def run (tokens : List Token) : Except Error Yard :=
  tokens.foldlM step {}

end Yard

/-- The sequence `tokens` in postfix order. Every end mark that stands behind other tokens is
concatenated with them. -/
def ofTokens (tokens : List Token) : Except Error Postfix := do
  let y ← Yard.run tokens
  let flushed ← y.flush
  return ⟨flushed.output.toList⟩

end Postfix

end PositionAutomaton
