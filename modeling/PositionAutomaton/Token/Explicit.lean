import PositionAutomaton.Error
import PositionAutomaton.Token.Basic

/-!
# Explicit sequences

In an expression, operands that stand side by side are concatenated. A sequence of tokens
is made explicit by a concatenation between such operands and a mark at its end.
-/

namespace PositionAutomaton

namespace Token

/-- Between the neighbours `s` and `t` one operand ends and the next one starts. -/
def Adjoins (s t : Token) : Prop :=
  s.kind.endsOperand = true ∧ t.kind.startsOperand = true

instance (s t : Token) : Decidable (Adjoins s t) :=
  inferInstanceAs (Decidable (_ ∧ _))

/-- A sequence with a concatenation between neighbouring operands, at the place of the
second one. -/
def withConcats : List Token → List Token
  | [] => []
  | [t] => [t]
  | s :: t :: ts =>
    if Adjoins s t then s :: concat t.offset :: withConcats (t :: ts)
    else s :: withConcats (t :: ts)

/-- The place behind the last of `tokens`, unless there is no offset left for it. -/
def endOffset (tokens : List Token) : Except Error Offset :=
  match tokens.getLast? with
  | none => .ok {}
  | some t =>
    match t.offset.advance? t.value.utf8Size with
    | some offset => .ok offset
    | none => .error (.offsetOverflow t.offset)

/-- The sequence `tokens` with its concatenations and its end mark. -/
def explicit (tokens : List Token) : Except Error (List Token) := do
  let offset ← endOffset tokens
  return withConcats tokens ++ [endMark offset]

end Token

end PositionAutomaton
