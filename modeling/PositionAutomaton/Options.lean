import PositionAutomaton.Automaton.Construction
import PositionAutomaton.Token.Explicit
import PositionAutomaton.Token.Lexer

/-!
# Compilation

From the text of an expression to its automaton: `Expression.traceOfText` finds the numbered
expression, and `Options.trace` builds the automaton from it.
-/

namespace PositionAutomaton

namespace Expression

/-- The numbered expression of the text `s`, with the events of the stages that find it. -/
def traceOfText (foldCase : Bool) (s : String) : Traced Expression := do
  let letters ← .ofExcept (Token.scan foldCase s)
  let tokens ← .ofExcept (Token.explicit letters)
  let form ← .ofExcept (Postfix.ofTokens tokens)
  .emit (.postfixForm s form)
  let e ← .ofExcept (ofPostfix form)
  .emit (.positionCount s e.positionCount)
  return e

/-- The numbered expression of the text `s`. -/
def ofText (foldCase : Bool) (s : String) : Except Error Expression :=
  (traceOfText foldCase s).outcome

end Expression

/-- How an expression is compiled. -/
structure Options where
  /-- Whether upper and lower case letters are the same. -/
  foldCase : Bool := false
  /-- The greatest number of states, if there is one. -/
  stateLimit : Option Nat := none
  deriving DecidableEq

namespace Options

/-- The automaton of `expression` under the options `o`, with the events of the stages and of the
construction. -/
def trace (o : Options) (expression : String) : Traced Automaton := do
  let e ← Expression.traceOfText o.foldCase expression
  let a ← Automaton.build e (.ofExpression e) o.stateLimit
  return { a with foldCase := o.foldCase }

/-- The automaton of `expression` under the options `o`. -/
def compile (o : Options) (expression : String) : Except Error Automaton :=
  (o.trace expression).outcome

end Options

/-- The automaton of `expression`, with upper and lower case letters apart and without a bound on
the number of states. -/
def compile (expression : String) : Except Error Automaton :=
  Options.compile {} expression

end PositionAutomaton
