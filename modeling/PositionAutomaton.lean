import PositionAutomaton.OrderedSet.Basic
import PositionAutomaton.OrderedSet.Lemmas
import PositionAutomaton.Position
import PositionAutomaton.PositionSet
import PositionAutomaton.Offset
import PositionAutomaton.Error
import PositionAutomaton.Token.Basic
import PositionAutomaton.Token.Lexer
import PositionAutomaton.Token.Explicit
import PositionAutomaton.Postfix
import PositionAutomaton.Regex.Basic
import PositionAutomaton.Regex.Language
import PositionAutomaton.Regex.Grammar
import PositionAutomaton.Expression
import PositionAutomaton.Boundary
import PositionAutomaton.NodeTable
import PositionAutomaton.FollowTable
import PositionAutomaton.Automaton.Basic
import PositionAutomaton.Trace
import PositionAutomaton.Automaton.Construction
import PositionAutomaton.Options
import PositionAutomaton.Proofs.Cuts
import PositionAutomaton.Proofs.OrderedSet
import PositionAutomaton.Proofs.PositionSet
import PositionAutomaton.Proofs.Boundary
import PositionAutomaton.Proofs.NodeTable
import PositionAutomaton.Proofs.FollowTable
import PositionAutomaton.Proofs.Automaton.Moves
import PositionAutomaton.Proofs.Automaton.Exploration
import PositionAutomaton.Proofs.Automaton.Queue
import PositionAutomaton.Proofs.Automaton.Reachability
import PositionAutomaton.Proofs.Automaton.Reading
import PositionAutomaton.Proofs.Expression.Assembly
import PositionAutomaton.Proofs.Expression.Table
import PositionAutomaton.Proofs.Expression.Words
import PositionAutomaton.Proofs.Expression.Range
import PositionAutomaton.Proofs.Postfix.Yard
import PositionAutomaton.Proofs.Token.Explicit
import PositionAutomaton.Proofs.Token.Lexer
import PositionAutomaton.Proofs.Postfix.Phrases
import PositionAutomaton.Proofs.Compilation.Tree
import PositionAutomaton.Proofs.Regex.Rearrangement
import PositionAutomaton.Proofs.Compilation.Replacement
import PositionAutomaton.Proofs.Automaton.SameWords
import PositionAutomaton.Proofs.Compilation.Rearrangement
import PositionAutomaton.Proofs.Token.Balance
import PositionAutomaton.Proofs.Postfix.Balance
import PositionAutomaton.Proofs.Compilation.Stages
import PositionAutomaton.Proofs.Compilation.Acceptance
import PositionAutomaton.Proofs.Compilation.Language
import PositionAutomaton.Proofs.Compilation.Limit
import PositionAutomaton.Proofs.Compilation.Range
import PositionAutomaton.Proofs.Automaton.Limit
import PositionAutomaton.Proofs.Automaton.MissingRows
import PositionAutomaton.Proofs.Automaton.Closure
import PositionAutomaton.Proofs.Automaton.Trim
import PositionAutomaton.Proofs.Compilation.Trim
import PositionAutomaton.Proofs.Compilation.States
import PositionAutomaton.Proofs.Token.Parentheses
import PositionAutomaton.Proofs.Postfix.Groups
import PositionAutomaton.Proofs.Compilation.Errors
import PositionAutomaton.Proofs.Token.Gaps
import PositionAutomaton.Proofs.Postfix.Origins
import PositionAutomaton.Proofs.Token.Letters
import PositionAutomaton.Proofs.Expression.Letters
import PositionAutomaton.Proofs.Compilation.Case
import PositionAutomaton.Proofs.Postfix.Operands
import PositionAutomaton.Proofs.Compilation.MissingOperand
import PositionAutomaton.Proofs.Shortlex
import PositionAutomaton.Proofs.Automaton.Discovery
import PositionAutomaton.Proofs.Compilation.Discovery
import PositionAutomaton.Proofs.Postfix.Conservation
import PositionAutomaton.Proofs.Expression.Balance
import PositionAutomaton.Proofs.Regex.Commutation
import PositionAutomaton.Proofs.Automaton.Renaming
import PositionAutomaton.Proofs.Compilation.Commutation
import PositionAutomaton.Proofs.FollowTable.Order
import PositionAutomaton.Proofs.NodeTable.Blocks
import PositionAutomaton.Proofs.Expression.Shape
import PositionAutomaton.Proofs.Token.Insertion
import PositionAutomaton.Proofs.Expression.Source
import PositionAutomaton.Proofs.Compilation.Numbering
import PositionAutomaton.Proofs.Postfix.Waiting
import PositionAutomaton.Proofs.PositionSet.Text
import PositionAutomaton.Proofs.Message
