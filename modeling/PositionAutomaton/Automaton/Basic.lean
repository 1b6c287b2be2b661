import PositionAutomaton.PositionSet

/-!
# Automata over position sets

Deterministic finite automata whose states are sets of positions. The states that accept are
kept as a set of their own, `Automaton.accepting`, next to all `Automaton.states`. Transitions
are kept in the order of their source and, for one source, of their symbol.
-/

namespace PositionAutomaton

/-- A step from the state `source` to the state `target` on reading `symbol`. -/
structure Transition where
  /-- The state that is left. -/
  source : PositionSet
  /-- The symbol that is read. -/
  symbol : Char
  /-- The state that is entered. -/
  target : PositionSet
  deriving DecidableEq

namespace Transition

/-- Transitions are ordered by source, then by symbol, then by target. -/
instance : Ord Transition :=
  ⟨compareLex (compareOn source) (compareLex (compareOn symbol) (compareOn target))⟩

instance : Std.TransOrd Transition :=
  inferInstanceAs (Std.TransCmp (compareLex _ _))

instance : Std.LawfulEqOrd Transition where
  compare_self := Std.ReflCmp.compare_self
  eq_of_compare {s t} h := by
    obtain ⟨hsource, hrest⟩ := compareLex_eq_eq.1 h
    obtain ⟨hsymbol, htarget⟩ := compareLex_eq_eq.1 hrest
    cases s
    cases t
    congr
    · exact Std.LawfulEqOrd.eq_of_compare hsource
    · exact Std.LawfulEqOrd.eq_of_compare hsymbol
    · exact Std.LawfulEqOrd.eq_of_compare htarget

end Transition

/-- A deterministic finite automaton whose states are sets of positions. -/
structure Automaton where
  /-- The state before anything is read. -/
  start : PositionSet
  /-- The states. -/
  states : OrderedSet PositionSet
  /-- The states that accept. -/
  accepting : OrderedSet PositionSet
  /-- The transitions between states. -/
  transitions : OrderedSet Transition
  /-- The position of the end mark of the expression. -/
  endMark : Position
  /-- Whether upper case letters of a text are read as lower case ones. -/
  foldCase : Bool := false
  deriving DecidableEq

namespace Automaton

/-- Whether `state` is a state of the automaton `a` that accepts. -/
def isAccepting (a : Automaton) (state : PositionSet) : Bool :=
  a.accepting.contains state

/-- The state that is entered from `state` on reading `symbol`, if there is one. -/
def transition? (a : Automaton) (state : PositionSet) (symbol : Char) : Option PositionSet :=
  (a.transitions.find? fun t => (compare t.source state).then (compare t.symbol symbol)).map
    (·.target)

/-- The symbols that some transition of `a` reads. -/
def alphabet (a : Automaton) : OrderedSet Char :=
  .ofList (a.transitions.toList.map (·.symbol))

/-- The state after `word` from the start, if there is a transition for each of its symbols. -/
def run? (a : Automaton) (word : List Char) : Option PositionSet :=
  word.foldlM a.transition? a.start

/-- The word that `a` reads for `text`: its characters, in lower case if `a` folds case. -/
def input (a : Automaton) (text : String) : List Char :=
  if a.foldCase then text.toList.map Char.toLower else text.toList

/-- Whether `a` accepts `text`: reading its `input` ends in a state that accepts. -/
def accepts (a : Automaton) (text : String) : Bool :=
  (a.run? (a.input text)).any a.isAccepting

end Automaton

end PositionAutomaton
