import PositionAutomaton.Automaton.Basic
import PositionAutomaton.FollowTable
import PositionAutomaton.Trace

/-!
# Construction of automata

The automaton of an expression is found from its follow table, breadth first. It starts in
the positions that words of the expression start with. A state goes, on a symbol, to the
positions that may follow those of its positions at which the symbol is read; where nothing
follows, there is no transition.

The follow table may be that of another expression. A position at which a letter is read
then may lack a row, which ends the construction.
-/

namespace PositionAutomaton

namespace Expression

/-- The positions that words of `e` start with. -/
def start (e : Expression) : PositionSet :=
  e.tree.boundary.first

/-- The letters that are read at positions of `state`. -/
def letters (e : Expression) (state : PositionSet) : OrderedSet Char :=
  .ofList (state.toList.filterMap e.symbol?)

end Expression

namespace Automaton

variable (e : Expression) (follow : FollowTable) (limit : Option Nat)

/-- The positions that may follow those of `state` at which `symbol` is read. -/
def step (state : PositionSet) (symbol : Char) : PositionSet :=
  (state.toList.filter fun p => e.symbol? p = some symbol).foldl
    (fun target p => target.absorb ((follow.row? p).getD .empty)) .empty

/-- The first position of `state` at which a letter is read and that has no row in `follow`. -/
def missing? (state : PositionSet) : Option Position :=
  state.toList.find? fun p => (e.symbol? p).isSome && (follow.row? p).isNone

/-- The letters on which `state` goes on, each with the state that is entered. It is an error if the
row of a position that reads a letter is missing. -/
def moves (state : PositionSet) : Except Error (List (Char × PositionSet)) :=
  match missing? e follow state with
  | some p => .error (.missingRow p)
  | none =>
    .ok (((e.letters state).toList.map fun c => (c, step e follow state c)).filter
      fun move => !move.2.isEmpty)

/-- What has been found of an automaton. -/
structure Exploration where
  /-- The states, in the order in which they were found. -/
  found : Array PositionSet := #[]
  /-- The states that accept, in the order in which they were found. -/
  accepting : Array PositionSet := #[]
  /-- The transitions, in the order in which they were found. -/
  edges : Array Transition := #[]

/-- What has been found, with the new state `state` besides. It accepts if the end mark is one
of its positions. -/
def Exploration.push (x : Exploration) (state : PositionSet) : Exploration :=
  { x with
    found := x.found.push state
    accepting := if state.contains e.endMark then x.accepting.push state else x.accepting }

/-- Takes note of `state`, unless it was found before or is one too many. -/
def discover (x : Exploration) (state : PositionSet) : Traced Exploration :=
  if x.found.contains state then pure x
  else
    match limit.filter (· ≤ x.found.size) with
    | some n => .fail (.tooManyStates n)
    | none => do
      .emit (.newState state)
      return x.push e state

/-- Takes note of the transition from `source` that `move` gives, and of the state that it
enters. -/
def cross (source : PositionSet) (x : Exploration) (move : Char × PositionSet) :
    Traced Exploration := do
  let next ← discover e limit x move.2
  .emit (.transition ⟨source, move.1, move.2⟩)
  return { next with edges := next.edges.push ⟨source, move.1, move.2⟩ }

/-- Takes note of all transitions from `state`, in the order of their letters. -/
def visit (x : Exploration) (state : PositionSet) : Traced Exploration := do
  let out ← .ofExcept (moves e follow state)
  out.foldlM (cross e limit state) x

/-- Visits up to `count` states, in the order in which they were found, from the one with
index `next` on. -/
def explore : (count : Nat) → (next : Nat) → Exploration → Traced Exploration
  | 0, _, x => pure x
  | count + 1, next, x =>
    match x.found[next]? with
    | none => pure x
    | some state => do
      let y ← visit e follow limit x state
      explore count (next + 1) y

/-- What is found from `e.start`. Every state but the start belongs to a set of positions at which
one letter is read, so that there are at most as many states as sets of positions. -/
def exploration : Traced Exploration := do
  let x ← discover e limit {} e.start
  explore e follow limit (Nat.pow 2 e.positionCount) 0 x

/-- The automaton of what was found in `x`. -/
def ofExploration (x : Exploration) : Automaton where
  start := e.start
  states := .ofList x.found.toList
  accepting := .ofList x.accepting.toList
  transitions := .ofList x.edges.toList
  endMark := e.endMark

/-- The automaton of the expression `e` and the table `follow`, if it has at most `limit` states. -/
def build : Traced Automaton := do
  let x ← exploration e follow limit
  let a := ofExploration e x
  .emit (.summary a.states.size a.accepting.size a.transitions.size)
  return a

end Automaton

end PositionAutomaton
