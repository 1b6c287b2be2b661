import PositionAutomaton.Proofs.Automaton.Moves

/-!
# Expressions with the same words

The automaton of an expression depends on its tree through the words of the tree alone: two numbered
expressions with the same symbols, the same end mark and the same words have the same start
(`SameWords.start_eq`), the same follow table (`SameWords.ofExpression_eq`) and thus the same
automaton, whatever the bound on the number of states (`SameWords.build_eq`).
-/

namespace PositionAutomaton

namespace Expression

/-- The numbered expressions `e` and `f` differ in the form of their trees only. -/
structure SameWords (e f : Expression) : Prop where
  /-- The same is read at each position. -/
  symbols_eq : e.symbols = f.symbols
  /-- The same position is the end mark. -/
  endMark_eq : e.endMark = f.endMark
  /-- The trees have the same words. -/
  matches_iff : ∀ w, e.tree.Matches w ↔ f.tree.Matches w

namespace SameWords

variable {e f : Expression} (h : e.SameWords f)
include h

/-- There are as many positions. -/
theorem positionCount_eq : e.positionCount = f.positionCount :=
  congrArg Array.size h.symbols_eq

/-- The same symbol is read at a position. -/
theorem symbol?_eq : e.symbol? = f.symbol? := by
  funext p
  rw [symbol?, symbol?, h.symbols_eq]

/-- The words of `e` and `f` start with the same positions. -/
theorem start_eq : e.start = f.start := by
  ext p
  simp only [start, Regex.mem_first_boundary_iff, Regex.Starts, h.matches_iff]

/-- The same positions may come behind each other in `e` and `f`. -/
theorem ofExpression_eq : FollowTable.ofExpression e = FollowTable.ofExpression f := by
  apply FollowTable.eq_of_allows_iff
  · simp only [FollowTable.size_rows_ofExpression, h.positionCount_eq]
  · intro p q
    simp only [FollowTable.allows_ofExpression_iff, h.positionCount_eq, Regex.Follows,
      h.matches_iff]

end SameWords

end Expression

namespace Automaton

open Expression

variable {e f : Expression} {follow : FollowTable} {limit : Option Nat}

/-- If `e` and `f` read the same symbols, a state has the same `moves`. -/
theorem moves_congr (h : e.symbol? = f.symbol?) (state : PositionSet) :
    moves e follow state = moves f follow state := by
  simp only [moves, missing?, letters, step, h]

/-- If `e` and `f` have the same end mark, a state is noted in the same way. -/
theorem discover_congr (h : e.endMark = f.endMark) (x : Exploration) (state : PositionSet) :
    discover e limit x state = discover f limit x state := by
  simp only [discover, Exploration.push, h]

/-- If `e` and `f` read the same symbols and have the same end mark, `explore` finds the same. -/
theorem explore_congr (h : e.symbol? = f.symbol?) (hend : e.endMark = f.endMark)
    (count next : Nat) (x : Exploration) :
    explore e follow limit count next x = explore f follow limit count next x := by
  induction count generalizing next x with
  | zero => rfl
  | succ count ih =>
    have hcross (state : PositionSet) : cross e limit state = cross f limit state := by
      funext x move
      simp only [cross, discover_congr hend]
    simp only [explore, visit, moves_congr h, hcross, ih]

end Automaton

/-- If `e` and `f` differ in the form of their trees only, they have the same automaton. -/
theorem Expression.SameWords.build_eq {e f : Expression} (h : e.SameWords f) (limit : Option Nat) :
    Automaton.build e (.ofExpression e) limit = Automaton.build f (.ofExpression f) limit := by
  simp only [Automaton.build, Automaton.exploration, Automaton.ofExploration, h.start_eq,
    h.ofExpression_eq, h.positionCount_eq, Automaton.discover_congr h.endMark_eq,
    Automaton.explore_congr h.symbol?_eq h.endMark_eq, h.endMark_eq]

end PositionAutomaton
