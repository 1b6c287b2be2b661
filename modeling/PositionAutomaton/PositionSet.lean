import PositionAutomaton.OrderedSet.Basic
import PositionAutomaton.Position

/-!
# Sets of positions

Sets of positions are the states of the automaton. The text of a set is what a state is
called: `{1,2,6}` for the set of 1, 2 and 6. `PositionSet.ofText?` reads it back.
-/

namespace PositionAutomaton

/-- A finite set of positions. -/
abbrev PositionSet := OrderedSet Position

namespace PositionSet

/-- The members of `s` in decimal, from least to greatest, between braces and separated by
commas. -/
def text (s : PositionSet) : String :=
  String.ofList ('\x7b' :: List.intercalate [','] (s.toList.map Position.digits) ++ ['\x7d'])

/-- What stands between the commas of some characters. Without a comma, that is one field. -/
def fields : List Char → List (List Char)
  | [] => [[]]
  | ',' :: cs => [] :: fields cs
  | c :: cs =>
    match fields cs with
    | [] => [[c]]
    | f :: fs => (c :: f) :: fs

/-- The set that `text` lists between braces, if it lists one. -/
def ofText? (text : String) : Option PositionSet :=
  match text.toList with
  | '\x7b' :: cs =>
    if cs.getLast? ≠ some '\x7d' then none
    else if cs.dropLast = [] then some .empty
    else ((fields cs.dropLast).mapM Position.ofDigits?).map .ofList
  | _ => none

end PositionSet

end PositionAutomaton
