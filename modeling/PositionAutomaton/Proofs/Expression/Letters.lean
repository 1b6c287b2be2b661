import PositionAutomaton.Expression
import PositionAutomaton.Proofs.Postfix.Letters

/-!
# Changed letters in expressions

An expression is put together from a sequence with changed letters as it is from the sequence
itself: the tree and the end mark are the same, and what is read at the positions is changed
(`Expression.ofPostfix_mapLetters`). In particular the same operators lack operands.
-/

namespace PositionAutomaton

namespace Expression

variable (f : Char → Char)

/-- The expression with `f` applied to its letters. -/
def mapLetters (e : Expression) : Expression :=
  { e with symbols := e.symbols.map (Option.map f) }

/-- At a position `p`, the changed letter is read. -/
theorem symbol?_mapLetters (e : Expression) (p : Position) :
    (e.mapLetters f).symbol? p = (e.symbol? p).map f := by
  rw [symbol?, symbol?, mapLetters, Array.getElem?_map]
  rcases e.symbols[p.index]? with _ | _ | c <;> rfl

namespace Assembly

/-- What is put together, with `f` applied to its letters. -/
def mapLetters (a : Assembly) : Assembly :=
  { a with symbols := a.symbols.map (Option.map f) }

variable (a : Assembly) (t : Token)

/-- The `next` position does not depend on the letters. -/
@[simp]
theorem next_mapLetters : (a.mapLetters f).next = a.next := by
  simp [next, mapLetters]

/-- A leaf is added by `push` as before. -/
theorem push_mapLetters (symbol : Option Char) :
    (a.mapLetters f).push (symbol.map f) = (a.push symbol).mapLetters f := by
  rw [push, push, next_mapLetters]
  simp [mapLetters]

/-- A repetition is applied by `star` as before. -/
theorem star_mapLetters : (a.mapLetters f).star t = (a.star t).map (mapLetters f) := by
  rw [star, star, mapLetters]
  cases a.operands <;> rfl

/-- An operator is applied by `join` as before. -/
theorem join_mapLetters (op : Regex Position → Regex Position → Regex Position) :
    (a.mapLetters f).join op t = (a.join op t).map (mapLetters f) := by
  rw [join, join, mapLetters]
  rcases a.operands with _ | ⟨r, _ | ⟨l, rest⟩⟩ <;> rfl

/-- An end mark is added by `finish` as before. -/
theorem finish_mapLetters : (a.mapLetters f).finish t = (a.finish t).map (mapLetters f) := by
  have hpush := push_mapLetters f a none
  rw [Option.map_none] at hpush
  have hend : (a.mapLetters f).endMark = a.endMark := rfl
  rw [finish, finish, hend, hpush, next_mapLetters]
  cases a.endMark <;> rfl

/-- The `step` for a token with its letter changed is the one before. -/
theorem step_mapLetters :
    (a.mapLetters f).step (t.mapLetter f) = (a.step t).map (mapLetters f) := by
  by_cases hletter : t.kind = .letter
  · have hpush := push_mapLetters f a (some t.value)
    rw [step, step, Token.kind_mapLetter, hletter, Token.value_mapLetter_of_letter f hletter]
    exact congrArg Except.ok hpush
  · rw [step, step, Token.mapLetter_of_ne_letter f hletter]
    cases hkind : t.kind with
    | letter => exact absurd hkind hletter
    | endMark => exact finish_mapLetters f a t
    | star => exact star_mapLetters f a t
    | bar | concat => exact join_mapLetters f a t _
    | opening | closing => rfl

/-- A sequence `ts` with its letters changed is put together as before. -/
theorem run_map_mapLetter (ts : List Token) :
    run (ts.map (Token.mapLetter f)) = (run ts).map (mapLetters f) := by
  have hempty : mapLetters f {} = {} := by simp [mapLetters]
  have hrun := foldlM_map_comm (fun a t => step_mapLetters f a t) ts {}
  rwa [hempty] at hrun

/-- The `result` is the same expression but for its letters. -/
theorem result_mapLetters (last : Offset) :
    (a.mapLetters f).result last = (a.result last).map (Expression.mapLetters f) := by
  rw [result, result, mapLetters]
  rcases a.operands with _ | ⟨r, _ | ⟨l, rest⟩⟩ <;> cases a.endMark <;> rfl

end Assembly

/-- A sequence `p` with its letters changed makes the expression with its letters changed. -/
theorem ofPostfix_mapLetters (p : Postfix) :
    ofPostfix (p.mapLetters f) = (ofPostfix p).map (mapLetters f) := by
  have hlast : (p.mapLetters f).tokens.getLast?.elim ({} : Offset) (·.offset) =
      p.tokens.getLast?.elim {} (·.offset) := by
    rw [Postfix.mapLetters, List.getLast?_map]
    cases p.tokens.getLast? with
    | none => rfl
    | some t => exact Token.offset_mapLetter f t
  rw [ofPostfix, ofPostfix, hlast, Postfix.mapLetters, Assembly.run_map_mapLetter, map_bind,
    bind_map]
  simp only [Assembly.result_mapLetters]

end Expression

end PositionAutomaton
