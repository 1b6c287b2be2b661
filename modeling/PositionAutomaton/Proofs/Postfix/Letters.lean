import PositionAutomaton.Postfix
import PositionAutomaton.Proofs.Token.Letters

/-!
# Changed letters in the yard

The yard looks at the kinds of the tokens only, so that it takes in a sequence with changed letters
as it does the sequence itself (`Yard.step_mapLetters`). The postfix order has the same letters
changed (`ofTokens_map_mapLetter`).
-/

namespace PositionAutomaton

namespace Postfix

variable (f : Char → Char)

/-- The sequence `p` with `f` applied to its letters. -/
def mapLetters (p : Postfix) : Postfix :=
  ⟨p.tokens.map (Token.mapLetter f)⟩

/-- The tokens `ts` that are appended to an array `xs` are changed with it. -/
private theorem map_append_list (xs : Array Token) (ts : List Token) :
    (xs ++ ts).map (Token.mapLetter f) =
      xs.map (Token.mapLetter f) ++ ts.map (Token.mapLetter f) := by
  rw [← Array.toList_inj]
  simp

namespace Yard

/-- The yard `y` with `f` applied to its letters. -/
def mapLetters (y : Yard) : Yard :=
  { y with
    output := y.output.map (Token.mapLetter f)
    waiting := y.waiting.map (Token.mapLetter f) }

/-- Whether a token is sent on does not depend on its letter: `precedes` does not change. -/
theorem precedes_comp_mapLetter (kind : Kind) :
    precedes kind ∘ Token.mapLetter f = precedes kind := by
  funext t
  simp [precedes]

/-- What depends on the kind of a token only, as `p` says, does not depend on its letter. -/
theorem kind_comp_mapLetter (p : Kind → Bool) :
    (fun t : Token => p t.kind) ∘ Token.mapLetter f = fun t => p t.kind := by
  funext t
  simp

variable (y : Yard) (t : Token)

/-- A changed letter is put in its place by `emit`. -/
theorem emit_mapLetters : (y.mapLetters f).emit (t.mapLetter f) = (y.emit t).mapLetters f := by
  simp [emit, mapLetters]

/-- Operators are sent on by `release` as before. -/
theorem release_mapLetters (kind : Kind) :
    (y.mapLetters f).release kind = (y.release kind).mapLetters f := by
  simp [release, mapLetters, List.takeWhile_map, List.dropWhile_map, precedes_comp_mapLetter,
    map_append_list]

/-- Groups are closed by `closeGroup` as before. -/
theorem closeGroup_mapLetters :
    (y.mapLetters f).closeGroup (t.mapLetter f) = (y.closeGroup t).map (mapLetters f) := by
  have hkind := kind_comp_mapLetter f fun kind => decide (kind ≠ .opening)
  rw [closeGroup, closeGroup, mapLetters]
  simp only [List.dropWhile_map, List.takeWhile_map, hkind]
  cases y.waiting.dropWhile (·.kind ≠ .opening) with
  | nil => simp
  | cons group outer => simp [mapLetters, map_append_list]

/-- All operators are sent on by `flush` as before. -/
theorem flush_mapLetters : (y.mapLetters f).flush = y.flush.map (mapLetters f) := by
  have hkind := kind_comp_mapLetter f fun kind => decide (kind = .opening)
  rw [flush, flush, mapLetters]
  simp only [List.find?_map, hkind]
  cases y.waiting.find? (·.kind = .opening) with
  | none => simp [mapLetters, map_append_list]
  | some group => simp

/-- An end mark is put in its place by `close` as before. -/
theorem close_mapLetters : (y.mapLetters f).close (t.mapLetter f) = (y.close t).mapLetters f := by
  have hempty : (y.mapLetters f).output.isEmpty = y.output.isEmpty := by
    simp [mapLetters, Array.isEmpty]
  have hconcat := emit_mapLetters f (y.emit t) (Token.concat t.offset)
  rw [Token.mapLetter_concat] at hconcat
  rw [close, close, hempty, emit_mapLetters, Token.offset_mapLetter, hconcat]
  split <;> rfl

/-- A changed letter is taken in by `accept` as before. -/
theorem accept_mapLetters :
    (y.mapLetters f).accept (t.mapLetter f) = (y.accept t).map (mapLetters f) := by
  rw [accept, accept, Token.kind_mapLetter]
  cases t.kind with
  | letter | star => exact congrArg Except.ok (emit_mapLetters f y t)
  | opening => rfl
  | closing =>
    by_cases hprevious : y.previous = some .opening
    · simp [mapLetters, hprevious]
    · have hchanged : (y.mapLetters f).previous ≠ some .opening := hprevious
      simp only [if_neg hprevious, if_neg hchanged, closeGroup_mapLetters]
  | bar | concat =>
    simp only [release_mapLetters]
    rfl
  | endMark =>
    simp only [flush_mapLetters, map_bind, bind_map, close_mapLetters]
    rfl

/-- The `step` for the next token with its letter changed is the one before. -/
theorem step_mapLetters :
    (y.mapLetters f).step (t.mapLetter f) = (y.step t).map (mapLetters f) := by
  rw [step, step, accept_mapLetters, map_bind, bind_map, Token.kind_mapLetter]
  rfl

/-- A sequence `ts` with its letters changed is read as before. -/
theorem run_map_mapLetter (ts : List Token) :
    run (ts.map (Token.mapLetter f)) = (run ts).map (mapLetters f) := by
  have hempty : mapLetters f {} = {} := by simp [mapLetters]
  have hrun := foldlM_map_comm (fun y t => step_mapLetters f y t) ts {}
  rwa [hempty] at hrun

end Yard

/-- A sequence `ts` with its letters changed has the postfix order with its letters changed. -/
theorem ofTokens_map_mapLetter (ts : List Token) :
    ofTokens (ts.map (Token.mapLetter f)) = (ofTokens ts).map (mapLetters f) := by
  simp only [ofTokens, Yard.run_map_mapLetter, map_bind, bind_map, Yard.flush_mapLetters]
  simp [Yard.mapLetters, mapLetters]

end Postfix

end PositionAutomaton
