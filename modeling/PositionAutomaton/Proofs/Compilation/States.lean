import PositionAutomaton.Proofs.Automaton.Queue
import PositionAutomaton.Proofs.Compilation.Numbering

/-!
# How many states an automaton has

The letters that are read at the positions of a text are the letters of the text
(`Expression.allLetters_of_ofText_eq_ok`). What the letters of an expression say about the number
of states therefore holds for texts (`size_states_bounded`).
-/

namespace PositionAutomaton

variable {foldCase : Bool} {s : String} {e : Expression}

namespace Expression

/-- The letters that are read, from the first position to the last, are `e.symbols` but for the end
mark. -/
theorem allLetters_eq_filterMap (e : Expression) :
    e.allLetters = e.symbols.toList.filterMap id := by
  -- the symbol of the position with an index is the one that has the index
  have hsymbols : e.positions.map e.symbol? = e.symbols.toList := by
    apply List.ext_getElem
    · simp [positions, positionCount]
    · intro i h₁ h₂
      have hsize : i < e.symbols.size := by simpa using h₂
      simp [positions, symbol?, Position.index_ofIndex, Array.getElem?_eq_getElem hsize]
  rw [← hsymbols, List.filterMap_map]
  rfl

/-- The letters that are read at the positions of a text `s` are the letters of `s`, `folded`. -/
theorem allLetters_of_ofText_eq_ok (h : ofText foldCase s = .ok e) :
    e.allLetters = (s.toList.filter Char.isAlpha).map (Token.folded foldCase) := by
  rw [allLetters_eq_filterMap, (symbols_eq_of_ofText_eq_ok h).1]
  simp

end Expression

/-- Whatever the expression, the follow table and the bound on the number of states, the loop takes
no state from its queue twice, and ends: the states that it takes are the first ones that it finds,
of which there are no more than the letters of the expression allow, and the exploration succeeds
once all are taken, or fails where the visit of a state does. So an automaton has at most as many
states as the letters allow: the start and, for each letter, one for each set of positions that
read it and are not none. If no letter is read twice, that is one for each letter besides the start,
in particular for a text in which no letter comes up twice. -/
theorem size_states_bounded :
    (∀ e follow limit,
      (∀ taken x, Automaton.Takes e follow limit taken x → taken.Nodup ∧
        taken <+: x.found.toList ∧ taken.length ≤ e.stateBound ∧ x.found.size ≤ e.stateBound) ∧
      (∀ x, (Automaton.exploration e follow limit).outcome = .ok x ↔
        Automaton.Takes e follow limit x.found.toList x) ∧
      (∀ error, (Automaton.exploration e follow limit).outcome = .error error ↔
        (Automaton.discover e limit {} e.start).outcome = .error error ∨
          ∃ taken x state, Automaton.Takes e follow limit taken x ∧
            x.found[taken.length]? = some state ∧
            (Automaton.visit e follow limit x state).outcome = .error error) ∧
      ∀ a, (Automaton.build e follow limit).outcome = .ok a →
        a.states.size ≤ 1 + ∑ c ∈ e.allLetters.toFinset, (2 ^ (e.reading c).length - 1) ∧
          (e.allLetters.Nodup → a.states.size ≤ e.allLetters.length + 1)) ∧
      ∀ (o : Options) s a, o.compile s = .ok a →
        ((s.toList.filter Char.isAlpha).map (Token.folded o.foldCase)).Nodup →
          a.states.size ≤ (s.toList.filter Char.isAlpha).length + 1 := by
  -- each letter that is read once has one set of positions that read it
  have hbuild {e follow limit a} (h : (Automaton.build e follow limit).outcome = .ok a)
      (hnodup : e.allLetters.Nodup) : a.states.size ≤ e.allLetters.length + 1 :=
    (Automaton.size_states_le_stateBound h).trans (Expression.stateBound_le_of_nodup hnodup)
  refine ⟨fun e follow limit => ⟨fun taken x h => ?_,
    fun _ => Automaton.outcome_exploration_eq_ok_iff_takes,
    fun _ => Automaton.outcome_exploration_eq_error_iff_takes,
    fun a h => ⟨Automaton.size_states_le_stateBound h, hbuild h⟩⟩, fun o s a h hnodup => ?_⟩
  · have htaken := h.isPrefix.length_le
    rw [Array.length_toList] at htaken
    exact ⟨h.nodup, h.isPrefix, htaken.trans h.size_found_le, h.size_found_le⟩
  · obtain ⟨e, b, he, hb, rfl⟩ := Options.compile_eq_ok_iff.1 h
    have hletters := Expression.allLetters_of_ofText_eq_ok he
    have hsize := hbuild hb (hletters ▸ hnodup)
    rwa [hletters, List.length_map] at hsize

/-- No letter of `(ab|c)*d` comes up twice, so that its automaton has at most five states. -/
theorem size_states_bounded_of_distinct_letters :
    ∃ a, compile "(ab|c)*d" = .ok a ∧ a.states.size ≤ 5 := by
  obtain ⟨a, ha⟩ : ∃ a, compile "(ab|c)*d" = .ok a :=
    exists_compile_eq_ok_iff.2 ⟨_, _, _, _, rfl, rfl, rfl, rfl⟩
  exact ⟨a, ha, size_states_bounded.2 {} _ a ha (by decide)⟩

end PositionAutomaton
