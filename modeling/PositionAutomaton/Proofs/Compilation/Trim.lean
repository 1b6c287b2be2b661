import PositionAutomaton.Proofs.Automaton.Trim
import PositionAutomaton.Proofs.Compilation.Language
import PositionAutomaton.Proofs.Compilation.Numbering

/-!
# The automaton of a text is trim

In the numbered expression of a text, every word spells a text and goes on with the end mark
(`Expression.ended_of_ofText_eq_ok`), and its letters are those of the text
(`Expression.exists_symbol?_eq_some_iff`). The automaton of the text therefore has no state, no
position, no row and no letter that is of no use (`trim_of_compile_eq_ok`).
-/

namespace PositionAutomaton

variable {foldCase : Bool} {s : String} {e : Expression} {r : Regex Char} {a : Automaton} {c : Char}

namespace Expression

/-- The numbered expression `ofRegex r` is `Ended`. -/
theorem ended_ofRegex (hleaves : (ofRegex r).tree.leaves = (ofRegex r).positions) :
    (ofRegex r).Ended where
  leaves_eq := hleaves
  number_endMark := by simp [ofRegex, Position.ofIndex, positionCount]
  symbol?_endMark := (Regex.leaf.inj (Regex.cat.inj (map_symbol?_tree_ofRegex r)).2)
  exists_spelled := by
    intro w hw
    obtain ⟨ps, qs, rfl, hps, hqs⟩ := Regex.matches_cat_iff.1 hw
    rw [Regex.matches_leaf_iff.1 hqs]
    -- before the end mark stands a word of `r`, with the positions of its letters
    have hmap : ((r.number 0).map (ofRegex r).symbol?).Matches (ps.map (ofRegex r).symbol?) :=
      Regex.matches_map_iff.2 ⟨ps, rfl, hps⟩
    rw [(Regex.cat.inj (map_symbol?_tree_ofRegex r)).1] at hmap
    obtain ⟨u, hu, -⟩ := Regex.matches_map_iff.1 hmap
    exact ⟨u, ps, rfl, hu⟩

/-- The numbered expression `e` of a text is `Ended`. -/
theorem ended_of_ofText_eq_ok (h : ofText false s = .ok e) : e.Ended := by
  have hleaves := leaves_tree_of_ofText_eq_ok h
  rcases eq_empty_or_derives_of_ofText_eq_ok h with rfl | ⟨r, hr⟩
  · obtain rfl := Except.ok.inj ((ofText_empty false).symm.trans h)
    refine ⟨hleaves, rfl, rfl, fun w hw => ⟨[], [], ?_, rfl⟩⟩
    exact Regex.matches_leaf_iff.1 hw
  · obtain rfl := hr.eq_ofRegex h
    exact ended_ofRegex hleaves

/-- The symbols of the numbered expression `e` of a text `s` are the letters of `s`. -/
theorem exists_symbol?_eq_some_iff (h : ofText false s = .ok e) :
    (∃ p, e.symbol? p = some c) ↔ c ∈ s.toList ∧ c.isAlpha = true := by
  rw [exists_symbol?_eq_some_iff_mem, ← Array.mem_toList_iff, (symbols_eq_of_ofText_eq_ok h).1]
  simp [Token.folded]

end Expression

/-- If a text is compiled, every state of its automaton leads to one that accepts, so that there is
a state after a text exactly if the text can be continued to one that is accepted; every position up
to the end mark is in some state; a state goes on with the letters that are read at its positions,
since a step on such a letter never leads to nothing, and since of the rows of the follow table only
that of the end mark is empty; and the automaton reads the letters of the text. -/
theorem trim_of_compile_eq_ok (h : compile s = .ok a) :
    ∃ e, Expression.ofText false s = .ok e ∧
      (∀ state ∈ a.states, ∃ (v : List Char) (final : PositionSet),
        v.foldlM a.transition? state = some final ∧ final ∈ a.accepting) ∧
      (∀ t : String, (a.run? t.toList).isSome = true ↔ ∃ u : String, a.accepts (t ++ u) = true) ∧
      (∀ p : Position, p.number ≤ a.endMark.number → ∃ state ∈ a.states, p ∈ state) ∧
      (∀ state ∈ a.states, ∀ c,
        (a.transition? state c).isSome = true ↔ ∃ p ∈ state, e.symbol? p = some c) ∧
      (∀ state ∈ a.states, ∀ c ∈ e.letters state,
        (Automaton.step e (.ofExpression e) state c).isEmpty = false) ∧
      (∀ p row, (FollowTable.ofExpression e).row? p = some row →
        (row.isEmpty = true ↔ p = a.endMark)) ∧
      ∀ c, c ∈ a.alphabet ↔ c ∈ s.toList ∧ c.isAlpha = true := by
  obtain ⟨e, he, ha⟩ := compile_eq_ok_iff.1 h
  have hended := Expression.ended_of_ofText_eq_ok he
  -- the end mark is the last position
  have hpositions {p : Position} (hp : p.number ≤ a.endMark.number) : p ∈ e.positions := by
    rw [Automaton.endMark_eq ha, hended.number_endMark] at hp
    have := p.number_pos
    exact Expression.mem_positions_iff.2 (by rw [Position.index]; omega)
  refine ⟨e, he, fun state => Automaton.exists_accepting_of_mem_states hended ha,
    Automaton.isSome_run?_iff_exists_accepts hended ha, ?_, ?_, ?_, ?_, ?_⟩
  · exact fun p hp => Automaton.exists_mem_states_of_mem_positions hended ha (hpositions hp)
  · exact fun state hstate c => Automaton.isSome_transition?_iff hended ha hstate
  · intro state _ c hc
    exact (Automaton.isEmpty_step_eq_false_iff hended).2 (Expression.mem_letters_iff.1 hc)
  · intro p row hrow
    rw [Automaton.endMark_eq ha]
    exact Automaton.isEmpty_row_iff hended hrow
  · intro c
    rw [Automaton.mem_alphabet_iff hended ha, Expression.exists_symbol?_eq_some_iff he]

/-- The automaton of `(a|b)*a` does not accept `bb`, but there is a state behind it, since `bba` is
accepted. -/
theorem trim_of_repeated_group :
    ∃ a, compile "(a|b)*a" = .ok a ∧
      (∀ t : String, (a.run? t.toList).isSome = true ↔ ∃ u : String, a.accepts (t ++ u) = true) ∧
      a.accepts "bb" = false ∧ a.accepts "bba" = true ∧ (a.run? "bb".toList).isSome = true ∧
      (∀ p : Position, p.number ≤ a.endMark.number → ∃ state ∈ a.states, p ∈ state) ∧
      ∀ c, c ∈ a.alphabet ↔ c ∈ "(a|b)*a".toList ∧ c.isAlpha = true := by
  obtain ⟨a, ha⟩ : ∃ a, compile "(a|b)*a" = .ok a :=
    exists_compile_eq_ok_iff.2 ⟨_, _, _, _, rfl, rfl, rfl, rfl⟩
  have hwords : (compile "(a|b)*a").map (fun a => (a.accepts "bb", a.accepts "bba")) =
      .ok (false, true) := by
    decide +kernel
  have hpair := apply_eq_of_map_eq_ok ha hwords
  obtain ⟨hbb, hbba⟩ := Prod.mk.inj hpair
  obtain ⟨-, -, -, hrun, hpositions, -, -, -, halphabet⟩ := trim_of_compile_eq_ok ha
  exact ⟨a, ha, hrun, hbb, hbba, (hrun "bb").2 ⟨"a", hbba⟩, hpositions, halphabet⟩

end PositionAutomaton
