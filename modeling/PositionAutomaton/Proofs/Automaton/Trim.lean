import PositionAutomaton.Proofs.Automaton.Reading

/-!
# Nothing in an automaton is superfluous

In an expression that is `Ended`, every word spells a text and goes on with the end mark only. Its
automaton is trim: what has been read can always be continued to a text that is accepted
(`isSome_run?_iff_exists_accepts`, `exists_accepting_of_mem_states`), every position comes up
(`exists_mem_states_of_mem_positions`), and a state goes on with each of its letters
(`isSome_transition?_iff`), so that the automaton reads all letters of the expression
(`mem_alphabet_iff`).
-/

namespace PositionAutomaton

namespace Expression

variable {e : Expression} {u : List Char} {ps w : List Position} {p q : Position} {c : Char}

/-- The leaves of `e` are its positions, and its words end with the last one, the end mark, at which
nothing is read. -/
structure Ended (e : Expression) : Prop where
  /-- The leaves are the positions, in order. -/
  leaves_eq : e.tree.leaves = e.positions
  /-- The end mark is the last position. -/
  number_endMark : e.endMark.number = e.positionCount
  /-- Nothing is read at the end mark. -/
  symbol?_endMark : e.symbol? e.endMark = none
  /-- Before the end mark, a word spells a text. -/
  exists_spelled : ∀ w, e.tree.Matches w →
    ∃ (u : List Char) (ps : List Position), w = ps ++ [e.endMark] ∧ ps.map e.symbol? = u.map some

namespace Ended

variable (he : e.Ended)
include he

/-- A word that is cut at `p` spells a text up to there. The position `p` is the end mark, behind
which nothing comes, or a letter is read there, and the word goes on with a text up to the end
mark. -/
theorem exists_cut (h : e.tree.Matches (ps ++ p :: w)) :
    ∃ u : List Char, ps.map e.symbol? = u.map some ∧
      (p = e.endMark ∧ w = [] ∨ ∃ (c : Char) (v : List Char) (qs : List Position),
        e.symbol? p = some c ∧ w = qs ++ [e.endMark] ∧ qs.map e.symbol? = v.map some) := by
  obtain ⟨t, rs, hsplit, hrs⟩ := he.exists_spelled _ h
  rcases List.eq_nil_or_concat' w with rfl | ⟨qs, last, rfl⟩
  · obtain ⟨rfl, hp⟩ := List.append_inj' hsplit rfl
    exact ⟨t, hrs, .inl ⟨List.singleton_inj.1 hp, rfl⟩⟩
  · rw [← List.cons_append, ← List.append_assoc] at hsplit
    obtain ⟨rfl, hlast⟩ := List.append_inj' hsplit rfl
    obtain rfl := List.singleton_inj.1 hlast
    -- the text is cut where the word is
    rw [List.map_append, eq_comm, List.map_eq_append_iff] at hrs
    obtain ⟨u, cv, -, hu, hcv⟩ := hrs
    rw [List.map_cons, List.map_eq_cons_iff] at hcv
    obtain ⟨c, v, -, hc, hv⟩ := hcv
    exact ⟨u, hu.symm, .inr ⟨c, v, qs, hc.symm, rfl, hv.symm⟩⟩

/-- Nothing is read at the end mark only. -/
theorem symbol?_eq_none_iff (hp : p ∈ e.positions) : e.symbol? p = none ↔ p = e.endMark := by
  constructor
  · intro hnone
    obtain ⟨x, y, h⟩ := Regex.exists_matches_of_mem_leaves (he.leaves_eq ▸ hp)
    obtain ⟨-, -, ⟨hend, -⟩ | ⟨c, -, -, hc, -⟩⟩ := he.exists_cut h
    · exact hend
    · rw [hnone] at hc
      cases hc
  · rintro rfl
    exact he.symbol?_endMark

/-- Something follows `p` exactly if a letter is read there. -/
theorem exists_follows_iff : (∃ q, e.tree.Follows p q) ↔ ∃ c, e.symbol? p = some c := by
  constructor
  · rintro ⟨q, x, y, h⟩
    obtain ⟨-, -, ⟨-, hnil⟩ | ⟨c, -, -, hc, -⟩⟩ := he.exists_cut h
    · cases hnil
    · exact ⟨c, hc⟩
  · rintro ⟨c, hc⟩
    have hp := mem_positions_iff.2 (index_lt_of_symbol?_eq_some hc)
    obtain ⟨x, y, h⟩ := Regex.exists_matches_of_mem_leaves (he.leaves_eq ▸ hp)
    obtain ⟨-, -, ⟨rfl, -⟩ | ⟨-, -, qs, -, rfl, -⟩⟩ := he.exists_cut h
    · rw [he.symbol?_endMark] at hc
      cases hc
    · -- what follows is the next position, or the end mark
      cases qs with
      | nil => exact ⟨_, x, [], h⟩
      | cons q qs => exact ⟨q, x, qs ++ [e.endMark], h⟩

/-- Each position is behind some text. -/
theorem exists_reads (hp : p ∈ e.positions) : ∃ u, e.Reads u p := by
  obtain ⟨ps, w, h⟩ := Regex.exists_matches_of_mem_leaves (he.leaves_eq ▸ hp)
  obtain ⟨u, hu, -⟩ := he.exists_cut h
  exact ⟨u, ps, w, h, hu⟩

/-- A text `u` behind which a position is can be continued to one behind which the end mark is. -/
theorem exists_reads_endMark (h : e.Reads u p) : ∃ v, e.Reads (u ++ v) e.endMark := by
  obtain ⟨ps, w, hw, hps⟩ := h
  obtain ⟨-, -, ⟨rfl, rfl⟩ | ⟨c, v, qs, hc, rfl, hqs⟩⟩ := he.exists_cut hw
  · exact ⟨[], ps, [], hw, by simpa using hps⟩
  · exact ⟨c :: v, ps ++ p :: qs, [], by simpa using hw, by simp [hps, hc, hqs]⟩

end Ended

end Expression

namespace Automaton

variable {e : Expression} {follow : FollowTable} {limit : Option Nat} {a : Automaton}
  {state : PositionSet} {u v : List Char} {p : Position} {c : Char}

/-- The state after `u ++ v` is that after `v` from the state after `u`. -/
theorem run?_append (a : Automaton) (u v : List Char) :
    a.run? (u ++ v) = (a.run? u).bind (v.foldlM a.transition?) := by
  simp [run?, List.foldlM_append]

/-- The states of `a` are what it is in after some text. -/
theorem mem_states_iff_exists_run? (h : (build e follow limit).outcome = .ok a) :
    state ∈ a.states ↔ ∃ u, a.run? u = some state := by
  rw [mem_states_iff h]
  constructor
  · intro hreached
    induction hreached with
    | start => exact ⟨[], by rw [run?, List.foldlM_nil, start_eq h]; rfl⟩
    | @step source c hsource hne ih =>
      obtain ⟨u, hu⟩ := ih
      refine ⟨u ++ [c], ?_⟩
      rw [run?_append_singleton, hu, Option.bind_some, transition?_eq_some_iff h]
      exact ⟨hsource, rfl, hne⟩
  · rintro ⟨u, hu⟩
    -- the last symbol of the text is the last step
    induction u using List.reverseRecOn generalizing state with
    | nil =>
      obtain rfl : e.start = state := by
        rw [← start_eq h]
        exact Option.some.inj hu
      exact .start
    | append_singleton u c ih =>
      rw [run?_append_singleton, Option.bind_eq_some_iff] at hu
      obtain ⟨source, hsource, htarget⟩ := hu
      obtain ⟨hreached, rfl, hne⟩ := (transition?_eq_some_iff h).1 htarget
      exact hreached.step hne

section Trim

variable (he : e.Ended) (h : (build e (.ofExpression e) none).outcome = .ok a)
include he h

/-- After a text `u` behind which the end mark is, `a` is in a state that accepts. -/
theorem exists_accepting_of_reads (hu : e.Reads u e.endMark) :
    ∃ final, a.run? u = some final ∧ final ∈ a.accepting := by
  obtain ⟨final, hfinal⟩ := Option.isSome_iff_exists.1
    ((isSome_run?_iff_exists_reads he.leaves_eq h).2 ⟨_, hu⟩)
  refine ⟨final, hfinal, ?_⟩
  rw [mem_accepting_iff h]
  exact ⟨(mem_states_iff_exists_run? h).2 ⟨u, hfinal⟩,
    (mem_iff_reads_of_run?_eq_some he.leaves_eq h hfinal).2 hu⟩

/-- From every state of `a`, a text leads to a state that accepts. -/
theorem exists_accepting_of_mem_states (hstate : state ∈ a.states) :
    ∃ (v : List Char) (final : PositionSet),
      v.foldlM a.transition? state = some final ∧ final ∈ a.accepting := by
  obtain ⟨u, hu⟩ := (mem_states_iff_exists_run? h).1 hstate
  obtain ⟨p, hp⟩ := ((mem_states_iff h).1 hstate).exists_mem
  -- the text behind which a position of the state is can be continued
  obtain ⟨v, hv⟩ := he.exists_reads_endMark
    ((mem_iff_reads_of_run?_eq_some he.leaves_eq h hu).1 hp)
  obtain ⟨final, hfinal, haccepting⟩ := exists_accepting_of_reads he h hv
  rw [run?_append, hu, Option.bind_some] at hfinal
  exact ⟨v, final, hfinal, haccepting⟩

/-- There is a state after `s` exactly if `s` can be continued to a text that is accepted. -/
theorem isSome_run?_iff_exists_accepts (s : String) :
    (a.run? s.toList).isSome = true ↔ ∃ t : String, a.accepts (s ++ t) = true := by
  simp only [accepts_iff_reads he.leaves_eq h, String.toList_append]
  constructor
  · intro hs
    obtain ⟨p, hp⟩ := (isSome_run?_iff_exists_reads he.leaves_eq h).1 hs
    obtain ⟨v, hv⟩ := he.exists_reads_endMark hp
    exact ⟨String.ofList v, by simpa using hv⟩
  · rintro ⟨t, ht⟩
    obtain ⟨final, hfinal, -⟩ := exists_accepting_of_reads he h ht
    rw [run?_append, Option.bind_eq_some_iff] at hfinal
    obtain ⟨state, hstate, -⟩ := hfinal
    rw [hstate]
    rfl

/-- Each position is in some state. -/
theorem exists_mem_states_of_mem_positions (hp : p ∈ e.positions) :
    ∃ state ∈ a.states, p ∈ state := by
  obtain ⟨u, hu⟩ := he.exists_reads hp
  obtain ⟨state, hstate⟩ := Option.isSome_iff_exists.1
    ((isSome_run?_iff_exists_reads he.leaves_eq h).2 ⟨p, hu⟩)
  exact ⟨state, (mem_states_iff_exists_run? h).2 ⟨u, hstate⟩,
    (mem_iff_reads_of_run?_eq_some he.leaves_eq h hstate).2 hu⟩

omit h in
/-- A `step` from a state leads somewhere if it is on one of the letters of the state. -/
theorem isEmpty_step_eq_false_iff :
    (step e (.ofExpression e) state c).isEmpty = false ↔ ∃ p ∈ state, e.symbol? p = some c := by
  rw [isEmpty_eq_false_iff]
  constructor
  · rintro ⟨q, hq⟩
    obtain ⟨p, hp, hc, -⟩ := mem_step_iff.1 hq
    exact ⟨p, hp, hc⟩
  · rintro ⟨p, hp, hc⟩
    obtain ⟨q, hq⟩ := he.exists_follows_iff.2 ⟨c, hc⟩
    have hindex := Expression.index_lt_of_symbol?_eq_some hc
    exact ⟨q, mem_step_iff.2 ⟨p, hp, hc, FollowTable.allows_ofExpression_iff.2 ⟨hindex, hq⟩⟩⟩

/-- A state of `a` goes on with the letters that are read at its positions. -/
theorem isSome_transition?_iff (hstate : state ∈ a.states) :
    (a.transition? state c).isSome = true ↔ ∃ p ∈ state, e.symbol? p = some c := by
  rw [← isEmpty_step_eq_false_iff he, Option.isSome_iff_exists]
  simp only [transition?_eq_some_iff h, (mem_states_iff h).1 hstate, true_and]
  constructor
  · rintro ⟨target, rfl, hne⟩
    exact hne
  · intro hne
    exact ⟨_, rfl, hne⟩

omit h in
/-- Of the rows of the follow table of `e`, only that of the end mark is empty. -/
theorem isEmpty_row_iff {row : PositionSet}
    (hrow : (FollowTable.ofExpression e).row? p = some row) :
    row.isEmpty = true ↔ p = e.endMark := by
  have hindex := FollowTable.isSome_row?_iff.1 (Option.isSome_of_eq_some hrow)
  rw [FollowTable.size_rows_ofExpression] at hindex
  have hmem (q : Position) : q ∈ row ↔ e.tree.Follows p q := by
    have hallows := FollowTable.allows_ofExpression_iff (e := e) (p := p) (q := q)
    simpa [FollowTable.Allows, hrow, hindex] using hallows
  rw [← he.symbol?_eq_none_iff (Expression.mem_positions_iff.2 hindex), OrderedSet.isEmpty_iff,
    Option.eq_none_iff_forall_ne_some]
  simpa [hmem] using not_congr he.exists_follows_iff

/-- The automaton reads the letters of `e`. -/
theorem mem_alphabet_iff : c ∈ a.alphabet ↔ ∃ p, e.symbol? p = some c := by
  rw [alphabet, OrderedSet.mem_ofList, List.mem_map]
  constructor
  · rintro ⟨t, ht, rfl⟩
    obtain ⟨-, htarget, hne⟩ := (mem_transitions_iff h).1 ht
    rw [htarget] at hne
    obtain ⟨p, -, hp⟩ := (isEmpty_step_eq_false_iff he).1 hne
    exact ⟨p, hp⟩
  · rintro ⟨p, hp⟩
    -- the position is in some state, which goes on with its letter
    have hposition := Expression.mem_positions_iff.2 (Expression.index_lt_of_symbol?_eq_some hp)
    obtain ⟨state, hstate, hmem⟩ := exists_mem_states_of_mem_positions he h hposition
    have hne := (isEmpty_step_eq_false_iff he).2 ⟨p, hmem, hp⟩
    exact ⟨⟨state, c, _⟩, (mem_transitions_iff h).2 ⟨(mem_states_iff h).1 hstate, rfl, hne⟩, rfl⟩

end Trim

end Automaton

end PositionAutomaton
