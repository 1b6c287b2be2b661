import PositionAutomaton.Proofs.Automaton.Discovery
import PositionAutomaton.Proofs.Compilation.Limit
import PositionAutomaton.Proofs.Message

/-!
# What a compilation records

A compilation that succeeds records its postfix form and its number of positions, then the states
and transitions of the automaton in the order in which they are found, and their numbers at the end
(`Options.exists_ordered_of_compile_eq_ok`). The order is that of the first words that lead to the
states (`records_of_compile_eq_ok`).
-/

namespace PositionAutomaton

variable {foldCase : Bool} {s : String} {e : Expression} {a : Automaton} {o : Options}

/-- The stages before the construction record the postfix form of `s` and its number of
positions. -/
theorem Expression.exists_events_traceOfText (h : (traceOfText foldCase s).outcome = .ok e) :
    ∃ form, (traceOfText foldCase s).events =
      [.postfixForm s form, .positionCount s e.positionCount] := by
  simp only [traceOfText, Traced.outcome_bind_eq_ok_iff, Traced.outcome_ofExcept] at h
  obtain ⟨letters, hletters, tokens, htokens, form, hform, -, -, e', he, -, -, he'⟩ := h
  cases he'
  refine ⟨form, ?_⟩
  simp only [traceOfText, bind, Traced.bind, Traced.ofExcept, hletters, htokens, hform, he]
  rfl

/-- A compilation that succeeds records what is found from the start, in the order of `word`,
between what the stages before record and the numbers of what was found. -/
theorem Options.exists_ordered_of_compile_eq_ok (h : o.compile s = .ok a) :
    ∃ e x word form events,
      (Automaton.exploration e (.ofExpression e) o.stateLimit).outcome = .ok x ∧
        a = { Automaton.ofExploration e x with foldCase := o.foldCase } ∧
        Automaton.Ordered e word events x ∧
        (o.trace s).events = [.postfixForm s form, .positionCount s e.positionCount] ++ events ++
          [.summary a.states.size a.accepting.size a.transitions.size] := by
  rw [compile] at h
  cases htext : (Expression.traceOfText o.foldCase s).outcome with
  | error error =>
    rw [trace_of_outcome_eq_error htext] at h
    cases h
  | ok e =>
    obtain ⟨form, hform⟩ := Expression.exists_events_traceOfText htext
    rw [trace_of_outcome_eq_ok htext] at h ⊢
    obtain ⟨b, hb, rfl⟩ := map_eq_ok_iff.1 h
    obtain ⟨x, hx, rfl⟩ := Automaton.build_eq_ok_iff.1 hb
    obtain ⟨word, hword⟩ := Automaton.exists_ordered_of_exploration_eq_ok hx
    refine ⟨e, x, word, form, _, hx, rfl, hword, ?_⟩
    rw [hform, Automaton.build, Traced.events_bind_of_outcome_eq_ok hx, ← List.append_assoc]
    rfl

/-- For every text and all options with which it has an automaton, the states and the transitions
that the compilation records are those of the automaton, each once: its log has one message for each
of them, and no message for any other state or transition. The states are recorded in the
shortlex order of the first words that lead to them, and the transitions in the order of the states
that they leave and, for one state, of their letters. Each state but the start is followed by the
transition along its first word. The last event has the numbers of the states, of those that accept
and of the transitions. -/
theorem records_of_compile_eq_ok (h : o.compile s = .ok a) :
    let events := (o.trace s).events
    (foundStates events).Perm a.states.toList ∧
      (foundTransitions events).Perm a.transitions.toList ∧
      (∀ state, (events.map Event.text).count (Event.newState state).text =
        if a.states.contains state then 1 else 0) ∧
      (∀ t, (events.map Event.text).count (Event.transition t).text =
        if a.transitions.contains t then 1 else 0) ∧
      (∃ words, List.Forall₂ a.LeadsFirst (foundStates events) words ∧
        words.Pairwise Precedes) ∧
      ((foundTransitions events).Pairwise fun t u =>
        (foundStates events).idxOf t.source < (foundStates events).idxOf u.source ∨
          t.source = u.source ∧ t.symbol < u.symbol) ∧
      (∀ us state vs, events = us ++ .newState state :: vs → state = a.start ∨
        ∃ t ws u, vs = .transition t :: ws ∧ t.target = state ∧ a.LeadsFirst t.source u ∧
          a.LeadsFirst state (u ++ [t.symbol])) ∧
      events.getLast? = some (.summary a.states.size a.accepting.size a.transitions.size) := by
  obtain ⟨e, x, word, form, events, hx, rfl, hordered, hevents⟩ :=
    Options.exists_ordered_of_compile_eq_ok h
  -- only what is found from the start says of states and transitions
  have hstates : foundStates (o.trace s).events = foundStates events := by
    rw [hevents, foundStates_append, foundStates_append]
    exact List.append_nil _
  have htransitions : foundTransitions (o.trace s).events = foundTransitions events := by
    rw [hevents, foundTransitions_append, foundTransitions_append]
    exact List.append_nil _
  have hfirst (state : PositionSet) (hstate : state ∈ x.found) :=
    (hordered.leadsFirst hx hstate).withFoldCase o.foldCase
  have hfound := hordered.foundStates_perm hx
  have hcrossed : (foundTransitions events).Perm (Automaton.ofExploration e x).transitions.toList :=
    hordered.foundTransitions_perm
  dsimp only
  rw [hstates, htransitions]
  refine ⟨hfound, hcrossed, fun state => ?_, fun t => ?_, ?_, ?_, ?_, ?_⟩
  · rw [Event.count_map_text rfl, count_newState, hstates, hfound.count_eq,
      OrderedSet.count_toList]
  · rw [Event.count_map_text rfl, count_transition, htransitions, hcrossed.count_eq,
      OrderedSet.count_toList]
  · obtain ⟨words, hwords, hpairwise⟩ := hordered.exists_words hx
    exact ⟨words, hwords.imp fun _ _ hword => hword.withFoldCase o.foldCase, hpairwise⟩
  · rw [hordered.foundStates_eq, hordered.foundTransitions_eq]
    exact hordered.pairwise_idxOf
  · intro us state vs hsplit
    rw [hevents, List.append_assoc] at hsplit
    rcases us with _ | ⟨_, _ | ⟨_, us⟩⟩ <;>
      simp only [List.cons_append, List.nil_append, List.cons.injEq] at hsplit
    · cases hsplit.1
    · cases hsplit.2.1
    · refine (hordered.eq_start_or_exists_next rfl hsplit.2.2).imp_right ?_
      rintro ⟨t, ht, ws, hws, rfl, hword⟩
      refine ⟨t, ws, word t.source, hws, rfl, hfirst _ (hordered.source_mem t ht), ?_⟩
      rw [Transition.spell] at hword
      rw [← hword]
      exact hfirst _ (hordered.target_mem t ht)
  · rw [hevents, List.getLast?_concat]

/-- The automaton of `(a|b)*a` goes from its start to another state on `a`, and comes back on `b`.
Both states are recorded once, and so is each of the four transitions. -/
theorem records_of_repeated_group :
    let start : PositionSet := .ofList [.ofIndex 0, .ofIndex 1, .ofIndex 2]
    let other : PositionSet := .ofList [.ofIndex 0, .ofIndex 1, .ofIndex 2, .ofIndex 3]
    let events := (Options.trace {} "(a|b)*a").events
    ∃ a, Options.compile {} "(a|b)*a" = .ok a ∧
      foundStates events = [start, other] ∧
      foundTransitions events = [⟨start, 'a', other⟩, ⟨start, 'b', start⟩, ⟨other, 'a', other⟩,
        ⟨other, 'b', start⟩] ∧
      (foundStates events).Perm a.states.toList ∧
      (foundTransitions events).Perm a.transitions.toList ∧
      (events.map Event.text).count "new state \x7b1,2,3,4\x7d" = 1 ∧
      (∃ words, List.Forall₂ a.LeadsFirst [start, other] words ∧ words.Pairwise Precedes) ∧
      events.getLast? = some (.summary a.states.size a.accepting.size a.transitions.size) := by
  intro start other events
  obtain ⟨a, ha⟩ : ∃ a, Options.compile {} "(a|b)*a" = .ok a :=
    exists_compile_eq_ok_iff.2 ⟨_, _, _, _, rfl, rfl, rfl, rfl⟩
  have hfound : foundStates events = [start, other] := by decide +kernel
  have hcrossed : foundTransitions events = [⟨start, 'a', other⟩, ⟨start, 'b', start⟩,
      ⟨other, 'a', other⟩, ⟨other, 'b', start⟩] := by
    decide +kernel
  obtain ⟨hstates, htransitions, hcount, -, hwords, -, -, hlast⟩ := records_of_compile_eq_ok ha
  have hother : a.states.contains other = true := by
    rw [OrderedSet.contains_iff, OrderedSet.mem_iff, ← hstates.mem_iff]
    exact hfound ▸ by simp
  have hone := hcount other
  rw [if_pos hother] at hone
  exact ⟨a, ha, hfound, hcrossed, hstates, htransitions, hone, hfound ▸ hwords, hlast⟩

end PositionAutomaton
