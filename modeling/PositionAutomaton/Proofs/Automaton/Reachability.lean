import PositionAutomaton.Proofs.Automaton.Exploration

/-!
# The automaton that is built

The states of an automaton that is built are those that can be reached from its start
(`mem_states_iff`), and it has the transitions that steps from them make
(`mem_transitions_iff`), so that reading a symbol in a state is one step
(`transition?_eq_some_iff`). Without a bound on the number of states, an automaton is built
whenever no row is missing in a reached state (`exists_build_eq_ok`).
-/

namespace PositionAutomaton

namespace Automaton

variable {e : Expression} {follow : FollowTable} {limit : Option Nat} {x : Exploration}
  {a : Automaton} {state target : PositionSet} {c : Char} {t : Transition}

/-- The exploration visits every state that it finds, and what each visit keeps up besides, as `P`
is, holds when it ends. -/
theorem of_exploration_eq_ok {P : Nat → Exploration → Prop}
    (hstart : P 0 (Exploration.withState e {} e.start))
    (hvisit : ∀ {next x state y}, P next x → x.found[next]? = some state →
      (visit e follow limit x state).outcome = .ok y → P (next + 1) y)
    (h : (exploration e follow limit).outcome = .ok x) :
    ∃ last, Explored e follow last x ∧ P last x ∧ x.found.size ≤ last := by
  obtain ⟨z, hz, hx⟩ := Traced.outcome_bind_eq_ok_iff.1 h
  obtain rfl := eq_of_discover_eq_ok hz
  obtain ⟨last, ⟨hlast, hP⟩, hend⟩ :=
    of_explore_eq_ok (P := fun next x => Explored e follow next x ∧ P next x)
      (fun hx hnext hy => ⟨hx.1.visit hnext hy, hvisit hx.2 hnext hy⟩) ⟨explored_start, hstart⟩ hx
  refine ⟨last, hlast, hP, hend.elim id fun hcount => ?_⟩
  -- all visits were made, which are as many as states can come up
  have hbound := length_le_of_reached hlast.nodup fun s hs => hlast.reached s (by simpa using hs)
  rw [Nat.zero_add] at hcount
  rw [hcount]
  simpa using hbound

/-- The exploration visits every state that it finds in `x`. -/
theorem explored_of_exploration_eq_ok (h : (exploration e follow limit).outcome = .ok x) :
    ∃ last, Explored e follow last x ∧ x.found.size ≤ last := by
  obtain ⟨last, hlast, -, hsize⟩ :=
    of_exploration_eq_ok (P := fun _ _ => True) trivial (fun _ _ _ => trivial) h
  exact ⟨last, hlast, hsize⟩

/-- The states that are found in `x` are those with `Reached`. -/
theorem mem_found_iff_reached (h : (exploration e follow limit).outcome = .ok x) :
    state ∈ x.found ↔ Reached e follow state := by
  obtain ⟨last, hx, hlast⟩ := explored_of_exploration_eq_ok h
  refine ⟨hx.reached state, fun hreached => ?_⟩
  -- all states are visited, so that the targets of their steps are found as well
  induction hreached with
  | start => exact hx.start_mem
  | @step source c _ hne ih =>
    obtain ⟨i, hi, hsource⟩ := Array.getElem_of_mem ih
    refine hx.target_mem ⟨source, c, step e follow source c⟩ ((hx.mem_edges_iff _).2 ⟨?_, rfl, hne⟩)
    exact ⟨i, by omega, by rw [Array.getElem?_eq_getElem hi, hsource]⟩

/-- The transitions that are found in `x` are the steps that lead somewhere from states with
`Reached`. -/
theorem mem_edges_iff_step (h : (exploration e follow limit).outcome = .ok x) :
    t ∈ x.edges ↔
      Reached e follow t.source ∧ t.target = step e follow t.source t.symbol ∧
        t.target.isEmpty = false := by
  obtain ⟨last, hx, hlast⟩ := explored_of_exploration_eq_ok h
  rw [hx.mem_edges_iff, ← mem_found_iff_reached h]
  refine and_congr_left' ⟨?_, ?_⟩
  · rintro ⟨i, -, hi⟩
    exact Array.mem_of_getElem? hi
  · intro hmem
    obtain ⟨i, hi, hsource⟩ := Array.getElem_of_mem hmem
    exact ⟨i, by omega, by rw [Array.getElem?_eq_getElem hi, hsource]⟩

/-- An automaton that is built is that of what was found by the `exploration`. -/
theorem build_eq_ok_iff :
    (build e follow limit).outcome = .ok a ↔
      ∃ x, (exploration e follow limit).outcome = .ok x ∧ ofExploration e x = a := by
  rw [build, Traced.outcome_bind_eq_ok_iff]
  simp only [Traced.outcome_bind, Traced.outcome_emit, ok_bind, Traced.outcome_pure,
    Except.ok.injEq]

/-- Without a bound on the number of states, an automaton is built if no row is missing in the
states with `Reached`. -/
theorem exists_build_eq_ok
    (hrows : ∀ state, Reached e follow state → missing? e follow state = none) :
    ∃ a, (build e follow none).outcome = .ok a := by
  obtain ⟨x, hx⟩ :=
    Explored.exists_explore_eq_ok hrows explored_start (Nat.pow 2 e.positionCount)
  refine ⟨ofExploration e x, build_eq_ok_iff.2 ⟨x, ?_, rfl⟩⟩
  rw [exploration, Traced.outcome_bind, outcome_discover_none, ok_bind, hx]

section Built

variable (h : (build e follow limit).outcome = .ok a)
include h

/-- The start of `a` is that of `e`. -/
theorem start_eq : a.start = e.start := by
  obtain ⟨x, -, rfl⟩ := build_eq_ok_iff.1 h
  rfl

/-- The end mark of `a` is that of `e`. -/
theorem endMark_eq : a.endMark = e.endMark := by
  obtain ⟨x, -, rfl⟩ := build_eq_ok_iff.1 h
  rfl

/-- The automaton `a` does not fold case. -/
theorem foldCase_eq_false : a.foldCase = false := by
  obtain ⟨x, -, rfl⟩ := build_eq_ok_iff.1 h
  rfl

/-- The states of `a` are those with `Reached`. -/
theorem mem_states_iff : state ∈ a.states ↔ Reached e follow state := by
  obtain ⟨x, hx, rfl⟩ := build_eq_ok_iff.1 h
  rw [ofExploration, OrderedSet.mem_ofList, Array.mem_toList_iff, mem_found_iff_reached hx]

/-- The transitions of `a` are the steps that lead somewhere from states with `Reached`. -/
theorem mem_transitions_iff :
    t ∈ a.transitions ↔
      Reached e follow t.source ∧ t.target = step e follow t.source t.symbol ∧
        t.target.isEmpty = false := by
  obtain ⟨x, hx, rfl⟩ := build_eq_ok_iff.1 h
  rw [ofExploration, OrderedSet.mem_ofList, Array.mem_toList_iff, mem_edges_iff_step hx]

/-- The states of `a` that accept are those with the end mark of `e` as a member. -/
theorem mem_accepting_iff : state ∈ a.accepting ↔ state ∈ a.states ∧ e.endMark ∈ state := by
  obtain ⟨x, hx, rfl⟩ := build_eq_ok_iff.1 h
  obtain ⟨last, hexplored, -⟩ := explored_of_exploration_eq_ok hx
  rw [ofExploration, OrderedSet.mem_ofList, OrderedSet.mem_ofList, hexplored.accepts,
    List.mem_filter, OrderedSet.contains_iff]

end Built

/-! ### Looking transitions up -/

/-- Transitions by their source and symbol. -/
abbrev compareMove : Transition → Transition → Ordering :=
  compareLex (compareOn Transition.source) (compareOn Transition.symbol)

/-- Lesser transitions have no greater source and symbol: `compareMove` follows their order. -/
theorem isLE_compareMove {s t : Transition} (h : compare s t = .lt) : (compareMove s t).isLE := by
  have hthen : ∀ {o₁ o₂ o₃ : Ordering}, o₁.then (o₂.then o₃) = .lt → (o₁.then o₂).isLE := by
    decide
  exact hthen h

/-- Where no two transitions of `a` leave a state on the same symbol, `transition?` finds the one
that does. -/
theorem transition?_eq_some_iff_mem
    (hunique : ∀ s ∈ a.transitions, ∀ t ∈ a.transitions, s.source = t.source →
      s.symbol = t.symbol → s = t) :
    a.transition? state c = some target ↔ ⟨state, c, target⟩ ∈ a.transitions := by
  -- the place that is looked for is that of a transition of which only the target is open
  let place : Transition := ⟨state, c, .empty⟩
  have hfind (t : Transition) : (a.transitions.find? fun t =>
      (compare t.source state).then (compare t.symbol c)) = some t ↔
        t ∈ a.transitions ∧ compareMove t place = .eq := by
    apply OrderedSet.find?_eq_some_iff (fun t => compareMove t place)
    -- transitions are ordered by source and symbol first, before or behind the place
    · intro s t hst ht
      exact Std.TransCmp.lt_of_isLE_of_lt (isLE_compareMove hst) ht
    · intro s t hst hs
      have hplace : compareMove place s = .lt := Std.OrientedCmp.lt_of_gt hs
      exact Std.OrientedCmp.gt_of_lt
        (Std.TransCmp.lt_of_lt_of_isLE hplace (isLE_compareMove hst))
    · intro s hs t ht hseq hteq
      simp only [compareLex_eq_eq, compareOn, Std.LawfulEqCmp.compare_eq_iff_eq] at hseq hteq
      exact hunique s hs t ht (hseq.1.trans hteq.1.symm) (hseq.2.trans hteq.2.symm)
  have hplace (t : Transition) :
      compareMove t place = .eq ↔ t.source = state ∧ t.symbol = c := by
    simp [place, compareLex_eq_eq, compareOn]
  rw [transition?, Option.map_eq_some_iff]
  simp only [hfind, hplace]
  constructor
  · rintro ⟨⟨s, d, u⟩, ⟨ht, rfl, rfl⟩, rfl⟩
    exact ht
  · intro ht
    exact ⟨_, ⟨ht, rfl, rfl⟩, rfl⟩

/-- Reading `c` in a state of an automaton that is built is one `step`. -/
theorem transition?_eq_some_iff (h : (build e follow limit).outcome = .ok a) :
    a.transition? state c = some target ↔
      Reached e follow state ∧ target = step e follow state c ∧ target.isEmpty = false := by
  rw [transition?_eq_some_iff_mem, mem_transitions_iff h]
  -- the target of a transition is given by its source and symbol
  intro s hs t ht hsource hsymbol
  obtain ⟨-, hs, -⟩ := (mem_transitions_iff h).1 hs
  obtain ⟨-, ht, -⟩ := (mem_transitions_iff h).1 ht
  obtain ⟨source, c, target⟩ := s
  cases t
  simp_all

end Automaton

end PositionAutomaton
