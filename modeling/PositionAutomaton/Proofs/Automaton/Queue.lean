import Mathlib.Algebra.BigOperators.Group.Finset.Basic
import Mathlib.Algebra.Order.BigOperators.Group.Finset
import PositionAutomaton.Proofs.Automaton.Reachability
import PositionAutomaton.Proofs.OrderedSet

/-!
# The queue of states

The states that an exploration has found and not visited yet wait in a queue, from which they are
taken in the order in which they were found. `Takes` follows the loop from one state to the next,
without a number of visits that it is given beforehand.

* No state is taken twice (`Takes.nodup`), and the states that were taken are the first ones that
  were found (`Takes.isPrefix`).
* The queue runs empty, or a visit fails (`outcome_exploration_eq_ok_iff_takes` and
  `outcome_exploration_eq_error_iff_takes`).

Each state but the start is the union of the rows of positions at which the same letter is read.
That gives the number of states a bound (`Expression.stateBound`) that depends on how often each
letter is read (`length_le_stateBound_of_reached`).
-/

namespace PositionAutomaton

/-! ### Letters and where they are read -/

namespace Expression

variable (e : Expression) (c : Char)

/-- The letters that are read in `e`, from the first position to the last. -/
def allLetters : List Char :=
  e.positions.filterMap e.symbol?

/-- The positions at which the letter `c` is read. -/
def reading : List Position :=
  e.positions.filter fun p => e.symbol? p = some c

/-- A bound on the number of states: one for the start and, for each letter, one for each set of
positions that read it and are not none. -/
def stateBound : Nat :=
  1 + ∑ c ∈ e.allLetters.toFinset, (2 ^ (e.reading c).length - 1)

/-- The letter `c` is read at as many positions as it comes up among all letters. -/
theorem length_reading : (e.reading c).length = e.allLetters.count c := by
  rw [reading, allLetters, List.count_filterMap, List.countP_eq_length_filter]
  exact congrArg List.length (List.filter_congr fun p _ => Bool.eq_iff_iff.2 (by simp))

variable {e} in
/-- If no letter is read twice, there is one state for each letter at most, besides the start. -/
theorem stateBound_le_of_nodup (h : e.allLetters.Nodup) :
    e.stateBound ≤ e.allLetters.length + 1 := by
  have hone (c : Char) : 2 ^ (e.reading c).length - 1 ≤ 1 := by
    have hcount := List.nodup_iff_count_le_one.1 h c
    have hpow := Nat.pow_le_pow_right (n := 2) (by decide) (e.length_reading c ▸ hcount)
    omega
  have hsum : ∑ c ∈ e.allLetters.toFinset, (2 ^ (e.reading c).length - 1) ≤
      e.allLetters.toFinset.card := by
    simpa using Finset.sum_le_card_nsmul e.allLetters.toFinset _ 1 fun c _ => hone c
  have hcard := e.allLetters.toFinset_card_le
  rw [stateBound]
  omega

end Expression

namespace Automaton

variable {e : Expression} {follow : FollowTable} {limit : Option Nat} {x y : Exploration}
  {taken : List PositionSet} {state : PositionSet} {error : Error}

/-! ### How many states come up -/

/-- A state that comes up is the start, or the union of the rows of some positions at which the same
letter is read. -/
theorem Reached.exists_rows_reading (h : Reached e follow state) :
    state = e.start ∨
      ∃ c ∈ e.allLetters, ∃ ps, ps.Sublist (e.reading c) ∧ ps ≠ [] ∧ state = rows follow ps := by
  cases h with
  | start => exact .inl rfl
  | @step source c _ hne =>
    right
    -- the positions of the source that read the letter are some of those that read it anywhere
    let ps := (e.reading c).filter fun p => p ∈ source
    have hps : Automaton.step e follow source c = rows follow ps := by
      rw [step_eq_rows_positions]
      simp [ps, Expression.reading, List.filter_filter]
    have hne : ps ≠ [] := by
      intro hnil
      rw [hps, hnil] at hne
      simp [rows, OrderedSet.isEmpty, OrderedSet.empty, OrderedSet.ofIncreasing] at hne
    obtain ⟨p, hp⟩ := List.exists_mem_of_ne_nil ps hne
    have hmem := List.mem_filter.1 (List.filter_sublist.subset hp)
    refine ⟨c, List.mem_filterMap.2 ⟨p, hmem.1, by simpa using hmem.2⟩, ps, ?_, hne, hps⟩
    exact List.filter_sublist

/-- At most as many states come up as the letters allow. -/
theorem length_le_stateBound_of_reached {states : List PositionSet} (hnodup : states.Nodup)
    (hreached : ∀ state ∈ states, Reached e follow state) : states.length ≤ e.stateBound := by
  -- for each letter, the unions of the rows of some positions that read it
  let unions (c : Char) : Finset PositionSet :=
    (((e.reading c).sublists.erase []).map (rows follow)).toFinset
  have hunions (c : Char) : (unions c).card ≤ 2 ^ (e.reading c).length - 1 := by
    refine (List.toFinset_card_le _).trans (le_of_eq ?_)
    rw [List.length_map, List.length_erase_of_mem (by simp), List.length_sublists]
  have hsubset : states.toFinset ⊆ insert e.start (e.allLetters.toFinset.biUnion unions) := by
    intro state hstate
    rw [Finset.mem_insert, Finset.mem_biUnion]
    rcases (hreached state (List.mem_toFinset.1 hstate)).exists_rows_reading with
      rfl | ⟨c, hc, ps, hps, hne, rfl⟩
    · exact .inl rfl
    · refine .inr ⟨c, List.mem_toFinset.2 hc, List.mem_toFinset.2 (List.mem_map_of_mem ?_)⟩
      exact (List.mem_erase_of_ne hne).2 (List.mem_sublists.2 hps)
  calc states.length
      = states.toFinset.card := (List.toFinset_card_of_nodup hnodup).symm
    _ ≤ (insert e.start (e.allLetters.toFinset.biUnion unions)).card := Finset.card_le_card hsubset
    _ ≤ (e.allLetters.toFinset.biUnion unions).card + 1 := Finset.card_insert_le _ _
    _ ≤ e.stateBound := by
      have hsum := Finset.card_biUnion_le.trans
        (Finset.sum_le_sum (s := e.allLetters.toFinset) fun c _ => hunions c)
      rw [Expression.stateBound]
      omega

/-- An automaton has at most as many states as `stateBound` says. -/
theorem size_states_le_stateBound {a : Automaton} (h : (build e follow limit).outcome = .ok a) :
    a.states.size ≤ e.stateBound := by
  have hreached : ∀ state ∈ a.states.toList, Reached e follow state :=
    fun state hstate => (mem_states_iff h).1 (OrderedSet.mem_iff.2 hstate)
  exact length_le_stateBound_of_reached (OrderedSet.nodup_toList _) hreached

/-! ### Taking states from the queue -/

/-- `Takes e follow limit taken x` says that the loop takes the states `taken` from its queue, one
after the other, and has then found `x`. The queue holds the states that were found behind as many
as were taken. -/
inductive Takes (e : Expression) (follow : FollowTable) (limit : Option Nat) :
    List PositionSet → Exploration → Prop where
  /-- At first the start is noted, and nothing is taken. -/
  | start {x : Exploration} : (discover e limit {} e.start).outcome = .ok x →
      Takes e follow limit [] x
  /-- The state at the front of the queue is taken and visited. -/
  | take {taken : List PositionSet} {x y : Exploration} {state : PositionSet} :
      Takes e follow limit taken x → x.found[taken.length]? = some state →
        (visit e follow limit x state).outcome = .ok y → Takes e follow limit (taken ++ [state]) y

namespace Takes

/-- What holds once the states before some index are visited holds once the states `taken` are. -/
theorem explored (h : Takes e follow limit taken x) : Explored e follow taken.length x := by
  induction h with
  | start hx =>
    rw [eq_of_discover_eq_ok hx]
    exact explored_start
  | take _ hstate hy ih =>
    rw [List.length_append]
    exact ih.visit hstate hy

/-- The states `taken` are the first ones that were found. -/
theorem isPrefix (h : Takes e follow limit taken x) : taken <+: x.found.toList := by
  rw [List.prefix_iff_getElem?]
  induction h with
  | start => simp
  | @take taken x y state htaken hstate hy ih =>
    -- a visit adds states behind those that were found, so that the first ones stay
    obtain ⟨out, -, rfl⟩ := exists_of_visit_eq_ok hy
    obtain ⟨hsize, -⟩ := Array.getElem?_eq_some_iff.1 hstate
    intro i hi
    rw [List.length_append, List.length_singleton] at hi
    rw [Array.getElem?_toList, Exploration.getElem?_found_foldl_withMove (by omega),
      List.getElem_append]
    split
    next hlt => simpa using ih i hlt
    next hge =>
      obtain rfl : i = taken.length := by omega
      simpa using hstate

/-- No state is taken twice. -/
theorem nodup (h : Takes e follow limit taken x) : taken.Nodup :=
  h.isPrefix.sublist.nodup h.explored.nodup

/-- There are never more states than `stateBound` says. -/
theorem size_found_le (h : Takes e follow limit taken x) : x.found.size ≤ e.stateBound :=
  length_le_stateBound_of_reached h.explored.nodup fun state hstate =>
    h.explored.reached state (by simpa using hstate)

/-- While `state` waits in the queue, one of the `count` visits is left for it. -/
theorem exists_count_eq_succ {count : Nat} (h : Takes e follow limit taken x)
    (hstate : x.found[taken.length]? = some state)
    (hcount : taken.length + count = Nat.pow 2 e.positionCount) : ∃ n, count = n + 1 := by
  obtain ⟨hlt, -⟩ := Array.getElem?_eq_some_iff.1 hstate
  have hbound := length_le_of_reached h.explored.nodup fun s hs =>
    h.explored.reached s (by simpa using hs)
  rw [Array.length_toList] at hbound
  exact ⟨count - 1, by omega⟩

/-- The outcome of the whole exploration is that of the `count` visits which are left. -/
theorem exists_outcome_exploration_eq (h : Takes e follow limit taken x) :
    ∃ count, taken.length + count = Nat.pow 2 e.positionCount ∧
      (exploration e follow limit).outcome =
        (explore e follow limit count taken.length x).outcome := by
  induction h with
  | start hx =>
    refine ⟨_, Nat.zero_add _, ?_⟩
    rw [exploration, Traced.outcome_bind, hx, ok_bind]
    rfl
  | @take taken x y state htaken hstate hy ih =>
    obtain ⟨count, hcount, houtcome⟩ := ih
    obtain ⟨count, rfl⟩ := htaken.exists_count_eq_succ hstate hcount
    rw [List.length_append, List.length_singleton]
    refine ⟨count, by omega, ?_⟩
    rw [houtcome, explore, hstate, Traced.outcome_bind, hy, ok_bind]

/-- If the visits that are left fail, one of them does, after those before it have not. -/
theorem exists_of_explore_eq_error {count : Nat} (h : Takes e follow limit taken x)
    (herror : (explore e follow limit count taken.length x).outcome = .error error) :
    ∃ taken x state, Takes e follow limit taken x ∧ x.found[taken.length]? = some state ∧
      (visit e follow limit x state).outcome = .error error := by
  induction count generalizing taken x with
  | zero => cases herror
  | succ count ih =>
    rw [explore] at herror
    split at herror
    next => cases herror
    next state hstate =>
      rw [Traced.outcome_bind] at herror
      rcases bind_eq_error_iff.1 herror with herror | ⟨y, hy, herror⟩
      · exact ⟨taken, x, state, h, hstate, herror⟩
      · exact ih (h.take hstate hy) (by simpa using herror)

end Takes

/-- An exploration succeeds with `x` once all states that were found in `x` are taken from the
queue. -/
theorem outcome_exploration_eq_ok_iff_takes :
    (exploration e follow limit).outcome = .ok x ↔ Takes e follow limit x.found.toList x := by
  constructor
  · intro h
    obtain ⟨z, hz, -⟩ := Traced.outcome_bind_eq_ok_iff.1 h
    obtain ⟨last, -, ⟨taken, rfl, htaken⟩, hsize⟩ := of_exploration_eq_ok
      (P := fun next x => ∃ taken : List PositionSet, taken.length = next ∧
        Takes e follow limit taken x)
      ⟨[], rfl, .start (eq_of_discover_eq_ok hz ▸ hz)⟩
      (fun ⟨taken, hnext, htaken⟩ hstate hy =>
        ⟨taken ++ [_], by simp [hnext], htaken.take (hnext ▸ hstate) hy⟩) h
    -- what was taken is all that was found
    rwa [← htaken.isPrefix.eq_of_length_le (by simpa using hsize)]
  · intro h
    obtain ⟨count, -, houtcome⟩ := h.exists_outcome_exploration_eq
    rw [houtcome]
    cases count with
    | zero => rfl
    | succ count => simp [explore]

/-- An exploration fails with `error` where the start cannot be noted, or where the visit of a
`state` that is taken from the queue fails. -/
theorem outcome_exploration_eq_error_iff_takes :
    (exploration e follow limit).outcome = .error error ↔
      (discover e limit {} e.start).outcome = .error error ∨
        ∃ taken x state, Takes e follow limit taken x ∧ x.found[taken.length]? = some state ∧
          (visit e follow limit x state).outcome = .error error := by
  constructor
  · intro h
    rw [exploration, Traced.outcome_bind] at h
    refine (bind_eq_error_iff.1 h).imp_right ?_
    rintro ⟨z, hz, h⟩
    exact (Takes.start hz).exists_of_explore_eq_error h
  · rintro (h | ⟨taken, x, state, htakes, hstate, h⟩)
    · rw [exploration, Traced.outcome_bind, h, error_bind]
    · obtain ⟨count, hcount, houtcome⟩ := htakes.exists_outcome_exploration_eq
      obtain ⟨count, rfl⟩ := htakes.exists_count_eq_succ hstate hcount
      rw [houtcome, explore, hstate, Traced.outcome_bind, h, error_bind]

end Automaton

end PositionAutomaton
