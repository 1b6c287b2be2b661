import PositionAutomaton.Proofs.Automaton.Reachability

/-!
# Follow tables of other expressions

A follow table that has fewer rows than the expression has positions may end the construction of an
automaton. Without a bound on the number of states, it does so exactly if a state without its row
comes up behind states that have theirs (`exists_build_eq_missingRow_iff`).
-/

namespace PositionAutomaton

namespace Automaton

variable {e : Expression} {follow : FollowTable} {limit : Option Nat} {x : Exploration}
  {a : Automaton} {state : PositionSet} {error : Error}

/-- The states that come up from the start of `e`, through states in which each position that reads
a letter has a row in `follow`. -/
inductive ReachedWithin (e : Expression) (follow : FollowTable) : PositionSet → Prop where
  /-- The start comes up. -/
  | start : ReachedWithin e follow e.start
  /-- Where a step leads from a state that comes up and has its rows, if it leads somewhere, comes
  up. -/
  | step {state : PositionSet} {c : Char} :
      ReachedWithin e follow state →
        (∀ p ∈ state, (e.symbol? p).isSome = true → p.number ≤ follow.rows.size) →
        (step e follow state c).isEmpty = false → ReachedWithin e follow (step e follow state c)

/-! ### Errors of a construction -/

/-- Only the bound `limit` on the number of states keeps a state from being noted. -/
theorem of_discover_eq_error (h : (discover e limit x state).outcome = .error error) :
    ∃ n ∈ limit, error = .tooManyStates n := by
  rw [discover] at h
  split at h
  next => cases h
  next =>
    split at h
    next n hfull =>
      cases h
      exact ⟨n, (Option.filter_eq_some_iff.1 hfull).1, rfl⟩
    next => cases h

/-- The construction fails with `error` because of the bound `limit` on the number of states, or
because of a row. -/
def Fails (e : Expression) (follow : FollowTable) (limit : Option Nat) (error : Error) : Prop :=
  (∃ n ∈ limit, error = .tooManyStates n) ∨
    ∃ state p, missing? e follow state = some p ∧ error = .missingRow p

/-- A `visit` fails because of the bound on the number of states, or because of a row. -/
theorem of_visit_eq_error (h : (visit e follow limit x state).outcome = .error error) :
    Fails e follow limit error := by
  rw [visit, Traced.outcome_bind, Traced.outcome_ofExcept] at h
  -- the moves fail for a row, and noting them fails for the bound
  rcases bind_eq_error_iff.1 h with h | ⟨out, -, h⟩
  · rw [moves] at h
    split at h
    next p hmissing =>
      cases h
      exact .inr ⟨state, p, hmissing, rfl⟩
    next => cases h
  · rw [Traced.outcome_foldlM] at h
    obtain ⟨-, move, -, y, -, -, hmove⟩ := foldlM_eq_error_iff.1 h
    rw [cross, Traced.outcome_bind] at hmove
    rcases bind_eq_error_iff.1 hmove with hmove | ⟨z, -, hmove⟩
    · exact .inl (of_discover_eq_error hmove)
    · cases hmove

/-- The loop fails because of the bound on the number of states, or because of a row. -/
theorem of_explore_eq_error {count next : Nat}
    (h : (explore e follow limit count next x).outcome = .error error) :
    Fails e follow limit error := by
  induction count generalizing next x with
  | zero => cases h
  | succ count ih =>
    rw [explore] at h
    split at h
    next => cases h
    next state _ =>
      rw [Traced.outcome_bind] at h
      rcases bind_eq_error_iff.1 h with h | ⟨y, -, h⟩
      · exact of_visit_eq_error h
      · exact ih h

/-- A construction fails because of the bound on the number of states, or because of a row. -/
theorem of_build_eq_error (h : (build e follow limit).outcome = .error error) :
    Fails e follow limit error := by
  rw [build, Traced.outcome_bind] at h
  rcases bind_eq_error_iff.1 h with h | ⟨x, -, h⟩
  · rw [exploration, Traced.outcome_bind] at h
    rcases bind_eq_error_iff.1 h with h | ⟨x, -, h⟩
    · exact .inl (of_discover_eq_error h)
    · exact of_explore_eq_error h
  · cases h

/-! ### Rows of the states that come up -/

/-- The `moves` of a state can be found only if no row is missing. -/
theorem missing?_eq_none_of_moves_eq_ok {out : List (Char × PositionSet)}
    (h : moves e follow state = .ok out) : missing? e follow state = none := by
  rw [moves] at h
  split at h
  next => cases h
  next hmissing => exact hmissing

/-- In the states of `x` before the index `next` no row is missing. -/
def RowsFound (e : Expression) (follow : FollowTable) (next : Nat) (x : Exploration) : Prop :=
  ∀ i < next, ∀ state, x.found[i]? = some state → missing? e follow state = none

/-- A visit that succeeds finds the rows of the state. -/
theorem RowsFound.visit {next : Nat} {y : Exploration} (hx : RowsFound e follow next x)
    (hnext : x.found[next]? = some state)
    (h : (Automaton.visit e follow limit x state).outcome = .ok y) :
    RowsFound e follow (next + 1) y := by
  obtain ⟨out, hout, rfl⟩ := exists_of_visit_eq_ok h
  obtain ⟨hsize, -⟩ := Array.getElem?_eq_some_iff.1 hnext
  intro i hi s hs
  rw [Exploration.getElem?_found_foldl_withMove (by omega)] at hs
  rcases Nat.lt_succ_iff_lt_or_eq.1 hi with hi | rfl
  · exact hx i hi s hs
  · obtain rfl : state = s := Option.some.inj (hnext.symm.trans hs)
    exact missing?_eq_none_of_moves_eq_ok hout

/-- After a construction that succeeds, no row is missing in a state with `Reached`. -/
theorem missing?_eq_none_of_build_eq_ok (h : (build e follow limit).outcome = .ok a)
    (hstate : Reached e follow state) : missing? e follow state = none := by
  obtain ⟨x, hx, -⟩ := build_eq_ok_iff.1 h
  obtain ⟨last, -, hrows, hsize⟩ :=
    of_exploration_eq_ok (P := RowsFound e follow) (fun i hi => absurd hi i.not_lt_zero)
      RowsFound.visit hx
  obtain ⟨i, hi, hfound⟩ := Array.getElem_of_mem ((mem_found_iff_reached hx).2 hstate)
  exact hrows i (by omega) state (by rw [Array.getElem?_eq_getElem hi, hfound])

/-- A position of `state` lacks its row if it reads a letter and is numbered above the rows of
`follow`. -/
theorem missing?_ne_none_iff :
    missing? e follow state ≠ none ↔
      ∃ p ∈ state, (e.symbol? p).isSome = true ∧ follow.rows.size < p.number := by
  have hrow (p : Position) : (follow.row? p).isSome = true ↔ ¬follow.rows.size < p.number := by
    have := p.number_pos
    rw [FollowTable.isSome_row?_iff, Position.index]
    omega
  simp [missing?_eq_none_iff, hrow]

/-- What comes up behind states that have their rows comes up: `ReachedWithin` implies `Reached`. -/
theorem ReachedWithin.reached (h : ReachedWithin e follow state) : Reached e follow state := by
  induction h with
  | start => exact .start
  | step _ _ hne ih => exact ih.step hne

/-- Where no state behind states that have their rows lacks one, these are all that come up. -/
theorem Reached.within
    (hrows : ∀ state, ReachedWithin e follow state → missing? e follow state = none)
    (h : Reached e follow state) : ReachedWithin e follow state := by
  induction h with
  | start => exact .start
  | @step source c _ hne ih =>
    refine ih.step (fun p hp hsymbol => ?_) hne
    by_contra hlt
    exact missing?_ne_none_iff.2 ⟨p, hp, hsymbol, by omega⟩ (hrows source ih)

/-- Without a bound on the number of states, a construction ends for want of a row exactly if,
from the start and through states in which each position that reads a letter has a row, a state
comes up with a position that reads a letter and is numbered above the rows. -/
theorem exists_build_eq_missingRow_iff :
    (∃ p, (build e follow none).outcome = .error (.missingRow p)) ↔
      ∃ state, ReachedWithin e follow state ∧
        ∃ p ∈ state, (e.symbol? p).isSome = true ∧ follow.rows.size < p.number := by
  simp only [← missing?_ne_none_iff]
  constructor
  · rintro ⟨p, hp⟩
    by_contra! hnone
    -- if no such state comes up, no state lacks a row, and there is an automaton
    obtain ⟨a, ha⟩ := exists_build_eq_ok fun state hstate => hnone state (hstate.within hnone)
    rw [ha] at hp
    cases hp
  · rintro ⟨state, hstate, hmissing⟩
    match hbuild : (build e follow none).outcome with
    | .ok a => exact absurd (missing?_eq_none_of_build_eq_ok hbuild hstate.reached) hmissing
    | .error error =>
      rcases of_build_eq_error hbuild with ⟨n, hn, -⟩ | ⟨-, p, -, rfl⟩
      · cases hn
      · exact ⟨p, rfl⟩

end Automaton

end PositionAutomaton
