import PositionAutomaton.Proofs.Automaton.Moves
import PositionAutomaton.Proofs.Outcome

/-!
# The exploration finds what can be reached

An exploration that succeeds adds, for each state it visits, the transitions of the state and
the states they enter (`exists_of_visit_eq_ok`). `Explored` is what holds after the visits of
the states before some index, and one more visit keeps it up (`Explored.visit`). What each visit
keeps up holds after the whole loop (`of_explore_eq_ok`).

The loop may visit as many states as there are sets of positions, and no more states than
that come up. It therefore ends with every state visited. Without a bound on the number of
states it fails only where a row is missing (`Explored.exists_explore_eq_ok`).
-/

namespace PositionAutomaton

namespace Automaton

variable {e : Expression} {follow : FollowTable} {limit : Option Nat} {x y : Exploration}
  {state source : PositionSet} {t : Transition} {i next count : Nat}

namespace Exploration

/-- What has been found, with `state` besides. -/
def withState (e : Expression) (x : Exploration) (state : PositionSet) : Exploration :=
  if x.found.contains state then x else x.push e state

/-- What has been found, with a move from `source` and the state that it enters besides. -/
def withMove (e : Expression) (source : PositionSet) (x : Exploration)
    (move : Char × PositionSet) : Exploration :=
  { x.withState e move.2 with edges := x.edges.push ⟨source, move.1, move.2⟩ }

/-- A new state is found behind the others. -/
@[simp]
theorem found_push : (x.push e state).found = x.found.push state := rfl

/-- A new state adds no transition. -/
@[simp]
theorem edges_push : (x.push e state).edges = x.edges := rfl

/-- Of the states that were found in `x`, those with the end mark of `e` are noted as accepting. -/
def AcceptsByEndMark (e : Expression) (x : Exploration) : Prop :=
  x.accepting.toList = x.found.toList.filter (·.contains e.endMark)

/-- Noting a state adds no transition. -/
theorem edges_withState : (x.withState e state).edges = x.edges := by
  rw [withState]
  split <;> rfl

/-- After `withState`, the state is found, along with those that were. -/
theorem mem_found_withState {s : PositionSet} :
    s ∈ (x.withState e state).found ↔ s ∈ x.found ∨ s = state := by
  rw [withState]
  split
  next h =>
    have hmem : state ∈ x.found := Array.contains_iff_mem.1 h
    exact ⟨.inl, fun hs => hs.elim id (· ▸ hmem)⟩
  next => exact Array.mem_push

/-- With `withState`, no state is found twice. -/
theorem nodup_found_withState (h : x.found.toList.Nodup) :
    (x.withState e state).found.toList.Nodup := by
  rw [withState]
  split
  next => exact h
  next hnew =>
    have hnot : state ∉ x.found.toList := by simpa using hnew
    rw [found_push, Array.toList_push, List.nodup_append]
    refine ⟨h, by simp, fun a ha b hb => ?_⟩
    rw [List.mem_singleton.1 hb]
    exact fun hab => hnot (hab ▸ ha)

/-- With `withState`, the states that were found keep their index. -/
theorem getElem?_found_withState (hi : i < x.found.size) :
    (x.withState e state).found[i]? = x.found[i]? := by
  rw [withState]
  split
  next => rfl
  next => rw [found_push, Array.getElem?_push_lt hi, Array.getElem?_eq_getElem hi]

/-- With `withState`, there are no fewer states than before. -/
theorem size_found_le_withState : x.found.size ≤ (x.withState e state).found.size := by
  rw [withState]
  split
  next => exact Nat.le_refl _
  next => simp

variable (source) in
/-- The states that the moves `out` enter are found, along with those that were. -/
theorem mem_found_foldl_withMove {s : PositionSet} {out : List (Char × PositionSet)} :
    s ∈ (out.foldl (withMove e source) x).found ↔ s ∈ x.found ∨ ∃ c, (c, s) ∈ out := by
  induction out generalizing x with
  | nil => simp
  | cons move out ih =>
    have hmove : s ∈ (withMove e source x move).found ↔ s ∈ x.found ∨ s = move.2 :=
      mem_found_withState
    rw [List.foldl_cons, ih, hmove, or_assoc]
    simp [Prod.ext_iff, exists_or]

/-- No state is found twice on the way through the moves `out`. -/
theorem nodup_found_foldl_withMove {out : List (Char × PositionSet)}
    (h : x.found.toList.Nodup) : (out.foldl (withMove e source) x).found.toList.Nodup := by
  induction out generalizing x with
  | nil => exact h
  | cons move out ih => exact ih (nodup_found_withState h)

/-- States that were found keep their index on the way through the moves `out`. -/
theorem getElem?_found_foldl_withMove {out : List (Char × PositionSet)}
    (hi : i < x.found.size) :
    (out.foldl (withMove e source) x).found[i]? = x.found[i]? := by
  induction out generalizing x with
  | nil => rfl
  | cons move out ih =>
    have hsize : i < (withMove e source x move).found.size :=
      Nat.lt_of_lt_of_le hi size_found_le_withState
    rw [List.foldl_cons, ih hsize]
    exact getElem?_found_withState hi

/-- To note a state is to note whether it accepts. -/
theorem AcceptsByEndMark.withState (h : AcceptsByEndMark e x) :
    AcceptsByEndMark e (x.withState e state) := by
  rw [Exploration.withState]
  split
  next => exact h
  next =>
    rw [AcceptsByEndMark, found_push, Array.toList_push, List.filter_append, ← h, push]
    cases hend : state.contains e.endMark <;> simp [hend]

/-- To note the moves `out` is to note which of the states that they enter accept. -/
theorem AcceptsByEndMark.foldl_withMove {out : List (Char × PositionSet)}
    (h : AcceptsByEndMark e x) : AcceptsByEndMark e (out.foldl (withMove e source) x) := by
  induction out generalizing x with
  | nil => exact h
  | cons move out ih => exact ih h.withState

/-- Each of the moves `out` adds its transition from `source`. -/
theorem mem_edges_foldl_withMove {out : List (Char × PositionSet)} :
    t ∈ (out.foldl (withMove e source) x).edges ↔
      t ∈ x.edges ∨ t.source = source ∧ (t.symbol, t.target) ∈ out := by
  induction out generalizing x with
  | nil => simp
  | cons move out ih =>
    have hmove : t ∈ (withMove e source x move).edges ↔
        t ∈ x.edges ∨ t.source = source ∧ (t.symbol, t.target) = move := by
      obtain ⟨s, c, target⟩ := t
      obtain ⟨d, u⟩ := move
      simp [withMove]
    rw [List.foldl_cons, ih, hmove, List.mem_cons, or_assoc, and_or_left]

end Exploration

open Exploration

/-! ### One visit -/

/-- If `discover` succeeds, the state is noted. -/
theorem eq_of_discover_eq_ok (h : (discover e limit x state).outcome = .ok y) :
    y = x.withState e state := by
  rw [discover] at h
  rw [withState]
  split at h
  next hfound =>
    cases h
    rw [if_pos hfound]
  next hnew =>
    rw [if_neg hnew]
    split at h
    next => cases h
    next =>
      cases h
      rfl

/-- Without a bound on the number of states, `discover` always succeeds. -/
theorem outcome_discover_none (x : Exploration) (state : PositionSet) :
    (discover e none x state).outcome = .ok (x.withState e state) := by
  rw [discover, withState]
  split
  next => rfl
  next => rfl

/-- If `cross` succeeds, the move is noted. -/
theorem eq_of_cross_eq_ok {move : Char × PositionSet}
    (h : (cross e limit source x move).outcome = .ok y) : y = x.withMove e source move := by
  obtain ⟨z, hz, hy⟩ := Traced.outcome_bind_eq_ok_iff.1 h
  obtain rfl := eq_of_discover_eq_ok hz
  obtain ⟨-, -, hy⟩ := Traced.outcome_bind_eq_ok_iff.1 hy
  cases hy
  rw [withMove, edges_withState]

/-- Without a bound on the number of states, `cross` always succeeds. -/
theorem outcome_cross_none (source : PositionSet) (x : Exploration)
    (move : Char × PositionSet) :
    (cross e none source x move).outcome = .ok (x.withMove e source move) := by
  simp only [cross, Traced.outcome_bind, outcome_discover_none, ok_bind, Traced.outcome_emit,
    Traced.outcome_pure, withMove, edges_withState]

/-- If `cross` succeeds on each of the moves `out`, they are noted. -/
theorem eq_of_foldlM_cross_eq_ok {out : List (Char × PositionSet)}
    (h : (out.foldlM (cross e limit source) x).outcome = .ok y) :
    y = out.foldl (withMove e source) x := by
  induction out generalizing x with
  | nil =>
    cases h
    rfl
  | cons move out ih =>
    rw [List.foldlM_cons] at h
    obtain ⟨z, hz, hy⟩ := Traced.outcome_bind_eq_ok_iff.1 h
    obtain rfl := eq_of_cross_eq_ok hz
    exact ih hy

/-- Without a bound on the number of states, `cross` succeeds on all moves. -/
theorem outcome_foldlM_cross_none (out : List (Char × PositionSet)) (x : Exploration) :
    (out.foldlM (cross e none source) x).outcome = .ok (out.foldl (withMove e source) x) := by
  induction out generalizing x with
  | nil => rfl
  | cons move out ih =>
    rw [List.foldlM_cons, Traced.outcome_bind, outcome_cross_none, ok_bind, ih, List.foldl_cons]

/-- If a `visit` succeeds, the moves of the state are found, and noted one after the other. -/
theorem exists_of_visit_eq_ok (h : (visit e follow limit x state).outcome = .ok y) :
    ∃ out, moves e follow state = .ok out ∧ y = out.foldl (withMove e state) x := by
  obtain ⟨out, hout, hy⟩ := Traced.outcome_bind_eq_ok_iff.1 h
  exact ⟨out, hout, eq_of_foldlM_cross_eq_ok hy⟩

/-- Without a bound on the number of states, `state` can be visited if its moves can be found. -/
theorem exists_visit_eq_ok (h : missing? e follow state = none) :
    ∃ y, (visit e follow none x state).outcome = .ok y := by
  obtain ⟨out, hout⟩ := exists_moves_eq_ok h
  refine ⟨out.foldl (withMove e state) x, ?_⟩
  rw [visit, Traced.outcome_bind, Traced.outcome_ofExcept, hout, ok_bind,
    outcome_foldlM_cross_none]

/-! ### The loop -/

/-- What holds once the states before the index `next` are visited. -/
structure Explored (e : Expression) (follow : FollowTable) (next : Nat) (x : Exploration) :
    Prop where
  /-- No state is found twice. -/
  nodup : x.found.toList.Nodup
  /-- The start is found. -/
  start_mem : e.start ∈ x.found
  /-- The states with the end mark are noted as accepting. -/
  accepts : AcceptsByEndMark e x
  /-- Only states that come up are found. -/
  reached : ∀ state ∈ x.found, Reached e follow state
  /-- The transitions are the moves of the visited states. -/
  mem_edges_iff : ∀ t, t ∈ x.edges ↔
    (∃ i < next, x.found[i]? = some t.source) ∧ t.target = step e follow t.source t.symbol ∧
      t.target.isEmpty = false
  /-- The states that transitions enter are found. -/
  target_mem : ∀ t ∈ x.edges, t.target ∈ x.found

/-- Before the first visit, the start alone is found. -/
theorem explored_start : Explored e follow 0 (withState e {} e.start) where
  nodup := nodup_found_withState List.nodup_nil
  start_mem := mem_found_withState.2 (.inr rfl)
  accepts := AcceptsByEndMark.withState rfl
  reached := by
    intro state hstate
    obtain rfl := (mem_found_withState.1 hstate).resolve_left (by simp)
    exact .start
  mem_edges_iff t := by simp [edges_withState]
  target_mem t ht := by simp [edges_withState] at ht

/-- The visit of the state with the index `next` keeps up what holds. -/
theorem Explored.visit (hx : Explored e follow next x) (hnext : x.found[next]? = some state)
    (h : (visit e follow limit x state).outcome = .ok y) : Explored e follow (next + 1) y := by
  obtain ⟨out, hout, rfl⟩ := exists_of_visit_eq_ok h
  obtain ⟨hsize, -⟩ := Array.getElem?_eq_some_iff.1 hnext
  have hstate : Reached e follow state := hx.reached state (Array.mem_of_getElem? hnext)
  constructor
  case nodup => exact nodup_found_foldl_withMove hx.nodup
  case start_mem => exact (mem_found_foldl_withMove state).2 (.inl hx.start_mem)
  case accepts => exact hx.accepts.foldl_withMove
  case reached =>
    intro s hs
    -- a state that is new is entered by a move from `state`
    rcases (mem_found_foldl_withMove state).1 hs with hs | ⟨c, hs⟩
    · exact hx.reached s hs
    · obtain ⟨rfl, hne⟩ := (mem_of_moves_eq_ok hout).1 hs
      exact hstate.step hne
  case mem_edges_iff =>
    intro t
    -- states keep their index, so that the visited ones are those before and `state`
    have hvisited : (∃ i < next + 1, (out.foldl (withMove e state) x).found[i]? = some t.source) ↔
        (∃ i < next, x.found[i]? = some t.source) ∨ t.source = state := by
      constructor
      · rintro ⟨i, hi, hs⟩
        rw [getElem?_found_foldl_withMove (by omega)] at hs
        rcases Nat.lt_succ_iff_lt_or_eq.1 hi with hi | rfl
        · exact .inl ⟨i, hi, hs⟩
        · exact .inr (Option.some.inj (hs.symm.trans hnext))
      · rintro (⟨i, hi, hs⟩ | rfl)
        · exact ⟨i, by omega, by rw [getElem?_found_foldl_withMove (by omega), hs]⟩
        · exact ⟨next, by omega, by rw [getElem?_found_foldl_withMove hsize, hnext]⟩
    rw [mem_edges_foldl_withMove, hx.mem_edges_iff, mem_of_moves_eq_ok hout, hvisited, or_and_right]
    apply or_congr_right
    apply and_congr_right
    rintro rfl
    rfl
  case target_mem =>
    intro t ht
    rw [mem_found_foldl_withMove]
    rcases mem_edges_foldl_withMove.1 ht with ht | ⟨-, ht⟩
    · exact .inl (hx.target_mem t ht)
    · exact .inr ⟨t.symbol, ht⟩

/-- What each visit keeps up, as `P` is, holds after the loop, which ends once no state is left or
all `count` visits are made. -/
theorem of_explore_eq_ok {P : Nat → Exploration → Prop}
    (hvisit : ∀ {next x state y}, P next x → x.found[next]? = some state →
      (Automaton.visit e follow limit x state).outcome = .ok y → P (next + 1) y)
    (hx : P next x) (h : (explore e follow limit count next x).outcome = .ok y) :
    ∃ last, P last y ∧ (y.found.size ≤ last ∨ last = next + count) := by
  induction count generalizing next x with
  | zero =>
    cases h
    exact ⟨next, hx, .inr rfl⟩
  | succ count ih =>
    rw [explore] at h
    split at h
    next hnone =>
      cases h
      exact ⟨next, hx, .inl (Array.getElem?_eq_none_iff.1 hnone)⟩
    next state hnext =>
      obtain ⟨z, hz, hy⟩ := Traced.outcome_bind_eq_ok_iff.1 h
      obtain ⟨last, hlast, hend⟩ := ih (hvisit hx hnext hz) hy
      exact ⟨last, hlast, by omega⟩

/-- Without a bound on the number of states, the loop fails only where a row is missing. -/
theorem Explored.exists_explore_eq_ok
    (hrows : ∀ state, Reached e follow state → missing? e follow state = none)
    (hx : Explored e follow next x) (count : Nat) :
    ∃ y, (Automaton.explore e follow none count next x).outcome = .ok y := by
  induction count generalizing next x with
  | zero => exact ⟨x, rfl⟩
  | succ count ih =>
    rw [Automaton.explore]
    split
    next => exact ⟨x, rfl⟩
    next state hnext =>
      have hstate := hx.reached state (Array.mem_of_getElem? hnext)
      obtain ⟨z, hz⟩ := exists_visit_eq_ok (x := x) (hrows state hstate)
      obtain ⟨y, hy⟩ := ih (hx.visit hnext hz)
      exact ⟨y, Traced.outcome_bind_eq_ok_iff.2 ⟨z, hz, hy⟩⟩

end Automaton

end PositionAutomaton
