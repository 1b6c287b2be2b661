import Mathlib.Data.List.Sublists
import PositionAutomaton.Automaton.Construction
import PositionAutomaton.Proofs.Expression.Numbering
import PositionAutomaton.Proofs.FollowTable

/-!
# Single steps

Where a state goes on a letter, in terms of what the follow table allows (`mem_step_iff`),
which moves are taken from a state (`mem_of_moves_eq_ok`) and when they can be found
(`exists_moves_eq_ok`).

The states that come up are those of `Reached`: the start, and whatever a step leads to that
is not empty. Each of them but the start is the union of the rows of some positions, so that
there are no more of them than sets of positions (`length_le_of_reached`).
-/

namespace PositionAutomaton

/-- The letters of `state` are the symbols of its positions. -/
theorem Expression.mem_letters_iff {e : Expression} {c : Char} {state : PositionSet} :
    c ∈ e.letters state ↔ ∃ p ∈ state, e.symbol? p = some c := by
  rw [letters, OrderedSet.mem_ofList, List.mem_filterMap]
  rfl

namespace Automaton

variable {e : Expression} {follow : FollowTable} {state target : PositionSet} {p q : Position}
  {c : Char}

/-- The union of the rows of the positions `ps` in `follow`. -/
def rows (follow : FollowTable) (ps : List Position) : PositionSet :=
  ps.foldl (fun target p => target.absorb ((follow.row? p).getD .empty)) .empty

/-- A `step` leads to the union of the rows of the positions that read the symbol. -/
theorem step_eq_rows (state : PositionSet) (c : Char) :
    step e follow state c = rows follow (state.toList.filter fun p => e.symbol? p = some c) :=
  rfl

/-- The union of the rows of `ps` has what `follow` allows behind one of them. -/
theorem mem_rows_iff {ps : List Position} : q ∈ rows follow ps ↔ ∃ p ∈ ps, follow.Allows p q := by
  have hrow (p : Position) : q ∈ (follow.row? p).getD .empty ↔ follow.Allows p q := by
    rw [FollowTable.Allows]
    cases follow.row? p <;> simp
  -- for the induction, the union starts with any set
  suffices h : ∀ target : PositionSet,
      q ∈ ps.foldl (fun target p => target.absorb ((follow.row? p).getD .empty)) target ↔
        q ∈ target ∨ ∃ p ∈ ps, follow.Allows p q by
    rw [rows, h]
    simp
  induction ps with
  | nil => simp
  | cons p ps ih =>
    intro target
    rw [List.foldl_cons, ih, OrderedSet.absorb_eq_union, OrderedSet.mem_union, hrow, or_assoc]
    simp

/-- A `step` leads to what `follow` allows behind a position that reads `c`. -/
theorem mem_step_iff :
    q ∈ step e follow state c ↔ ∃ p ∈ state, e.symbol? p = some c ∧ follow.Allows p q := by
  rw [step_eq_rows, mem_rows_iff]
  simp [OrderedSet.mem_iff, and_assoc]

/-- A set is not empty if it has a member. -/
theorem isEmpty_eq_false_iff : state.isEmpty = false ↔ ∃ p, p ∈ state := by
  rw [← Bool.not_eq_true, OrderedSet.isEmpty_iff]
  simp

/-- If the step on `c` leads somewhere, `c` is a letter of the state. -/
theorem mem_letters_of_step (h : (step e follow state c).isEmpty = false) :
    c ∈ e.letters state := by
  obtain ⟨q, hq⟩ := isEmpty_eq_false_iff.1 h
  obtain ⟨p, hp, hc, -⟩ := mem_step_iff.1 hq
  exact Expression.mem_letters_iff.2 ⟨p, hp, hc⟩

/-- No row is missing in `state` if each of its positions that has a symbol has a row. -/
theorem missing?_eq_none_iff :
    missing? e follow state = none ↔
      ∀ p ∈ state, (e.symbol? p).isSome = true → (follow.row? p).isSome = true := by
  simp [missing?, OrderedSet.mem_iff, Option.isSome_iff_ne_none]

/-- The `moves` of a state can be found if no row is missing. -/
theorem exists_moves_eq_ok (h : missing? e follow state = none) :
    ∃ out, moves e follow state = .ok out := by
  rw [moves, h]
  exact ⟨_, rfl⟩

/-- The `moves` of a state are its steps that lead somewhere. -/
theorem mem_of_moves_eq_ok {out : List (Char × PositionSet)} (h : moves e follow state = .ok out) :
    (c, target) ∈ out ↔ target = step e follow state c ∧ target.isEmpty = false := by
  rw [moves] at h
  split at h
  next => cases h
  next =>
    cases h
    simp only [List.mem_filter, List.mem_map, Prod.mk.injEq, Bool.not_eq_true']
    constructor
    · rintro ⟨⟨d, -, rfl, rfl⟩, htarget⟩
      exact ⟨rfl, htarget⟩
    · rintro ⟨rfl, htarget⟩
      exact ⟨⟨c, mem_letters_of_step htarget, rfl, rfl⟩, htarget⟩

/-! ### Reached states -/

/-- The states that come up from the start of `e`, one `step` after the other. -/
inductive Reached (e : Expression) (follow : FollowTable) : PositionSet → Prop where
  /-- The start comes up. -/
  | start : Reached e follow e.start
  /-- Where a step leads from a state that comes up, if it leads somewhere, comes up. -/
  | step {state : PositionSet} {c : Char} :
      Reached e follow state → (step e follow state c).isEmpty = false →
        Reached e follow (step e follow state c)

/-- A `step` leads to the union of the rows of some of the positions of `e`. -/
theorem step_eq_rows_positions :
    step e follow state c =
      rows follow (e.positions.filter fun p => p ∈ state ∧ e.symbol? p = some c) := by
  ext q
  rw [mem_step_iff, mem_rows_iff]
  simp only [List.mem_filter, decide_eq_true_eq]
  constructor
  · rintro ⟨p, hp, hc, hq⟩
    have hpos := Expression.mem_positions_iff.2 (Expression.index_lt_of_symbol?_eq_some hc)
    exact ⟨p, ⟨hpos, hp, hc⟩, hq⟩
  · rintro ⟨p, ⟨-, hp, hc⟩, hq⟩
    exact ⟨p, hp, hc, hq⟩

/-- A state that comes up is the start, or the union of the rows of some positions of `e`. -/
theorem Reached.exists_rows (h : Reached e follow state) :
    state = e.start ∨ ∃ ps, ps.Sublist e.positions ∧ ps ≠ [] ∧ state = rows follow ps := by
  cases h with
  | start => exact .inl rfl
  | @step source c _ hne =>
    refine .inr ⟨_, List.filter_sublist, fun hnil => ?_, step_eq_rows_positions⟩
    -- the union of no rows is empty
    rw [step_eq_rows_positions, hnil] at hne
    simp [rows, OrderedSet.isEmpty, OrderedSet.empty, OrderedSet.ofIncreasing] at hne

/-- At most as many states come up as there are sets of positions. -/
theorem length_le_of_reached {states : List PositionSet} (hnodup : states.Nodup)
    (hreached : ∀ state ∈ states, Reached e follow state) :
    states.length ≤ Nat.pow 2 e.positionCount := by
  -- the start takes the place of the union of no rows, which does not come up
  let name (ps : List Position) : PositionSet := if ps = [] then e.start else rows follow ps
  have hsubset : states ⊆ e.positions.sublists.map name := by
    intro state hstate
    rcases (hreached state hstate).exists_rows with rfl | ⟨ps, hps, hne, rfl⟩
    · exact List.mem_map.2 ⟨[], by simp, by simp [name]⟩
    · exact List.mem_map.2 ⟨ps, List.mem_sublists.2 hps, by simp [name, hne]⟩
  have hlength := (List.subperm_of_subset hnodup hsubset).length_le
  simpa [Expression.positions] using hlength

end Automaton

end PositionAutomaton
