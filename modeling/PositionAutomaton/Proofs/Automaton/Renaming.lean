import PositionAutomaton.Proofs.Automaton.Reachability
import PositionAutomaton.Proofs.Automaton.Reading
import PositionAutomaton.Proofs.OrderedSet

/-!
# Expressions with renamed positions

Two numbered expressions may have the same words but for the numbers of the positions, so that a
permutation takes the positions of the one to those of the other (`Expression.Renames`). Everything
that is found for the one expression then is found for the other with its positions renamed: the
start, what may follow a position, where steps lead, and the states that come up
(`Expression.Renames.reached_iff`). The automata are the same but for the names of the positions
(`Expression.Renames.build`).
-/

namespace PositionAutomaton

/-- The transition `t` with its positions renamed by `σ`. -/
def Transition.rename (σ : Position → Position) (t : Transition) : Transition :=
  ⟨t.source.image σ, t.symbol, t.target.image σ⟩

/-- Transitions that are renamed to the same one are equal. -/
theorem Transition.rename_injective {σ : Position → Position} (hσ : Function.Injective σ) :
    Function.Injective (Transition.rename σ) := by
  intro t u h
  obtain ⟨hsource, hsymbol, htarget⟩ := Transition.mk.inj h
  cases t
  cases u
  congr
  · exact OrderedSet.image_injective hσ hsource
  · exact OrderedSet.image_injective hσ htarget

/-- `Renames σ a b` says that `b` is `a` with its positions renamed by `σ`. -/
structure Automaton.Renames (σ : Position → Position) (a b : Automaton) : Prop where
  /-- The start of `f` is that of `e`, renamed. -/
  start_eq : b.start = a.start.image σ
  /-- The states are renamed. -/
  states_eq : b.states = a.states.image (·.image σ)
  /-- The states that accept are renamed. -/
  accepting_eq : b.accepting = a.accepting.image (·.image σ)
  /-- The transitions are renamed. -/
  transitions_eq : b.transitions = a.transitions.image (·.rename σ)

/-- With its positions renamed, an automaton has as many states, accepting states and
transitions. -/
theorem Automaton.Renames.size_eq {σ : Position → Position} {a b : Automaton}
    (h : a.Renames σ b) (hσ : Function.Injective σ) :
    b.states.size = a.states.size ∧ b.accepting.size = a.accepting.size ∧
      b.transitions.size = a.transitions.size := by
  rw [h.states_eq, h.accepting_eq, h.transitions_eq]
  refine ⟨OrderedSet.size_image ?_, OrderedSet.size_image ?_, OrderedSet.size_image ?_⟩
  · exact OrderedSet.image_injective hσ
  · exact OrderedSet.image_injective hσ
  · exact Transition.rename_injective hσ

namespace Expression

/-- `Renames σ e f` says that `f` is `e` with its positions renamed by `σ`, as far as it can be told
from their words. -/
structure Renames (σ : Equiv.Perm Position) (e f : Expression) : Prop where
  /-- There are as many positions. -/
  positionCount_eq : f.positionCount = e.positionCount
  /-- Nothing but positions of the expression is renamed. -/
  fixes : ∀ p, e.positionCount ≤ p.index → σ p = p
  /-- What is read at a position is read at the renamed one. -/
  symbol?_eq : ∀ p, f.symbol? (σ p) = e.symbol? p
  /-- The end mark is renamed. -/
  endMark_eq : f.endMark = σ e.endMark
  /-- The words are those with renamed positions. -/
  matches_iff : ∀ w : List Position, f.tree.Matches (w.map σ) ↔ e.tree.Matches w

namespace Renames

variable {σ : Equiv.Perm Position} {e f : Expression} {state target : PositionSet} {c : Char}
  (h : Renames σ e f)
include h

/-- The positions of `e` are renamed to positions of `f`, and no others are. -/
theorem index_lt_iff (p : Position) :
    (σ p).index < f.positionCount ↔ p.index < e.positionCount := by
  rw [h.positionCount_eq]
  by_cases hp : e.positionCount ≤ p.index
  · rw [h.fixes p hp]
  · -- a position that is renamed to one which is not of the expression would be that one
    refine iff_of_true (Nat.lt_of_not_le fun hσ => ?_) (Nat.lt_of_not_le hp)
    rw [σ.injective (h.fixes _ hσ)] at hσ
    exact hp hσ

/-- The positions that words start with are renamed by `σ`. -/
theorem starts_iff (p : Position) : f.tree.Starts (σ p) ↔ e.tree.Starts p := by
  constructor
  · rintro ⟨w, hw⟩
    refine ⟨w.map σ.symm, (h.matches_iff _).1 ?_⟩
    simpa using hw
  · rintro ⟨w, hw⟩
    exact ⟨w.map σ, (h.matches_iff _).2 hw⟩

/-- The positions that stand behind each other in words are renamed by `σ`. -/
theorem follows_iff (p q : Position) : f.tree.Follows (σ p) (σ q) ↔ e.tree.Follows p q := by
  constructor
  · rintro ⟨x, y, hw⟩
    refine ⟨x.map σ.symm, y.map σ.symm, (h.matches_iff _).1 ?_⟩
    simpa using hw
  · rintro ⟨x, y, hw⟩
    have hw := (h.matches_iff _).2 hw
    exact ⟨x.map σ, y.map σ, by simpa using hw⟩

/-- The positions that the follow tables allow behind each other are renamed by `σ`. -/
theorem allows_iff (p q : Position) :
    (FollowTable.ofExpression f).Allows (σ p) (σ q) ↔
      (FollowTable.ofExpression e).Allows p q := by
  rw [FollowTable.allows_ofExpression_iff, FollowTable.allows_ofExpression_iff, h.index_lt_iff,
    h.follows_iff]

/-- The start is renamed. -/
theorem start_eq : f.start = e.start.image σ := by
  ext q
  obtain ⟨p, rfl⟩ := σ.surjective q
  rw [OrderedSet.apply_mem_image_iff σ.injective, start, start, Regex.mem_first_boundary_iff,
    Regex.mem_first_boundary_iff, h.starts_iff]

/-- Where a `step` leads from a state is renamed with the state. -/
theorem step_image (state : PositionSet) (c : Char) :
    Automaton.step f (.ofExpression f) (state.image σ) c =
      (Automaton.step e (.ofExpression e) state c).image σ := by
  ext r
  obtain ⟨q, rfl⟩ := σ.surjective r
  rw [OrderedSet.apply_mem_image_iff σ.injective, Automaton.mem_step_iff, Automaton.mem_step_iff]
  simp only [OrderedSet.mem_image, exists_exists_and_eq_and, h.symbol?_eq, h.allows_iff]

/-- The states that come up for `f` are those that come up for `e`, renamed. -/
theorem reached_iff {state' : PositionSet} :
    Automaton.Reached f (.ofExpression f) state' ↔
      ∃ state, Automaton.Reached e (.ofExpression e) state ∧ state.image σ = state' := by
  -- both are found by the same steps, from starts that are renamed
  constructor
  · intro hreached
    induction hreached with
    | start => exact ⟨e.start, .start, h.start_eq.symm⟩
    | @step _ c _ hne ih =>
      obtain ⟨state, hstate, rfl⟩ := ih
      rw [h.step_image, OrderedSet.isEmpty_image] at hne
      exact ⟨_, hstate.step hne, (h.step_image state c).symm⟩
  · rintro ⟨state, hstate, rfl⟩
    induction hstate with
    | start => exact h.start_eq ▸ .start
    | @step state c _ hne ih =>
      rw [← h.step_image]
      exact ih.step (by rwa [h.step_image, OrderedSet.isEmpty_image])

/-- If `f` is `e` with its positions renamed, the automaton of `f` is that of `e` with its positions
renamed. -/
theorem build {a b : Automaton} {limit limit' : Option Nat}
    (ha : (Automaton.build e (.ofExpression e) limit).outcome = .ok a)
    (hb : (Automaton.build f (.ofExpression f) limit').outcome = .ok b) :
    a.Renames σ b := by
  -- a state is reached from the start of `f` if it is a renamed state that is reached in `e`
  have hstates : b.states = a.states.image (·.image σ) := by
    ext state
    rw [Automaton.mem_states_iff hb, h.reached_iff, OrderedSet.mem_image]
    simp only [Automaton.mem_states_iff ha]
  constructor
  case start_eq => rw [Automaton.start_eq ha, Automaton.start_eq hb, h.start_eq]
  case states_eq => exact hstates
  case accepting_eq =>
    ext state'
    simp only [OrderedSet.mem_image, Automaton.mem_accepting_iff ha,
      Automaton.mem_accepting_iff hb, hstates, h.endMark_eq]
    constructor
    · rintro ⟨⟨state, hstate, rfl⟩, hend⟩
      exact ⟨state, ⟨hstate, (OrderedSet.apply_mem_image_iff σ.injective).1 hend⟩, rfl⟩
    · rintro ⟨state, ⟨hstate, hend⟩, rfl⟩
      exact ⟨⟨state, hstate, rfl⟩, (OrderedSet.apply_mem_image_iff σ.injective).2 hend⟩
  case transitions_eq =>
    ext t
    rw [Automaton.mem_transitions_iff hb, h.reached_iff, OrderedSet.mem_image]
    simp only [Automaton.mem_transitions_iff ha]
    constructor
    · obtain ⟨source, c, target⟩ := t
      dsimp only
      rintro ⟨⟨state, hstate, rfl⟩, rfl, hne⟩
      -- a step of `f` from a renamed state is a renamed step of `e`
      rw [h.step_image, OrderedSet.isEmpty_image] at hne
      refine ⟨⟨state, c, Automaton.step e (.ofExpression e) state c⟩, ⟨hstate, rfl, hne⟩, ?_⟩
      rw [h.step_image]
      rfl
    · rintro ⟨t, ⟨hsource, htarget, hne⟩, rfl⟩
      refine ⟨⟨t.source, hsource, rfl⟩, ?_, ?_⟩
      · rw [Transition.rename, h.step_image, ← htarget]
      · rw [Transition.rename, OrderedSet.isEmpty_image, hne]

end Renames

end Expression

end PositionAutomaton
