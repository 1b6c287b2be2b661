import Mathlib.Order.Bounds.Defs
import PositionAutomaton.Proofs.Automaton.Reachability

/-!
# The states as a closure

Whatever the follow table, the automaton that is built from it has the least family of states
that holds the start and is closed under the steps that lead somewhere, and it has a transition
for each of these steps and for nothing else (`isLeast_states_of_build_eq_ok`).
-/

namespace PositionAutomaton

namespace Automaton

variable {e : Expression} {follow : FollowTable} {limit : Option Nat} {a : Automaton}
  {state : PositionSet} {c : Char}

/-- The families of sets of positions that hold `e.start` and, with each of their sets, what a
`step` from it leads to, unless that is empty. -/
def closedFamilies (e : Expression) (follow : FollowTable) : Set (Set PositionSet) :=
  {family | e.start ∈ family ∧ ∀ state ∈ family, ∀ c,
    (step e follow state c).isEmpty = false → step e follow state c ∈ family}

/-- The states that come up from the start, which are those with `Reached`, are the least closed
family. -/
theorem isLeast_reached : IsLeast (closedFamilies e follow) {state | Reached e follow state} := by
  refine ⟨⟨.start, fun _ hstate _ hne => Reached.step hstate hne⟩, ?_⟩
  rintro family ⟨hstart, hclosed⟩ state hstate
  induction hstate with
  | start => exact hstart
  | step _ hne ih => exact hclosed _ ih _ hne

/-- Reading `c` in a state of an automaton that is built is one `step`, unless the step leads to
nothing. -/
theorem transition?_eq_ite (h : (build e follow limit).outcome = .ok a)
    (hstate : state ∈ a.states) :
    a.transition? state c =
      if (step e follow state c).isEmpty then none else some (step e follow state c) := by
  have hreached := (mem_states_iff h).1 hstate
  ext target
  rw [transition?_eq_some_iff h, Option.ite_none_left_eq_some, Option.some.injEq]
  constructor
  · rintro ⟨-, rfl, hne⟩
    exact ⟨by simp [hne], rfl⟩
  · rintro ⟨hne, rfl⟩
    exact ⟨hreached, rfl, by simpa using hne⟩

/-- Transitions go from states to states. -/
theorem mem_states_of_mem_transitions (h : (build e follow limit).outcome = .ok a)
    {t : Transition} (ht : t ∈ a.transitions) : t.source ∈ a.states ∧ t.target ∈ a.states := by
  obtain ⟨hsource, htarget, hne⟩ := (mem_transitions_iff h).1 ht
  rw [mem_states_iff h, mem_states_iff h]
  rw [htarget] at hne ⊢
  exact ⟨hsource, hsource.step hne⟩

/-- From any expression `e` and any table `follow`, if an automaton is built, a `step` leads to the
union of the rows of the positions that read the symbol; the states are the least family that is
closed under the steps that lead somewhere; reading a symbol in a state is a step, unless the step
leads to nothing; every transition goes from a state to a state that is not empty; and the states
that were noted as accepting are those with `e.endMark`. -/
theorem isLeast_states_of_build_eq_ok (h : (build e follow limit).outcome = .ok a) :
    (∀ state c q, q ∈ step e follow state c ↔
        ∃ p ∈ state, e.symbol? p = some c ∧ ∃ row, follow.row? p = some row ∧ q ∈ row) ∧
      IsLeast (closedFamilies e follow) {state | state ∈ a.states} ∧
      (∀ state ∈ a.states, ∀ c, a.transition? state c =
        if (step e follow state c).isEmpty then none else some (step e follow state c)) ∧
      (∀ t ∈ a.transitions,
        t.source ∈ a.states ∧ t.target ∈ a.states ∧ t.target.isEmpty = false) ∧
      ∀ state, state ∈ a.accepting ↔ state ∈ a.states ∧ e.endMark ∈ state := by
  refine ⟨fun state c q => mem_step_iff, ?_, fun state hstate c => transition?_eq_ite h hstate,
    ?_, fun state => mem_accepting_iff h⟩
  · have hstates : {state | state ∈ a.states} = {state | Reached e follow state} :=
      Set.ext fun state => mem_states_iff h
    rw [hstates]
    exact isLeast_reached
  · intro t ht
    obtain ⟨hsource, htarget⟩ := mem_states_of_mem_transitions h ht
    exact ⟨hsource, htarget, ((mem_transitions_iff h).1 ht).2.2⟩
/-- The expression of `ab` with the table of `(a|b)*c`, which has one position more: behind `a` come
all positions of `ab`, and from there both letters lead back. -/
theorem isLeast_states_of_foreign_table :
    let e : Expression := ⟨.cat (.cat (.leaf (.ofIndex 0)) (.leaf (.ofIndex 1))) (.leaf (.ofIndex 2)),
      #[some 'a', some 'b', none], .ofIndex 2⟩
    let all : PositionSet := .ofList [.ofIndex 0, .ofIndex 1, .ofIndex 2]
    let follow : FollowTable := ⟨#[all, all, .singleton (.ofIndex 3), .empty]⟩
    let a : Automaton := {
      start := e.start
      states := .ofList [e.start, all]
      accepting := .singleton all
      transitions := .ofList [⟨e.start, 'a', all⟩, ⟨all, 'a', all⟩, ⟨all, 'b', all⟩]
      endMark := e.endMark }
    (build e follow none).outcome = .ok a ∧
      IsLeast (closedFamilies e follow) {state | state ∈ a.states} ∧
      (∀ c, a.transition? e.start c =
        if (step e follow e.start c).isEmpty then none else some (step e follow e.start c)) ∧
      ∀ state, state ∈ a.accepting ↔ state ∈ a.states ∧ e.endMark ∈ state := by
  intro e all follow a
  have h : (build e follow none).outcome = .ok a := by decide +kernel
  obtain ⟨-, hleast, htransition, -, haccepting⟩ := isLeast_states_of_build_eq_ok h
  exact ⟨h, hleast, htransition e.start hleast.1.1, haccepting⟩

end Automaton

end PositionAutomaton
