import PositionAutomaton.Proofs.Automaton.Reachability
import PositionAutomaton.Proofs.OrderedSet

/-!
# A bound on the number of states

A construction with a bound on the number of states goes along with the one without a bound, until
there is a state too many (`Traced.Curtails`). It then has recorded as many new states as are
allowed, and the other one goes on with recording one more, so that the bound ends a construction
exactly if the automaton has more states than that.
-/

namespace PositionAutomaton

variable {α β : Type} {n : Nat}

/-! ### Computations that are cut short -/

namespace Traced

/-- The computation `y` is `x`, or it is cut short by a state too many, where `x` goes on with
taking note of that state. -/
inductive Curtails (n : Nat) (y x : Traced α) : Prop where
  /-- Nothing is cut off. -/
  | same : y = x → Curtails n y x
  /-- A state is one too many. -/
  | cut {state : PositionSet} : y.outcome = .error (.tooManyStates n) →
      y.events ++ [.newState state] <+: x.events → Curtails n y x

namespace Curtails

variable {x y : Traced α} {f g : α → Traced β}

/-- The computations `y` and then `g` are `x` and then `f` cut short, if `y` is `x` cut short or
each `g a` is `f a` cut short. -/
theorem bind (h : Curtails n y x) (hfg : ∀ a, Curtails n (g a) (f a)) :
    Curtails n (y >>= g) (x >>= f) := by
  -- whatever `f` does, the events of `x` come first
  have hfirst : x.events <+: (x >>= f).events := by
    cases hx : x.outcome with
    | error e =>
      exact ⟨[], by rw [bind_of_outcome_eq_error hx, List.append_nil]⟩
    | ok a =>
      exact ⟨_, (events_bind_of_outcome_eq_ok hx f).symm⟩
  cases h with
  | cut hy hevents =>
    rw [bind_of_outcome_eq_error hy]
    exact .cut rfl (hevents.trans hfirst)
  | same hyx =>
    subst hyx
    cases hy : y.outcome with
    | error e =>
      rw [bind_of_outcome_eq_error hy, bind_of_outcome_eq_error hy]
      exact .same rfl
    | ok a =>
      rw [bind_of_outcome_eq_ok hy, bind_of_outcome_eq_ok hy]
      cases hfg a with
      | same hga =>
        rw [hga]
        exact .same rfl
      | @cut state hga hevents =>
        have hcut : y.events ++ (g a).events ++ [.newState state] <+: y.events ++ (f a).events := by
          rw [List.append_assoc]
          exact (List.prefix_append_right_inj _).2 hevents
        exact .cut hga hcut

/-- Steps `g` in a row are steps `f` in a row cut short, if each of them is. -/
theorem foldlM {γ : Type} {f g : β → γ → Traced β} (hfg : ∀ b c, Curtails n (g b c) (f b c))
    (cs : List γ) (b : β) : Curtails n (cs.foldlM g b) (cs.foldlM f b) := by
  induction cs generalizing b with
  | nil => exact .same rfl
  | cons c cs ih =>
    rw [List.foldlM_cons, List.foldlM_cons]
    exact (hfg b c).bind ih

end Curtails

end Traced

open Traced

namespace Automaton

variable {e : Expression} {follow : FollowTable} {limit : Option Nat} {x z : Exploration}
  {y : Traced Exploration} {a : Automaton}

variable (n e follow)

/-- The bound `n` curtails taking note of a state: without it, a state that is one too many is
noted. -/
theorem curtails_discover (x : Exploration) (state : PositionSet) :
    Curtails n (discover e (some n) x state) (discover e none x state) := by
  rw [discover, discover]
  split
  next => exact .same rfl
  next =>
    by_cases hsize : n ≤ x.found.size
    · have hfull : (some n).filter (· ≤ x.found.size) = some n := by simp [hsize]
      rw [hfull]
      exact .cut rfl List.prefix_rfl
    · have hfree : (some n).filter (· ≤ x.found.size) = none := by simpa using hsize
      rw [hfree]
      exact .same rfl

/-- The bound `n` curtails taking note of a transition. -/
theorem curtails_cross (source : PositionSet) (x : Exploration) (move : Char × PositionSet) :
    Curtails n (cross e (some n) source x move) (cross e none source x move) :=
  (curtails_discover n e x move.2).bind fun _ => .same rfl

/-- The bound `n` curtails the visit of a state. -/
theorem curtails_visit (x : Exploration) (state : PositionSet) :
    Curtails n (visit e follow (some n) x state) (visit e follow none x state) := by
  refine Curtails.bind (.same rfl) fun out => ?_
  exact .foldlM (fun z move => curtails_cross n e state z move) out x

/-- The bound `n` curtails the loop. -/
theorem curtails_explore (count next : Nat) (x : Exploration) :
    Curtails n (explore e follow (some n) count next x) (explore e follow none count next x) := by
  induction count generalizing next x with
  | zero => exact .same rfl
  | succ count ih =>
    rw [explore, explore]
    split
    next => exact .same rfl
    next state _ => exact (curtails_visit n e follow x state).bind fun z => ih (next + 1) z

/-- The bound `n` curtails the construction of an automaton. -/
theorem curtails_build :
    Curtails n (build e follow (some n)) (build e follow none) := by
  have hexploration :
      Curtails n (exploration e follow (some n)) (exploration e follow none) :=
    (curtails_discover n e {} e.start).bind fun x =>
      curtails_explore n e follow (Nat.pow 2 e.positionCount) 0 x
  exact hexploration.bind fun x => .same rfl

end Automaton

/-! ### New states -/

/-- Whether an event says that a state was found. -/
def Event.isNewState : Event → Bool
  | newState _ => true
  | postfixForm .. | positionCount .. | transition .. | summary .. => false

/-- The number of states that `events` say were found. -/
def newStates (events : List Event) : Nat :=
  events.countP Event.isNewState

/-- The number of new states in `events ++ events'` is the sum of those in its parts. -/
@[simp]
theorem newStates_append (events events' : List Event) :
    newStates (events ++ events') = newStates events + newStates events' :=
  List.countP_append

/-- A first part of `events'` has no more new states. -/
theorem newStates_le_of_prefix {events events' : List Event} (h : events <+: events') :
    newStates events ≤ newStates events' :=
  h.sublist.countP_le

/-- The number `count` of states is allowed by `limit`. -/
def Allowed (limit : Option Nat) (count : Nat) : Prop :=
  ∀ n ∈ limit, count ≤ n

namespace Automaton

variable {x z : Exploration} {y : Traced Exploration} {source state : PositionSet}

/-- The computation `y` goes on from what has been found in `x`. It records an event for each state
that it finds, finds no more states than allowed, and ends with a state too many only if it has
found as many as allowed. -/
def Counted (limit : Option Nat) (x : Exploration) (y : Traced Exploration) : Prop :=
  match y.outcome with
  | .ok z => x.found.size + newStates y.events = z.found.size ∧ Allowed limit z.found.size
  | .error error => ∀ n, error = .tooManyStates n → x.found.size + newStates y.events = n

/-- If `y` counts the states that it finds, and `f` those that it finds on the result of `y`, so
does `y >>= f`. -/
theorem Counted.bind {f : Exploration → Traced Exploration} (hy : Counted limit x y)
    (hf : ∀ z, Allowed limit z.found.size → Counted limit z (f z)) : Counted limit x (y >>= f) := by
  rw [Counted] at hy
  cases houtcome : y.outcome with
  | error e =>
    rw [houtcome] at hy
    rw [bind_of_outcome_eq_error houtcome]
    exact hy
  | ok z =>
    rw [houtcome] at hy
    obtain ⟨hsize, hz⟩ := hy
    have hnext := hf z hz
    rw [Counted] at hnext
    rw [bind_of_outcome_eq_ok houtcome, Counted]
    simp only [newStates_append, ← Nat.add_assoc, hsize]
    exact hnext

/-- What is found stays as it is. -/
theorem counted_pure (hx : Allowed limit x.found.size) : Counted limit x (pure x) :=
  ⟨rfl, hx⟩

/-- To `discover` a state counts it. -/
theorem counted_discover (hx : Allowed limit x.found.size) (state : PositionSet) :
    Counted limit x (discover e limit x state) := by
  rw [discover]
  split
  next => exact counted_pure hx
  next =>
    split
    next n hfull =>
      obtain ⟨hlimit, hle⟩ := Option.filter_eq_some_iff.1 hfull
      intro m hm
      obtain rfl : n = m := Error.tooManyStates.inj hm
      -- as many states are found as are allowed, and no more
      exact Nat.le_antisymm (hx n hlimit) (of_decide_eq_true hle)
    next hfree =>
      have hlt (n : Nat) (hn : n ∈ limit) : x.found.size < n := by
        simpa using Option.filter_eq_none_iff.1 hfree n hn
      refine ⟨(Array.size_push state).symm, fun n hn => ?_⟩
      rw [Exploration.found_push, Array.size_push]
      exact hlt n hn

/-- To `cross` a transition counts the state that it enters, and nothing for the transition. -/
theorem counted_cross (hx : Allowed limit x.found.size) (move : Char × PositionSet) :
    Counted limit x (cross e limit source x move) :=
  (counted_discover hx move.2).bind fun _ hz => ⟨rfl, hz⟩

/-- The states that moves enter are counted. -/
theorem counted_foldlM_cross (hx : Allowed limit x.found.size) (out : List (Char × PositionSet)) :
    Counted limit x (out.foldlM (cross e limit source) x) := by
  induction out generalizing x with
  | nil => exact counted_pure hx
  | cons move out ih =>
    rw [List.foldlM_cons]
    exact (counted_cross hx move).bind fun z hz => ih hz

/-- The states that are found from `state` are counted. -/
theorem counted_visit (hx : Allowed limit x.found.size) (state : PositionSet) :
    Counted limit x (visit e follow limit x state) := by
  rw [visit, moves]
  split
  next p _ =>
    -- a row that is missing is no state too many
    intro n hn
    cases hn
  next => exact counted_foldlM_cross hx _

/-- The states that the loop finds are counted. -/
theorem counted_explore (count next : Nat) (hx : Allowed limit x.found.size) :
    Counted limit x (explore e follow limit count next x) := by
  induction count generalizing next x with
  | zero => exact counted_pure hx
  | succ count ih =>
    rw [explore]
    split
    next => exact counted_pure hx
    next state _ => exact (counted_visit hx state).bind fun z hz => ih (next + 1) hz

variable (e follow limit) in
/-- All states that are found are counted. -/
theorem counted_exploration : Counted limit {} (exploration e follow limit) :=
  have hempty : Allowed limit (#[] : Array PositionSet).size := fun n _ => Nat.zero_le n
  (counted_discover hempty e.start).bind fun _ hz =>
    counted_explore (Nat.pow 2 e.positionCount) 0 hz

/-! ### The automaton -/

/-- An automaton that is built has as many states as were recorded, and no more than `limit`
allows. -/
theorem size_states_of_build_eq_ok (h : (build e follow limit).outcome = .ok a) :
    newStates (build e follow limit).events = a.states.size ∧ Allowed limit a.states.size := by
  obtain ⟨x, hx, rfl⟩ := build_eq_ok_iff.1 h
  obtain ⟨_, hexplored, -⟩ := explored_of_exploration_eq_ok hx
  have hsize : (ofExploration e x).states.size = x.found.size :=
    OrderedSet.size_ofList hexplored.nodup
  have hcounted := counted_exploration e follow limit
  rw [Counted, hx] at hcounted
  obtain ⟨hfound, hallowed⟩ := hcounted
  -- behind the exploration only the numbers of what was found are recorded
  have hevents : newStates (build e follow limit).events =
      newStates (exploration e follow limit).events := by
    rw [build, events_bind_of_outcome_eq_ok hx, newStates_append]
    rfl
  rw [hsize, hevents]
  exact ⟨(Nat.zero_add _).symm.trans hfound, hallowed⟩

/-- If the bound `n` ends the construction, `n` states were recorded. -/
theorem newStates_of_build_eq_error
    (h : (build e follow limit).outcome = .error (.tooManyStates n)) :
    newStates (build e follow limit).events = n := by
  have hexploration : (exploration e follow limit).outcome = .error (.tooManyStates n) := by
    rw [build, outcome_bind] at h
    rcases bind_eq_error_iff.1 h with h | ⟨x, -, h⟩
    · exact h
    · cases h
  have hcounted := counted_exploration e follow limit
  rw [Counted, hexploration] at hcounted
  rw [build, bind_of_outcome_eq_error hexploration]
  exact (Nat.zero_add _).symm.trans (hcounted n rfl)

/-- The bound `n` ends the construction exactly if the automaton has more states than that. -/
theorem build_eq_tooManyStates_iff (h : (build e follow none).outcome = .ok a) :
    (build e follow (some n)).outcome = .error (.tooManyStates n) ↔ n < a.states.size := by
  obtain ⟨hsize, -⟩ := size_states_of_build_eq_ok h
  cases curtails_build n e follow with
  | same hsame =>
    have hallowed : a.states.size ≤ n := (size_states_of_build_eq_ok (hsame ▸ h)).2 n rfl
    rw [hsame, h]
    exact iff_of_false nofun (Nat.not_lt.2 hallowed)
  | @cut state hcut hevents =>
    -- the state that is one too many is an event more
    have hle := newStates_le_of_prefix hevents
    rw [newStates_append, newStates_of_build_eq_error hcut, hsize] at hle
    exact iff_of_true hcut hle

end Automaton

end PositionAutomaton
