import PositionAutomaton.Proofs.Automaton.Limit
import PositionAutomaton.Proofs.Compilation.Stages

/-!
# Compilation with a bound on the number of states

The stages before the construction of an automaton, `Expression.traceOfText`, know nothing of the
bound. A bound therefore changes nothing for texts without an expression and for automata with as
few states as are allowed; otherwise it ends the compilation when as many states as are allowed are
recorded (`trace_stateLimit_exact`).
-/

namespace PositionAutomaton

variable {foldCase : Bool} {s : String} {e : Expression} {a : Automaton} {n : Nat}

namespace Options

variable {o : Options} {error : Error}

/-- If `Expression.traceOfText` fails, a compilation ends there. -/
theorem trace_of_outcome_eq_error
    (h : (Expression.traceOfText o.foldCase s).outcome = .error error) :
    o.trace s = ⟨(Expression.traceOfText o.foldCase s).events, .error error⟩ := by
  rw [trace, Traced.bind_of_outcome_eq_error h]

/-- If `Expression.traceOfText` finds a numbered expression `e`, a compilation goes on with
`Automaton.build`. -/
theorem trace_of_outcome_eq_ok (h : (Expression.traceOfText o.foldCase s).outcome = .ok e) :
    o.trace s =
      ⟨(Expression.traceOfText o.foldCase s).events ++
          (Automaton.build e (.ofExpression e) o.stateLimit).events,
        (Automaton.build e (.ofExpression e) o.stateLimit).outcome.map fun a =>
          { a with foldCase := o.foldCase }⟩ := by
  rw [trace, Traced.bind_of_outcome_eq_ok h, Traced.bind_pure_eq_map]

/-- A bound `n` on the number of states ends a compilation exactly if the automaton `a` has more
states. -/
theorem compile_eq_tooManyStates_iff (h : compile ⟨foldCase, none⟩ s = .ok a) :
    compile ⟨foldCase, some n⟩ s = .error (.tooManyStates n) ↔ n < a.states.size := by
  obtain ⟨e, b, he, hb, rfl⟩ := compile_eq_ok_iff.1 h
  rw [compile_eq_bind, he, ok_bind, bind_eq_error_iff, Automaton.build_eq_tooManyStates_iff hb]
  simp

end Options

/-- If neither `x` nor any `f a` finds a state, `x >>= f` finds none. -/
theorem newStates_bind_eq_zero {α β : Type} {x : Traced α} {f : α → Traced β}
    (hx : newStates x.events = 0) (hf : ∀ a, newStates (f a).events = 0) :
    newStates (x >>= f).events = 0 := by
  cases houtcome : x.outcome with
  | error e => rwa [Traced.bind_of_outcome_eq_error houtcome]
  | ok a => rw [Traced.events_bind_of_outcome_eq_ok houtcome, newStates_append, hx, hf]

/-- The stages before the construction, `traceOfText`, find no states. -/
theorem Expression.newStates_traceOfText (foldCase : Bool) (s : String) :
    newStates (traceOfText foldCase s).events = 0 := by
  refine newStates_bind_eq_zero rfl fun letters => ?_
  refine newStates_bind_eq_zero rfl fun tokens => ?_
  refine newStates_bind_eq_zero rfl fun form => ?_
  refine newStates_bind_eq_zero rfl fun _ => ?_
  refine newStates_bind_eq_zero rfl fun e => ?_
  exact newStates_bind_eq_zero rfl fun _ => rfl

/-- For every text and every bound, a compilation with the bound records a first part of the events
of the one without. If that one fails, or its automaton has no more states than allowed, both do
the same; otherwise the bound ends the compilation when as many new states as are allowed are
recorded. -/
theorem trace_stateLimit_exact (foldCase : Bool) (n : Nat) (s : String) :
    (Options.trace ⟨foldCase, some n⟩ s).events <+: (Options.trace ⟨foldCase, none⟩ s).events ∧
      match (Options.trace ⟨foldCase, none⟩ s).outcome with
      | .error _ => Options.trace ⟨foldCase, some n⟩ s = Options.trace ⟨foldCase, none⟩ s
      | .ok a =>
        if a.states.size ≤ n then
          Options.trace ⟨foldCase, some n⟩ s = Options.trace ⟨foldCase, none⟩ s
        else
          (Options.trace ⟨foldCase, some n⟩ s).outcome = .error (.tooManyStates n) ∧
            newStates (Options.trace ⟨foldCase, some n⟩ s).events = n := by
  generalize hfree : Options.trace ⟨foldCase, none⟩ s = free
  generalize hbounded : Options.trace ⟨foldCase, some n⟩ s = bounded
  cases htext : (Expression.traceOfText foldCase s).outcome with
  | error error =>
    -- both compilations fail before the bound is looked at
    rw [Options.trace_of_outcome_eq_error htext] at hfree hbounded
    subst hfree hbounded
    exact ⟨List.prefix_rfl, rfl⟩
  | ok e =>
    rw [Options.trace_of_outcome_eq_ok htext] at hfree hbounded
    obtain ⟨a, ha⟩ := Automaton.exists_build_ofExpression_eq_ok e
    obtain ⟨hsize, -⟩ := Automaton.size_states_of_build_eq_ok ha
    have houtcome : free.outcome = .ok { a with foldCase := foldCase } := by
      rw [← hfree, ha, map_ok]
    rw [houtcome]
    cases Automaton.curtails_build n e (.ofExpression e) with
    | same hsame =>
      have hle : a.states.size ≤ n :=
        (Automaton.size_states_of_build_eq_ok (hsame ▸ ha)).2 n rfl
      have hbounded : bounded = free := by rw [← hfree, ← hbounded, hsame]
      exact ⟨hbounded ▸ List.prefix_rfl, (if_pos hle).mpr hbounded⟩
    | @cut state hcut hevents =>
      have hnew := Automaton.newStates_of_build_eq_error hcut
      -- the state that is one too many is an event more
      have hlt : n < a.states.size := by
        have := newStates_le_of_prefix hevents
        rwa [newStates_append, hnew, hsize] at this
      have hstart : bounded.events <+: free.events := by
        rw [← hfree, ← hbounded]
        exact (List.prefix_append_right_inj _).2 ((List.prefix_append _ _).trans hevents)
      have hfull : bounded.outcome = .error (.tooManyStates n) ∧ newStates bounded.events = n := by
        rw [← hbounded, hcut, map_error, newStates_append, Expression.newStates_traceOfText, hnew]
        exact ⟨rfl, Nat.zero_add n⟩
      exact ⟨hstart, (if_neg (Nat.not_le.2 hlt)).mpr hfull⟩

/-- The automaton of `(a|b)*abb` has four states. -/
example : Options.compile { stateLimit := some 3 } "(a|b)*abb" = .error (.tooManyStates 3) := by
  decide +kernel

end PositionAutomaton
