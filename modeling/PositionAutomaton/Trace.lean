import PositionAutomaton.Automaton.Basic
import PositionAutomaton.Error
import PositionAutomaton.Postfix

/-!
# Traces

What happens while an automaton is built, as a list of events. A `Traced` computation
returns its events along with its result, and a failed one those before the failure.
-/

namespace PositionAutomaton

/-- How detailed an event is. -/
inductive Level where
  /-- A stage of the construction is done. -/
  | debug
  /-- A single step inside a stage. -/
  | trace
  deriving DecidableEq

/-- Something that happens while an automaton is built. -/
inductive Event where
  /-- An expression was brought into postfix order. -/
  | postfixForm (expression : String) (form : Postfix)
  /-- The leaves of an expression were numbered. -/
  | positionCount (expression : String) (count : Nat)
  /-- A state was found. -/
  | newState (state : PositionSet)
  /-- A transition was found. -/
  | transition (t : Transition)
  /-- The automaton is complete. -/
  | summary (states accepting transitions : Nat)
  deriving DecidableEq

namespace Event

/-- How detailed an event is. -/
def level : Event → Level
  | postfixForm .. | positionCount .. | summary .. => .debug
  | newState .. | transition .. => .trace

/-- What is logged of an event. -/
def text : Event → String
  | postfixForm expression form =>
    "regex \"" ++ expression ++ "\" has postfix form " ++ form.text
  | positionCount expression count =>
    "regex \"" ++ expression ++ "\" has " ++ toString count ++ " positions"
  | newState state => "new state " ++ state.text
  | transition t => t.source.text ++ " --" ++ t.symbol.toString ++ "--> " ++ t.target.text
  | summary states accepting transitions =>
    "dfa has " ++ toString states ++ " states (" ++ toString accepting ++ " accepting) and " ++
      toString transitions ++ " transitions"

end Event

/-- A computation that records events and may fail. -/
structure Traced (α : Type) where
  /-- The events, in the order in which they happened. -/
  events : List Event
  /-- The result, or why there is none. -/
  outcome : Except Error α

namespace Traced

variable {α β : Type}

/-- The result `a` without events. -/
protected def pure (a : α) : Traced α :=
  ⟨[], .ok a⟩

/-- Goes on with `f` on the result of `x`, unless `x` failed. -/
protected def bind (x : Traced α) (f : α → Traced β) : Traced β :=
  match x.outcome with
  | .ok a => ⟨x.events ++ (f a).events, (f a).outcome⟩
  | .error e => ⟨x.events, .error e⟩

instance : Monad Traced where
  pure := Traced.pure
  bind := Traced.bind

instance : LawfulMonad Traced :=
  .mk' _
    (fun x => by
      obtain ⟨events, outcome⟩ := x
      cases outcome <;> simp [Functor.map, Traced.bind, Traced.pure])
    (fun _ _ => by simp [pure, bind, Traced.bind, Traced.pure])
    (fun x f g => by
      obtain ⟨events, outcome⟩ := x
      cases outcome with
      | error e => rfl
      | ok a =>
        simp only [bind, Traced.bind]
        cases (f a).outcome <;> simp)

/-- Records `event`. -/
def emit (event : Event) : Traced Unit :=
  ⟨[event], .ok ()⟩

/-- Takes over the outcome `x` of a computation without events. -/
def ofExcept (x : Except Error α) : Traced α :=
  ⟨[], x⟩

/-- Fails with the error `e`. -/
def fail (e : Error) : Traced α :=
  ofExcept (.error e)

/-- A result comes without events. -/
@[simp]
theorem events_pure (a : α) : (pure a : Traced α).events = [] := rfl

/-- A result is an outcome. -/
@[simp]
theorem outcome_pure (a : α) : (pure a : Traced α).outcome = .ok a := rfl

/-- Recording an event succeeds. -/
@[simp]
theorem outcome_emit (event : Event) : (emit event).outcome = .ok () := rfl

/-- An outcome that is taken over is the outcome. -/
@[simp]
theorem outcome_ofExcept (x : Except Error α) : (ofExcept x).outcome = x := rfl

/-- The outcome of a failure is its error. -/
@[simp]
theorem outcome_fail (e : Error) : (fail e : Traced α).outcome = .error e := rfl

/-- The outcome of `x >>= f` is that of `f` on the result of `x`. -/
@[simp]
theorem outcome_bind (x : Traced α) (f : α → Traced β) :
    (x >>= f).outcome = x.outcome >>= fun a => (f a).outcome := by
  obtain ⟨events, outcome⟩ := x
  cases outcome <;> rfl

/-- If `x` fails, `x >>= f` keeps its events and its error. -/
theorem bind_of_outcome_eq_error {x : Traced α} {e : Error} (h : x.outcome = .error e)
    (f : α → Traced β) : x >>= f = ⟨x.events, .error e⟩ := by
  simp [bind, Traced.bind, h]

/-- If `x` has the result `a`, the events of `f a` follow those of `x`. -/
theorem events_bind_of_outcome_eq_ok {x : Traced α} {a : α} (h : x.outcome = .ok a)
    (f : α → Traced β) : (x >>= f).events = x.events ++ (f a).events := by
  simp [bind, Traced.bind, h]

end Traced

end PositionAutomaton
