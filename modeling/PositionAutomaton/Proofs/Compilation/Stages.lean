import PositionAutomaton.Options
import PositionAutomaton.Proofs.Automaton.Reading

/-!
# The stages of a compilation

A compilation finds the numbered expression of a text (`Expression.ofText`) and builds its automaton
(`Options.compile_eq_bind`). Without a bound on the number of states, it fails only where there is
no expression (`Options.compile_eq_error_iff`, `exists_compile_eq_ok_iff`).
-/

namespace PositionAutomaton

variable {o : Options} {s : String} {a : Automaton} {e : Expression} {error : Error}

/-- The stages of `ofText`: the tokens of a text are made explicit, brought into postfix order and
put together to a numbered expression. -/
theorem Expression.ofText_eq_bind (foldCase : Bool) (s : String) :
    ofText foldCase s = Token.scan foldCase s >>= fun letters =>
      Token.explicit letters >>= fun tokens => Postfix.ofTokens tokens >>= ofPostfix := by
  simp only [ofText, traceOfText, Traced.outcome_bind, Traced.outcome_ofExcept,
    Traced.outcome_emit, Traced.outcome_pure, ok_bind]
  simp only [← pure_eq_ok, bind_pure]

/-- A text has a numbered expression `e` if it has tokens that can be made explicit, brought into
postfix order and put together to `e`. -/
theorem Expression.ofText_eq_ok_iff {foldCase : Bool} :
    Expression.ofText foldCase s = .ok e ↔
      ∃ ts tokens form, Token.scan foldCase s = .ok ts ∧ Token.explicit ts = .ok tokens ∧
        Postfix.ofTokens tokens = .ok form ∧ Expression.ofPostfix form = .ok e := by
  simp only [ofText_eq_bind, bind_eq_ok_iff, exists_and_left]

/-- The leaves of `e.tree`, for the expression `e` of a text, are its positions, in order. -/
theorem Expression.leaves_tree_of_ofText_eq_ok {foldCase : Bool}
    (h : Expression.ofText foldCase s = .ok e) : e.tree.leaves = e.positions := by
  obtain ⟨-, -, form, -, -, -, he⟩ := ofText_eq_ok_iff.1 h
  exact leaves_tree_of_ofPostfix_eq_ok he

/-- The expression of the empty text is the end mark alone. -/
theorem Expression.ofText_empty (foldCase : Bool) :
    Expression.ofText foldCase "" = .ok ⟨.leaf (.ofIndex 0), #[none], .ofIndex 0⟩ := rfl

namespace Options

/-- A compilation runs `Automaton.build` on the expression that `Expression.ofText` finds, and
records `foldCase`. -/
theorem compile_eq_bind :
    o.compile s = Expression.ofText o.foldCase s >>= fun e =>
      (Automaton.build e (.ofExpression e) o.stateLimit).outcome >>= fun a =>
        .ok { a with foldCase := o.foldCase } := by
  simp only [compile, trace, Expression.ofText, Traced.outcome_bind, Traced.outcome_pure]

/-- A compilation succeeds if the text has a numbered expression from which `Automaton.build` makes
an automaton. -/
theorem compile_eq_ok_iff :
    o.compile s = .ok a ↔
      ∃ e b, Expression.ofText o.foldCase s = .ok e ∧
        (Automaton.build e (.ofExpression e) o.stateLimit).outcome = .ok b ∧
        a = { b with foldCase := o.foldCase } := by
  simp only [compile_eq_bind, bind_eq_ok_iff, Except.ok.injEq, exists_and_left, eq_comm (a := a)]

/-- Without a `stateLimit`, a compilation fails only where `Expression.ofText` does. -/
theorem compile_eq_error_iff (h : o.stateLimit = none) :
    o.compile s = .error error ↔ Expression.ofText o.foldCase s = .error error := by
  rw [compile_eq_bind, h]
  cases Expression.ofText o.foldCase s with
  | error => simp
  | ok e =>
    obtain ⟨b, hb⟩ := Automaton.exists_build_ofExpression_eq_ok e
    simp [hb]

/-- Without a `stateLimit`, a text has an automaton if it has a numbered expression. -/
theorem exists_compile_eq_ok_iff (h : o.stateLimit = none) :
    (∃ a, o.compile s = .ok a) ↔ ∃ e, Expression.ofText o.foldCase s = .ok e := by
  simp only [compile_eq_ok_iff, h]
  constructor
  · rintro ⟨-, e, -, he, -, -⟩
    exact ⟨e, he⟩
  · rintro ⟨e, he⟩
    obtain ⟨a, ha⟩ := Automaton.exists_build_ofExpression_eq_ok e
    exact ⟨_, e, a, he, ha, rfl⟩

end Options

/-- By default, with upper and lower case letters apart and without a `stateLimit`, the automaton of
a text is the one that is built from its expression. -/
theorem compile_eq_ok_iff :
    compile s = .ok a ↔
      ∃ e, Expression.ofText false s = .ok e ∧
        (Automaton.build e (.ofExpression e) none).outcome = .ok a := by
  have hsame {e : Expression} {b : Automaton}
      (hb : (Automaton.build e (.ofExpression e) none).outcome = .ok b) :
      { b with foldCase := false } = b := by
    rw [← Automaton.foldCase_eq_false hb]
  rw [compile, Options.compile_eq_ok_iff]
  constructor
  · rintro ⟨e, b, he, hb, rfl⟩
    exact ⟨e, he, (hsame hb).symm ▸ hb⟩
  · rintro ⟨e, he, ha⟩
    exact ⟨e, a, he, ha, (hsame ha).symm⟩

/-- By default, a text has an automaton if its tokens make an expression. -/
theorem exists_compile_eq_ok_iff :
    (∃ a, compile s = .ok a) ↔
      ∃ ts tokens form e, Token.scan false s = .ok ts ∧ Token.explicit ts = .ok tokens ∧
        Postfix.ofTokens tokens = .ok form ∧ Expression.ofPostfix form = .ok e := by
  rw [compile, Options.exists_compile_eq_ok_iff rfl]
  simp only [Expression.ofText_eq_ok_iff]
  constructor
  · rintro ⟨e, ts, tokens, form, hts, htokens, hform, he⟩
    exact ⟨ts, tokens, form, e, hts, htokens, hform, he⟩
  · rintro ⟨ts, tokens, form, e, hts, htokens, hform, he⟩
    exact ⟨e, ts, tokens, form, hts, htokens, hform, he⟩

end PositionAutomaton
