import PositionAutomaton.Proofs.Automaton.MissingRows
import PositionAutomaton.Proofs.Compilation.Stages
import PositionAutomaton.Proofs.Expression.Assembly
import PositionAutomaton.Proofs.Expression.Range
import PositionAutomaton.Proofs.Postfix.Yard
import PositionAutomaton.Proofs.Token.Explicit
import PositionAutomaton.Proofs.Token.Lexer

/-!
# Numbers stay in range

Two of the errors are about numbers that are out of range (`Error.IsOutOfRange`): the end of a token
that lies beyond the greatest offset, and a position that is numbered above the rows of a follow
table. Whatever the tokens, no stage of a compilation fails for the second reason, and only
`Token.explicit` fails for the first one, for tokens that no text of representable length has
(`inRange_of_stages`).
-/

namespace PositionAutomaton

/-- The error is about a number that is out of range, not about the expression or the number of
states. -/
def Error.IsOutOfRange : Error → Prop
  | offsetOverflow _ | missingRow _ => True
  | malformed .. | unbalanced _ | tooManyStates _ => False

variable {foldCase : Bool} {s : String} {cs : List Char} {offset : Offset} {ts us : List Token}
  {form : Postfix} {e : Expression} {follow : FollowTable} {limit : Option Nat} {o : Options}
  {error : Error}

namespace Token

/-- The tokens of `cs` are not missed because of a number. -/
theorem not_isOutOfRange_of_scanFrom_eq_error (h : scanFrom foldCase offset cs = .error error) :
    ¬error.IsOutOfRange := by
  induction cs generalizing offset with
  | nil => cases h
  | cons c cs ih =>
    rw [scanFrom] at h
    rcases bind_eq_error_iff.1 h with h | ⟨t, -, h⟩
    · rw [ofChar] at h
      split at h
      next => cases h
      next =>
        cases h
        exact id
    · rcases bind_eq_error_iff.1 h with h | ⟨us, -, h⟩
      · exact ih h
      · cases h

/-- The sequence `ts` has no offset for its end exactly if its last token ends beyond the greatest
offset. -/
theorem explicit_eq_error_iff :
    explicit ts = .error error ↔
      ∃ t, ts.getLast? = some t ∧ Offset.bound ≤ t.offset.bytes + t.value.utf8Size ∧
        error = .offsetOverflow t.offset := by
  simp only [explicit, bind_eq_error_iff, pure_eq_ok, reduceCtorEq, and_false, exists_false,
    or_false, endOffset]
  cases ts.getLast? with
  | none => simp
  | some t =>
    by_cases hlt : t.offset.bytes + t.value.utf8Size < Offset.bound
    · simp [Offset.advance?, hlt]
    · simp [Offset.advance?, hlt, Nat.le_of_not_lt hlt, eq_comm]

/-- The tokens of `s` have an offset for their end if there is one for the end of `s`. -/
theorem exists_explicit_eq_ok_of_scan (hts : scan foldCase s = .ok ts)
    (hsize : s.utf8ByteSize < Offset.bound) : ∃ us, explicit ts = .ok us :=
  ⟨_, explicit_eq_ok_iff.2 ⟨_, (endOffset_eq_ok_iff_of_scan hts).2 ⟨hsize, rfl⟩, rfl⟩⟩

end Token

/-- No sequence of tokens fails to have a postfix order because of a number. -/
theorem Postfix.not_isOutOfRange_of_ofTokens_eq_error (h : ofTokens ts = .error error) :
    ¬error.IsOutOfRange := by
  rcases bind_eq_error_iff.1 h with h | ⟨y, -, h⟩
  · obtain ⟨-, t, -, y, -, -, h⟩ := foldlM_eq_error_iff.1 h
    rw [Yard.step_eq_error_iff] at h
    -- only the ends of groups are refused, and an end mark while a group is open
    cases hkind : t.kind with
    | letter | star | opening | bar | concat =>
      rw [hkind] at h
      exact h.elim
    | closing =>
      simp only [hkind] at h
      split at h
      next =>
        subst h
        exact id
      next =>
        obtain ⟨-, rfl⟩ := h
        exact id
    | endMark =>
      rw [hkind] at h
      obtain ⟨group, -, rfl⟩ := h
      exact id
  · rcases bind_eq_error_iff.1 h with h | ⟨z, -, h⟩
    · obtain ⟨group, -, rfl⟩ := Yard.flush_eq_error_iff.1 h
      exact id
    · cases h

/-- No postfix sequence fails to make an expression because of a number. -/
theorem Expression.not_isOutOfRange_of_ofPostfix_eq_error (h : ofPostfix form = .error error) :
    ¬error.IsOutOfRange := by
  rcases bind_eq_error_iff.1 h with h | ⟨a, -, h⟩
  · obtain ⟨-, t, -, a, -, -, h⟩ := foldlM_eq_error_iff.1 h
    rw [Assembly.step_eq_error_iff] at h
    -- what is refused are operators without operands, a second end mark, and parentheses
    cases hkind : t.kind with
    | letter =>
      rw [hkind] at h
      exact h.elim
    | endMark | star | bar | concat =>
      rw [hkind] at h
      obtain ⟨-, rfl⟩ := h
      exact id
    | opening | closing =>
      rw [hkind] at h
      subst h
      exact id
  · rw [Assembly.result] at h
    split at h
    next => cases h
    next =>
      cases h
      exact id
    next =>
      cases h
      exact id

namespace Automaton

/-- From the follow table of `e` itself, no construction fails because of a number that is out of
range. -/
theorem not_isOutOfRange_of_build_eq_error
    (h : (build e (.ofExpression e) limit).outcome = .error error) : ¬error.IsOutOfRange := by
  rcases of_build_eq_error h with ⟨n, -, rfl⟩ | ⟨state, p, hmissing, -⟩
  · exact id
  · rw [missing?_ofExpression] at hmissing
    cases hmissing

/-- Without a bound on the number of states, a construction fails for want of a row only. -/
theorem exists_build_isOutOfRange_iff :
    (∃ error, (build e follow none).outcome = .error error ∧ error.IsOutOfRange) ↔
      ∃ p, (build e follow none).outcome = .error (.missingRow p) := by
  constructor
  · rintro ⟨error, hbuild, -⟩
    rcases of_build_eq_error hbuild with ⟨n, hn, -⟩ | ⟨-, p, -, rfl⟩
    · cases hn
    · exact ⟨p, hbuild⟩
  · rintro ⟨p, hbuild⟩
    exact ⟨_, hbuild, trivial⟩

end Automaton

/-- If `s` is of representable length, no compilation of it fails because of a number. -/
theorem Options.not_isOutOfRange_of_compile_eq_error (hsize : s.utf8ByteSize < Offset.bound)
    (h : o.compile s = .error error) : ¬error.IsOutOfRange := by
  -- stage by stage; only that which makes the end mark needs an offset of its own
  rw [compile_eq_bind] at h
  rcases bind_eq_error_iff.1 h with h | ⟨e, -, h⟩
  · rw [Expression.ofText_eq_bind] at h
    rcases bind_eq_error_iff.1 h with h | ⟨ts, hts, h⟩
    · exact Token.not_isOutOfRange_of_scanFrom_eq_error h
    rcases bind_eq_error_iff.1 h with h | ⟨us, -, h⟩
    · obtain ⟨us, hus⟩ := Token.exists_explicit_eq_ok_of_scan hts hsize
      cases hus.symm.trans h
    rcases bind_eq_error_iff.1 h with h | ⟨form, -, h⟩
    · exact Postfix.not_isOutOfRange_of_ofTokens_eq_error h
    · exact Expression.not_isOutOfRange_of_ofPostfix_eq_error h
  · rcases bind_eq_error_iff.1 h with h | ⟨a, -, h⟩
    · exact Automaton.not_isOutOfRange_of_build_eq_error h
    · cases h

/-- No stage of a compilation fails because of a number, whatever text or tokens it is given, apart
from two.

* Texts have tokens, tokens a postfix order, and postfix sequences an expression, or else there is
  another error. That an automaton reads a text cannot fail at all.
* A sequence is made explicit unless its last token ends beyond the greatest offset, which is not
  the case for the tokens of a text of representable length.
* While an expression is put together, the operands are found in the node table. In the expression,
  positions are numbered from one, operands stand before the node they belong to, and the positions
  that are looked up in its follow table have rows there.
* From its own follow table an expression has an automaton, unless that is too large. From another
  table and without a bound on the number of states, the construction fails exactly if, from the
  start and through states in which each position that reads a letter has a row, a state comes up
  with a position that reads a letter and is numbered above the rows. -/
theorem inRange_of_stages :
    (∀ foldCase s error, Token.scan foldCase s = .error error → ¬error.IsOutOfRange) ∧
      (∀ ts error, Token.explicit ts = .error error ↔
        ∃ t, ts.getLast? = some t ∧ Offset.bound ≤ t.offset.bytes + t.value.utf8Size ∧
          error = .offsetOverflow t.offset) ∧
      (∀ foldCase s ts, Token.scan foldCase s = .ok ts → s.utf8ByteSize < Offset.bound →
        ∃ us, Token.explicit ts = .ok us) ∧
      (∀ ts error, Postfix.ofTokens ts = .error error → ¬error.IsOutOfRange) ∧
      (∀ ts a, Expression.Assembly.run ts = .ok a → (∀ i ∈ a.roots, i < a.table.size) ∧
        ∀ t b, a.step t = .ok b → a.Tabulates t b) ∧
      (∀ form error, Expression.ofPostfix form = .error error → ¬error.IsOutOfRange) ∧
      (∀ form e, Expression.ofPostfix form = .ok e → e.InRange ∧
        ∃ a, Expression.Assembly.run form.tokens = .ok a ∧ a.table = e.entries ∧
          a.roots = [e.root]) ∧
      (∀ e limit error, (Automaton.build e (.ofExpression e) limit).outcome = .error error →
        ¬error.IsOutOfRange) ∧
      (∀ (o : Options) s error, s.utf8ByteSize < Offset.bound → o.compile s = .error error →
        ¬error.IsOutOfRange) ∧
      ∀ e follow,
        (∃ error, (Automaton.build e follow none).outcome = .error error ∧ error.IsOutOfRange) ↔
          ∃ state, Automaton.ReachedWithin e follow state ∧
            ∃ p ∈ state, (e.symbol? p).isSome = true ∧ follow.rows.size < p.number := by
  refine ⟨fun _ _ _ => Token.not_isOutOfRange_of_scanFrom_eq_error,
    fun _ _ => Token.explicit_eq_error_iff, fun _ _ _ => Token.exists_explicit_eq_ok_of_scan,
    fun _ _ => Postfix.not_isOutOfRange_of_ofTokens_eq_error, fun ts a ha => ?_,
    fun _ _ => Expression.not_isOutOfRange_of_ofPostfix_eq_error, fun form e he => ?_,
    fun _ _ _ => Automaton.not_isOutOfRange_of_build_eq_error,
    fun _ _ _ => Options.not_isOutOfRange_of_compile_eq_error, fun e follow => ?_⟩
  · exact ⟨Expression.Assembly.lt_size_of_mem_roots,
      fun t b => Expression.Assembly.tabulates_of_step_eq_ok⟩
  · exact ⟨Expression.inRange_of_ofPostfix_eq_ok he, Expression.exists_run_of_ofPostfix_eq_ok he⟩
  · rw [Automaton.exists_build_isOutOfRange_iff, Automaton.exists_build_eq_missingRow_iff]

/-- A token at the greatest offset, the tokens of a text, and the expression `a|b|c` with the follow
table of `a`, which has no row for the third letter. -/
theorem inRange_of_stages_of_short_table :
    Token.explicit [⟨.letter, 'a', ⟨Offset.bound - 1⟩⟩] =
        .error (.offsetOverflow ⟨Offset.bound - 1⟩) ∧
      (∃ us, Token.explicit [⟨.letter, 'a', ⟨0⟩⟩, ⟨.star, '*', ⟨1⟩⟩] = .ok us) ∧
      ∃ error, (Automaton.build (.ofRegex (.alt (.alt (.leaf 'a') (.leaf 'b')) (.leaf 'c')))
        (.ofExpression (.ofRegex (.leaf 'a'))) none).outcome = .error error ∧
          error.IsOutOfRange ∧ error = .missingRow (.ofIndex 2) := by
  obtain ⟨-, hoverflow, hexplicit, -, -, -, -, -, -, hforeign⟩ := inRange_of_stages
  refine ⟨(hoverflow _ _).2 ⟨_, rfl, by decide, rfl⟩, hexplicit false "a*" _ rfl (by decide), ?_⟩
  let e : Expression := .ofRegex (.alt (.alt (.leaf 'a') (.leaf 'b')) (.leaf 'c'))
  let follow : FollowTable := .ofExpression (.ofRegex (.leaf 'a'))
  obtain ⟨error, herror, hrange⟩ := (hforeign e follow).2
    ⟨e.start, .start, .ofIndex 2, by decide, rfl, by decide⟩
  have hmissing : (Automaton.build e follow none).outcome = .error (.missingRow (.ofIndex 2)) := by
    decide +kernel
  exact ⟨error, herror, hrange, Except.error.inj (herror.symm.trans hmissing)⟩

end PositionAutomaton
