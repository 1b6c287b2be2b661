import PositionAutomaton.Proofs.Expression.Assembly
import PositionAutomaton.Proofs.Postfix.Conservation

/-!
# Which postfix sequences make expressions

While an expression is put together there are as many operands as the tokens so far leave, which is
what `Token.balance` counts, and an end mark if there was one among them (`Assembly.Follows`). So it
can be told from these numbers alone whether a token is refused (`Token.Refused`), and which of
several defects of a sequence is reported: the first token that is refused, else a number of
operands other than one, else that there is no end mark (`ofPostfix_outcome_of_balance`).
-/

namespace PositionAutomaton

/-- What is wrong with the token `t` behind the tokens `before` of a postfix sequence. -/
inductive Token.Refused (before : List Token) (t : Token) : Malformation → Prop where
  /-- A star needs an operand. -/
  | star : t.kind = .star → balance before < 1 → Refused before t (.missingOperand t.value)
  /-- A bar or a concatenation needs two operands. -/
  | binary : t.kind = .bar ∨ t.kind = .concat → balance before < 2 →
      Refused before t (.missingOperand t.value)
  /-- There is an end mark already. -/
  | endMark {s : Token} : t.kind = .endMark → s ∈ before → s.kind = .endMark →
      Refused before t .duplicateEndMark
  /-- Parentheses do not belong there. -/
  | parenthesis : t.kind.isParenthesis = true → Refused before t (.unexpectedToken t.value)

namespace Expression

variable {form : Postfix} {error : Error}

namespace Assembly

variable {a b : Assembly} {t : Token} {ts : List Token} {last : Offset}

/-- What is put together, `a`, agrees with the numbers of the tokens `ts` that it is put together
from. -/
structure Follows (ts : List Token) (a : Assembly) : Prop where
  /-- There are as many operands as the tokens leave. -/
  length_operands : (a.operands.length : Int) = Token.balance ts
  /-- There is an end mark if there is one among the tokens, and no second one. -/
  countP_endMark : ts.countP (·.kind = .endMark) = a.endMark.isSome.toNat

/-- An end mark that `step` takes in is the first one. -/
theorem countP_endMark_of_step_eq_ok (h : a.step t = .ok b) :
    a.endMark.isSome.toNat + [t].countP (·.kind = .endMark) = b.endMark.isSome.toNat := by
  by_cases ht : t.kind = .endMark
  · rw [step_eq_ok_iff, ht] at h
    obtain ⟨hnone, rfl⟩ := h
    simp [ht, hnone]
  · simp [endMark_of_step_eq_ok ht h, ht]

/-- What is put together from a sequence `ts` agrees with its numbers. -/
theorem follows_of_run_eq_ok (h : run ts = .ok a) : Follows ts a := by
  constructor
  case length_operands => simpa using length_operands_of_foldlM_eq_ok h
  case countP_endMark =>
    induction ts using List.reverseRecOn generalizing a with
    | nil =>
      cases h
      rfl
    | append_singleton ts t ih =>
      obtain ⟨b, hb, hstep⟩ := foldlM_append_singleton_eq_ok_iff.1 h
      rw [List.countP_append, ih hb, countP_endMark_of_step_eq_ok hstep]

/-- There is an end mark in `a` if there is one among the tokens `ts`. -/
theorem Follows.isSome_endMark_iff (h : Follows ts a) :
    a.endMark.isSome = true ↔ ∃ s ∈ ts, s.kind = .endMark := by
  have hpos : a.endMark.isSome = true ↔ 0 < ts.countP (·.kind = .endMark) := by
    rw [h.countP_endMark]
    cases a.endMark <;> simp
  rw [hpos, List.countP_pos_iff]
  simp

/-- A token `t` is `Refused` according to the numbers of the tokens before it. -/
theorem step_eq_error_iff_refused (h : run ts = .ok a) :
    a.step t = .error error ↔
      ∃ reason, Token.Refused ts t reason ∧ error = .malformed t.offset reason := by
  have hfollows := follows_of_run_eq_ok h
  have hlength := hfollows.length_operands
  -- the numbers of operands and of end marks are those of the tokens
  rw [step_eq_error_iff]
  constructor
  · intro herror
    cases hkind : t.kind with
    | letter =>
      rw [hkind] at herror
      exact herror.elim
    | star =>
      rw [hkind] at herror
      exact ⟨_, .star hkind (by omega), herror.2⟩
    | bar | concat =>
      rw [hkind] at herror
      exact ⟨_, .binary (by simp [hkind]) (by omega), herror.2⟩
    | endMark =>
      rw [hkind] at herror
      obtain ⟨s, hs, hend⟩ := hfollows.isSome_endMark_iff.1 herror.1
      exact ⟨_, .endMark hkind hs hend, herror.2⟩
    | opening | closing =>
      rw [hkind] at herror
      exact ⟨_, .parenthesis (by rw [hkind]; rfl), herror⟩
  · rintro ⟨reason, hrefused, rfl⟩
    cases hrefused with
    | star hkind hbalance =>
      rw [hkind]
      exact ⟨by omega, rfl⟩
    | binary hkind hbalance =>
      rcases hkind with hkind | hkind <;> rw [hkind] <;> exact ⟨by omega, rfl⟩
    | endMark hkind hs hend =>
      rw [hkind]
      exact ⟨hfollows.isSome_endMark_iff.2 ⟨_, hs, hend⟩, rfl⟩
    | parenthesis hkind =>
      cases hparenthesis : t.kind <;> simp [hparenthesis, Kind.isParenthesis] at hkind ⊢

/-- A sequence is taken in if none of its tokens is `Refused`. -/
theorem exists_run_eq_ok_iff :
    (∃ a, run ts = .ok a) ↔ ∀ us t vs reason, ts = us ++ t :: vs → ¬Token.Refused us t reason := by
  rw [run, exists_foldlM_eq_ok_iff
    (R := fun us t error =>
      ∃ reason, Token.Refused us t reason ∧ error = .malformed t.offset reason)
    fun _ _ _ _ h => step_eq_error_iff_refused h]
  constructor
  · exact fun hnone us t vs reason hsplit hrefused =>
      hnone us t vs _ hsplit ⟨reason, hrefused, rfl⟩
  · rintro hnone us t vs _ hsplit ⟨reason, hrefused, -⟩
    exact hnone us t vs reason hsplit hrefused

/-- The first token that is `Refused` ends the assembly. -/
theorem run_eq_error_iff :
    run ts = .error error ↔ ∃ us t vs reason, ts = us ++ t :: vs ∧ Token.Refused us t reason ∧
      (∀ ws s xs other, us = ws ++ s :: xs → ¬Token.Refused ws s other) ∧
      error = .malformed t.offset reason := by
  rw [run, foldlM_eq_error_iff_first
    (R := fun us t error =>
      ∃ reason, Token.Refused us t reason ∧ error = .malformed t.offset reason)
    fun _ _ _ _ h => step_eq_error_iff_refused h]
  constructor
  · rintro ⟨us, t, vs, hsplit, ⟨reason, hrefused, rfl⟩, hfirst⟩
    exact ⟨us, t, vs, reason, hsplit, hrefused,
      fun ws s xs other hws hother => hfirst ws s xs _ hws ⟨other, hother, rfl⟩, rfl⟩
  · rintro ⟨us, t, vs, reason, hsplit, hrefused, hfirst, rfl⟩
    refine ⟨us, t, vs, hsplit, ⟨reason, hrefused, rfl⟩, ?_⟩
    rintro ws s xs _ hws ⟨other, hother, -⟩
    exact hfirst ws s xs other hws hother

/-- There is an expression if `a` has one operand left and an end mark. -/
theorem exists_result_eq_ok_iff :
    (∃ e, a.result last = .ok e) ↔ a.operands.length = 1 ∧ a.endMark.isSome = true := by
  obtain ⟨operands, symbols, endMark⟩ := a
  rcases operands with _ | ⟨r, _ | ⟨l, rest⟩⟩ <;> cases endMark <;> simp [result]

/-- Why `a` is no expression: the number of operands is looked at first, then the end mark. -/
theorem result_eq_error_iff :
    a.result last = .error error ↔
      (a.operands.length ≠ 1 ∧ error = .malformed last (.danglingOperands a.operands.length)) ∨
        (a.operands.length = 1 ∧ a.endMark.isSome = false ∧
          error = .malformed last .missingEndMark) := by
  obtain ⟨operands, symbols, endMark⟩ := a
  rcases operands with _ | ⟨r, _ | ⟨l, rest⟩⟩ <;> cases endMark <;> simp [result, eq_comm]

end Assembly

/-- A postfix sequence makes an expression if none of its tokens is `Refused`, its `balance` is one,
that is, one operand is left, and it has an end mark. -/
theorem exists_ofPostfix_eq_ok_iff :
    (∃ e, ofPostfix form = .ok e) ↔
      (∀ us t vs reason, form.tokens = us ++ t :: vs → ¬Token.Refused us t reason) ∧
        Token.balance form.tokens = 1 ∧ ∃ t ∈ form.tokens, t.kind = .endMark := by
  -- that no token is refused means that there is an assembly, whose numbers decide
  simp only [ofPostfix, bind_eq_ok_iff]
  rw [← Assembly.exists_run_eq_ok_iff, exists_comm]
  constructor
  · rintro ⟨a, e, ha, he⟩
    have hfollows := Assembly.follows_of_run_eq_ok ha
    obtain ⟨hlength, hend⟩ := Assembly.exists_result_eq_ok_iff.1 ⟨e, he⟩
    refine ⟨⟨a, ha⟩, ?_, hfollows.isSome_endMark_iff.1 hend⟩
    rw [← hfollows.length_operands, hlength]
    rfl
  · rintro ⟨⟨a, ha⟩, hbalance, hend⟩
    have hfollows := Assembly.follows_of_run_eq_ok ha
    have hlength := hfollows.length_operands
    obtain ⟨e, he⟩ := Assembly.exists_result_eq_ok_iff.2
      ⟨by omega, hfollows.isSome_endMark_iff.2 hend⟩
    exact ⟨a, e, ha, he⟩

/-- What a postfix sequence that makes no expression is reported for. -/
theorem ofPostfix_eq_error_iff :
    ofPostfix form = .error error ↔
      (∃ us t vs reason, form.tokens = us ++ t :: vs ∧ Token.Refused us t reason ∧
        (∀ ws s xs other, us = ws ++ s :: xs → ¬Token.Refused ws s other) ∧
        error = .malformed t.offset reason) ∨
      (∀ us t vs reason, form.tokens = us ++ t :: vs → ¬Token.Refused us t reason) ∧
        ((∃ count : Nat, Token.balance form.tokens = count ∧ count ≠ 1 ∧
            error = .malformed (form.tokens.getLast?.elim {} (·.offset))
              (.danglingOperands count)) ∨
          (Token.balance form.tokens = 1 ∧ (∀ t ∈ form.tokens, t.kind ≠ .endMark) ∧
            error = .malformed (form.tokens.getLast?.elim {} (·.offset)) .missingEndMark)) := by
  rw [ofPostfix, bind_eq_error_iff, Assembly.run_eq_error_iff, ← Assembly.exists_run_eq_ok_iff]
  -- if no token is refused, the numbers at the end decide
  refine or_congr_right ?_
  constructor
  · rintro ⟨a, ha, herror⟩
    have hfollows := Assembly.follows_of_run_eq_ok ha
    refine ⟨⟨a, ha⟩, ?_⟩
    rcases Assembly.result_eq_error_iff.1 herror with ⟨hne, rfl⟩ | ⟨hone, hnone, rfl⟩
    · exact .inl ⟨_, hfollows.length_operands.symm, hne, rfl⟩
    · refine .inr ⟨by rw [← hfollows.length_operands, hone]; rfl, fun t ht hend => ?_, rfl⟩
      rw [hfollows.isSome_endMark_iff.2 ⟨t, ht, hend⟩] at hnone
      cases hnone
  · rintro ⟨⟨a, ha⟩, hwrong⟩
    have hfollows := Assembly.follows_of_run_eq_ok ha
    have hlength := hfollows.length_operands
    refine ⟨a, ha, Assembly.result_eq_error_iff.2 ?_⟩
    rcases hwrong with ⟨count, hcount, hne, rfl⟩ | ⟨hone, hnone, rfl⟩
    · obtain rfl : a.operands.length = count := by omega
      exact .inl ⟨hne, rfl⟩
    · refine .inr ⟨by omega, ?_, rfl⟩
      rw [← Bool.not_eq_true, hfollows.isSome_endMark_iff]
      rintro ⟨t, ht, hend⟩
      exact hnone t ht hend

/-- For every sequence of tokens in postfix order, let the balance at a token be the number of
letters and end marks before it less the number of bars and concatenations. An expression is put
together exactly if the balance is at least one at every star and at least two at every bar and
every concatenation, there is no parenthesis, there is exactly one end mark, and the whole sequence
has the balance one. Otherwise the first token that is refused is reported: a star, a bar or a
concatenation where the balance is less, a second end mark, or a parenthesis. If none is refused, it
is the balance of the whole sequence that is reported, at the last token, as the number of operands
that are left, or as no operands at the offset zero if there are no tokens; and if that is one, the
lack of an end mark. Sequences that the conversion to postfix order makes have no parentheses. -/
theorem ofPostfix_outcome_of_balance (form : Postfix) :
    let last := form.tokens.getLast?.elim ⟨0⟩ (·.offset)
    ((∃ e, ofPostfix form = .ok e) ↔
        (∀ us t vs, form.tokens = us ++ t :: vs →
          (t.kind = .star → 1 ≤ Token.balance us) ∧
          (t.kind = .bar ∨ t.kind = .concat → 2 ≤ Token.balance us) ∧
          t.kind.isParenthesis = false) ∧
        form.tokens.countP (·.kind = .endMark) = 1 ∧ Token.balance form.tokens = 1) ∧
      (∀ error, ofPostfix form = .error error ↔
        (∃ us t vs reason, form.tokens = us ++ t :: vs ∧ Token.Refused us t reason ∧
          (∀ ws s xs other, us = ws ++ s :: xs → ¬Token.Refused ws s other) ∧
          error = .malformed t.offset reason) ∨
        (∀ us t vs reason, form.tokens = us ++ t :: vs → ¬Token.Refused us t reason) ∧
          ((∃ count : Nat, Token.balance form.tokens = count ∧ count ≠ 1 ∧
              error = .malformed last (.danglingOperands count)) ∨
            (Token.balance form.tokens = 1 ∧ (∀ t ∈ form.tokens, t.kind ≠ .endMark) ∧
              error = .malformed last .missingEndMark))) ∧
      ∀ ts, Postfix.ofTokens ts = .ok form → ∀ t ∈ form.tokens, t.kind.isParenthesis = false := by
  refine ⟨?_, fun error => ofPostfix_eq_error_iff, fun ts hform t ht => ?_⟩
  · constructor
    · intro hok
      obtain ⟨hnone, hbalance, s, hs, hend⟩ := exists_ofPostfix_eq_ok_iff.1 hok
      refine ⟨fun us t vs hsplit => ⟨fun hkind => ?_, fun hkind => ?_, ?_⟩, ?_, hbalance⟩
      · exact Int.not_lt.1 fun hlt => hnone us t vs _ hsplit (.star hkind hlt)
      · exact Int.not_lt.1 fun hlt => hnone us t vs _ hsplit (.binary hkind hlt)
      · exact Bool.eq_false_iff.2 fun hkind => hnone us t vs _ hsplit (.parenthesis hkind)
      · obtain ⟨a, ha⟩ := Assembly.exists_run_eq_ok_iff.2 hnone
        have hfollows := Assembly.follows_of_run_eq_ok ha
        rw [hfollows.countP_endMark, hfollows.isSome_endMark_iff.2 ⟨s, hs, hend⟩]
        rfl
    · rintro ⟨hfits, hone, hbalance⟩
      refine exists_ofPostfix_eq_ok_iff.2 ⟨?_, hbalance, ?_⟩
      · rintro us t vs reason hsplit (⟨hkind, hlt⟩ | ⟨hkind, hlt⟩ | ⟨hkind, hs, hend⟩ | hkind)
        · exact absurd hlt (Int.not_lt.2 ((hfits us t vs hsplit).1 hkind))
        · exact absurd hlt (Int.not_lt.2 ((hfits us t vs hsplit).2.1 hkind))
        · -- there would be two end marks
          have hpos : 0 < us.countP (·.kind = .endMark) :=
            List.countP_pos_iff.2 ⟨_, hs, by simpa using hend⟩
          rw [hsplit, List.countP_append, List.countP_cons] at hone
          simp only [hkind, decide_true, if_true] at hone
          omega
        · rw [(hfits us t vs hsplit).2.2] at hkind
          cases hkind
      · have hpos : 0 < form.tokens.countP (·.kind = .endMark) := by omega
        simpa using List.countP_pos_iff.1 hpos
  · exact Postfix.isParenthesis_of_mem_tokens hform ht

/-- The second end mark is reported, since it comes before the bar that lacks an operand. -/
example :
    ofPostfix ⟨[.endMark ⟨0⟩, .endMark ⟨1⟩, ⟨.bar, '|', ⟨2⟩⟩, ⟨.bar, '|', ⟨3⟩⟩]⟩ =
      .error (.malformed ⟨1⟩ .duplicateEndMark) := rfl

end Expression

end PositionAutomaton
