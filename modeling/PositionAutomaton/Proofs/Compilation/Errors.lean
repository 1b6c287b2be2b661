import PositionAutomaton.Proofs.Compilation.Stages
import PositionAutomaton.Proofs.Postfix.Groups
import PositionAutomaton.Proofs.Postfix.Operands

/-!
# Which error is reported

The stages of a compilation look for one kind of error each: characters that no expression
contains, then parentheses without partner, then operators without operands. Which error is
reported is therefore decided by the characters of the text (`first_error_of_compile`).

That an expression is put together never fails for another reason than a missing operand is a
matter of counting: at the end mark at most one operand is left, and where there are tokens at
least one.
-/

namespace PositionAutomaton

/-- The error is that of the parentheses of `cs`: the first one that is stray, or else the last one
that stays open. -/
inductive Misnested (cs : List Char) : Error → Prop where
  /-- The end of a group in which there is nothing. -/
  | empty {before after : List Char} : cs = before ++ ')' :: after → NoStray before →
      before.getLast? = some '(' →
      Misnested cs (.malformed ⟨String.utf8Len before⟩ .emptyGroup)
  /-- The end of a group that was not opened. -/
  | unopened {before after : List Char} : cs = before ++ ')' :: after → NoStray before →
      before.getLast? ≠ some '(' → before.count ')' = before.count '(' →
      Misnested cs (.unbalanced ⟨String.utf8Len before⟩)
  /-- The start of a group that is not closed. -/
  | unclosed {before after : List Char} : NoStray cs → cs = before ++ '(' :: after →
      ¬Closes after → AllClosed after →
      Misnested cs (.unbalanced ⟨String.utf8Len before⟩)

/-- The error is one of a text of `size` bytes: it is about a place in the text, and not about a
postfix sequence or the number of states. -/
def Error.IsOfText (size : Nat) : Error → Prop
  | malformed offset reason =>
    offset.bytes < size ∧
      match reason with
      | .invalidCharacter _ | .reservedCharacter _ | .emptyGroup | .missingOperand _ => True
      | .unexpectedToken _ | .danglingOperands _ | .missingEndMark | .duplicateEndMark => False
  | unbalanced offset => offset.bytes < size
  | tooManyStates _ | offsetOverflow _ | missingRow _ => False

variable {foldCase : Bool} {s : String} {cs : List Char} {ts : List Token} {last : Offset}
  {error : Error}

/-- The place of the character `c` in a text lies before the end of the text. -/
theorem utf8Len_lt_of_eq_append {before after : List Char} {c : Char}
    (h : cs = before ++ c :: after) : String.utf8Len before < String.utf8Len cs := by
  have hpos := c.utf8Size_pos
  rw [h, String.utf8Len_append, String.utf8Len_cons]
  omega

/-- Parentheses without partner are errors of the text. -/
theorem Misnested.isOfText (h : Misnested cs error) : error.IsOfText (String.utf8Len cs) := by
  cases h with
  | empty hsplit => exact ⟨utf8Len_lt_of_eq_append hsplit, trivial⟩
  | unopened hsplit => exact utf8Len_lt_of_eq_append hsplit
  | unclosed _ hsplit => exact utf8Len_lt_of_eq_append hsplit

/-- The text `cs` either has no parentheses without partner, or one of them decides. -/
theorem noStray_and_allClosed_or_exists_misnested (cs : List Char) :
    (NoStray cs ∧ AllClosed cs) ∨ ∃ error, Misnested cs error := by
  rcases noStray_or_exists_stray cs with hcs | ⟨before, after, hsplit, hbefore, hstray⟩
  · rcases allClosed_or_exists_not_closes cs with hall | ⟨before, after, hsplit, hopen, hafter⟩
    · exact .inl ⟨hcs, hall⟩
    · exact .inr ⟨_, .unclosed hcs hsplit hopen hafter⟩
  · by_cases hlast : before.getLast? = some '('
    · exact .inr ⟨_, .empty hsplit hbefore hlast⟩
    · exact .inr ⟨_, .unopened hsplit hbefore hlast (hstray.resolve_left hlast)⟩

/-- If the parentheses of a text are `Misnested`, the text has no postfix order, with the error of
them. -/
theorem Misnested.ofTokens_eq_error (h : Misnested cs error)
    (hts : Token.scanFrom foldCase {} cs = .ok ts) :
    Postfix.ofTokens (Token.withConcats ts ++ [Token.endMark last]) = .error error := by
  cases h with
  | empty hsplit hbefore hlast =>
    subst hsplit
    rw [Postfix.ofTokens_eq_error_of_stray hbefore (.inl hlast) hts, if_pos hlast, Nat.zero_add]
  | unopened hsplit hbefore hlast hcount =>
    subst hsplit
    rw [Postfix.ofTokens_eq_error_of_stray hbefore (.inr hcount) hts, if_neg hlast, Nat.zero_add]
  | unclosed hcs hsplit hopen hafter =>
    subst hsplit
    rw [Postfix.ofTokens_eq_error_of_not_closes hcs hopen hafter hts, Nat.zero_add]

/-- If not all characters of `cs` are those of expressions, there is a first one that is not. -/
theorem exists_not_written (h : ¬∀ c ∈ cs, Written c) :
    ∃ before c after, cs = before ++ c :: after ∧ (∀ b ∈ before, Written b) ∧ ¬Written c := by
  cases hfind : cs.find? fun c => !(Kind.ofChar? c).isSome with
  | none =>
    refine absurd (fun c hc => Kind.isSome_ofChar?_iff.1 ?_) h
    simpa only [Bool.not_eq_true', Bool.not_eq_false] using List.find?_eq_none.1 hfind c hc
  | some c =>
    obtain ⟨hc, before, after, hsplit, hbefore⟩ := List.find?_eq_some_iff_append.1 hfind
    refine ⟨before, c, after, hsplit, fun b hb => Kind.isSome_ofChar?_iff.1 ?_, ?_⟩
    · simpa only [Bool.not_not] using hbefore b hb
    · rw [← Kind.isSome_ofChar?_iff]
      simpa only [Bool.not_eq_true', Bool.not_eq_true] using hc

namespace Expression

/-- If `c` is the first character of `s` that no expression contains, it decides. -/
theorem ofText_eq_error_of_not_written {before after : List Char} {c : Char} (foldCase : Bool)
    (hs : s.toList = before ++ c :: after) (hbefore : ∀ b ∈ before, Written b) (hc : ¬Written c) :
    ofText foldCase s = .error (.malformed ⟨String.utf8Len before⟩
      (if c = '#' then .reservedCharacter c else .invalidCharacter c)) := by
  have hscan : Token.scan foldCase s = .error (.malformed ⟨0 + String.utf8Len before⟩
      (if c = '#' then .reservedCharacter c else .invalidCharacter c)) := by
    rw [Token.scan, hs]
    exact Token.scanFrom_eq_error hbefore hc
  rw [ofText_eq_bind, hscan, error_bind, Nat.zero_add]

/-- If the characters of `s` are those of expressions, it has tokens. If there is an offset for its
end, they are brought into postfix order and put together. -/
theorem exists_scan_and_ofText_eq (foldCase : Bool) (hs : ∀ c ∈ s.toList, Written c)
    (hsize : s.utf8ByteSize < Offset.bound) :
    ∃ ts, Token.scan foldCase s = .ok ts ∧ ofText foldCase s =
      Postfix.ofTokens (Token.withConcats ts ++ [Token.endMark ⟨s.utf8ByteSize⟩]) >>=
        ofPostfix := by
  obtain ⟨ts, hts⟩ : ∃ ts, Token.scan foldCase s = .ok ts :=
    Token.exists_scanFrom_eq_ok_iff.2 fun c hc => Kind.isSome_ofChar?_iff.2 (hs c hc)
  have hexplicit := Token.explicit_eq_ok_iff.2
    ⟨_, (Token.endOffset_eq_ok_iff_of_scan hts).2 ⟨hsize, rfl⟩, rfl⟩
  exact ⟨ts, hts, by rw [ofText_eq_bind, hts, ok_bind, hexplicit, ok_bind]⟩

/-- If all characters of `s` are those of expressions, parentheses without partner decide. -/
theorem ofText_eq_error_of_misnested (foldCase : Bool) (hs : ∀ c ∈ s.toList, Written c)
    (hsize : s.utf8ByteSize < Offset.bound) (h : Misnested s.toList error) :
    ofText foldCase s = .error error := by
  obtain ⟨ts, hts, htext⟩ := exists_scan_and_ofText_eq foldCase hs hsize
  rw [htext, h.ofTokens_eq_error hts, error_bind]

/-- If all characters of `s` are those of expressions, and its parentheses have partners, only an
operator that lacks an operand can be an error. -/
theorem exists_missingOperand_of_ofText_eq_error (hs : ∀ c ∈ s.toList, Written c)
    (hsize : s.utf8ByteSize < Offset.bound) (hstray : NoStray s.toList)
    (hclosed : AllClosed s.toList) (h : ofText foldCase s = .error error) :
    ∃ o c, error = .malformed o (.missingOperand c) ∧ o.bytes < s.utf8ByteSize := by
  obtain ⟨ts, hts, htext⟩ := exists_scan_and_ofText_eq foldCase hs hsize
  obtain ⟨form, hform⟩ : ∃ form, Postfix.ofTokens
      (Token.withConcats ts ++ [Token.endMark ⟨s.utf8ByteSize⟩]) = .ok form :=
    Postfix.exists_ofTokens_eq_ok_of_allClosed hstray hclosed hts
  rw [htext, hform, ok_bind] at h
  obtain ⟨-, -, t, -, -, -, -, -, ht, -, -, rfl⟩ := exists_step_eq_error_of_ofTokens_eq_ok
    (Token.kind_ne_endMark_of_scanFrom hts) hform h
  -- a concatenation stands at the place of the token behind it
  obtain ⟨u, hu, hut⟩ := Token.exists_of_mem_withConcats ht
  have hlt := Token.offset_lt_of_scanFrom hts u hu
  rw [String.utf8Len_toList, Nat.zero_add] at hlt
  rcases hut with rfl | rfl
  · exact ⟨_, _, rfl, hlt⟩
  · exact ⟨_, _, rfl, hlt⟩

/-- Every error is about a place in the text `s`. -/
theorem isOfText_of_ofText_eq_error (hsize : s.utf8ByteSize < Offset.bound)
    (h : ofText foldCase s = .error error) : error.IsOfText s.utf8ByteSize := by
  -- the errors come in the order of the stages: characters, parentheses, operands
  by_cases hs : ∀ c ∈ s.toList, Written c
  · rcases noStray_and_allClosed_or_exists_misnested s.toList with ⟨hstray, hclosed⟩ | ⟨e, he⟩
    · obtain ⟨o, c, rfl, hlt⟩ :=
        exists_missingOperand_of_ofText_eq_error hs hsize hstray hclosed h
      exact ⟨hlt, trivial⟩
    · have hmisnested := ofText_eq_error_of_misnested foldCase hs hsize he
      obtain rfl : e = error := Except.error.inj (hmisnested.symm.trans h)
      rw [← String.utf8Len_toList]
      exact he.isOfText
  · obtain ⟨before, c, after, hsplit, hbefore, hc⟩ := exists_not_written hs
    have hwritten := ofText_eq_error_of_not_written foldCase hsplit hbefore hc
    obtain rfl := Except.error.inj (hwritten.symm.trans h)
    rw [← String.utf8Len_toList]
    refine ⟨utf8Len_lt_of_eq_append hsplit, ?_⟩
    by_cases hsharp : c = '#'
    · rw [if_pos hsharp]
      trivial
    · rw [if_neg hsharp]
      trivial

end Expression

/-- A text that no automaton is built for is reported with the error that its characters decide:
the first character that no expression contains, or else the first closing parenthesis without a
group to end, or else the last opening one whose group does not end, or else an operator without
operand. It is about a place in the text, as long as there is an offset for the end of the text. -/
theorem first_error_of_compile (s : String) :
    (∀ before c after, s.toList = before ++ c :: after → (∀ b ∈ before, Written b) → ¬Written c →
      compile s = .error (.malformed ⟨String.utf8Len before⟩
        (if c = '#' then .reservedCharacter c else .invalidCharacter c))) ∧
      (s.utf8ByteSize < Offset.bound →
        ((∀ c ∈ s.toList, Written c) →
          (∀ error, Misnested s.toList error → compile s = .error error) ∧
          (NoStray s.toList → AllClosed s.toList → ∀ error, compile s = .error error →
            ∃ o c, error = .malformed o (.missingOperand c))) ∧
        ∀ error, compile s = .error error → error.IsOfText s.utf8ByteSize) := by
  have hcompile (error : Error) :
      compile s = .error error ↔ Expression.ofText false s = .error error :=
    Options.compile_eq_error_iff rfl
  simp only [hcompile]
  refine ⟨fun before c after => Expression.ofText_eq_error_of_not_written false, fun hsize => ?_⟩
  refine ⟨fun hs => ⟨fun error => ?_, fun hstray hclosed error h => ?_⟩, fun error => ?_⟩
  · exact Expression.ofText_eq_error_of_misnested false hs hsize
  · obtain ⟨o, c, herror, -⟩ :=
      Expression.exists_missingOperand_of_ofText_eq_error hs hsize hstray hclosed h
    exact ⟨o, c, herror⟩
  · exact Expression.isOfText_of_ofText_eq_error hsize

/-- A text for each kind of error. -/
theorem first_error_of_broken_texts :
    compile "a)%#" = .error (.malformed ⟨2⟩ (.invalidCharacter '%')) ∧
      compile "(a()*" = .error (.malformed ⟨3⟩ .emptyGroup) ∧
      compile "|(a(b" = .error (.unbalanced ⟨3⟩) ∧
      compile "a||b" = .error (.malformed ⟨1⟩ (.missingOperand '|')) ∧
      (∃ o c, Error.malformed ⟨1⟩ (.missingOperand '|') = .malformed o (.missingOperand c)) ∧
      (Error.malformed ⟨1⟩ (.missingOperand '|')).IsOfText "a||b".utf8ByteSize := by
  have hoperand : compile "a||b" = .error (.malformed ⟨1⟩ (.missingOperand '|')) := rfl
  have hcharacter := (first_error_of_compile "a)%#").1 ['a', ')'] '%' ['#'] rfl
    (by simp [Written]) (by decide)
  have hclosing := ((first_error_of_compile "(a()*").2 (by decide)).1 (by simp [Written])
  have hopening := ((first_error_of_compile "|(a(b").2 (by decide)).1 (by simp [Written])
  have hmissing := (first_error_of_compile "a||b").2 (by decide)
  have hempty : Misnested "(a()*".toList (.malformed ⟨3⟩ .emptyGroup) :=
    .empty (show _ = ['(', 'a', '('] ++ ')' :: ['*'] from rfl) (noStray_of_not_mem (by decide)) rfl
  have hunclosed : Misnested "|(a(b".toList (.unbalanced ⟨3⟩) :=
    .unclosed (noStray_of_not_mem (by decide))
      (show _ = ['|', '(', 'a'] ++ '(' :: ['b'] from rfl)
      (fun h => absurd h.mem (by decide)) (allClosed_of_not_mem (by decide))
  exact ⟨hcharacter, hclosing.1 _ hempty, hopening.1 _ hunclosed, hoperand,
    (hmissing.1 (by simp [Written])).2 (noStray_of_not_mem (by decide))
      (allClosed_of_not_mem (by decide)) _ hoperand,
    hmissing.2 _ hoperand⟩

end PositionAutomaton
