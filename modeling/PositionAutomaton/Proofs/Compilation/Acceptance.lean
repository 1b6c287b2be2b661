import PositionAutomaton.Proofs.Compilation.Stages
import PositionAutomaton.Proofs.Compilation.Tree
import PositionAutomaton.Proofs.Postfix.Balance

/-!
# Which texts are compiled

There is no check of the grammar in a compilation. What an ill-formed text is found by is the
number of operands that are left when its expression is put together. Neither the
concatenations that are inserted nor operators that take operands from outside their group can
make up for a missing operand, so that the texts compiled are those that derive from the
grammar (`exists_compile_eq_ok_iff_derives`). An operator that stands where it may not is one
that lacks an operand (`misplaced_iff_exists_lacksOperand`), and leaves a defect of the tokens
(`defects_ne_zero_of_lacksOperand`).
-/

namespace PositionAutomaton

variable {foldCase : Bool} {s : String} {cs : List Char} {ts tokens : List Token}
  {form : Postfix} {e : Expression}

/-- The tokens `ts` of a text that make an expression have no defects, and nested parentheses. -/
theorem defects_eq_zero_and_nested (hts : Token.scan foldCase s = .ok ts) (hne : ts ≠ [])
    (htokens : Token.explicit ts = .ok tokens) (hform : Postfix.ofTokens tokens = .ok form)
    (he : Expression.ofPostfix form = .ok e) :
    Token.defects true ts = 0 ∧ Token.Nested 0 ts := by
  obtain ⟨last, -, rfl⟩ := Token.explicit_eq_ok_iff.1 htokens
  have hends := Token.kind_ne_endMark_of_scanFrom hts
  constructor
  · have hexplicit := Token.kind_ne_endMark_of_mem_withConcats hends
    have hnil : Token.withConcats ts ≠ [] := fun h => hne (Token.withConcats_eq_nil_iff.1 h)
    -- one operand is left, which is as many as there are without defects
    have hone : Token.balance (Token.withConcats ts) = 1 := by
      rw [← Postfix.balance_of_ofTokens_eq_ok hexplicit hnil hform]
      exact Expression.balance_eq_one_of_ofPostfix_eq_ok he
    have hbalance := Token.balance_withConcats_add_defects hends
    omega
  · have hnested := Postfix.nested_of_ofTokens_eq_ok hform
    rwa [Token.nested_append_endMark_iff, Token.nested_withConcats_iff] at hnested

/-- A star or a bar stands where an operand has to start, at the start of the text, of a group
or of an alternative, or a bar stands where no operand can start behind it. -/
def Misplaced (cs : List Char) : Prop :=
  ∃ before c after, cs = before ++ c :: after ∧
    ((c ∈ ['*', '|'] ∧ before.getLast? ∈ [none, some '(', some '|']) ∨
      (c = '|' ∧ after.head? ∈ [none, some ')', some '|']))

/-- The operator `c` lacks an operand between `before` and `after`: a star at the start or directly
behind `(` or `|`, or a bar there or at the end or directly before `)`, `|` or `*`. -/
def LacksOperand (before : List Char) (c : Char) (after : List Char) : Prop :=
  (c = '*' ∧ before.getLast? ∈ [none, some '(', some '|']) ∨
    (c = '|' ∧ (before.getLast? ∈ [none, some '(', some '|'] ∨
      after.head? ∈ [none, some ')', some '|', some '*']))

instance (before : List Char) (c : Char) (after : List Char) :
    Decidable (LacksOperand before c after) :=
  inferInstanceAs (Decidable (_ ∨ _))

variable {offset : Offset} {before after : List Char} {c : Char}

/-- A text has a misplaced operator if one of its operators lacks an operand: that is, `Misplaced`
and `LacksOperand` describe the same texts. -/
theorem misplaced_iff_exists_lacksOperand :
    Misplaced cs ↔ ∃ before c after, cs = before ++ c :: after ∧ LacksOperand before c after := by
  constructor
  · rintro ⟨before, c, after, hsplit, ⟨hc, hbefore⟩ | ⟨hc, hafter⟩⟩
    · simp only [List.mem_cons, List.not_mem_nil, or_false] at hc
      exact ⟨before, c, after, hsplit,
        hc.imp (fun hc => ⟨hc, hbefore⟩) fun hc => ⟨hc, .inl hbefore⟩⟩
    · exact ⟨before, c, after, hsplit, .inr ⟨hc, .inr (List.mem_append_left [some '*'] hafter)⟩⟩
  · rintro ⟨before, c, after, rfl, ⟨rfl, hbefore⟩ | ⟨rfl, hbefore | hafter⟩⟩
    · exact ⟨before, '*', after, rfl, .inl ⟨by simp, hbefore⟩⟩
    · exact ⟨before, '|', after, rfl, .inl ⟨by simp, hbefore⟩⟩
    · have hcut : after.head? ∈ [none, some ')', some '|'] ++ [some '*'] := hafter
      rcases List.mem_append.1 hcut with hafter | hstar
      · exact ⟨before, '|', after, rfl, .inr ⟨rfl, hafter⟩⟩
      · -- a star behind the bar is misplaced itself
        obtain ⟨rest, rfl⟩ := List.head?_eq_some_iff.1 (List.mem_singleton.1 hstar)
        exact ⟨before ++ ['|'], '*', rest, by simp, .inl ⟨by simp, by simp⟩⟩

/-- The tokens of a text have a defect where an operand has to start behind `before` and none starts
with `after`. -/
theorem defects_ne_zero_of_gap (hbefore : before.getLast? ∈ [none, some '(', some '|'])
    (hafter : after.head? ∈ [none, some ')', some '|', some '*'])
    (hts : Token.scanFrom foldCase offset (before ++ after) = .ok ts) :
    Token.defects true ts ≠ 0 := by
  intro hdefects
  obtain ⟨us, vs, hus, hvs, rfl⟩ := Token.scanFrom_append_eq_ok_iff.1 hts
  have hplace := (Token.getLast?_elim_endsOperand_iff hus).2 hbefore
  have hnone := (Token.head?_elim_startsOperand_iff hvs).2 hafter
  -- without defects, `after` would start an operand, or an operand would have ended
  cases vs with
  | cons v vs =>
    have hstarts := Token.startsOperand_of_defects_eq_zero hdefects hplace
    rw [List.head?_cons, Option.elim_some, hstarts] at hnone
    cases hnone
  | nil =>
    rw [List.append_nil] at hdefects
    rcases List.eq_nil_or_concat us with rfl | ⟨us, u, rfl⟩
    · cases hdefects
    · rw [List.concat_eq_append] at hdefects hplace
      rw [List.getLast?_concat, Option.elim_some, Token.endsOperand_of_defects_eq_zero hdefects]
        at hplace
      cases hplace

/-- If the operator `c` lacks an operand between `before` and `after`, the tokens of the text have a
defect. -/
theorem defects_ne_zero_of_lacksOperand (h : LacksOperand before c after)
    (hts : Token.scanFrom foldCase offset (before ++ c :: after) = .ok ts) :
    Token.defects true ts ≠ 0 := by
  rcases h with ⟨rfl, hbefore⟩ | ⟨rfl, hbefore | hafter⟩
  · exact defects_ne_zero_of_gap hbefore (by simp) hts
  · exact defects_ne_zero_of_gap hbefore (by simp) hts
  · -- it is behind the bar that an operand has to start
    rw [List.append_cons] at hts
    exact defects_ne_zero_of_gap (by simp) hafter hts

/-- If the text `s` has a numbered expression, there is an offset for its end, and it is empty or
its tokens have no defects and nested parentheses. -/
theorem of_ofText_eq_ok (h : Expression.ofText foldCase s = .ok e) :
    s.utf8ByteSize < Offset.bound ∧ (s = "" ∨ ∃ ts, Token.scan foldCase s = .ok ts ∧
      Token.defects true ts = 0 ∧ Token.Nested 0 ts) := by
  obtain ⟨ts, tokens, form, hts, htokens, hform, he⟩ := Expression.ofText_eq_ok_iff.1 h
  obtain ⟨last, hlast, -⟩ := Token.explicit_eq_ok_iff.1 htokens
  refine ⟨((Token.endOffset_eq_ok_iff_of_scan hts).1 hlast).1, ?_⟩
  by_cases hne : ts = []
  · subst hne
    have hnil : s.toList = [] := by simpa using (Token.map_kind_of_scanFrom hts).symm
    exact .inl (String.toList_eq_nil_iff.1 hnil)
  · exact .inr ⟨ts, hts, defects_eq_zero_and_nested hts hne htokens hform he⟩

/-- If the text `s` has a numbered expression, it is empty or derives from the grammar. -/
theorem eq_empty_or_derives_of_ofText_eq_ok (h : Expression.ofText foldCase s = .ok e) :
    s = "" ∨ ∃ r, Derives .choice s.toList r := by
  obtain ⟨-, hnil | ⟨ts, hts, hdefects, hnested⟩⟩ := of_ofText_eq_ok h
  · exact .inl hnil
  · have hstart : Begun 0 true [] := .start (.inl rfl)
    exact .inr (hstart.exists_derives hts hnested hdefects)

/-- If `s` derives from the grammar as `r`, its numbered expression is that of `r`, in lower case if
case is folded. -/
theorem Derives.ofText_eq_ok {r : Regex Char} (foldCase : Bool) (h : Derives .choice s.toList r)
    (hsize : s.utf8ByteSize < Offset.bound) :
    Expression.ofText foldCase s = .ok (.ofRegex (r.map (Token.folded foldCase))) := by
  obtain ⟨ts, hts, hexplicit⟩ := h.exists_explicit_eq_ok foldCase hsize
  obtain ⟨form, hform, -, he⟩ := h.exists_ofPostfix_eq_ok hts ⟨s.utf8ByteSize⟩
  exact Expression.ofText_eq_ok_iff.2 ⟨ts, _, form, hts, hexplicit, hform, he⟩

/-- With upper and lower case letters apart, the numbered expression of a text that is read as `r`
is that of `r`. -/
theorem Derives.eq_ofRegex {r : Regex Char} (hr : Derives .choice s.toList r)
    (h : Expression.ofText false s = .ok e) : e = .ofRegex r := by
  have hfolded : r.map (Token.folded false) = r := r.map_id
  have hr := hr.ofText_eq_ok false (of_ofText_eq_ok h).1
  rw [hfolded] at hr
  exact Except.ok.inj (h.symm.trans hr)

/-- If `s` is compiled, there is an offset for its end, and it is empty or its tokens have no
defects and nested parentheses. -/
theorem of_compile_eq_ok (h : ∃ a, compile s = .ok a) :
    s.utf8ByteSize < Offset.bound ∧ (s = "" ∨ ∃ ts, Token.scan false s = .ok ts ∧
      Token.defects true ts = 0 ∧ Token.Nested 0 ts) := by
  obtain ⟨a, h⟩ := h
  obtain ⟨e, he, -⟩ := compile_eq_ok_iff.1 h
  exact of_ofText_eq_ok he

/-- If `s` is compiled, it is empty or derives from the grammar. -/
theorem eq_empty_or_derives_of_compile_eq_ok (h : ∃ a, compile s = .ok a) :
    s = "" ∨ ∃ r, Derives .choice s.toList r := by
  obtain ⟨a, h⟩ := h
  obtain ⟨e, he, -⟩ := compile_eq_ok_iff.1 h
  exact eq_empty_or_derives_of_ofText_eq_ok he

/-- The texts that are compiled are the empty one and those that derive from the grammar, as long as
there is an offset for their end. In particular no text with a misplaced operator, that is, no
`Misplaced` one, is compiled. -/
theorem exists_compile_eq_ok_iff_derives (s : String) :
    ((∃ a, compile s = .ok a) ↔
      s.utf8ByteSize < Offset.bound ∧ (s = "" ∨ ∃ r, Derives .choice s.toList r)) ∧
      (Misplaced s.toList → ¬∃ a, compile s = .ok a) := by
  refine ⟨⟨fun h => ?_, ?_⟩, fun hmisplaced h => ?_⟩
  · exact ⟨(of_compile_eq_ok h).1, eq_empty_or_derives_of_compile_eq_ok h⟩
  · rintro ⟨hsize, rfl | ⟨r, hr⟩⟩
    · exact exists_compile_eq_ok_iff.2 ⟨[], _, _, _, rfl, rfl, rfl, rfl⟩
    · obtain ⟨ts, hts, hexplicit⟩ := hr.exists_explicit_eq_ok false hsize
      obtain ⟨form, hform, -, he⟩ := hr.exists_ofPostfix_eq_ok hts ⟨s.utf8ByteSize⟩
      exact exists_compile_eq_ok_iff.2 ⟨ts, _, form, _, hts, hexplicit, hform, he⟩
  · obtain ⟨-, rfl | ⟨ts, hts, hdefects, -⟩⟩ := of_compile_eq_ok h
    · obtain ⟨before, c, after, hnil, -⟩ := hmisplaced
      simp at hnil
    · obtain ⟨before, c, after, hsplit, hlacks⟩ :=
        misplaced_iff_exists_lacksOperand.1 hmisplaced
      rw [Token.scan, hsplit] at hts
      exact defects_ne_zero_of_lacksOperand hlacks hts hdefects

end PositionAutomaton
