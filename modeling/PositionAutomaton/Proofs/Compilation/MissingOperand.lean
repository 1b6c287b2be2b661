import PositionAutomaton.Proofs.Compilation.Acceptance
import PositionAutomaton.Proofs.Compilation.Errors
import PositionAutomaton.Proofs.Compilation.Range
import PositionAutomaton.Proofs.Postfix.Operands

/-!
# The place of a missing operand

If the operator that is blamed for a missing operand is a star, it lacks its operand. A bar that is
blamed lacks an operand, or else an operator in its right operand does. If a concatenation is
blamed, which is not written in the text, an operator in the group that starts at the place of the
error lacks an operand (`blames_of_compile_eq_missingOperand`).

So the place of the error need not be that of the operator at fault (`not_forall_lacksOperand`): a
star repeats what was completed just before it, also if that stands in front of its group, and an
operator further out is the first one for which too few operands are left.

The tokens of a text are cut at a gap (`Token.Gap`) where an operand is missing between characters
(`Token.exists_of_gap`). Since no group is empty or open, an operator stands next to the gap and
lacks the operand (`exists_lacksOperand_behind`).
-/

namespace PositionAutomaton

/-- An alternative that began just before the characters `cs` ends in them: one of their bars or
closing parentheses has as many opening as closing ones before it. -/
def EndsAlternative (cs : List Char) : Prop :=
  ∃ inner c after, cs = inner ++ c :: after ∧ c ∈ [')', '|'] ∧ inner.count ')' = inner.count '('

/-- The error blames an operator for one of a text that lacks an operand. -/
inductive Blames (cs : List Char) : Error → Prop where
  /-- The operator lacks an operand itself. -/
  | itself {before after : List Char} {c : Char} : cs = before ++ c :: after →
      LacksOperand before c after →
      Blames cs (.malformed ⟨String.utf8Len before⟩ (.missingOperand c))
  /-- An operator in the right operand of a bar lacks an operand. -/
  | bar {before inner after : List Char} {c : Char} : cs = before ++ '|' :: (inner ++ c :: after) →
      ¬EndsAlternative inner → LacksOperand (before ++ '|' :: inner) c after →
      Blames cs (.malformed ⟨String.utf8Len before⟩ (.missingOperand '|'))
  /-- An operator lacks an operand in a group that starts directly behind the end of an operand,
  with which it is concatenated. -/
  | concat {before inner after : List Char} {c : Char} :
      cs = before ++ '(' :: (inner ++ c :: after) →
      (∃ b ∈ before.getLast?, b.isAlpha = true ∨ b ∈ [')', '*']) → ¬Closes inner →
      LacksOperand (before ++ '(' :: inner) c after →
      Blames cs (.malformed ⟨String.utf8Len before⟩ (.missingOperand '.'))

variable {foldCase : Bool} {offset : Offset} {cs ds before after inner : List Char}
  {t : Token} {ts us inside vs : List Token} {c : Char} {s : String} {error : Error}

/-! ### Operators next to a gap -/

/-- At a place of a text where an operand is missing, between `before` and `after`, which is not the
start, an operator lacks it: the one behind the place or, if no group is empty or open there, a bar
before it. -/
theorem exists_lacksOperand_of_gap (hstray : NoStray (before ++ after))
    (hclosed : AllClosed (before ++ after)) (hne : before ≠ [])
    (hbefore : before.getLast? ∈ [none, some '(', some '|'])
    (hafter : after.head? ∈ [none, some ')', some '|', some '*']) :
    (∃ c rest, after = c :: rest ∧ LacksOperand before c rest) ∨
      ∃ rest, before = rest ++ ['|'] ∧ LacksOperand rest '|' after := by
  by_cases hopening : before.getLast? = some '('
  · -- the group is neither empty nor open, so that an operator follows
    refine .inl ?_
    cases after with
    | nil =>
      obtain ⟨rest, rfl⟩ := List.getLast?_eq_some_iff.1 hopening
      have hcloses : Closes [] := hclosed rest [] (by simp)
      exact absurd hcloses.mem List.not_mem_nil
    | cons c rest =>
      simp only [List.head?_cons, List.mem_cons, List.not_mem_nil, reduceCtorEq, Option.some.injEq,
        or_false, false_or] at hafter
      rcases hafter with rfl | rfl | rfl
      · exact absurd (.inl hopening) (hstray before rest rfl)
      · exact ⟨'|', rest, rfl, .inr ⟨rfl, .inl hbefore⟩⟩
      · exact ⟨'*', rest, rfl, .inl ⟨rfl, hbefore⟩⟩
  · refine .inr ?_
    have hbar : before.getLast? = some '|' := by simpa [hne, hopening] using hbefore
    obtain ⟨rest, rfl⟩ := List.getLast?_eq_some_iff.1 hbar
    exact ⟨rest, rfl, .inr ⟨rfl, .inr hafter⟩⟩

/-- If an operand is missing somewhere behind a character `c`, behind `inner`, either `c` is a bar
that lacks an operand, or an operator does that stands in `inner` or directly behind it. -/
theorem exists_lacksOperand_behind (hstray : NoStray (before ++ c :: (inner ++ after)))
    (hclosed : AllClosed (before ++ c :: (inner ++ after)))
    (hbefore : (before ++ c :: inner).getLast? ∈ [none, some '(', some '|'])
    (hafter : after.head? ∈ [none, some ')', some '|', some '*']) :
    (c = '|' ∧ LacksOperand before c (inner ++ after)) ∨
      ∃ part d rest, inner ++ after = part ++ d :: rest ∧ part <+: inner ∧
        LacksOperand (before ++ c :: part) d rest := by
  rw [← List.cons_append, ← List.append_assoc] at hstray hclosed
  rcases exists_lacksOperand_of_gap hstray hclosed (by simp) hbefore hafter with
    ⟨d, rest, rfl, hlacks⟩ | ⟨rest, hsplit, hlacks⟩
  · exact .inr ⟨inner, d, rest, rfl, List.prefix_refl inner, hlacks⟩
  · rcases List.eq_nil_or_concat inner with rfl | ⟨part, d, rfl⟩
    · -- the bar is the character itself
      obtain ⟨rfl, hc⟩ := List.append_inj' hsplit rfl
      obtain rfl := (List.cons.inj hc).1
      exact .inl ⟨rfl, hlacks⟩
    · rw [List.concat_eq_append, ← List.cons_append, ← List.append_assoc] at hsplit
      obtain ⟨rfl, hd⟩ := List.append_inj' hsplit rfl
      obtain rfl := (List.cons.inj hd).1
      exact .inr ⟨part, '|', after, by simp, by simp, hlacks⟩

/-! ### Groups and alternatives of a text -/

/-- A group that is closed in `cs` is closed in `cs ++ ds`. -/
theorem Closes.append (h : Closes cs) (ds : List Char) : Closes (cs ++ ds) := by
  obtain ⟨inner, after, rfl, hcount⟩ := h
  exact ⟨inner, after ++ ds, by simp, hcount⟩

/-- An alternative that ends in `cs` ends in `cs ++ ds`. -/
theorem EndsAlternative.append (h : EndsAlternative cs) (ds : List Char) :
    EndsAlternative (cs ++ ds) := by
  obtain ⟨inner, c, after, rfl, hc, hcount⟩ := h
  exact ⟨inner, c, after ++ ds, by simp, hc, hcount⟩

namespace Token

/-- If the character `c` and nothing else is written for `kind`, the tokens of that kind are as many
as the `c` among the characters. -/
theorem countP_kind_of_scanFrom {kind : Kind} (hc : ∀ d, Kind.ofChar? d = some kind ↔ d = c)
    (h : scanFrom foldCase offset cs = .ok ts) : ts.countP (·.kind = kind) = cs.count c := by
  induction cs generalizing offset ts with
  | nil =>
    cases h
    rfl
  | cons d cs ih =>
    obtain ⟨t, us, ht, hus, rfl⟩ := scanFrom_cons_eq_ok_iff.1 h
    have hkind : t.kind = kind ↔ d = c := by
      rw [← hc d, (ofChar_eq_ok_iff.1 ht).1, Option.some_inj]
    rw [List.countP_cons, List.count_cons, ih hus]
    simp [hkind]

/-- In the tokens of a text as many groups are opened as there are `(` in it. -/
theorem openings_of_scanFrom (h : scanFrom foldCase offset cs = .ok ts) :
    openings ts = cs.count '(' :=
  countP_kind_of_scanFrom (fun _ => Kind.ofChar?_eq_some_iff) h

/-- In the tokens of a text as many groups are closed as there are `)` in it. -/
theorem closings_of_scanFrom (h : scanFrom foldCase offset cs = .ok ts) :
    closings ts = cs.count ')' :=
  countP_kind_of_scanFrom (fun _ => Kind.ofChar?_eq_some_iff) h

/-- Before a character `c` whose kind satisfies `p`, more groups are opened than closed if the
tokens of that kind are `Enclosed`. -/
theorem Enclosed.count_lt {p : Kind → Prop} (h : Enclosed p ts)
    (hts : scanFrom foldCase offset (before ++ c :: after) = .ok ts)
    (hc : ∀ kind, Kind.ofChar? c = some kind → p kind) : before.count ')' < before.count '(' := by
  obtain ⟨us, vs, hus, hvs, rfl⟩ := scanFrom_append_eq_ok_iff.1 hts
  obtain ⟨t, vs, ht, -, rfl⟩ := scanFrom_cons_eq_ok_iff.1 hvs
  have hlt := h us t vs rfl (hc _ (ofChar_eq_ok_iff.1 ht).1)
  rwa [closings_of_scanFrom hus, openings_of_scanFrom hus] at hlt

/-- If the ends of groups are `Enclosed` in the tokens of a text, the text does not close a group
that was opened before it. -/
theorem Enclosed.not_closes (h : Enclosed (· = .closing) ts)
    (hts : scanFrom foldCase offset cs = .ok ts) : ¬Closes cs := by
  rintro ⟨before, after, rfl, hcount⟩
  have hlt := h.count_lt hts fun kind hkind => (Kind.eq_closing_iff_of_ofChar? hkind).2 rfl
  omega

/-- If the ends of groups and bars are `Enclosed` in the tokens of a text, the text does not end an
alternative that began before it. -/
theorem Enclosed.not_endsAlternative (h : Enclosed (fun kind => kind = .closing ∨ kind = .bar) ts)
    (hts : scanFrom foldCase offset cs = .ok ts) : ¬EndsAlternative cs := by
  rintro ⟨before, c, after, rfl, hc, hcount⟩
  have hlt := h.count_lt hts fun kind hkind => by
    simp only [List.mem_cons, List.not_mem_nil, or_false] at hc
    rcases hc with rfl | rfl
    · exact .inl (Option.some.inj hkind).symm
    · exact .inr (Option.some.inj hkind).symm
  omega

/-- A gap of the tokens of a text `cs`, behind a token `t` and the tokens `inside`, is a place of
`cs` behind the character `c` of `t` and the characters `inner`, where an operand is missing. -/
theorem exists_of_gap (hcs : scanFrom foldCase {} cs = .ok (us ++ t :: (inside ++ vs)))
    (hgap : Gap (us ++ t :: inside) vs) :
    ∃ before c inner after, cs = before ++ c :: (inner ++ after) ∧
      Kind.ofChar? c = some t.kind ∧ t.value = folded foldCase c ∧
      t.offset = ⟨String.utf8Len before⟩ ∧ scanFrom foldCase {} before = .ok us ∧
      scanFrom foldCase ⟨String.utf8Len before + c.utf8Size⟩ inner = .ok inside ∧
      (before ++ c :: inner).getLast? ∈ [none, some '(', some '|'] ∧
      after.head? ∈ [none, some ')', some '|', some '*'] := by
  obtain ⟨before, c, behind, rfl, hkind, hvalue, hoffset, hbefore, hbehind⟩ :=
    exists_of_scanFrom_eq_append_cons hcs
  rw [Nat.zero_add] at hoffset hbehind
  obtain ⟨inner, after, rfl, hinner, hafter⟩ := exists_of_scanFrom_eq_append hbehind
  have ht : ofChar foldCase ⟨0 + String.utf8Len before⟩ c = .ok t :=
    ofChar_eq_ok_iff.2 ⟨hkind, hvalue, by rw [hoffset, Nat.zero_add]⟩
  have hupto : scanFrom foldCase {} (before ++ c :: inner) = .ok (us ++ t :: inside) :=
    scanFrom_append_eq_ok_iff.2 ⟨us, t :: inside, hbefore,
      scanFrom_cons_eq_ok_iff.2 ⟨t, inside, ht, by rwa [Nat.zero_add], rfl⟩, rfl⟩
  exact ⟨before, c, inner, after, rfl, hkind, hvalue, hoffset, hbefore, hinner,
    (getLast?_elim_endsOperand_iff hupto).1 hgap.before,
    (head?_elim_startsOperand_iff hafter).1 hgap.after⟩

/-- What is `Blamed` for a gap of the tokens of a text without stray or open parentheses, the text
`Blames` for an operator that lacks an operand. -/
theorem Blamed.blames (h : Blamed ts error) (hts : scanFrom false {} cs = .ok ts)
    (hstray : NoStray cs) (hclosed : AllClosed cs) : Blames cs error := by
  cases h with
  | @behind us vs t hkind hsplit hgap =>
    subst hsplit
    obtain ⟨before, c, after, rfl, hc, hvalue, hoffset, hbefore, -⟩ :=
      exists_of_scanFrom_eq_append_cons hts
    rw [hvalue, hoffset, Nat.zero_add]
    have hlast := (getLast?_elim_endsOperand_iff hbefore).1 hgap.before
    refine .itself rfl (hkind.imp (fun hkind => ⟨?_, hlast⟩) fun hkind => ⟨?_, .inl hlast⟩)
    · exact Kind.ofChar?_eq_some_iff.1 (hkind ▸ hc)
    · exact Kind.ofChar?_eq_some_iff.1 (hkind ▸ hc)
  | @bar us inside vs t hkind hsplit hinside hgap =>
    subst hsplit
    obtain ⟨before, c, inner, after, rfl, hc, hvalue, hoffset, -, hinner, hlast, hhead⟩ :=
      exists_of_gap hts hgap
    obtain rfl : c = '|' := Kind.ofChar?_eq_some_iff.1 (hkind ▸ hc)
    rw [hvalue, hoffset]
    rcases exists_lacksOperand_behind hstray hclosed hlast hhead with
      ⟨-, hlacks⟩ | ⟨part, d, rest, hsplit, ⟨ds, rfl⟩, hlacks⟩
    · exact .itself rfl hlacks
    · rw [hsplit]
      exact .bar rfl (fun hends => hinside.not_endsAlternative hinner (hends.append ds)) hlacks
  | @concat us inside vs group hkind hsplit hends hinside hgap =>
    subst hsplit
    obtain ⟨before, c, inner, after, rfl, hc, -, hoffset, hbefore, hinner, hlast, hhead⟩ :=
      exists_of_gap hts hgap
    obtain rfl : c = '(' := Kind.ofChar?_eq_some_iff.1 (hkind ▸ hc)
    rw [hoffset]
    rcases exists_lacksOperand_behind hstray hclosed hlast hhead with
      ⟨hbar, -⟩ | ⟨part, d, rest, hsplit, ⟨ds, rfl⟩, hlacks⟩
    · exact absurd hbar (by decide)
    · rw [hsplit]
      refine .concat rfl ?_ (fun hcloses => hinside.not_closes hinner (hcloses.append ds)) hlacks
      -- the operand before the group ends in a character of the text
      obtain ⟨t, ht, hends⟩ := hends
      have hlast := map_kind_getLast?_of_scanFrom hbefore
      rw [Option.mem_def.1 ht, Option.map_some, eq_comm, Option.map_eq_some_iff] at hlast
      obtain ⟨b, hb, hkind⟩ := hlast
      exact ⟨b, hb, Kind.mem_of_ofChar?_of_endsOperand hkind hends⟩

end Token

/-! ### Compilations -/

variable {o : Offset}

/-- Of a text for which a missing operand is reported, the parentheses have partners, and its tokens
are put together from their postfix order. -/
theorem Expression.of_ofText_eq_missingOperand
    (h : ofText foldCase s = .error (.malformed o (.missingOperand c))) :
    NoStray s.toList ∧ AllClosed s.toList ∧ ∃ ts last form,
      Token.scan foldCase s = .ok ts ∧
      Postfix.ofTokens (Token.withConcats ts ++ [Token.endMark last]) = .ok form ∧
      ofPostfix form = .error (.malformed o (.missingOperand c)) := by
  -- each stage before fails with another error
  have hwritten : ∀ d ∈ s.toList, Written d := by
    by_contra hnot
    obtain ⟨before, d, after, hsplit, hbefore, hd⟩ := exists_not_written hnot
    rw [ofText_eq_error_of_not_written foldCase hsplit hbefore hd] at h
    split at h <;> cases h
  obtain ⟨ts, hts⟩ : ∃ ts, Token.scan foldCase s = .ok ts :=
    Token.exists_scanFrom_eq_ok_iff.2 fun d hd => Kind.isSome_ofChar?_iff.2 (hwritten d hd)
  rw [ofText_eq_bind, hts, ok_bind] at h
  rcases bind_eq_error_iff.1 h with h | ⟨tokens, htokens, h⟩
  · obtain ⟨t, -, -, herror⟩ := Token.explicit_eq_error_iff.1 h
    cases herror
  obtain ⟨last, -, rfl⟩ := Token.explicit_eq_ok_iff.1 htokens
  rcases noStray_and_allClosed_or_exists_misnested s.toList with ⟨hstray, hclosed⟩ | ⟨error, hnest⟩
  · obtain ⟨form, hform⟩ := Postfix.exists_ofTokens_eq_ok_of_allClosed hstray hclosed hts
    rw [hform, ok_bind] at h
    exact ⟨hstray, hclosed, ts, last, form, hts, hform, h⟩
  · rw [hnest.ofTokens_eq_error hts, error_bind] at h
    obtain rfl := Except.error.inj h
    cases hnest

/-- If a missing operand is reported, the operator that is named lacks an operand or is blamed for
one that does: a star only for itself, a bar for an operator in its right operand, and the
concatenation with a group for an operator in the group. The place that is named is that of the
operator or, since a concatenation is not written, that of the group. -/
theorem blames_of_compile_eq_missingOperand
    (h : compile s = .error (.malformed o (.missingOperand c))) :
    Blames s.toList (.malformed o (.missingOperand c)) := by
  have htext : Expression.ofText false s = .error (.malformed o (.missingOperand c)) :=
    (Options.compile_eq_error_iff rfl).1 h
  obtain ⟨hstray, hclosed, ts, last, form, hts, hform, he⟩ :=
    Expression.of_ofText_eq_missingOperand htext
  have hkinds : ∀ t ∈ ts, t.kind ≠ .concat ∧ t.kind ≠ .endMark := fun t ht =>
    ⟨Token.kind_ne_concat_of_scanFrom hts t ht, Token.kind_ne_endMark_of_scanFrom hts t ht⟩
  have hblamed := Expression.blamed_of_ofPostfix_eq_error hkinds hform he
  exact hblamed.blames hts hstray hclosed

/-- In `a(|b)*c(*d)` the bar has no left operand, and takes the letter before the group for it. The
concatenation with the group is left with one operand. -/
theorem blames_of_operator_in_group :
    compile "a(|b)*c(*d)" = .error (.malformed ⟨1⟩ (.missingOperand '.')) ∧
      Blames "a(|b)*c(*d)".toList (.malformed ⟨1⟩ (.missingOperand '.')) :=
  ⟨rfl, blames_of_compile_eq_missingOperand rfl⟩

/-- The operator at the place of the error need not lack an operand: in `a(*)b` and `a|(*)b` only
the star does. -/
theorem not_forall_lacksOperand :
    compile "a(*)b" = .error (.malformed ⟨1⟩ (.missingOperand '.')) ∧
      compile "a|(*)b" = .error (.malformed ⟨1⟩ (.missingOperand '|')) ∧
      ¬∀ s o c, compile s = .error (.malformed o (.missingOperand c)) →
        ∃ before after, s.toList = before ++ c :: after ∧ o = ⟨String.utf8Len before⟩ ∧
          LacksOperand before c after := by
  refine ⟨rfl, rfl, fun h => ?_⟩
  -- no character of the text is the sign of concatenations
  obtain ⟨before, after, hsplit, -⟩ := h "a(*)b" ⟨1⟩ '.' rfl
  have hmem : '.' ∈ "a(*)b".toList := by
    rw [hsplit]
    simp
  exact absurd hmem (by decide)

end PositionAutomaton
