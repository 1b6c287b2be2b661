import PositionAutomaton.Proofs.Expression.Assembly
import PositionAutomaton.Proofs.Postfix.Origins

/-!
# Which operator is blamed for a missing operand

That an operand is missing shows only when an expression is put together from a postfix order, at
the first operator for which too few operands are left. This is not always the operator next to the
gap: a star in a group may have taken an operand from before the group.

The operator that is blamed has a gap in front of it or else in its right operand, since what is in
its place before its right operand leaves an operand by itself (`Yard.exists_rightOperand`). Which
gaps an error may come from is said by `Token.Blamed`, and that it comes from one of them is shown
in `blamed_of_ofPostfix_eq_error`.
-/

namespace PositionAutomaton

namespace Postfix

namespace Yard

variable {w x y z : Yard} {t : Token} {ts us : List Token} {next : Option Token}

/-! ### Before the first operand -/

/-- What waits in the yard `y` ends no operand. -/
theorem endsOperand_of_mem_waiting (h : run ts = .ok y) :
    ∀ s ∈ y.waiting, s.kind.endsOperand = false := by
  refine of_foldlM_eq_ok (P := fun y => ∀ s ∈ y.waiting, s.kind.endsOperand = false)
    (fun {y t z} _ hy hz => ?_) (by simp) h
  rw [step_eq_ok_iff] at hz
  cases hkind : t.kind with
  | letter | star =>
    rw [hkind] at hz
    subst hz
    exact hy
  | opening =>
    rw [hkind] at hz
    subst hz
    exact List.forall_mem_cons.2 ⟨by rw [hkind]; rfl, hy⟩
  | closing =>
    rw [hkind] at hz
    obtain ⟨-, ops, group, outer, hwaiting, -, -, rfl⟩ := hz
    exact fun s hs => hy s (by simp [hwaiting, hs])
  | bar | concat =>
    rw [hkind] at hz
    subst hz
    -- what waits below the operator waited before
    exact List.forall_mem_cons.2
      ⟨by rw [hkind]; rfl, fun s hs => hy s (List.dropWhile_subset _ hs)⟩
  | endMark =>
    rw [hkind] at hz
    obtain ⟨-, rfl⟩ := hz
    simp

/-- As long as nothing is in its place, the last token that was read waits. -/
theorem previous_of_output_eq_nil (hts : ∀ t ∈ ts, t.kind ≠ .endMark) (h : run ts = .ok y)
    (hy : y.output.toList = []) : y.previous = y.waiting.head?.map (·.kind) := by
  refine of_foldlM_eq_ok
    (P := fun y => y.output.toList = [] → y.previous = y.waiting.head?.map (·.kind))
    (fun {w t z} ht hw hz hnil => ?_) (fun _ => rfl) h hy
  have hnone : w.output.toList = [] :=
    List.prefix_nil.1 (hnil ▸ isPrefix_output_of_step_eq_ok hz)
  have hwaiting := hw hnone
  rw [step_eq_ok_iff] at hz
  cases hkind : t.kind with
  | letter | star =>
    rw [hkind] at hz
    subst hz
    simp at hnil
  | opening | bar | concat =>
    rw [hkind] at hz
    subst hz
    simp [hkind]
  | closing =>
    -- nothing is sent on, so that the group would be empty
    rw [hkind] at hz
    obtain ⟨hprevious, ops, group, outer, hsplit, -, hgroup, rfl⟩ := hz
    obtain rfl : ops = [] := by
      simp only [Array.toList_appendList, List.append_eq_nil_iff] at hnil
      exact hnil.2
    rw [hsplit] at hwaiting
    exact absurd (by simpa [hgroup] using hwaiting) hprevious
  | endMark => exact absurd hkind (hts t ht)

/-- As long as nothing is in its place, no operand has ended. -/
theorem endsOperand_of_output_eq_nil (hts : ∀ t ∈ ts, t.kind ≠ .endMark) (h : run ts = .ok y)
    (hy : y.output.toList = []) : ts.getLast?.elim true (!·.kind.endsOperand) = true := by
  have hprevious := previous_of_output_eq_nil hts h hy
  rw [previous_of_run_eq_ok h] at hprevious
  cases hlast : ts.getLast? with
  | none => rfl
  | some t =>
    -- the last token has the kind of the one that waits
    rw [hlast, Option.map_some, eq_comm, Option.map_eq_some_iff] at hprevious
    obtain ⟨s, hs, hkind⟩ := hprevious
    have hends := endsOperand_of_mem_waiting h s (List.mem_of_head? hs)
    rw [hkind] at hends
    simp [hends]

/-! ### Left and right operands -/

/-- Before an operator `t` between two operands stands, in the postfix order, what is in its place
when `t` begins to wait, and then its right `operand`. -/
theorem exists_rightOperand (hts : ∀ m ∈ ts, m.kind ≠ .endMark)
    (ht : t.kind = .bar ∨ t.kind = .concat) (h : run ts = .ok w) (hsent : Sent w us t next) :
    (∀ m ∈ next, m.kind = .closing ∨ precedes m.kind t = true) ∧
      ∃ before operand y x, ts = before ++ t :: operand ∧ run before = .ok y ∧ y.step t = .ok x ∧
        x.output.toList <+: us ∧
        Token.balance us = Token.balance x.output.toList + Token.balance operand ∧
        Token.Enclosed (fun kind => kind = .closing ∨ precedes kind t = true) operand := by
  cases hsent with
  | read hkind =>
    rcases ht with ht | ht <;> simp [ht] at hkind
  | @released above base hnext hwaiting hnone hus =>
    obtain ⟨before, operand, y, x, rfl, hy, hx, hxw, hw, hheld⟩ := exists_held hts h ht hwaiting
    refine ⟨hnext, before, operand, y, x, rfl, hy, hx, ?_, ?_, hheld.inside⟩
    · rw [← hus]
      exact (isPrefix_output_of_foldlM_eq_ok hw).trans (List.prefix_append _ _)
    · -- what waits below the operator is the same before and after
      have hbalance := balance_of_foldlM_eq_ok (fun m hm => hts m (by simp [hm])) hw
      rw [balance, balance, hwaiting, hxw, Token.balance_append] at hbalance
      rw [← hus, Token.balance_append]
      omega

end Yard

end Postfix

namespace Token

/-- The error is one for a gap of the sequence `ts`: it blames an operator directly behind the gap,
a bar with the gap in its right operand, or, at the place where a group starts, the concatenation
with the group that the gap is in. -/
inductive Blamed (ts : List Token) : Error → Prop where
  /-- The operator has no left operand. -/
  | behind {us vs : List Token} {t : Token} : (t.kind = .star ∨ t.kind = .bar) →
      ts = us ++ t :: vs → Gap us (t :: vs) →
      Blamed ts (.malformed t.offset (.missingOperand t.value))
  /-- The gap is in the right operand of a bar, or this is missing. -/
  | bar {us inner vs : List Token} {t : Token} : t.kind = .bar → ts = us ++ t :: (inner ++ vs) →
      Enclosed (fun kind => kind = .closing ∨ kind = .bar) inner → Gap (us ++ t :: inner) vs →
      Blamed ts (.malformed t.offset (.missingOperand t.value))
  /-- The gap is in a group that starts directly behind the end of an operand. -/
  | concat {us inner vs : List Token} {group : Token} : group.kind = .opening →
      ts = us ++ group :: (inner ++ vs) → (∃ s ∈ us.getLast?, s.kind.endsOperand = true) →
      Enclosed (· = .closing) inner → Gap (us ++ group :: inner) vs →
      Blamed ts (.malformed group.offset (.missingOperand concatSign))

variable {ts us operand rest : List Token} {t : Token}

/-- With concatenations, a sequence `ts` ends with the same token. -/
@[simp]
theorem getLast?_withConcats (ts : List Token) : (withConcats ts).getLast? = ts.getLast? := by
  rcases List.eq_nil_or_concat ts with rfl | ⟨ts, t, rfl⟩
  · rfl
  · rw [List.concat_eq_append, withConcats_append]
    simp [withConcats]

section Blamed

variable (hts : ∀ t ∈ ts, t.kind ≠ .concat ∧ t.kind ≠ .endMark)
include hts

/-- An operator `t` directly behind a gap may be blamed. -/
theorem blamed_of_gap (ht : t.kind = .star ∨ t.kind = .bar ∨ t.kind = .concat)
    (h : withConcats ts = us ++ t :: rest)
    (hus : us.getLast?.elim true (!·.kind.endsOperand) = true) :
    Blamed ts (.malformed t.offset (.missingOperand t.value)) := by
  rcases exists_of_withConcats_eq h with ⟨xs, ys, rfl, rfl, -⟩ | ⟨xs, ys, rfl, hseam, rfl, -⟩
  · have hkind : t.kind = .star ∨ t.kind = .bar :=
      ht.imp_right fun ht => ht.resolve_right (hts t (by simp)).1
    have hstarts : t.kind.startsOperand = false := by
      rcases hkind with hkind | hkind <;> rw [hkind] <;> rfl
    rw [seam_cons_eq_nil hstarts, List.append_nil, getLast?_withConcats] at hus
    exact .behind hkind rfl ⟨hus, by simp [hstarts]⟩
  · -- a concatenation stands behind the end of an operand
    obtain ⟨-, s, u, hs, -, hadjoins, -⟩ := seam_eq_cons_iff.1 hseam
    rw [getLast?_withConcats, hs, Option.elim_some, hadjoins.1] at hus
    cases hus

/-- An operator `t` whose right `operand` leaves no operand may be blamed. -/
theorem blamed_of_rightOperand (ht : t.kind = .bar ∨ t.kind = .concat)
    (h : withConcats ts = us ++ t :: (operand ++ rest))
    (hrest : ∀ m ∈ rest.head?, m.kind = .closing ∨ Postfix.Yard.precedes m.kind t = true)
    (hbalance : balance operand ≤ 0)
    (hoperand : Enclosed (fun kind => kind = .closing ∨ Postfix.Yard.precedes kind t = true)
      operand) :
    Blamed ts (.malformed t.offset (.missingOperand t.value)) := by
  -- only bars and concatenations send on a bar or a concatenation
  have hends : ∀ m ∈ rest.head?, EndsOperand m.kind := by
    intro m hm
    refine (hrest m hm).imp_right fun hprecedes => ?_
    rcases ht with ht | ht <;> cases hkind : m.kind <;>
      simp [Postfix.Yard.precedes, Kind.precedence?, ht, hkind] at hprecedes ⊢
  rcases exists_of_withConcats_eq h with ⟨xs, ys, rfl, -, hys⟩ | ⟨xs, ys, rfl, hseam, -, hys⟩
  · have hbar : t.kind = .bar := ht.resolve_right (hts t (by simp)).1
    rw [seam_singleton_eq_nil (by rw [hbar]; rfl), List.nil_append] at hys
    obtain ⟨inner, vs, rfl, hgap, zs, rfl⟩ :=
      exists_gap_of_operand (fun s hs => hts s (by simp [hs])) hys.symm hends hbalance
    have hinner := hoperand.of_append.of_withConcats
    refine .bar hbar rfl (hinner.mono fun kind hkind => hkind.imp_right ?_)
      ((hgap.cons (by rw [hbar]; rfl)).append_left (by simp) xs)
    rintro rfl
    simp [Postfix.Yard.precedes, Kind.precedence?, hbar]
  · obtain ⟨-, s, u, hs, hu, hadjoins, rfl⟩ := seam_eq_cons_iff.1 hseam
    obtain ⟨inner, vs, rfl, hgap, zs, rfl⟩ :=
      exists_gap_of_operand (fun s hs => hts s (by simp [hs])) hys.symm hends hbalance
    -- the operand starts, so that the gap is behind its first token
    have hne : inner ≠ [] := by
      rintro rfl
      have hafter := hgap.after
      rw [← List.nil_append vs, hu, Option.elim_some, hadjoins.2] at hafter
      cases hafter
    have henclosed : Enclosed EndsOperand (withConcats inner) := by
      refine hoperand.of_append.mono fun kind hkind => hkind.imp_right ?_
      rintro (rfl | rfl) <;> rfl
    have hlast : ∀ s ∈ inner.getLast?, s.kind.endsOperand = false := by
      intro s hs
      have hbefore := hgap.before
      rw [Option.mem_def.1 hs] at hbefore
      simpa using hbefore
    obtain ⟨group, inner, rfl, hgroup, hinner⟩ :=
      exists_group_of_gap (fun s hs => hts s (by simp [hs])) henclosed hne hlast
    obtain rfl : group = u := Option.some.inj hu
    show Blamed _ (.malformed group.offset (.missingOperand concatSign))
    exact .concat hgroup rfl ⟨s, hs, hadjoins.1⟩ hinner (hgap.append_left hne xs)

end Blamed

end Token

namespace Expression

variable {ts : List Token} {last : Offset} {form : Postfix} {error : Error}

/-- If a sequence `ts` with its concatenations has a postfix order, only an operator `t` that lacks
an operand keeps it from making an expression. -/
theorem exists_step_eq_error_of_ofTokens_eq_ok (hts : ∀ t ∈ ts, t.kind ≠ .endMark)
    (hform : Postfix.ofTokens (Token.withConcats ts ++ [Token.endMark last]) = .ok form)
    (h : ofPostfix form = .error error) :
    ∃ y us t vs a, Postfix.Yard.run (Token.withConcats ts) = .ok y ∧
      (∀ s ∈ y.waiting, s.kind ≠ .opening) ∧ y.output.toList ++ y.waiting = us ++ t :: vs ∧
      t ∈ Token.withConcats ts ∧ Assembly.run us = .ok a ∧ a.step t = .error error ∧
      error = .malformed t.offset (.missingOperand t.value) := by
  by_cases hne : ts = []
  · -- the expression of the empty sequence is the end mark alone
    subst hne
    cases hform
    cases h
  · have hexplicit := Token.kind_ne_endMark_of_mem_withConcats hts
    have hnil : Token.withConcats ts ≠ [] := fun h => hne (Token.withConcats_eq_nil_iff.1 h)
    obtain ⟨y, hy, hnone, -, hbody⟩ := Postfix.exists_run_of_ofTokens_eq_ok hexplicit hnil hform
    obtain ⟨body, hbody', hbodyne, hbalance, hmem⟩ :=
      Postfix.exists_body_of_ofTokens_eq_ok hexplicit hnil hform
    obtain rfl := List.append_cancel_right (hbody'.symm.trans hbody)
    -- concatenations are inserted between operands only, so that at most one operand is left
    have hdefects := Token.balance_withConcats_add_defects hts
    have hone : Token.balance (y.output.toList ++ y.waiting) ≤ 1 := by omega
    have hkinds : ∀ t ∈ y.output.toList ++ y.waiting,
        t.kind ≠ .opening ∧ t.kind ≠ .closing ∧ t.kind ≠ .endMark := by
      intro t ht
      obtain ⟨hexplicitmem, hopening, hclosing⟩ := hmem t ht
      exact ⟨hopening, hclosing, hexplicit t hexplicitmem⟩
    obtain ⟨us, t, vs, a, hsplit, ha, hstep, herror⟩ :=
      exists_missingOperand_of_ofPostfix_eq_error hbody hbodyne hkinds hone h
    have ht : t ∈ y.output.toList ++ y.waiting := by simp [hsplit]
    exact ⟨y, us, t, vs, a, hy, hnone, hsplit, (hmem t ht).1, ha, hstep, herror⟩

/-- From each part `vs` of what is in its place, from the start on, at least one operand is put
together. -/
theorem balance_pos_of_isPrefix {us vs : List Token} {a : Assembly} (h : Assembly.run us = .ok a)
    (hvs : vs <+: us) (hne : vs ≠ []) : 0 < Token.balance vs := by
  obtain ⟨ws, rfl⟩ := hvs
  rw [Assembly.run, List.foldlM_append] at h
  obtain ⟨b, hb, -⟩ := bind_eq_ok_iff.1 h
  have hlength := Assembly.length_operands_of_foldlM_eq_ok hb
  have hpos := List.length_pos_iff.2 (Assembly.operands_ne_nil_of_foldlM_eq_ok hne hb)
  simp only [List.length_nil] at hlength
  omega

/-- If a sequence `ts` with its concatenations has a postfix order, but no expression can be put
together from it, the error is `Blamed` on an operator for a gap. -/
theorem blamed_of_ofPostfix_eq_error (hts : ∀ t ∈ ts, t.kind ≠ .concat ∧ t.kind ≠ .endMark)
    (hform : Postfix.ofTokens (Token.withConcats ts ++ [Token.endMark last]) = .ok form)
    (h : ofPostfix form = .error error) : Token.Blamed ts error := by
  have hexplicit := Token.kind_ne_endMark_of_mem_withConcats fun t ht => (hts t ht).2
  obtain ⟨z, us, t, vs, a, hz, hnone, hbody, -, ha, hstep, rfl⟩ :=
    exists_step_eq_error_of_ofTokens_eq_ok (fun t ht => (hts t ht).2) hform h
  obtain ⟨before, rest, w, hsplit, hw, hsent⟩ := Postfix.Yard.exists_sent hexplicit hz hnone hbody
  have hbefore : ∀ m ∈ before, m.kind ≠ .endMark := fun m hm => hexplicit m (by simp [hsplit, hm])
  have herror := Assembly.step_eq_error_iff.1 hstep
  cases hkind : t.kind with
  | star =>
    rw [hkind] at herror
    -- nothing stands before the star
    obtain rfl : us = [] := by
      by_contra hne
      have hpos := List.length_pos_iff.2 (Assembly.operands_ne_nil_of_foldlM_eq_ok hne ha)
      omega
    cases hsent with
    | read _ hnext hout =>
      obtain ⟨rest, rfl⟩ := List.head?_eq_some_iff.1 hnext
      exact Token.blamed_of_gap hts (.inl hkind) hsplit
        (Postfix.Yard.endsOperand_of_output_eq_nil hbefore hw hout)
    | released _ hwaiting =>
      have hends := Postfix.Yard.endsOperand_of_mem_waiting hw t (by simp [hwaiting])
      rw [hkind] at hends
      cases hends
  | bar | concat =>
    rw [hkind] at herror
    have ht : t.kind = .bar ∨ t.kind = .concat := by simp [hkind]
    obtain ⟨hnext, before, operand, y, x, rfl, hy, hx, hxout, hbalance, hoperand⟩ :=
      Postfix.Yard.exists_rightOperand hbefore ht hw hsent
    have hlength := Assembly.length_operands_of_foldlM_eq_ok ha
    by_cases hempty : x.output.toList = []
    · -- nothing is in its place before the operator
      have hnone : y.output.toList = [] :=
        List.prefix_nil.1 (hempty ▸ Postfix.Yard.isPrefix_output_of_step_eq_ok hx)
      rw [List.append_assoc] at hsplit
      exact Token.blamed_of_gap hts (.inr ht) hsplit (Postfix.Yard.endsOperand_of_output_eq_nil
        (fun m hm => hbefore m (by simp [hm])) hy hnone)
    · -- what is in its place leaves an operand, so that the right operand leaves none
      have hpos := balance_pos_of_isPrefix ha hxout hempty
      simp only [List.length_nil] at hlength
      rw [List.append_assoc, List.cons_append] at hsplit
      exact Token.blamed_of_rightOperand hts ht hsplit hnext (by omega) hoperand
  | letter | opening | closing | endMark =>
    -- these are refused for other reasons, if at all
    simp [hkind] at herror

end Expression

end PositionAutomaton
