import PositionAutomaton.Proofs.Postfix.Yard
import PositionAutomaton.Proofs.Token.Explicit
import PositionAutomaton.Proofs.Token.Lexer
import PositionAutomaton.Proofs.Token.Parentheses

/-!
# Groups of a text

The yard takes in every text without stray parentheses, and then the groups that are open in it
are those that the text leaves open (`Postfix.Yard.exists_afterText`). The first stray parenthesis
of a text is therefore refused (`Postfix.ofTokens_eq_error_of_stray`), and without one the last
parenthesis that stays open is found at the end (`Postfix.ofTokens_eq_error_of_not_closes`). Nothing
else keeps a text from having a postfix order (`Postfix.exists_ofTokens_eq_ok_of_allClosed`).
-/

namespace PositionAutomaton

namespace Postfix

namespace Yard

variable {foldCase : Bool} {offset : Offset} {c : Char} {cs ds : List Char} {x y z : Yard}
  {t : Token} {ts us : List Token}

/-- A token `t` that ends neither a group nor the sequence is taken in. -/
theorem exists_step_eq_ok (hclosing : t.kind ≠ .closing) (hend : t.kind ≠ .endMark) :
    ∃ z, y.step t = .ok z := by
  cases hstep : y.step t with
  | ok z => exact ⟨z, rfl⟩
  | error error =>
    have herror := step_eq_error_iff.1 hstep
    cases hkind : t.kind <;> simp_all

/-- On the groups of the yard `y`, those of `z` are as many more as the text has opening parentheses
more than closing ones. -/
def Opened (cs : List Char) (y z : Yard) : Prop :=
  ∃ inner, z.openGroups = inner ++ y.openGroups ∧ inner.length + cs.count ')' = cs.count '('

/-- The yard is `y` before a text `cs` and `z` after it. -/
structure AfterText (cs : List Char) (y z : Yard) : Prop where
  /-- The groups are those of the text on those of `y`. -/
  opened : Opened cs y z
  /-- The last token is that of the last character, if there is one. -/
  previous_eq : z.previous = cs.getLast?.elim y.previous Kind.ofChar?

/-- The concatenation before a token `t`, its `seam` with the tokens `us`, does not change the
groups. There is none before the end of a group. -/
theorem exists_foldlM_seam (us : List Token) (t : Token) (y : Yard) :
    ∃ z, (Token.seam us [t]).foldlM step y = .ok z ∧ z.openGroups = y.openGroups ∧
      (t.kind = .closing → z = y) := by
  -- a concatenation comes only before the start of an operand
  by_cases hstarts : t.kind.startsOperand = true
  · have hclosing : t.kind ≠ .closing := by
      intro hkind
      rw [hkind] at hstarts
      cases hstarts
    cases hlast : us.getLast? with
    | none => exact ⟨y, by simp [Token.seam, hlast], rfl, fun _ => rfl⟩
    | some s =>
      by_cases hadjoins : Token.Adjoins s t
      · obtain ⟨z, hz⟩ : ∃ z, y.step (Token.concat t.offset) = .ok z :=
          exists_step_eq_ok Kind.noConfusion Kind.noConfusion
        refine ⟨z, ?_, openGroups_of_step_eq_ok hz, fun h => absurd h hclosing⟩
        rw [Token.seam_of_adjoins hlast rfl hadjoins]
        simp [hz]
      · exact ⟨y, by simp [Token.seam, hlast, hadjoins], rfl, fun _ => rfl⟩
  · exact ⟨y, by rw [Token.seam_cons_eq_nil (by simpa using hstarts)]; rfl, rfl, fun _ => rfl⟩

/-- A text goes on with the token `t` of its next character `c`, unless that ends a group and is
stray. -/
theorem Opened.step (h : Opened cs y x) (hcs : c = ')' → ¬Stray cs)
    (hc : Kind.ofChar? c = some t.kind) (hz : x.step t = .ok z) : Opened (cs ++ [c]) y z := by
  obtain ⟨inner, hinner, hlength⟩ := h
  have hopening := Kind.eq_opening_iff_of_ofChar? hc
  have hclosing := Kind.eq_closing_iff_of_ofChar? hc
  have hgroups := openGroups_of_step_eq_ok hz
  rw [Opened, List.count_append, List.count_append]
  cases hkind : t.kind with
  | opening =>
    simp only [hkind] at hgroups
    obtain rfl := hopening.1 hkind
    refine ⟨t :: inner, by rw [hgroups, hinner, List.cons_append], ?_⟩
    simp
    omega
  | closing =>
    simp only [hkind] at hgroups
    obtain rfl := hclosing.1 hkind
    obtain ⟨group, hgroup⟩ := hgroups
    -- the group that is closed is one that the text opened
    cases inner with
    | nil =>
      rw [List.length_nil, Nat.zero_add] at hlength
      exact absurd (.inr hlength) (hcs rfl)
    | cons first inner =>
      rw [hinner, List.cons_append, List.cons.injEq] at hgroup
      refine ⟨inner, hgroup.2.symm, ?_⟩
      rw [List.length_cons] at hlength
      simp
      omega
  | letter | star | bar =>
    simp only [hkind, reduceCtorEq, false_iff] at hgroups hopening hclosing
    refine ⟨inner, hgroups.trans hinner, ?_⟩
    rw [List.count_singleton, List.count_singleton]
    simpa [hopening, hclosing] using hlength
  | concat | endMark =>
    rw [hkind] at hc
    exact (Kind.ofChar?_eq_some_iff.1 hc).elim

/-- A text `cs` that closes every group it opens leaves the groups as they are. -/
theorem Opened.openGroups_eq (h : Opened cs y z) (hcs : AllClosed cs) :
    z.openGroups = y.openGroups := by
  obtain ⟨inner, hinner, hlength⟩ := h
  have hcount := hcs.count_le
  obtain rfl : inner = [] := List.length_eq_zero_iff.1 (by omega)
  exact hinner

/-- Behind a text `cs`, the end of a group that is not stray is taken in. -/
theorem AfterText.exists_step_closing (h : AfterText cs y x) (hcs : ¬Stray cs)
    (ht : t.kind = .closing) : ∃ z, x.step t = .ok z := by
  obtain ⟨hlast, hcount⟩ := not_or.1 hcs
  obtain ⟨inner, hinner, hlength⟩ := h.opened
  cases hstep : x.step t with
  | ok z => exact ⟨z, rfl⟩
  | error error =>
    exfalso
    have herror := step_eq_error_iff.1 hstep
    simp only [ht] at herror
    split at herror
    next hopening =>
      -- the last character would be an opening parenthesis
      cases hc : cs.getLast? with
      | none => exact hcount (by rw [List.getLast?_eq_none_iff.1 hc]; rfl)
      | some c =>
        rw [h.previous_eq, hc, Option.elim_some] at hopening
        exact hlast (hc.trans (congrArg some (Kind.ofChar?_eq_some_iff.1 hopening)))
    next =>
      -- no group would be open
      rw [hinner, List.append_eq_nil_iff] at herror
      rw [herror.1.1, List.length_nil, Nat.zero_add] at hlength
      exact hcount hlength

/-- Behind a text `cs` that is read from the start, the end of a group that is stray is refused. -/
theorem AfterText.step_eq_error (h : AfterText cs {} y) (hcs : Stray cs) (ht : t.kind = .closing) :
    y.step t = .error (if cs.getLast? = some '(' then .malformed t.offset .emptyGroup
      else .unbalanced t.offset) := by
  rw [step_eq_error_iff]
  simp only [ht]
  -- the yard knows an empty group from the last token, the text from its last character
  have hprevious : y.previous = some .opening ↔ cs.getLast? = some '(' := by
    rw [h.previous_eq]
    cases cs.getLast? with
    | none => simp
    | some c =>
      rw [Option.elim_some, Option.some_inj]
      exact Kind.ofChar?_eq_some_iff
  by_cases hlast : cs.getLast? = some '('
  · rw [if_pos (hprevious.2 hlast), if_pos hlast]
  · rw [if_neg (mt hprevious.1 hlast), if_neg hlast]
    obtain ⟨inner, hinner, hlength⟩ := h.opened
    rw [hcs.resolve_left hlast, Nat.add_eq_right, List.length_eq_zero_iff] at hlength
    exact ⟨by rw [hinner, hlength]; rfl, rfl⟩

/-- Every text `cs` without stray parentheses is taken in, whatever the yard `y`. -/
theorem exists_afterText (h : NoStray cs) (hts : Token.scanFrom foldCase offset cs = .ok ts)
    (y : Yard) :
    ∃ z, (Token.withConcats ts).foldlM Yard.step y = .ok z ∧ AfterText cs y z := by
  -- the last character is taken in where the text before it leads
  induction cs using List.reverseRecOn generalizing ts with
  | nil =>
    cases hts
    exact ⟨y, rfl, ⟨[], rfl, rfl⟩, rfl⟩
  | append_singleton cs c ih =>
    obtain ⟨us, vs, hus, hvs, rfl⟩ := Token.scanFrom_append_eq_ok_iff.1 hts
    obtain ⟨t, ht, rfl⟩ := Token.scanFrom_singleton_eq_ok_iff.1 hvs
    obtain ⟨hkind, -⟩ := Token.ofChar_eq_ok_iff.1 ht
    obtain ⟨hcs, hstray⟩ := noStray_append_singleton_iff.1 h
    obtain ⟨w, hw, hafter⟩ := ih hcs hus
    obtain ⟨x, hx, hgroups, hsame⟩ := exists_foldlM_seam us t w
    have hopened : Opened cs y x := by
      rw [Opened, hgroups]
      exact hafter.opened
    obtain ⟨z, hz⟩ : ∃ z, x.step t = .ok z := by
      -- only the end of a group could be refused
      by_cases hclosing : t.kind = .closing
      · obtain rfl := hsame hclosing
        have hc := (Kind.eq_closing_iff_of_ofChar? hkind).1 hclosing
        exact hafter.exists_step_closing (hstray hc) hclosing
      · refine exists_step_eq_ok hclosing fun hend => ?_
        rw [hend] at hkind
        exact Kind.ofChar?_eq_some_iff.1 hkind
    refine ⟨z, ?_, hopened.step hstray hkind hz, ?_⟩
    · rw [Token.withConcats_append, List.foldlM_append, List.foldlM_append, hw, ok_bind, hx,
        ok_bind]
      simp [Token.withConcats, hz]
    · rw [previous_of_step_eq_ok hz, List.getLast?_concat, Option.elim_some, hkind]

end Yard

variable {foldCase : Bool} {offset last : Offset} {cs ds : List Char} {ts : List Token}

/-- The first stray parenthesis of a text, behind `cs`, is an error. -/
theorem ofTokens_eq_error_of_stray (hcs : NoStray cs) (hstray : Stray cs)
    (hts : Token.scanFrom foldCase offset (cs ++ ')' :: ds) = .ok ts) :
    ofTokens (Token.withConcats ts ++ [Token.endMark last]) =
      .error (if cs.getLast? = some '(' then
          .malformed ⟨offset.bytes + String.utf8Len cs⟩ .emptyGroup
        else .unbalanced ⟨offset.bytes + String.utf8Len cs⟩) := by
  obtain ⟨us, ws, hus, hws, rfl⟩ := Token.scanFrom_append_eq_ok_iff.1 hts
  obtain ⟨t, vs, ht, -, rfl⟩ := Token.scanFrom_cons_eq_ok_iff.1 hws
  obtain ⟨hkind, -, hoffset⟩ := Token.ofChar_eq_ok_iff.1 ht
  have hclosing := (Kind.eq_closing_iff_of_ofChar? hkind).2 rfl
  obtain ⟨y, hy, hafter⟩ := Yard.exists_afterText hcs hus {}
  have herror := hafter.step_eq_error hstray hclosing
  -- no concatenation comes before a closing parenthesis, which is read behind `us` at once
  have hsplit : Token.withConcats (us ++ t :: vs) ++ [Token.endMark last] =
      Token.withConcats us ++ t :: (Token.seam [t] vs ++ Token.withConcats vs ++
        [Token.endMark last]) := by
    rw [Token.withConcats_append, Token.seam_cons_eq_nil (by rw [hclosing]; rfl),
      Token.withConcats_cons]
    simp
  have hrun : Yard.run (Token.withConcats (us ++ t :: vs) ++ [Token.endMark last]) = .error _ :=
    foldlM_eq_error_iff.2 ⟨_, t, _, y, hsplit, hy, herror⟩
  rw [ofTokens, hrun, error_bind, hoffset]

/-- Without stray parentheses, the last one that stays open, between `cs` and `ds`, is an error. -/
theorem ofTokens_eq_error_of_not_closes (h : NoStray (cs ++ '(' :: ds)) (hopen : ¬Closes ds)
    (hds : AllClosed ds) (hts : Token.scanFrom foldCase offset (cs ++ '(' :: ds) = .ok ts) :
    ofTokens (Token.withConcats ts ++ [Token.endMark last]) =
      .error (.unbalanced ⟨offset.bytes + String.utf8Len cs⟩) := by
  obtain ⟨us, ws, hus, hws, rfl⟩ := Token.scanFrom_append_eq_ok_iff.1 hts
  obtain ⟨t, vs, ht, hvs, rfl⟩ := Token.scanFrom_cons_eq_ok_iff.1 hws
  obtain ⟨hkind, -, hoffset⟩ := Token.ofChar_eq_ok_iff.1 ht
  have hopening := (Kind.eq_opening_iff_of_ofChar? hkind).2 rfl
  -- the yards before and behind the concatenation, behind the parenthesis and at the end
  obtain ⟨w, hw, -⟩ := Yard.exists_afterText h.of_append hus {}
  obtain ⟨x, hx, -⟩ := Yard.exists_foldlM_seam us t w
  obtain ⟨y, hy⟩ : ∃ y, x.step t = .ok y :=
    Yard.exists_step_eq_ok (by rw [hopening]; exact Kind.noConfusion)
      (by rw [hopening]; exact Kind.noConfusion)
  obtain ⟨z, hz, hafter⟩ := Yard.exists_afterText (h.of_not_closes hopen) hvs y
  have hgroups : z.openGroups = t :: x.openGroups := by
    have hstep := Yard.openGroups_of_step_eq_ok hy
    simp only [hopening] at hstep
    rw [hafter.opened.openGroups_eq hds, hstep]
  have hend : z.step (Token.endMark last) = .error (.unbalanced t.offset) :=
    Yard.step_eq_error_iff.2 ⟨t, by rw [hgroups]; rfl, rfl⟩
  have hseam : Token.seam us (t :: vs) = Token.seam us [t] := rfl
  have hrun : Yard.run (Token.withConcats (us ++ t :: vs) ++ [Token.endMark last]) =
      .error (.unbalanced t.offset) := by
    refine foldlM_eq_error_iff.2 ⟨_, Token.endMark last, [], z, rfl, ?_, hend⟩
    rw [Token.withConcats_append, hseam, Token.withConcats_cons,
      Token.seam_singleton_eq_nil (by rw [hopening]; rfl)]
    simp [List.foldlM_append, hw, hx, hy, hz]
  rw [ofTokens, hrun, error_bind, hoffset]

/-- A text `cs` without stray or open parentheses has a postfix order. -/
theorem exists_ofTokens_eq_ok_of_allClosed (h : NoStray cs) (hcs : AllClosed cs)
    (hts : Token.scanFrom foldCase offset cs = .ok ts) :
    ∃ form, ofTokens (Token.withConcats ts ++ [Token.endMark last]) = .ok form := by
  obtain ⟨y, hy, hafter⟩ := Yard.exists_afterText h hts {}
  have hgroups : y.openGroups = [] := hafter.opened.openGroups_eq hcs
  obtain ⟨z, hz⟩ : ∃ z, y.step (Token.endMark last) = .ok z :=
    ⟨_, Yard.step_eq_ok_iff.2 ⟨Yard.openGroups_eq_nil_iff.1 hgroups, rfl⟩⟩
  have hnone : z.openGroups = [] := (Yard.openGroups_of_step_eq_ok hz).trans hgroups
  refine ⟨_, ofTokens_eq_ok_iff.2 ⟨z, ?_, Yard.openGroups_eq_nil_iff.1 hnone, rfl⟩⟩
  rw [Yard.run, List.foldlM_append, hy, ok_bind]
  simp [hz]

end Postfix

end PositionAutomaton
