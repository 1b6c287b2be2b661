import PositionAutomaton.Proofs.Postfix.Yard
import PositionAutomaton.Proofs.Token.Balance

/-!
# The yard keeps the balance

Whatever the order in which the yard sends tokens on, it loses none but parentheses: the postfix
order of a sequence is made of its tokens and leaves as many operands
(`Postfix.exists_body_of_ofTokens_eq_ok`, `Postfix.balance_of_ofTokens_eq_ok`). The groups that wait
in it are those that are open, so that it takes in nested parentheses only
(`Postfix.nested_of_ofTokens_eq_ok`).
-/

namespace PositionAutomaton

namespace Postfix

namespace Yard

variable {y z : Yard} {t : Token} {ts : List Token}

/-- How many operands the tokens in a yard `y` leave. -/
def balance (y : Yard) : Int :=
  Token.balance y.output.toList + Token.balance y.waiting

/-- Each token `t` but an end mark adds its weight to the balance. -/
theorem balance_of_step_eq_ok (ht : t.kind ≠ .endMark) (h : y.step t = .ok z) :
    z.balance = y.balance + t.kind.weight := by
  rw [step_eq_ok_iff] at h
  cases hkind : t.kind with
  | letter | star | opening =>
    rw [hkind] at h
    subst h
    simp [balance, hkind]
    omega
  | closing =>
    rw [hkind] at h
    obtain ⟨-, ops, group, outer, hwaiting, -, hgroup, rfl⟩ := h
    simp [balance, hwaiting, hgroup, Kind.weight]
    omega
  | bar | concat =>
    rw [hkind] at h
    subst h
    -- what is sent on counts as before, in its place instead of waiting
    have hsplit := Token.balance_append (y.waiting.takeWhile (precedes t.kind))
      (y.waiting.dropWhile (precedes t.kind))
    rw [List.takeWhile_append_dropWhile, hkind] at hsplit
    simp [balance, hkind]
    omega
  | endMark => exact absurd hkind ht

/-- A sequence `ts` without end mark adds its balance to that of the yard. -/
theorem balance_of_foldlM_eq_ok (hts : ∀ t ∈ ts, t.kind ≠ .endMark)
    (h : ts.foldlM step y = .ok z) : z.balance = y.balance + Token.balance ts := by
  induction ts generalizing y with
  | nil =>
    cases h
    simp
  | cons t ts ih =>
    obtain ⟨ht, hts⟩ := List.forall_mem_cons.1 hts
    rw [List.foldlM_cons] at h
    obtain ⟨x, hx, hz⟩ := bind_eq_ok_iff.1 h
    rw [ih hts hz, balance_of_step_eq_ok ht hx, Token.balance_cons, Int.add_assoc]

/-- The number of groups that are open. -/
def depth (y : Yard) : Nat :=
  y.waiting.countP (·.kind = .opening)

/-- The `depth` is the number of groups in `openGroups`. -/
theorem depth_eq_length_openGroups : y.depth = y.openGroups.length :=
  List.countP_eq_length_filter

/-- No group is open if none is among `y.waiting`. -/
theorem depth_eq_zero_iff : y.depth = 0 ↔ ∀ s ∈ y.waiting, s.kind ≠ .opening := by
  rw [depth_eq_length_openGroups, List.length_eq_zero_iff, openGroups_eq_nil_iff]

/-- The parentheses that `step` takes in open and close groups; other tokens leave the groups as
they are. -/
theorem depth_of_step_eq_ok (h : y.step t = .ok z) :
    match t.kind with
    | .opening => z.depth = y.depth + 1
    | .closing => y.depth = z.depth + 1
    | .letter | .star | .bar | .concat | .endMark => z.depth = y.depth := by
  have hgroups := openGroups_of_step_eq_ok h
  simp only [depth_eq_length_openGroups]
  cases hkind : t.kind with
  | letter | star | bar | concat | endMark =>
    rw [hkind] at hgroups
    exact congrArg List.length hgroups
  | opening =>
    rw [hkind] at hgroups
    exact congrArg List.length hgroups
  | closing =>
    rw [hkind] at hgroups
    obtain ⟨group, hgroup⟩ := hgroups
    exact congrArg List.length hgroup

/-- If no group is open after a sequence `ts`, its parentheses are nested. -/
theorem nested_of_foldlM_eq_ok (h : ts.foldlM step y = .ok z) (hz : z.depth = 0) :
    Token.Nested y.depth ts := by
  induction ts generalizing y with
  | nil =>
    cases h
    exact hz
  | cons t ts ih =>
    rw [List.foldlM_cons] at h
    obtain ⟨x, hx, hrest⟩ := bind_eq_ok_iff.1 h
    have hnested := ih hrest
    have hdepth := depth_of_step_eq_ok hx
    rw [Token.Nested]
    -- `Nested` counts the open groups as the yard does
    cases hkind : t.kind with
    | letter | star | bar | concat | endMark | opening =>
      simp only [hkind] at hdepth
      exact hdepth ▸ hnested
    | closing =>
      simp only [hkind] at hdepth
      rw [hdepth]
      exact ⟨Nat.succ_pos _, hnested⟩

/-- Something but open groups is in the yard `y`, or else a group was opened just now. -/
def Occupied (y : Yard) : Prop :=
  (∃ s ∈ y.output.toList ++ y.waiting, s.kind ≠ .opening) ∨
    (y.previous = some .opening ∧ ∃ s ∈ y.waiting, s.kind = .opening)

/-- After a token the yard is `Occupied`, since no group closes directly behind its start. -/
theorem occupied_of_step_eq_ok (ht : t.kind ≠ .endMark) (hy : y.waiting = [] ∨ y.Occupied)
    (h : y.step t = .ok z) : z.Occupied := by
  rw [step_eq_ok_iff] at h
  cases hkind : t.kind with
  | letter | star | bar | concat =>
    rw [hkind] at h
    subst h
    exact .inl ⟨t, by simp, by simp [hkind]⟩
  | opening =>
    rw [hkind] at h
    subst h
    exact .inr ⟨rfl, t, by simp, hkind⟩
  | closing =>
    rw [hkind] at h
    obtain ⟨hprevious, ops, group, outer, hwaiting, hops, hgroup, rfl⟩ := h
    -- what was in the yard stays there, but for the group itself
    rcases hy with hnil | ⟨s, hs, hsopen⟩ | ⟨hopening, -⟩
    · simp [hnil] at hwaiting
    · refine .inl ⟨s, ?_, hsopen⟩
      have hne : s ≠ group := fun heq => hsopen (heq ▸ hgroup)
      simpa [hwaiting, hne, or_assoc] using hs
    · exact absurd hopening hprevious
  | endMark => exact absurd hkind ht

/-- After a sequence of tokens that is not empty, the yard is `Occupied`. -/
theorem occupied_of_foldlM_eq_ok (hts : ∀ t ∈ ts, t.kind ≠ .endMark) (hne : ts ≠ [])
    (hy : y.waiting = [] ∨ y.Occupied) (h : ts.foldlM step y = .ok z) : z.Occupied := by
  induction ts generalizing y with
  | nil => exact absurd rfl hne
  | cons t ts ih =>
    obtain ⟨ht, hts⟩ := List.forall_mem_cons.1 hts
    rw [List.foldlM_cons] at h
    obtain ⟨x, hx, hz⟩ := bind_eq_ok_iff.1 h
    have hoccupied := occupied_of_step_eq_ok ht hy hx
    by_cases hnil : ts = []
    · subst hnil
      cases hz
      exact hoccupied
    · exact ih hts hnil (.inr hoccupied) hz

/-- If no group is open in a yard `y` that is occupied, there is something to send on. -/
theorem Occupied.flushed_ne_nil (h : y.Occupied) (hnone : ∀ s ∈ y.waiting, s.kind ≠ .opening) :
    (y.output ++ y.waiting).toList ≠ [] := by
  intro hnil
  have happend : y.output.toList ++ y.waiting = [] := by simpa using hnil
  rcases h with ⟨s, hs, -⟩ | ⟨-, s, hs, hopening⟩
  · rw [happend] at hs
    cases hs
  · exact hnone s hs hopening

/-- The tokens in a yard are among `ts`. No parenthesis is in its place, and none that closes a
group waits. -/
structure Within (ts : List Token) (y : Yard) : Prop where
  /-- The tokens that are in their place. -/
  output : ∀ s ∈ y.output.toList, s ∈ ts ∧ s.kind ≠ .opening ∧ s.kind ≠ .closing
  /-- The tokens that wait. -/
  waiting : ∀ s ∈ y.waiting, s ∈ ts ∧ s.kind ≠ .closing

/-- The tokens `ops` that are sent on of those that wait are no starts of groups, so that they are
in their place. -/
theorem Within.output_append {ops outer : List Token} (hy : y.Within ts)
    (hwaiting : y.waiting = ops ++ outer) (hops : ∀ s ∈ ops, s.kind ≠ .opening) :
    ∀ s ∈ (y.output ++ ops).toList, s ∈ ts ∧ s.kind ≠ .opening ∧ s.kind ≠ .closing := by
  intro s hs
  simp only [Array.toList_appendList, List.mem_append] at hs
  rcases hs with hs | hs
  · exact hy.output s hs
  · obtain ⟨hmem, hclosing⟩ := hy.waiting s (by simp [hwaiting, hs])
    exact ⟨hmem, hops s hs, hclosing⟩

/-- A token of `ts` that `step` takes in keeps the tokens in the yard among them. -/
theorem Within.step (ht : t ∈ ts) (hend : t.kind ≠ .endMark) (hy : y.Within ts)
    (h : y.step t = .ok z) : z.Within ts := by
  rw [step_eq_ok_iff] at h
  cases hkind : t.kind with
  | letter | star =>
    rw [hkind] at h
    subst h
    refine ⟨fun s hs => ?_, hy.waiting⟩
    simp only [Array.toList_push, List.mem_append, List.mem_singleton] at hs
    rcases hs with hs | rfl
    · exact hy.output s hs
    · exact ⟨ht, by simp [hkind], by simp [hkind]⟩
  | opening =>
    rw [hkind] at h
    subst h
    refine ⟨hy.output, List.forall_mem_cons.2 ⟨⟨ht, by simp [hkind]⟩, hy.waiting⟩⟩
  | closing =>
    rw [hkind] at h
    obtain ⟨-, ops, group, outer, hwaiting, hops, -, rfl⟩ := h
    exact ⟨hy.output_append hwaiting hops, fun s hs => hy.waiting s (by simp [hwaiting, hs])⟩
  | bar | concat =>
    rw [hkind] at h
    subst h
    have hsplit := (List.takeWhile_append_dropWhile (p := precedes t.kind) (l := y.waiting)).symm
    rw [hkind] at hsplit
    refine ⟨hy.output_append hsplit fun s hs => kind_ne_opening_of_mem_takeWhile hs,
      List.forall_mem_cons.2 ⟨⟨ht, by simp [hkind]⟩, ?_⟩⟩
    exact fun s hs => hy.waiting s (List.dropWhile_subset _ hs)
  | endMark => exact absurd hkind hend

end Yard

variable {ts : List Token} {last : Offset} {form : Postfix}

/-- Parentheses that do not nest have no postfix order: `ofTokens` succeeds only for nested ones. -/
theorem nested_of_ofTokens_eq_ok (h : ofTokens ts = .ok form) : Token.Nested 0 ts := by
  obtain ⟨y, hy, hnone, -⟩ := ofTokens_eq_ok_iff.1 h
  exact Yard.nested_of_foldlM_eq_ok hy (Yard.depth_eq_zero_iff.2 hnone)

/-- The postfix order of a sequence `ts` that is not empty is what is in its place after it and what
waits then, with the end mark and the concatenation with it behind. -/
theorem exists_run_of_ofTokens_eq_ok (hts : ∀ t ∈ ts, t.kind ≠ .endMark) (hne : ts ≠ [])
    (h : ofTokens (ts ++ [Token.endMark last]) = .ok form) :
    ∃ y, Yard.run ts = .ok y ∧ (∀ s ∈ y.waiting, s.kind ≠ .opening) ∧
      y.output.toList ++ y.waiting ≠ [] ∧
      form.tokens = (y.output.toList ++ y.waiting) ++ [Token.endMark last, Token.concat last] := by
  obtain ⟨z, hz, -, hform⟩ := ofTokens_eq_ok_iff.1 h
  rw [Yard.run, List.foldlM_append] at hz
  obtain ⟨y, hy, hz⟩ := bind_eq_ok_iff.1 hz
  rw [List.foldlM_cons] at hz
  obtain ⟨x, hx, hz⟩ := bind_eq_ok_iff.1 hz
  cases hz
  obtain ⟨hnone, rfl⟩ := Yard.step_eq_ok_iff.1 hx
  -- the yard is not empty at the end mark, which therefore is concatenated
  have hflushed := (Yard.occupied_of_foldlM_eq_ok hts hne (.inl rfl) hy).flushed_ne_nil hnone
  refine ⟨y, hy, hnone, by simpa using hflushed, ?_⟩
  rw [hform, Yard.close_of_output_ne_nil hflushed]
  simp [Token.endMark]

/-- Behind the postfix order of a sequence `ts` that is not empty stand the end mark and the
concatenation with it. The order, `body`, is made of tokens of the sequence without its parentheses,
and it leaves the same number of operands. -/
theorem exists_body_of_ofTokens_eq_ok (hts : ∀ t ∈ ts, t.kind ≠ .endMark) (hne : ts ≠ [])
    (h : ofTokens (ts ++ [Token.endMark last]) = .ok form) :
    ∃ body, form.tokens = body ++ [Token.endMark last, Token.concat last] ∧ body ≠ [] ∧
      Token.balance body = Token.balance ts ∧
      ∀ t ∈ body, t ∈ ts ∧ t.kind ≠ .opening ∧ t.kind ≠ .closing := by
  obtain ⟨y, hy, hnone, hbodyne, hform⟩ := exists_run_of_ofTokens_eq_ok hts hne h
  have hbalance := Yard.balance_of_foldlM_eq_ok hts hy
  have hempty : Yard.Within ts {} := ⟨by simp, by simp⟩
  have hwithin : y.Within ts :=
    of_foldlM_eq_ok (fun ht hx => hx.step ht (hts _ ht)) hempty hy
  refine ⟨_, hform, hbodyne, by simpa [Yard.balance] using hbalance, ?_⟩
  simpa using hwithin.output_append (List.append_nil _).symm hnone

/-- A sequence `ts` and its postfix order with an end mark leave the same number of operands: the
end mark adds one, and it is concatenated with what stands before it. -/
theorem balance_of_ofTokens_eq_ok (hts : ∀ t ∈ ts, t.kind ≠ .endMark) (hne : ts ≠ [])
    (h : ofTokens (ts ++ [Token.endMark last]) = .ok form) :
    Token.balance form.tokens = Token.balance ts := by
  obtain ⟨body, hbody, -, hbalance, -⟩ := exists_body_of_ofTokens_eq_ok hts hne h
  rw [hbody, Token.balance_append, hbalance]
  simp [Token.endMark, Token.concat, Kind.weight]

end Postfix

end PositionAutomaton
