import Mathlib.Data.List.TakeWhile
import PositionAutomaton.Postfix
import PositionAutomaton.Proofs.Outcome

/-!
# The steps of the yard

What each kind of token does to the yard (`Yard.step_eq_ok_iff`), to the groups that are open in it
(`Yard.openGroups_of_step_eq_ok`), and which tokens it refuses (`Yard.step_eq_error_iff`); when a
sequence can end (`Yard.flush_eq_ok_iff`).
-/

namespace PositionAutomaton

namespace Postfix

namespace Yard

variable {y z : Yard} {t : Token} {ts : List Token} {error : Error}

/-- A `group` that closes sends on the operators `ops` that wait inside it. -/
theorem closeGroup_eq_ok_iff :
    y.closeGroup t = .ok z ↔
      ∃ (ops : List Token) (group : Token) (outer : List Token),
        y.waiting = ops ++ group :: outer ∧ (∀ s ∈ ops, s.kind ≠ .opening) ∧
          group.kind = .opening ∧
          z = { y with output := y.output ++ ops, waiting := outer } := by
  rw [closeGroup]
  constructor
  · intro h
    split at h
    next => cases h
    next group outer hdrop =>
      cases h
      -- the group is the first token at which the operators inside it end
      refine ⟨_, group, outer, ?_, ?_, ?_, rfl⟩
      · rw [← hdrop, List.takeWhile_append_dropWhile]
      · intro s hs
        simpa using List.all_eq_true.1 List.all_takeWhile s hs
      · have hne : y.waiting.dropWhile (·.kind ≠ .opening) ≠ [] := hdrop ▸ List.cons_ne_nil _ _
        have hgroup := List.head_dropWhile_not _ hne
        simp only [hdrop, List.head_cons] at hgroup
        simpa using hgroup
  · rintro ⟨ops, group, outer, hwaiting, hops, hgroup, rfl⟩
    have hdecide : ∀ s ∈ ops, decide (s.kind ≠ .opening) = true := by simpa using hops
    have hstop : decide (group.kind ≠ .opening) = false := by simpa using hgroup
    rw [hwaiting, List.dropWhile_append_of_pos hdecide, List.takeWhile_append_of_pos hdecide,
      List.dropWhile_cons_of_neg (by simp [hstop]), List.takeWhile_cons_of_neg (by simp [hstop]),
      List.append_nil]

/-- All operators are sent on by `flush` if no group is open. -/
theorem flush_eq_ok_iff :
    y.flush = .ok z ↔
      (∀ s ∈ y.waiting, s.kind ≠ .opening) ∧
        z = { y with output := y.output ++ y.waiting, waiting := [] } := by
  rw [flush]
  cases hopen : y.waiting.find? (·.kind = .opening) with
  | some group =>
    have hgroup : group.kind = .opening := by simpa using List.find?_some hopen
    simp only [reduceCtorEq, false_iff, not_and]
    intro hnone
    exact absurd hgroup (hnone group (List.mem_of_find?_eq_some hopen))
  | none =>
    have hnone : ∀ s ∈ y.waiting, s.kind ≠ .opening := by simpa using hopen
    rw [Except.ok.injEq, eq_comm]
    exact (and_iff_right hnone).symm

/-- What a token `t` does to the yard, according to its kind. -/
theorem step_eq_ok_iff :
    y.step t = .ok z ↔
      match t.kind with
      | .letter | .star => z = ⟨y.output.push t, y.waiting, some t.kind⟩
      | .opening => z = ⟨y.output, t :: y.waiting, some t.kind⟩
      | .closing =>
        y.previous ≠ some .opening ∧
          ∃ (ops : List Token) (group : Token) (outer : List Token),
            y.waiting = ops ++ group :: outer ∧ (∀ s ∈ ops, s.kind ≠ .opening) ∧
            group.kind = .opening ∧ z = ⟨y.output ++ ops, outer, some t.kind⟩
      | .bar | .concat =>
        z = ⟨y.output ++ y.waiting.takeWhile (precedes t.kind),
          t :: y.waiting.dropWhile (precedes t.kind), some t.kind⟩
      | .endMark =>
        (∀ s ∈ y.waiting, s.kind ≠ .opening) ∧
          z = { close ⟨y.output ++ y.waiting, [], y.previous⟩ t with previous := some t.kind } := by
  rw [step, bind_eq_ok_iff, accept]
  simp only [pure_eq_ok, Except.ok.injEq]
  cases t.kind with
  | letter | star | opening | bar | concat =>
    simp only [Except.ok.injEq, exists_eq_left', emit, hold, release, eq_comm (b := z)]
  | closing =>
    by_cases hprevious : y.previous = some .opening
    · simp [hprevious]
    · simp only [if_neg hprevious, closeGroup_eq_ok_iff]
      constructor
      · rintro ⟨-, ⟨ops, group, outer, hwaiting, hops, hgroup, rfl⟩, rfl⟩
        exact ⟨hprevious, ops, group, outer, hwaiting, hops, hgroup, rfl⟩
      · rintro ⟨-, ops, group, outer, hwaiting, hops, hgroup, rfl⟩
        exact ⟨_, ⟨ops, group, outer, hwaiting, hops, hgroup, rfl⟩, rfl⟩
  | endMark =>
    simp only [bind_eq_ok_iff, Except.ok.injEq, flush_eq_ok_iff]
    constructor
    · rintro ⟨-, ⟨-, ⟨hnone, rfl⟩, rfl⟩, rfl⟩
      exact ⟨hnone, rfl⟩
    · rintro ⟨hnone, rfl⟩
      exact ⟨_, ⟨_, ⟨hnone, rfl⟩, rfl⟩, rfl⟩

/-- At the end of an expression, `close` leaves what waits as it is. -/
@[simp]
theorem waiting_close (y : Yard) (t : Token) : (y.close t).waiting = y.waiting := by
  rw [close]
  split <;> rfl

/-- No operator sends on the start of a group: `precedes` is false of it. -/
theorem kind_ne_opening_of_precedes {kind : Kind} (h : precedes kind t = true) :
    t.kind ≠ .opening := by
  intro hopening
  rw [precedes, hopening] at h
  cases h

/-- No token `s` that an operator of some `kind` sends on is the start of a group. -/
theorem kind_ne_opening_of_mem_takeWhile {kind : Kind} {waiting : List Token} {s : Token}
    (hs : s ∈ waiting.takeWhile (precedes kind)) : s.kind ≠ .opening :=
  kind_ne_opening_of_precedes (List.all_eq_true.1 List.all_takeWhile s hs)

/-- After a token `t`, its kind is that of the last token. -/
theorem previous_of_step_eq_ok (h : y.step t = .ok z) : z.previous = some t.kind := by
  obtain ⟨x, -, hz⟩ := bind_eq_ok_iff.1 h
  cases hz
  rfl

/-- A sequence is read up to its last token `t`, and then `t`. -/
theorem run_append_singleton_eq_ok_iff :
    run (ts ++ [t]) = .ok z ↔ ∃ y, run ts = .ok y ∧ y.step t = .ok z :=
  foldlM_append_singleton_eq_ok_iff

/-- The last token that was read is the last one of the sequence `ts`. -/
theorem previous_of_run_eq_ok (h : run ts = .ok y) : y.previous = ts.getLast?.map (·.kind) := by
  rcases List.eq_nil_or_concat ts with rfl | ⟨ts, t, rfl⟩
  · cases h
    rfl
  · rw [List.concat_eq_append] at h
    obtain ⟨w, -, hy⟩ := run_append_singleton_eq_ok_iff.1 h
    simp [previous_of_step_eq_ok hy]

/-- The groups that are open in `y`, the innermost one first. -/
def openGroups (y : Yard) : List Token :=
  y.waiting.filter (·.kind = .opening)

/-- No group is open if none is among `y.waiting`. -/
theorem openGroups_eq_nil_iff : y.openGroups = [] ↔ ∀ s ∈ y.waiting, s.kind ≠ .opening := by
  simp [openGroups, List.filter_eq_nil_iff]

/-- Parentheses that `step` takes in open and close groups, the innermost one first; other tokens
leave the groups as they are. -/
theorem openGroups_of_step_eq_ok (h : y.step t = .ok z) :
    match t.kind with
    | .opening => z.openGroups = t :: y.openGroups
    | .closing => ∃ group, y.openGroups = group :: z.openGroups
    | .letter | .star | .bar | .concat | .endMark => z.openGroups = y.openGroups := by
  rw [step_eq_ok_iff] at h
  cases hkind : t.kind with
  | letter | star =>
    rw [hkind] at h
    subst h
    rfl
  | opening =>
    rw [hkind] at h
    subst h
    simp [openGroups, hkind]
  | closing =>
    rw [hkind] at h
    obtain ⟨-, ops, group, outer, hwaiting, hops, hgroup, rfl⟩ := h
    have hnone : ops.filter (·.kind = .opening) = [] := by
      simpa [List.filter_eq_nil_iff] using hops
    exact ⟨group, by simp [openGroups, hwaiting, hnone, hgroup]⟩
  | bar | concat =>
    rw [hkind] at h
    subst h
    -- what is sent on are operators
    have hnone : (y.waiting.takeWhile (precedes t.kind)).filter (·.kind = .opening) = [] := by
      rw [List.filter_eq_nil_iff]
      intro s hs
      simpa using kind_ne_opening_of_mem_takeWhile hs
    have hsplit := congrArg (List.filter (·.kind = .opening))
      (List.takeWhile_append_dropWhile (p := precedes t.kind) (l := y.waiting))
    rw [List.filter_append, hnone, List.nil_append, hkind] at hsplit
    simp [openGroups, hkind, hsplit]
  | endMark =>
    rw [hkind] at h
    obtain ⟨hnone, rfl⟩ := h
    rw [openGroups_eq_nil_iff.2 hnone, openGroups, waiting_close]
    rfl

/-- A closing parenthesis `t` needs an open group. -/
theorem closeGroup_eq_error_iff :
    y.closeGroup t = .error error ↔ y.openGroups = [] ∧ error = .unbalanced t.offset := by
  have hdrop : y.waiting.dropWhile (·.kind ≠ .opening) = [] ↔ y.openGroups = [] := by
    simp [openGroups_eq_nil_iff]
  rw [closeGroup, ← hdrop]
  split
  next hnil =>
    rw [and_iff_right hnil, Except.error.injEq, eq_comm]
  next hcons => simp only [hcons, reduceCtorEq, false_and]

/-- At the end of a sequence, the innermost `group` that is open is an error. -/
theorem flush_eq_error_iff :
    y.flush = .error error ↔
      ∃ group, y.openGroups.head? = some group ∧ error = .unbalanced group.offset := by
  rw [flush, openGroups, List.head?_filter]
  cases y.waiting.find? (·.kind = .opening) with
  | some group => simp [eq_comm]
  | none => simp

/-- The tokens that `step` refuses: a closing parenthesis directly behind an opening one or without
open group, and an end mark while a group is open. -/
theorem step_eq_error_iff :
    y.step t = .error error ↔
      match t.kind with
      | .letter | .star | .opening | .bar | .concat => False
      | .closing =>
        if y.previous = some .opening then error = .malformed t.offset .emptyGroup
        else y.openGroups = [] ∧ error = .unbalanced t.offset
      | .endMark =>
        ∃ group, y.openGroups.head? = some group ∧ error = .unbalanced group.offset := by
  rw [step, bind_eq_error_iff, accept]
  simp only [pure_eq_ok, reduceCtorEq, and_false, exists_false, or_false]
  cases t.kind with
  | letter | star | opening | bar | concat => simp
  | closing =>
    by_cases hprevious : y.previous = some .opening
    · simp [hprevious, eq_comm]
    · simp only [if_neg hprevious, closeGroup_eq_error_iff]
  | endMark => simp [bind_eq_error_iff, flush_eq_error_iff]

/-- An end mark `t` comes last, with a concatenation behind it if anything stands before it. -/
theorem toList_output_close (y : Yard) (t : Token) :
    (y.close t).output.toList = y.output.toList ++
      t :: if y.output.toList = [] then [] else [Token.concat t.offset] := by
  unfold close
  cases hout : y.output.toList with
  | nil =>
    have hempty : y.output.isEmpty = true := by simpa using hout
    simp [hempty, emit, hout]
  | cons s output =>
    have hne : y.output.isEmpty = false := by simp [← Array.isEmpty_toList, hout]
    simp [hne, emit, hout]

/-- An end mark `t` is concatenated with what stands before it. -/
theorem close_of_output_ne_nil (h : y.output.toList ≠ []) :
    y.close t = { y with output := (y.output.push t).push (Token.concat t.offset) } := by
  have hne : y.output.isEmpty = false := by simpa using h
  rw [close, hne]
  rfl

end Yard

variable {tokens : List Token} {form : Postfix}

/-- A sequence of `tokens` has a postfix order if the yard takes them in and no group is open at the
end; then what waits comes last. -/
theorem ofTokens_eq_ok_iff :
    ofTokens tokens = .ok form ↔
      ∃ y, Yard.run tokens = .ok y ∧ (∀ s ∈ y.waiting, s.kind ≠ .opening) ∧
        form.tokens = y.output.toList ++ y.waiting := by
  obtain ⟨formTokens⟩ := form
  simp only [ofTokens, bind_eq_ok_iff, Yard.flush_eq_ok_iff, pure_eq_ok, Except.ok.injEq,
    Postfix.mk.injEq]
  constructor
  · rintro ⟨y, hy, -, ⟨hnone, rfl⟩, rfl⟩
    exact ⟨y, hy, hnone, by simp⟩
  · rintro ⟨y, hy, hnone, rfl⟩
    exact ⟨y, hy, _, ⟨hnone, rfl⟩, by simp⟩

end Postfix

end PositionAutomaton
