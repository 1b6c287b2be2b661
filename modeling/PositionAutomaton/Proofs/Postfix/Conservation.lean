import Mathlib.Data.List.Induction
import Mathlib.Data.List.Perm.Basic
import PositionAutomaton.Proofs.Cuts
import PositionAutomaton.Proofs.Postfix.Yard

/-!
# What the conversion to postfix order keeps

On any sequence of tokens, also one with end marks and concatenations anywhere, the conversion fails
only where parentheses or an end mark do not fit the groups that are open (`Token.Mismatch`), and it
reports the first such place. Otherwise it loses and invents nothing: apart from its parentheses,
the tokens of the sequence are in the postfix order, together with one concatenation behind each end
mark that stands behind other tokens (`Yard.Conserves`). Letters, stars and end marks keep their
order.

Main statement:

* `ofTokens_conserves`: when the conversion fails, and what it keeps otherwise.
-/

namespace PositionAutomaton

namespace Kind

/-- Whether such a token is a parenthesis. -/
def isParenthesis : Kind → Bool
  | opening | closing => true
  | letter | star | bar | concat | endMark => false

/-- Whether such a token is in its place as soon as it is read. -/
def isFixed : Kind → Bool
  | letter | star | endMark => true
  | opening | closing | bar | concat => false

end Kind

namespace Token

/-! ### Places that do not fit -/

/-- The groups that are open after a token, where `groups` are open before it. -/
def openAfter (groups : List Token) (t : Token) : List Token :=
  match t.kind with
  | .opening => t :: groups
  | .closing => groups.tail
  | .letter | .star | .bar | .concat | .endMark => groups

/-- The groups that are open after the tokens `ts`, the innermost one first. -/
def openGroups (ts : List Token) : List Token :=
  ts.foldl openAfter []

/-- What is wrong behind the tokens `before` with the token `next`, or with the end of the sequence
if there is none. -/
inductive Mismatch (before : List Token) (next : Option Token) : Error → Prop where
  /-- A group is closed directly behind its start. -/
  | emptyGroup {s t : Token} : next = some t → t.kind = .closing → before.getLast? = some s →
      s.kind = .opening → Mismatch before next (.malformed t.offset .emptyGroup)
  /-- No group is open that could be closed. -/
  | noGroup {t : Token} : next = some t → t.kind = .closing → openGroups before = [] →
      Mismatch before next (.unbalanced t.offset)
  /-- The start `t` of a group waits. -/
  | openGroup {group : Token} : (∀ t ∈ next, t.kind = .endMark) →
      (openGroups before).head? = some group → Mismatch before next (.unbalanced group.offset)

variable {ts us vs : List Token} {t : Token} {error : Error}

/-- The groups after a sequence `ts` and one more token `t`. -/
@[simp]
theorem openGroups_append_singleton (ts : List Token) (t : Token) :
    openGroups (ts ++ [t]) = openAfter (openGroups ts) t := by
  simp [openGroups]

/-- Directly behind its start `t` a group is open. -/
theorem openGroups_ne_nil_of_getLast? (h : ts.getLast? = some t) (ht : t.kind = .opening) :
    openGroups ts ≠ [] := by
  obtain ⟨us, rfl⟩ := List.getLast?_eq_some_iff.1 h
  rw [openGroups_append_singleton, openAfter, ht]
  exact List.cons_ne_nil _ _

/-- A token `t` does not fit behind `ts` if it closes an empty group or none, or ends the expression
in a group. -/
theorem mismatch_some_iff :
    Mismatch ts (some t) error ↔
      match t.kind with
      | .letter | .star | .opening | .bar | .concat => False
      | .closing =>
        if ts.getLast?.map (·.kind) = some .opening then error = .malformed t.offset .emptyGroup
        else openGroups ts = [] ∧ error = .unbalanced t.offset
      | .endMark =>
        ∃ group, (openGroups ts).head? = some group ∧ error = .unbalanced group.offset := by
  constructor
  · rintro (⟨⟨⟩, hkind, hs, hopening⟩ | ⟨⟨⟩, hkind, hnone⟩ | ⟨hend, hgroup⟩)
    · simp [hkind, hs, hopening]
    · -- the end of a group where none is open is not directly behind the start of one
      have hlast : ts.getLast?.map (·.kind) ≠ some .opening := by
        rw [Ne, Option.map_eq_some_iff]
        rintro ⟨s, hs, hopening⟩
        exact openGroups_ne_nil_of_getLast? hs hopening hnone
      simp [hkind, hlast, hnone]
    · rw [hend t rfl]
      exact ⟨_, hgroup, rfl⟩
  · intro h
    cases hkind : t.kind with
    | letter | star | opening | bar | concat =>
      rw [hkind] at h
      exact h.elim
    | closing =>
      simp only [hkind] at h
      split at h
      next hlast =>
        obtain ⟨s, hs, hopening⟩ := Option.map_eq_some_iff.1 hlast
        subst h
        exact .emptyGroup rfl hkind hs hopening
      next =>
        obtain ⟨hnone, rfl⟩ := h
        exact .noGroup rfl hkind hnone
    | endMark =>
      rw [hkind] at h
      obtain ⟨group, hgroup, rfl⟩ := h
      exact .openGroup (by simpa using hkind) hgroup

/-- The end of a sequence `ts` does not fit if a group is open. -/
theorem mismatch_none_iff :
    Mismatch ts none error ↔
      ∃ group, (openGroups ts).head? = some group ∧ error = .unbalanced group.offset := by
  constructor
  · rintro (⟨⟨⟩, -⟩ | ⟨⟨⟩, -⟩ | ⟨-, hgroup⟩)
    exact ⟨_, hgroup, rfl⟩
  · rintro ⟨group, hgroup, rfl⟩
    exact .openGroup (by simp) hgroup

/-! ### Concatenations for end marks -/

/-- The concatenations of the end marks of a sequence `ts` with what stands before them. -/
def endConcats (ts : List Token) : List Token :=
  (ts.tail.filter (·.kind = .endMark)).map fun t => concat t.offset

/-- Tokens `us` that are no end marks bring no concatenations for end marks. -/
theorem endConcats_append (hus : ∀ t ∈ us, t.kind ≠ .endMark) :
    endConcats (ts ++ us) = endConcats ts := by
  have hnone {us : List Token} (hus : ∀ t ∈ us, t.kind ≠ .endMark) :
      us.filter (·.kind = .endMark) = [] := by
    simpa [List.filter_eq_nil_iff] using hus
  cases ts with
  | nil =>
    rw [List.nil_append, endConcats, hnone fun t ht => hus t (List.mem_of_mem_tail ht)]
    rfl
  | cons s ts => simp [endConcats, hnone hus]

/-- An end mark `t` behind other tokens brings a concatenation. -/
theorem endConcats_append_endMark (hts : ts ≠ []) (ht : t.kind = .endMark) :
    endConcats (ts ++ [t]) = endConcats ts ++ [concat t.offset] := by
  cases ts with
  | nil => exact absurd rfl hts
  | cons s ts => simp [endConcats, ht]

/-- Behind every end mark of `ts` that stands behind other tokens is its concatenation. -/
def EndsJoined (ts : List Token) : Prop :=
  ∀ us t vs, ts = us ++ t :: vs → t.kind = .endMark → us ≠ [] →
    vs.head? = some (concat t.offset)

/-- Tokens `us` that are no end marks change nothing about those before them. -/
theorem EndsJoined.append (h : EndsJoined ts) (hus : ∀ t ∈ us, t.kind ≠ .endMark) :
    EndsJoined (ts ++ us) := by
  intro before t after hsplit ht hbefore
  rcases append_eq_append_cons_iff.1 hsplit with ⟨rest, hts, rfl⟩ | ⟨rest, -, hus'⟩
  · rw [List.head?_append, h before t rest hts ht hbefore, Option.some_or]
  · exact absurd ht (hus t (by simp [hus']))

/-- An end mark `t` may be put behind a sequence together with its concatenation. -/
theorem EndsJoined.append_endMark (h : EndsJoined ts) (t : Token) :
    EndsJoined (ts ++ [t, concat t.offset]) := by
  intro before s after hsplit hs hbefore
  rcases append_eq_append_cons_iff.1 hsplit with ⟨rest, hts, rfl⟩ | ⟨rest, -, hlast⟩
  · rw [List.head?_append, h before s rest hts hs hbefore, Option.some_or]
  · -- the end mark is the new one, since the last token is none
    obtain ⟨rfl, htail⟩ | ⟨rest, rfl, htail⟩ := List.cons_eq_append_iff.1 hlast
    · obtain ⟨rfl, rfl⟩ := List.cons.inj htail
      rfl
    · obtain ⟨rfl, htail⟩ | ⟨rest, -, htail⟩ := List.cons_eq_append_iff.1 htail
      · obtain ⟨rfl, -⟩ := List.cons.inj htail
        cases hs
      · simp at htail

end Token

namespace Postfix

open Token

namespace Yard

variable {y z : Yard} {ts ops rest output waiting : List Token} {t : Token} {error : Error}

/-! ### The groups in the yard -/

/-- The groups that wait in the yard `y` are those that the sequence `ts` leaves open. -/
theorem openGroups_of_run_eq_ok (h : run ts = .ok y) : y.openGroups = Token.openGroups ts := by
  induction ts using List.reverseRecOn generalizing y with
  | nil =>
    cases h
    rfl
  | append_singleton ts t ih =>
    obtain ⟨w, hw, hy⟩ := run_append_singleton_eq_ok_iff.1 h
    have hstep := openGroups_of_step_eq_ok hy
    -- both lists of groups change in the same way with the last token
    rw [openGroups_append_singleton, openAfter, ← ih hw]
    cases hkind : t.kind with
    | opening | letter | star | bar | concat | endMark =>
      rw [hkind] at hstep
      exact hstep
    | closing =>
      rw [hkind] at hstep
      obtain ⟨group, hgroup⟩ := hstep
      rw [hgroup, List.tail_cons]

/-- The yard refuses a token `t` behind `ts` if it is a `Mismatch`. -/
theorem step_eq_error_iff_mismatch (h : run ts = .ok y) :
    y.step t = .error error ↔ Mismatch ts (some t) error := by
  rw [mismatch_some_iff, ← openGroups_of_run_eq_ok h, ← previous_of_run_eq_ok h]
  exact step_eq_error_iff.trans (by cases t.kind <;> exact Iff.rfl)

/-- At the end, `flush` refuses a group that is open. -/
theorem flush_eq_error_iff_mismatch (h : run ts = .ok y) :
    y.flush = .error error ↔ Mismatch ts none error := by
  rw [flush_eq_error_iff, mismatch_none_iff, openGroups_of_run_eq_ok h]

/-- The yard takes in a sequence `ts` if each of its tokens fits. -/
theorem exists_run_eq_ok_iff :
    (∃ y, run ts = .ok y) ↔ ∀ us t vs error, ts = us ++ t :: vs → ¬Mismatch us (some t) error :=
  exists_foldlM_eq_ok_iff (R := fun us t error => Mismatch us (some t) error)
    fun _ _ _ _ h => step_eq_error_iff_mismatch h

/-- The yard fails at the first token that is a `Mismatch`. -/
theorem run_eq_error_iff :
    run ts = .error error ↔
      ∃ us t vs, ts = us ++ t :: vs ∧ Mismatch us (some t) error ∧
        ∀ vs s xs other, us = vs ++ s :: xs → ¬Mismatch vs (some s) other :=
  foldlM_eq_error_iff_first (R := fun us t error => Mismatch us (some t) error)
    fun _ _ _ _ h => step_eq_error_iff_mismatch h

/-! ### The tokens in the yard -/

/-- The tokens in their place and those that wait are, apart from parentheses, the tokens `ts`
that were read, with the concatenations of the end marks. -/
structure Conserves (ts output waiting : List Token) : Prop where
  /-- What waits are starts of groups, bars and concatenations. -/
  waiting_kind : ∀ s ∈ waiting, s.kind = .opening ∨ s.kind = .bar ∨ s.kind = .concat
  /-- Nothing is lost, and nothing is there that was not read, but for the concatenations. -/
  perm : (output ++ waiting.filter (!·.kind.isParenthesis)).Perm
    (ts.filter (!·.kind.isParenthesis) ++ endConcats output)
  /-- Each end mark has its concatenation behind it. -/
  endsJoined : EndsJoined output
  /-- What does not wait is in the order in which it was read. -/
  order : output.filter (·.kind.isFixed) = ts.filter (·.kind.isFixed)

/-- Before the first token the yard is empty. -/
theorem conserves_nil : Conserves [] [] [] where
  waiting_kind := by simp
  perm := .refl _
  endsJoined us t vs h := by simp at h
  order := rfl

namespace Conserves

/-- The operators `ops` that wait are in their place when they are sent on. -/
theorem send (h : Conserves ts output (ops ++ rest)) (hops : ∀ s ∈ ops, s.kind ≠ .opening) :
    Conserves ts (output ++ ops) rest := by
  have hkind : ∀ s ∈ ops, s.kind = .bar ∨ s.kind = .concat := fun s hs =>
    (h.waiting_kind s (List.mem_append_left _ hs)).resolve_left (hops s hs)
  have hend : ∀ s ∈ ops, s.kind ≠ .endMark := by
    intro s hs
    rcases hkind s hs with hs | hs <;> simp [hs]
  constructor
  case waiting_kind => exact fun s hs => h.waiting_kind s (List.mem_append_right _ hs)
  case perm =>
    -- operators are no parentheses
    have hall : ops.filter (!·.kind.isParenthesis) = ops := by
      rw [List.filter_eq_self]
      intro s hs
      rcases hkind s hs with hs | hs <;> simp [hs, Kind.isParenthesis]
    have hperm := h.perm
    rwa [List.filter_append, hall, ← List.append_assoc, ← endConcats_append hend] at hperm
  case endsJoined => exact h.endsJoined.append hend
  case order =>
    -- operators wait, and are not among the tokens that keep their order
    have hnone : ops.filter (·.kind.isFixed) = [] := by
      rw [List.filter_eq_nil_iff]
      intro s hs
      rcases hkind s hs with hs | hs <;> simp [hs, Kind.isFixed]
    rw [List.filter_append, hnone, List.append_nil, h.order]

/-- A letter or a star `t` is put into its place. -/
theorem emit (h : Conserves ts output waiting) (ht : t.kind = .letter ∨ t.kind = .star) :
    Conserves (ts ++ [t]) (output ++ [t]) waiting := by
  have hend : ∀ s ∈ [t], s.kind ≠ .endMark := by
    rcases ht with ht | ht <;> simp [ht]
  have hparenthesis : [t].filter (!·.kind.isParenthesis) = [t] := by
    rcases ht with ht | ht <;> simp [ht, Kind.isParenthesis]
  have hfixed : [t].filter (·.kind.isFixed) = [t] := by
    rcases ht with ht | ht <;> simp [ht, Kind.isFixed]
  constructor
  case waiting_kind => exact h.waiting_kind
  case perm =>
    have hperm := h.perm
    rw [endConcats_append hend, List.filter_append, hparenthesis]
    rw [List.perm_iff_count] at hperm ⊢
    intro s
    have hcount := hperm s
    simp only [List.count_append] at hcount ⊢
    omega
  case endsJoined => exact h.endsJoined.append hend
  case order => rw [List.filter_append, List.filter_append, h.order, hfixed]

/-- The start of a group waits. -/
theorem openGroup (h : Conserves ts output waiting) (ht : t.kind = .opening) :
    Conserves (ts ++ [t]) output (t :: waiting) where
  waiting_kind := List.forall_mem_cons.2 ⟨.inl ht, h.waiting_kind⟩
  perm := by simpa [ht, Kind.isParenthesis] using h.perm
  endsJoined := h.endsJoined
  order := by simpa [ht, Kind.isFixed] using h.order

/-- The start of a `group` that is closed is not needed any more. -/
theorem closeGroup {group : Token} (h : Conserves ts output (group :: waiting))
    (hgroup : group.kind = .opening) (ht : t.kind = .closing) :
    Conserves (ts ++ [t]) output waiting where
  waiting_kind := (List.forall_mem_cons.1 h.waiting_kind).2
  perm := by simpa [ht, hgroup, Kind.isParenthesis] using h.perm
  endsJoined := h.endsJoined
  order := by simpa [ht, Kind.isFixed] using h.order

/-- A bar or a concatenation `t` waits. -/
theorem hold (h : Conserves ts output waiting) (ht : t.kind = .bar ∨ t.kind = .concat) :
    Conserves (ts ++ [t]) output (t :: waiting) := by
  have hparenthesis : t.kind.isParenthesis = false := by
    rcases ht with ht | ht <;> rw [ht] <;> rfl
  have hfixed : t.kind.isFixed = false := by
    rcases ht with ht | ht <;> rw [ht] <;> rfl
  constructor
  case waiting_kind => exact List.forall_mem_cons.2 ⟨.inr ht, h.waiting_kind⟩
  case perm =>
    have hperm := h.perm
    rw [List.perm_iff_count] at hperm ⊢
    intro s
    have hcount := hperm s
    simp only [List.filter_append, List.filter_cons, hparenthesis, Bool.not_false, if_true,
      List.filter_nil, List.count_append, List.count_cons, List.count_nil] at hcount ⊢
    omega
  case endsJoined => exact h.endsJoined
  case order => simpa [hfixed] using h.order

/-- An end mark `t` is put into its place, with its concatenation if other tokens stand before
it. -/
theorem close (h : Conserves ts output []) (ht : t.kind = .endMark) :
    Conserves (ts ++ [t]) (output ++ t :: if output = [] then [] else [Token.concat t.offset])
      [] := by
  have hparenthesis : t.kind.isParenthesis = false := by rw [ht]; rfl
  have hfixed : t.kind.isFixed = true := by rw [ht]; rfl
  have hperm := h.perm
  have horder := h.order
  -- without a token in its place there is nothing to concatenate the end mark with
  by_cases hnil : output = []
  · subst hnil
    constructor
    case waiting_kind => simp
    case perm => simpa [hparenthesis, endConcats] using hperm
    case endsJoined =>
      intro us s vs hsplit _ hus
      obtain ⟨rfl, -⟩ | ⟨us, -, hvs⟩ := List.cons_eq_append_iff.1 hsplit
      · exact absurd rfl hus
      · simp at hvs
    case order => simpa [hfixed] using horder
  · have hconcat : ∀ s ∈ [Token.concat t.offset], s.kind ≠ .endMark := by
      simp [Token.concat]
    rw [if_neg hnil]
    constructor
    case waiting_kind => simp
    case perm =>
      rw [List.append_cons, endConcats_append hconcat, endConcats_append_endMark hnil ht]
      -- the concatenation moves behind the other tokens, so that the counts are compared
      rw [List.perm_iff_count] at hperm ⊢
      intro s
      have hcount := hperm s
      simp only [List.filter_append, List.filter_cons, hparenthesis, Bool.not_false, if_true,
        List.filter_nil, List.count_append] at hcount ⊢
      omega
    case endsJoined => exact h.endsJoined.append_endMark t
    case order =>
      have hjoined : (Token.concat t.offset).kind.isFixed = false := rfl
      simp [hfixed, hjoined, horder]

/-- Each token that `step` takes in keeps up what the yard conserves. -/
theorem step (hy : Conserves ts y.output.toList y.waiting) (h : y.step t = .ok z) :
    Conserves (ts ++ [t]) z.output.toList z.waiting := by
  rw [step_eq_ok_iff] at h
  cases hkind : t.kind with
  | letter | star =>
    rw [hkind] at h
    subst h
    simpa using hy.emit (by simp [hkind])
  | opening =>
    rw [hkind] at h
    subst h
    exact hy.openGroup hkind
  | closing =>
    rw [hkind] at h
    obtain ⟨-, ops, group, outer, hwaiting, hops, hgroup, rfl⟩ := h
    rw [hwaiting] at hy
    simpa using (hy.send hops).closeGroup hgroup hkind
  | bar | concat =>
    rw [hkind] at h
    subst h
    -- what the operator sends on is sent first, and then it waits itself
    rw [← List.takeWhile_append_dropWhile (p := precedes t.kind) (l := y.waiting)] at hy
    have hsent := hy.send fun s hs => kind_ne_opening_of_mem_takeWhile hs
    rw [← hkind]
    simpa using hsent.hold (by simp [hkind])
  | endMark =>
    rw [hkind] at h
    obtain ⟨hnone, rfl⟩ := h
    rw [← List.append_nil y.waiting] at hy
    simpa [toList_output_close] using (hy.send hnone).close hkind

end Conserves

/-- What the yard `y` holds after a sequence `ts` is what was read. -/
theorem conserves_of_run_eq_ok (h : run ts = .ok y) : Conserves ts y.output.toList y.waiting := by
  induction ts using List.reverseRecOn generalizing y with
  | nil =>
    cases h
    exact conserves_nil
  | append_singleton ts t ih =>
    obtain ⟨w, hw, hy⟩ := run_append_singleton_eq_ok_iff.1 h
    exact (ih hw).step hy

end Yard

variable {ts : List Token} {form : Postfix} {error : Error}

/-- The postfix order `form` of a sequence holds what was read, and nothing waits any more. -/
theorem conserves_of_ofTokens_eq_ok (h : ofTokens ts = .ok form) :
    Yard.Conserves ts form.tokens [] := by
  obtain ⟨y, hy, hnone, hform⟩ := ofTokens_eq_ok_iff.1 h
  have hconserves := Yard.conserves_of_run_eq_ok hy
  rw [← List.append_nil y.waiting] at hconserves
  rw [hform]
  exact hconserves.send hnone

/-- No token `t` of a postfix order is a parenthesis. -/
theorem isParenthesis_of_mem_tokens {t : Token} (h : ofTokens ts = .ok form)
    (ht : t ∈ form.tokens) : t.kind.isParenthesis = false := by
  have hperm := (conserves_of_ofTokens_eq_ok h).perm
  rw [List.filter_nil, List.append_nil] at hperm
  rcases List.mem_append.1 (hperm.subset ht) with ht | ht
  · simpa using (List.mem_filter.1 ht).2
  · obtain ⟨s, -, rfl⟩ := List.mem_map.1 ht
    rfl

/-- The conversion fails at the first `Mismatch`, of a token or of the end of the sequence. -/
theorem ofTokens_eq_error_iff :
    ofTokens ts = .error error ↔
      ∃ before after, ts = before ++ after ∧ Mismatch before after.head? error ∧
        ∀ us t vs other, before = us ++ t :: vs → ¬Mismatch us (some t) other := by
  -- the yard fails at a token, or else at the end, where only `flush` can fail
  have hflush {y : Yard} : (y.flush >>= fun flushed => pure ⟨flushed.output.toList⟩ :
      Except Error Postfix) = .error error ↔ y.flush = .error error := by
    simp [bind_eq_error_iff]
  rw [ofTokens, bind_eq_error_iff, Yard.run_eq_error_iff]
  constructor
  · rintro (⟨us, t, vs, rfl, ht, hfirst⟩ | ⟨y, hy, herror⟩)
    · exact ⟨us, t :: vs, rfl, ht, hfirst⟩
    · refine ⟨ts, [], (List.append_nil ts).symm, ?_, Yard.exists_run_eq_ok_iff.1 ⟨y, hy⟩⟩
      exact (Yard.flush_eq_error_iff_mismatch hy).1 (hflush.1 herror)
  · rintro ⟨before, _ | ⟨t, after⟩, rfl, hmismatch, hfirst⟩
    · obtain ⟨y, hy⟩ := Yard.exists_run_eq_ok_iff.2 hfirst
      rw [List.append_nil]
      exact .inr ⟨y, hy, hflush.2 ((Yard.flush_eq_error_iff_mismatch hy).2 hmismatch)⟩
    · exact .inl ⟨before, t, after, rfl, hmismatch, hfirst⟩

/-- The conversion succeeds if there is no `Mismatch`, of a token or of the end of the sequence. -/
theorem exists_ofTokens_eq_ok_iff :
    (∃ form, ofTokens ts = .ok form) ↔
      ∀ before after error, ts = before ++ after → ¬Mismatch before after.head? error := by
  constructor
  · rintro ⟨form, hform⟩ before after error rfl hmismatch
    obtain ⟨y, hy, hnone, -⟩ := ofTokens_eq_ok_iff.1 hform
    -- a mismatch at the end is an error of `flush`, any other one an error of a step
    cases after with
    | nil =>
      rw [List.append_nil] at hy
      have herror := (Yard.flush_eq_error_iff_mismatch hy).2 hmismatch
      rw [Yard.flush_eq_ok_iff.2 ⟨hnone, rfl⟩] at herror
      cases herror
    | cons t after => exact Yard.exists_run_eq_ok_iff.1 ⟨y, hy⟩ before t after error rfl hmismatch
  · intro hfits
    cases hform : ofTokens ts with
    | ok form => exact ⟨form, rfl⟩
    | error error =>
      obtain ⟨before, after, hts, hmismatch, -⟩ := ofTokens_eq_error_iff.1 hform
      exact absurd hmismatch (hfits before after error hts)

/-- For every sequence of tokens, the conversion to postfix order fails exactly if some token closes
a group directly behind its start or where none is open, or an end mark or the end of the sequence
is reached in a group, and the first such place is what it reports. If it succeeds, the postfix
order is made of the tokens of the sequence without its parentheses, each as often as it is there,
and of one concatenation for each end mark that is behind other tokens in the postfix order. This
concatenation has the place of the end mark and stands directly behind it. Letters, stars and end
marks are in the order of the sequence. -/
theorem ofTokens_conserves (ts : List Token) :
    ((∃ error, ofTokens ts = .error error) ↔
        ∃ before after error, ts = before ++ after ∧ Mismatch before after.head? error) ∧
      (∀ error, ofTokens ts = .error error ↔
        ∃ before after, ts = before ++ after ∧ Mismatch before after.head? error ∧
          ∀ us t vs other, before = us ++ t :: vs → ¬Mismatch us (some t) other) ∧
      ∀ form, ofTokens ts = .ok form →
        form.tokens.Perm (ts.filter (!·.kind.isParenthesis) ++
          (form.tokens.tail.filter (·.kind = .endMark)).map fun t => Token.concat t.offset) ∧
        (∀ us t vs, form.tokens = us ++ t :: vs → t.kind = .endMark → us ≠ [] →
          vs.head? = some (Token.concat t.offset)) ∧
        form.tokens.filter (·.kind.isFixed) = ts.filter (·.kind.isFixed) := by
  refine ⟨?_, fun error => ofTokens_eq_error_iff, fun form hform => ?_⟩
  · constructor
    · rintro ⟨error, herror⟩
      obtain ⟨before, after, hts, hmismatch, -⟩ := ofTokens_eq_error_iff.1 herror
      exact ⟨before, after, error, hts, hmismatch⟩
    · rintro ⟨before, after, error, hts, hmismatch⟩
      cases hform : ofTokens ts with
      | error other => exact ⟨other, rfl⟩
      | ok form =>
        have hfits := exists_ofTokens_eq_ok_iff.1 ⟨form, hform⟩
        exact absurd hmismatch (hfits before after error hts)
  · have hconserves := conserves_of_ofTokens_eq_ok hform
    have hperm := hconserves.perm
    rw [List.filter_nil, List.append_nil] at hperm
    exact ⟨hperm, hconserves.endsJoined, hconserves.order⟩

end Postfix

end PositionAutomaton
