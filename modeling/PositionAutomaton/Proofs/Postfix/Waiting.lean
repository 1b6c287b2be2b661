import Mathlib.Data.List.Chain
import PositionAutomaton.Proofs.Postfix.Balance
import PositionAutomaton.Proofs.Postfix.Conservation
import PositionAutomaton.Proofs.Token.Gaps

/-!
# What waits in the yard

The starts of the groups that are open wait in the yard, and operators between them. An operator
begins to wait on top of those that it does not send on, so that within a group each operator binds
more tightly than the one below it (`Yard.Stacked`). Of the operators only bars and concatenations
wait, and there is room for one of each in a group, which bounds the yard by the number of groups.

Main statement:

* `Yard.waiting_tightens_of_run_eq_ok`: what waits after a sequence of tokens, whether or not the
  sequence goes on.
-/

namespace PositionAutomaton

/-- If no more than `k` elements without `p` stand side by side in a list, there are no more than
that behind each element with `p` and before the first one. -/
theorem length_le_of_forall_isInfix {α : Type} {p : α → Bool} {k : Nat} {xs : List α}
    (h : ∀ ys, ys <:+: xs → (∀ y ∈ ys, p y = false) → ys.length ≤ k) :
    xs.length ≤ (k + 1) * xs.countP p + k := by
  have hfirst {zs : List α} (hzs : zs <:+: xs) : (zs.takeWhile (!p ·)).length ≤ k :=
    h _ ((List.takeWhile_prefix _).isInfix.trans hzs) fun y hy => by
      simpa using List.all_eq_true.1 List.all_takeWhile y hy
  -- what stands before the first element with `p` is counted by itself
  have hcount : ∀ zs, zs <:+: xs →
      zs.length ≤ (k + 1) * zs.countP p + (zs.takeWhile (!p ·)).length := by
    intro zs
    induction zs with
    | nil => simp
    | cons z zs ih =>
      intro hzs
      have htail : zs <:+: xs := (List.suffix_cons z zs).isInfix.trans hzs
      have hlength := ih htail
      cases hz : p z with
      | false =>
        rw [List.countP_cons_of_neg (by simp [hz]), List.takeWhile_cons_of_pos (by simp [hz]),
          List.length_cons, List.length_cons]
        omega
      | true =>
        have hstretch := hfirst htail
        rw [List.countP_cons_of_pos hz, List.takeWhile_cons_of_neg (by simp [hz]),
          List.length_cons, List.length_nil, Nat.mul_add]
        omega
  have hlength := hcount xs List.infix_rfl
  have hstretch := hfirst List.infix_rfl
  omega

/-- Both kinds are operators, and `k` binds more tightly than `m`. -/
def Kind.BindsTighter (k m : Kind) : Prop :=
  ∃ p ∈ k.precedence?, ∃ q ∈ m.precedence?, q < p

instance : DecidableRel Kind.BindsTighter := fun k m =>
  inferInstanceAs (Decidable (∃ p ∈ k.precedence?, ∃ q ∈ m.precedence?, q < p))

namespace Postfix

namespace Yard

variable {y z : Yard} {s t : Token} {us ops waiting : List Token}

/-! ### Operators on top of each other -/

/-- No token in `waiting`, the last one first, would send on the one below it. -/
def Stacked (waiting : List Token) : Prop :=
  waiting.IsChain fun s t => precedes s.kind t = false

/-- Nothing waits on top of nothing. -/
theorem stacked_nil : Stacked [] :=
  List.isChain_nil

/-- Of the tokens in `waiting`, those that are side by side would not send each other on either. -/
theorem Stacked.of_isInfix (h : Stacked waiting) (hops : ops <:+: waiting) : Stacked ops :=
  List.IsChain.infix h hops

/-- A token `t` may wait on top of those that it does not send on. -/
theorem Stacked.hold (h : Stacked waiting) (t : Token) :
    Stacked (t :: waiting.dropWhile (precedes t.kind)) := by
  refine List.isChain_cons.2 ⟨fun s hs => ?_, h.of_isInfix (List.dropWhile_suffix _).isInfix⟩
  have hhead := List.head?_dropWhile_not (precedes t.kind) waiting
  rwa [hs] at hhead

/-- Each token that `step` takes in keeps what waits `Stacked`. -/
theorem Stacked.step (hy : Stacked y.waiting) (h : y.step t = .ok z) : Stacked z.waiting := by
  rw [step_eq_ok_iff] at h
  cases hkind : t.kind with
  | letter | star =>
    rw [hkind] at h
    subst h
    exact hy
  | opening =>
    rw [hkind] at h
    subst h
    -- the start of a group has no precedence, so that it sends nothing on
    refine List.isChain_cons.2 ⟨fun s _ => ?_, hy⟩
    rw [precedes, hkind]
    cases s.kind.precedence? <;> rfl
  | closing =>
    rw [hkind] at h
    obtain ⟨-, ops, group, outer, hwaiting, -, -, rfl⟩ := h
    rw [hwaiting] at hy
    exact (List.IsChain.right_of_append hy).tail
  | bar | concat =>
    simp only [hkind] at h
    rw [← hkind] at h
    subst h
    exact hy.hold t
  | endMark =>
    rw [hkind] at h
    obtain ⟨-, rfl⟩ := h
    simp [Stacked]

/-- After every sequence `us`, no token that waits would send on the one below it. -/
theorem stacked_of_run_eq_ok (h : run us = .ok y) : Stacked y.waiting :=
  of_foldlM_eq_ok (P := fun x => Stacked x.waiting) (fun _ hx hz => hx.step hz) stacked_nil h

/-! ### Operators within a group -/

/-- Only a concatenation `s` may wait directly on top of an operator `t`, and only of a bar. -/
theorem kind_eq_of_precedes_eq_false (hs : s.kind = .bar ∨ s.kind = .concat)
    (ht : t.kind = .bar ∨ t.kind = .concat) (h : precedes s.kind t = false) :
    s.kind = .concat ∧ t.kind = .bar := by
  rcases hs with hs | hs <;> rcases ht with ht | ht <;>
    simp_all [precedes, Kind.precedence?]

/-- Of operators `ops` that wait without a group between them, no more than one is a concatenation,
and no more than one, below it, a bar. -/
theorem Stacked.map_kind_sublist (h : Stacked ops)
    (hkind : ∀ s ∈ ops, s.kind = .bar ∨ s.kind = .concat) :
    (ops.map (·.kind)).Sublist [.concat, .bar] := by
  rcases ops with _ | ⟨s, _ | ⟨t, ops⟩⟩
  case nil => exact List.nil_sublist _
  case cons.nil =>
    rcases hkind s (by simp) with hs | hs <;> simp [hs]
  case cons.cons =>
    obtain ⟨hst, htail⟩ := List.isChain_cons_cons.1 h
    obtain ⟨hs, ht⟩ := kind_eq_of_precedes_eq_false (hkind s (by simp)) (hkind t (by simp)) hst
    cases ops with
    | nil => simp [hs, ht]
    | cons u ops =>
      -- the bar would wait on top of another operator
      obtain ⟨htu, -⟩ := List.isChain_cons_cons.1 htail
      obtain ⟨hconcat, -⟩ := kind_eq_of_precedes_eq_false (.inl ht) (hkind u (by simp)) htu
      rw [ht] at hconcat
      cases hconcat

/-- A concatenation on top of a bar binds more tightly. -/
theorem pairwise_bindsTighter_of_sublist (h : (ops.map (·.kind)).Sublist [.concat, .bar]) :
    ops.Pairwise fun s t => s.kind.BindsTighter t.kind := by
  have hpair : [Kind.concat, .bar].Pairwise Kind.BindsTighter := by decide
  exact List.pairwise_map.1 (hpair.sublist h)

/-- A sequence `us` leaves open as many groups as it opens without closing them. -/
theorem depth_add_closings_of_run_eq_ok (h : run us = .ok y) :
    y.depth + Token.closings us = Token.openings us := by
  induction us using List.reverseRecOn generalizing y with
  | nil =>
    cases h
    rfl
  | append_singleton us t ih =>
    obtain ⟨x, hx, hy⟩ := run_append_singleton_eq_ok_iff.1 h
    have hopenings : Token.openings [t] = if t.kind = .opening then 1 else 0 := by
      simp [Token.openings, List.countP_singleton]
    have hclosings : Token.closings [t] = if t.kind = .closing then 1 else 0 := by
      simp [Token.closings, List.countP_singleton]
    have hdepth := depth_of_step_eq_ok hy
    have hbefore := ih hx
    rw [Token.openings_append, Token.closings_append, hopenings, hclosings]
    -- a group that opens adds one on both sides, and one that closes is counted as closed instead
    cases hkind : t.kind with
    | letter | star | opening | closing | bar | concat | endMark =>
      simp only [hkind, reduceCtorEq, if_true, if_false] at hdepth ⊢
      omega

/-- Whenever a sequence of tokens has been taken in, which may be the first part of a longer one,
only starts of groups, bars and concatenations wait. The starts of groups are those of the groups
that are open, of which there are as many as were opened and not closed. Between two of them, below
them all and above them all, the operators bind the more tightly the later they came: there is at
most one bar, and above it at most one concatenation. Hence there are no more than three tokens for
each open group, and two besides. -/
theorem waiting_tightens_of_run_eq_ok (h : run us = .ok y) :
    (∀ s ∈ y.waiting, s.kind = .opening ∨ s.kind = .bar ∨ s.kind = .concat) ∧
      y.waiting.filter (·.kind = .opening) = Token.openGroups us ∧
      (Token.openGroups us).length + us.countP (·.kind = .closing) =
        us.countP (·.kind = .opening) ∧
      (∀ ops, ops <:+: y.waiting → (∀ s ∈ ops, s.kind ≠ .opening) →
        (ops.Pairwise fun s t => s.kind.BindsTighter t.kind) ∧
          (ops.map (·.kind)).Sublist [.concat, .bar]) ∧
      y.waiting.length ≤ 3 * (Token.openGroups us).length + 2 := by
  have hkind := (conserves_of_run_eq_ok h).waiting_kind
  have hgroups : y.waiting.filter (·.kind = .opening) = Token.openGroups us :=
    openGroups_of_run_eq_ok h
  -- without a group between them, tokens that wait side by side are operators
  have hsub : ∀ ops, ops <:+: y.waiting → (∀ s ∈ ops, s.kind ≠ .opening) →
      (ops.map (·.kind)).Sublist [.concat, .bar] := fun ops hops hnone =>
    ((stacked_of_run_eq_ok h).of_isInfix hops).map_kind_sublist fun s hs =>
      (hkind s (hops.subset hs)).resolve_left (hnone s hs)
  have hdepth : (Token.openGroups us).length = y.depth := by
    rw [depth_eq_length_openGroups, openGroups_of_run_eq_ok h]
  rw [hdepth]
  refine ⟨hkind, hgroups, depth_add_closings_of_run_eq_ok h, fun ops hops hnone =>
    ⟨pairwise_bindsTighter_of_sublist (hsub ops hops hnone), hsub ops hops hnone⟩, ?_⟩
  refine length_le_of_forall_isInfix fun ops hops hnone => ?_
  have hlength := (hsub ops hops fun s hs => by simpa using hnone s hs).length_le
  rwa [List.length_map] at hlength

/-- After `a|b(c|de`, with its concatenations, as many tokens wait as may with one open group: in
the group, and below it, a concatenation on top of a bar. -/
theorem waiting_tightens_of_open_group :
    ∃ us y, us.map (·.value) = ['a', '|', 'b', '.', '(', 'c', '|', 'd', '.', 'e'] ∧
      run us = .ok y ∧ y.waiting.map (·.kind) = [.concat, .bar, .opening, .concat, .bar] ∧
      y.waiting.filter (·.kind = .opening) = Token.openGroups us ∧
      (∀ ops, ops <:+: y.waiting → (∀ s ∈ ops, s.kind ≠ .opening) →
        ops.Pairwise fun s t => s.kind.BindsTighter t.kind) ∧
      y.waiting.length = 3 * (Token.openGroups us).length + 2 := by
  let us : List Token := [⟨.letter, 'a', ⟨0⟩⟩, ⟨.bar, '|', ⟨1⟩⟩, ⟨.letter, 'b', ⟨2⟩⟩, .concat ⟨3⟩,
    ⟨.opening, '(', ⟨3⟩⟩, ⟨.letter, 'c', ⟨4⟩⟩, ⟨.bar, '|', ⟨5⟩⟩, ⟨.letter, 'd', ⟨6⟩⟩, .concat ⟨7⟩,
    ⟨.letter, 'e', ⟨7⟩⟩]
  obtain ⟨y, hy⟩ : ∃ y, run us = .ok y := ⟨_, rfl⟩
  obtain ⟨-, hgroups, -, hsegments, -⟩ := waiting_tightens_of_run_eq_ok hy
  refine ⟨us, y, rfl, hy, ?_, hgroups, fun ops hops hnone => (hsegments ops hops hnone).1, ?_⟩
  · cases hy
    rfl
  · cases hy
    rfl

end Yard

end Postfix

end PositionAutomaton
