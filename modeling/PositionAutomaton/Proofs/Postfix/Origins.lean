import Mathlib.Data.List.Induction
import PositionAutomaton.Proofs.Cuts
import PositionAutomaton.Proofs.Postfix.Balance
import PositionAutomaton.Proofs.Token.Gaps

/-!
# Where the tokens of a postfix order come from

A letter or a star is in its place as soon as it is read. An operator between two operands waits in
the yard until a token comes that sends it on.

* `Yard.Sent` says at which token of a sequence a token gets into its place, and what waited until
  then (`Yard.exists_sent`).
* `Yard.Held` says which tokens were read since an operator began to wait
  (`Yard.exists_held`): of these, each one that could have sent it on stands inside a group that
  was opened since, and the groups that are still open wait on top of it.
* What the yard held in its place before is there still (`Yard.isPrefix_output_of_foldlM_eq_ok`).
-/

namespace PositionAutomaton

namespace Postfix

namespace Yard

variable {w x y z : Yard} {s t m : Token} {ts us vs above base : List Token} {kind : Kind}

/-! ### Sending on -/

/-- What is in its place in `y` stays there. -/
theorem isPrefix_output_of_step_eq_ok (h : y.step t = .ok z) :
    y.output.toList <+: z.output.toList := by
  rw [step_eq_ok_iff] at h
  cases hkind : t.kind with
  | letter | star =>
    rw [hkind] at h
    subst h
    simp
  | opening =>
    rw [hkind] at h
    subst h
    exact List.prefix_rfl
  | closing =>
    rw [hkind] at h
    obtain ⟨-, ops, group, outer, -, -, -, rfl⟩ := h
    simp
  | bar | concat =>
    rw [hkind] at h
    subst h
    simp
  | endMark =>
    rw [hkind] at h
    obtain ⟨-, rfl⟩ := h
    simp only [close]
    split <;> simp [emit]

/-- What is in its place in `y` stays there while a sequence `ts` is read. -/
theorem isPrefix_output_of_foldlM_eq_ok (h : ts.foldlM step y = .ok z) :
    y.output.toList <+: z.output.toList :=
  of_foldlM_eq_ok (P := fun x => y.output.toList <+: x.output.toList)
    (fun _ hx hz => hx.trans (isPrefix_output_of_step_eq_ok hz)) List.prefix_rfl h

/-- In the yard `w`, before the token `next` is read, `t` is put into its place directly behind
`us`. Either it is read, or it waits and is sent on. -/
inductive Sent (w : Yard) (us : List Token) (t : Token) (next : Option Token) : Prop where
  /-- A letter or a star does not wait. -/
  | read : (t.kind = .letter ∨ t.kind = .star) → next = some t → w.output.toList = us →
      Sent w us t next
  /-- A token that waits is sent on, behind what waits on top of it, by the end of its group, by an
  operator that it goes before, or at the end. -/
  | released {above base : List Token} :
      (∀ m ∈ next, m.kind = .closing ∨ precedes m.kind t = true) →
      w.waiting = above ++ t :: base → (∀ s ∈ above, s.kind ≠ .opening) →
      w.output.toList ++ above = us → Sent w us t next

/-- What is in its place after a token `m` is read was there before, or is put there now. -/
theorem sent_of_step_eq_ok (hm : m.kind ≠ .endMark) (h : w.step m = .ok z)
    (hout : z.output.toList = us ++ t :: vs) :
    (∃ ws, w.output.toList = us ++ t :: ws) ∨ Sent w us t (some m) := by
  -- `out` is what is put into its place when the token is read
  have hcut (out : List Token) (hz : z.output.toList = w.output.toList ++ out) :
      (∃ ws, w.output.toList = us ++ t :: ws) ∨
        ∃ above, w.output.toList ++ above = us ∧ out = above ++ t :: vs := by
    rcases append_eq_append_cons_iff.1 (hz.symm.trans hout) with ⟨ws, hws, -⟩ | ⟨above, hus, hsent⟩
    · exact .inl ⟨ws, hws⟩
    · exact .inr ⟨above, hus.symm, hsent⟩
  rw [step_eq_ok_iff] at h
  cases hkind : m.kind with
  | letter | star =>
    rw [hkind] at h
    subst h
    refine (hcut [m] (by simp)).imp_right fun ⟨above, hus, hsent⟩ => ?_
    obtain ⟨rfl, htail⟩ | ⟨ws, -, htail⟩ := List.cons_eq_append_iff.1 hsent
    · obtain rfl : m = t := (List.cons.inj htail).1.symm
      exact .read (by simp [hkind]) rfl (by simpa using hus)
    · simp at htail
  | opening =>
    rw [hkind] at h
    subst h
    exact .inl ⟨vs, hout⟩
  | closing =>
    rw [hkind] at h
    obtain ⟨-, ops, group, outer, hwaiting, hops, -, rfl⟩ := h
    refine (hcut ops (by simp)).imp_right fun ⟨above, hus, hsent⟩ => ?_
    have hsplit : w.waiting = above ++ t :: (vs ++ group :: outer) := by simp [hwaiting, hsent]
    refine .released (by simp [hkind]) hsplit (fun s hs => hops s ?_) hus
    simp [hsent, hs]
  | bar | concat =>
    rw [hkind] at h
    subst h
    refine (hcut (w.waiting.takeWhile (precedes m.kind)) (by simp [hkind])).imp_right
      fun ⟨above, hus, hsent⟩ => ?_
    have hsplit := (List.takeWhile_append_dropWhile (p := precedes m.kind) (l := w.waiting)).symm
    have hall := List.all_eq_true.1 (List.all_takeWhile (p := precedes m.kind) (l := w.waiting))
    rw [hsent, List.append_assoc, List.cons_append] at hsplit
    rw [hsent] at hall
    have hprecedes : precedes m.kind t = true := hall t (by simp)
    refine .released (fun l hl => .inr (Option.some.inj hl ▸ hprecedes)) hsplit ?_ hus
    exact fun s hs => kind_ne_opening_of_precedes (hall s (List.mem_append_left _ hs))
  | endMark => exact absurd hkind hm

/-- Each token `t` that is in its place after a sequence `ts` was put there on the way. -/
theorem exists_sent_of_run_eq_ok (hts : ∀ m ∈ ts, m.kind ≠ .endMark) (h : run ts = .ok z)
    (hout : z.output.toList = us ++ t :: vs) :
    ∃ before m after w, ts = before ++ m :: after ∧ run before = .ok w ∧ Sent w us t (some m) := by
  -- before the last token, it was in its place already or not yet
  induction ts using List.reverseRecOn generalizing z vs with
  | nil =>
    cases h
    simp at hout
  | append_singleton ts m ih =>
    obtain ⟨w, hw, hz⟩ := run_append_singleton_eq_ok_iff.1 h
    rcases sent_of_step_eq_ok (hts m (by simp)) hz hout with ⟨ws, hws⟩ | hsent
    · obtain ⟨before, l, after, x, rfl, hx, hsent⟩ := ih (fun s hs => hts s (by simp [hs])) hw hws
      exact ⟨before, l, after ++ [m], x, by simp, hx, hsent⟩
    · exact ⟨ts, m, [], w, rfl, hw, hsent⟩

/-- If no group stays open, each token `t` of what is in its place at the end was put there on the
way, or waited until the end. -/
theorem exists_sent (hts : ∀ m ∈ ts, m.kind ≠ .endMark) (h : run ts = .ok z)
    (hnone : ∀ s ∈ z.waiting, s.kind ≠ .opening)
    (hbody : z.output.toList ++ z.waiting = us ++ t :: vs) :
    ∃ before rest w, ts = before ++ rest ∧ run before = .ok w ∧ Sent w us t rest.head? := by
  rcases append_eq_append_cons_iff.1 hbody with ⟨ws, hout, -⟩ | ⟨above, hus, hwaiting⟩
  · obtain ⟨before, m, after, w, rfl, hw, hsent⟩ := exists_sent_of_run_eq_ok hts h hout
    exact ⟨before, m :: after, w, rfl, hw, hsent⟩
  · refine ⟨ts, [], z, (List.append_nil ts).symm, h, .released (by simp) hwaiting ?_ hus.symm⟩
    exact fun s hs => hnone s (by simp [hwaiting, hs])

/-! ### Waiting -/

/-- If an operator of some `kind` does not send on a waiting one, `s`, and `s` would not send on
`t`, then the first does not either. -/
theorem precedes_eq_false_trans (hs : s.kind.precedence?.isSome = true)
    (h : precedes kind s = false) (hst : precedes s.kind t = false) : precedes kind t = false := by
  obtain ⟨p, hp⟩ := Option.isSome_iff_exists.1 hs
  simp only [precedes, hp] at h hst ⊢
  cases hkind : kind.precedence? <;> cases ht : t.kind.precedence? <;>
    simp only [hkind, ht, decide_eq_false_iff_not] at h hst ⊢
  omega

/-- While `t` waits, the tokens `since` were read, and `above` waits on top of it. -/
structure Held (t : Token) (since above : List Token) : Prop where
  /-- A token that could have sent `t` on stands inside a group that was opened since. -/
  inside : Token.Enclosed (fun kind => kind = .closing ∨ precedes kind t = true) since
  /-- The groups that were not closed wait. -/
  openings_eq : Token.openings above + Token.closings since = Token.openings since
  /-- Operators on top of `t`, without a group between them, would not send `t` on. -/
  tighter : ∀ up s low, above = up ++ s :: low → (∀ l ∈ s :: low, l.kind ≠ .opening) →
    s.kind.precedence?.isSome = true ∧ precedes s.kind t = false

/-- A token `t` begins to wait with nothing on top of it. -/
theorem held_nil (t : Token) : Held t [] [] where
  inside before m after h := by simp at h
  openings_eq := rfl
  tighter up s low h := by simp at h

/-- Another token `m` is read. It may send `t` on only while a group is open on top of `t`. -/
theorem Held.append_singleton {since above' : List Token} (h : Held t since above)
    (hinside : m.kind = .closing ∨ precedes m.kind t = true → ∃ s ∈ above, s.kind = .opening)
    (hcount : Token.openings above' + Token.closings [m] =
      Token.openings above + Token.openings [m])
    (htighter : ∀ up s low, above' = up ++ s :: low → (∀ l ∈ s :: low, l.kind ≠ .opening) →
      s.kind.precedence?.isSome = true ∧ precedes s.kind t = false) :
    Held t (since ++ [m]) above' where
  inside before l after hsplit hl := by
    rcases append_eq_append_cons_iff.1 hsplit with ⟨ws, hws, -⟩ | ⟨ws, rfl, hlast⟩
    · exact h.inside before l ws hws hl
    · -- the token that is read is the last one, behind all of `since`
      obtain ⟨rfl, htail⟩ | ⟨us, -, htail⟩ := List.cons_eq_append_iff.1 hlast
      · obtain rfl : l = m := (List.cons.inj htail).1
        obtain ⟨s, hs, hopening⟩ := hinside hl
        have hpos : 0 < Token.openings above :=
          List.countP_pos_iff.2 ⟨s, hs, by simpa using hopening⟩
        have hcount := h.openings_eq
        rw [List.append_nil]
        omega
      · simp at htail
  openings_eq := by
    have hsince := h.openings_eq
    simp only [Token.openings, Token.closings, List.countP_append] at hcount hsince ⊢
    omega
  tighter := htighter

/-- An operator `m` is put on top of what it does not send on. -/
theorem exists_held_of_dropWhile (hm : m.kind = .bar ∨ m.kind = .concat)
    (hdrop : w.waiting.dropWhile (precedes m.kind) = above ++ t :: base) :
    ∃ above', w.waiting = above' ++ t :: base ∧
      ∀ since, Held t since above' → Held t (since ++ [m]) (m :: above) := by
  let sent := w.waiting.takeWhile (precedes m.kind)
  have hsplit : w.waiting = (sent ++ above) ++ t :: base := by
    rw [List.append_assoc, ← hdrop, List.takeWhile_append_dropWhile]
  have hsent : ∀ s ∈ sent, s.kind ≠ .opening := fun s hs => kind_ne_opening_of_mem_takeWhile hs
  have hsome : m.kind.precedence?.isSome = true := by
    rcases hm with hm | hm <;> rw [hm] <;> rfl
  refine ⟨sent ++ above, hsplit, fun since hheld => ?_⟩
  -- it does not send on the token at which it stops, nor one from which only operators part it
  have hstop (hnone : ∀ s ∈ above, s.kind ≠ .opening) : precedes m.kind t = false := by
    have hhead := List.head_dropWhile_not (precedes m.kind) (l := w.waiting) (by simp [hdrop])
    simp only [hdrop] at hhead
    cases above with
    | nil => exact hhead
    | cons s above =>
      obtain ⟨hsome, hst⟩ := hheld.tighter sent s above rfl hnone
      exact precedes_eq_false_trans hsome hhead hst
  refine hheld.append_singleton (fun hm' => ?_) ?_ fun up s low hcut hlow => ?_
  · by_contra hnone
    have hprecedes := hm'.resolve_left (by rcases hm with hm | hm <;> simp [hm])
    rw [hstop fun s hs hopening => hnone ⟨s, List.mem_append_right _ hs, hopening⟩] at hprecedes
    cases hprecedes
  · have hnone : Token.openings sent = 0 := List.countP_eq_zero.2 (by simpa using hsent)
    rcases hm with hm | hm <;>
      simpa [Token.openings, Token.closings, hm] using hnone
  · cases up with
    | nil =>
      obtain ⟨rfl, rfl⟩ := List.cons.inj hcut
      exact ⟨hsome, hstop fun l hl => hlow l (List.mem_cons_of_mem _ hl)⟩
    | cons u up =>
      have habove : above = up ++ s :: low := (List.cons.inj hcut).2
      exact hheld.tighter (sent ++ up) s low (by rw [habove, List.append_assoc]) hlow

/-- What waits on top of a token `t` after a step is what was on top of it before and the token `m`
that is read, as far as these stay. -/
theorem Held.of_step_eq_ok (ht : t.kind = .bar ∨ t.kind = .concat) (hm : m.kind ≠ .endMark)
    (h : w.step m = .ok z) (hz : z.waiting = above ++ t :: base) :
    (t = m ∧ above = []) ∨ ∃ above', w.waiting = above' ++ t :: base ∧
      ∀ since, Held t since above' → Held t (since ++ [m]) above := by
  rw [step_eq_ok_iff] at h
  cases hkind : m.kind with
  | letter | star =>
    rw [hkind] at h
    subst h
    refine .inr ⟨above, hz, fun since hheld => hheld.append_singleton ?_ ?_ hheld.tighter⟩
    · -- neither a letter nor a star sends anything on
      rcases ht with ht | ht <;> simp [hkind, precedes, ht, Kind.precedence?]
    · simp [Token.openings, Token.closings, hkind]
  | opening =>
    rw [hkind] at h
    subst h
    cases above with
    | nil =>
      obtain rfl : m = t := (List.cons.inj hz).1
      simp [hkind] at ht
    | cons s above =>
      obtain ⟨rfl, hw⟩ := List.cons.inj hz
      refine .inr ⟨above, hw, fun since hheld => hheld.append_singleton ?_ ?_ ?_⟩
      · simp [hkind, precedes, Kind.precedence?]
      · simp [Token.openings, Token.closings, hkind]
      · intro up s low hsplit hlow
        cases up with
        | nil =>
          obtain rfl : m = s := (List.cons.inj hsplit).1
          exact absurd hkind (hlow m List.mem_cons_self)
        | cons u up => exact hheld.tighter up s low (List.cons.inj hsplit).2 hlow
  | closing =>
    rw [hkind] at h
    obtain ⟨-, ops, group, outer, hwaiting, hops, hgroup, rfl⟩ := h
    obtain rfl : outer = above ++ t :: base := hz
    refine .inr ⟨ops ++ group :: above, by simp [hwaiting], fun since hheld =>
      hheld.append_singleton (fun _ => ⟨group, by simp, hgroup⟩) ?_ fun up s low hsplit => ?_⟩
    · have hnone : Token.openings ops = 0 := List.countP_eq_zero.2 (by simpa using hops)
      simp only [Token.openings, Token.closings, List.countP_append, List.countP_cons, hgroup,
        hkind] at hnone ⊢
      simp
      omega
    · exact hheld.tighter (ops ++ group :: up) s low (by simp [hsplit])
  | bar | concat =>
    simp only [hkind] at h
    rw [← hkind] at h
    subst h
    cases above with
    | nil => exact .inl ⟨(List.cons.inj hz).1.symm, rfl⟩
    | cons l above =>
      obtain ⟨rfl, hdrop⟩ := List.cons.inj hz
      exact .inr (exists_held_of_dropWhile (by simp [hkind]) hdrop)
  | endMark => exact absurd hkind hm

/-- An operator `t` that waits after a sequence `ts` was read in it and has waited since. -/
theorem exists_held (hts : ∀ m ∈ ts, m.kind ≠ .endMark) (h : run ts = .ok z)
    (ht : t.kind = .bar ∨ t.kind = .concat) (hz : z.waiting = above ++ t :: base) :
    ∃ before since y x, ts = before ++ t :: since ∧ run before = .ok y ∧ y.step t = .ok x ∧
      x.waiting = t :: base ∧ since.foldlM step x = .ok z ∧ Held t since above := by
  -- the last token is the operator, which waits from then on, or is read while it waits
  induction ts using List.reverseRecOn generalizing z above with
  | nil =>
    cases h
    simp at hz
  | append_singleton ts m ih =>
    obtain ⟨w, hw, hstep⟩ := run_append_singleton_eq_ok_iff.1 h
    rcases Held.of_step_eq_ok ht (hts m (by simp)) hstep hz with
      ⟨rfl, rfl⟩ | ⟨above', hwaiting, hheld⟩
    · exact ⟨ts, [], w, z, rfl, hw, hstep, hz, rfl, held_nil t⟩
    · obtain ⟨before, since, y, x, rfl, hy, hx, hxw, hsince, hbehind⟩ :=
        ih (fun s hs => hts s (by simp [hs])) hw hwaiting
      refine ⟨before, since ++ [m], y, x, by simp, hy, hx, hxw, ?_, hheld since hbehind⟩
      rw [List.foldlM_append, hsince, ok_bind]
      simp [hstep]

end Yard

end Postfix

end PositionAutomaton
