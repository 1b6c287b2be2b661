import Mathlib.Data.List.Induction
import PositionAutomaton.Proofs.Cuts
import PositionAutomaton.Proofs.Token.Balance

/-!
# Gaps

A gap of a sequence is a place where an operand has to start and none does (`Token.Gap`). A sequence
with defects has one (`Token.exists_gap_of_defects_ne_zero`).

To find the gap of a sequence from what is read of it with its concatenations, the latter is cut at
one of its tokens, which is a token of the sequence or the concatenation at some place of it
(`Token.exists_of_withConcats_eq`). Of the right operand of an operator it is known that what would
end it stands only inside of its groups (`Token.Enclosed`). A gap in the right operand of a
concatenation is therefore inside the group that the operand starts with
(`Token.exists_group_of_gap`).
-/

namespace PositionAutomaton

namespace Token

variable {s t u : Token} {ts us vs xs ys : List Token}

/-! ### Places where an operand has to start -/

/-- Between the sequences `us` and `vs` an operand has to start, but none does. -/
structure Gap (us vs : List Token) : Prop where
  /-- No operand ends before the place. -/
  before : us.getLast?.elim true (!·.kind.endsOperand) = true
  /-- No operand starts behind it. -/
  after : vs.head?.elim true (!·.kind.startsOperand) = true

/-- A sequence `ts` with a defect is cut somewhere by it, where an operand has to start. -/
theorem exists_cut_of_defects_ne_zero {slot : Bool} (h : defects slot ts ≠ 0) :
    ∃ us vs, ts = us ++ vs ∧ us.getLast?.elim slot (!·.kind.endsOperand) = true ∧
      vs.head?.elim true (!·.kind.startsOperand) = true := by
  induction ts generalizing slot with
  | nil => exact ⟨[], [], rfl, by simpa [defects] using h, rfl⟩
  | cons t ts ih =>
    by_cases ht : (slot && !t.kind.startsOperand) = true
    · obtain ⟨hslot, hstarts⟩ := Bool.and_eq_true_iff.1 ht
      exact ⟨[], t :: ts, rfl, hslot, hstarts⟩
    · rw [defects, Bool.eq_false_iff.2 ht, Bool.toNat_false, Nat.zero_add] at h
      obtain ⟨us, vs, rfl, hus, hvs⟩ := ih h
      refine ⟨t :: us, vs, rfl, ?_, hvs⟩
      rw [List.getLast?_cons]
      cases hlast : us.getLast? <;> simpa [hlast] using hus

/-- A sequence `ts` with defects has a `Gap`. -/
theorem exists_gap_of_defects_ne_zero (h : defects true ts ≠ 0) :
    ∃ us vs, ts = us ++ vs ∧ Gap us vs := by
  obtain ⟨us, vs, hsplit, hus, hvs⟩ := exists_cut_of_defects_ne_zero h
  exact ⟨us, vs, hsplit, hus, hvs⟩

/-- Behind a token `t` that ends no operand, a gap stays one. -/
theorem Gap.cons (h : Gap us vs) (ht : t.kind.endsOperand = false) : Gap (t :: us) vs where
  before := by
    have hus := h.before
    rw [List.getLast?_cons]
    cases hlast : us.getLast? with
    | none => simp [ht]
    | some s => simpa [hlast] using hus
  after := h.after

/-- With other tokens `ws` in front, a gap stays one, unless it is at the start. -/
theorem Gap.append_left (h : Gap us vs) (hne : us ≠ []) (ws : List Token) : Gap (ws ++ us) vs where
  before := by
    obtain ⟨us, s, rfl⟩ := (List.eq_nil_or_concat us).resolve_left hne
    simpa using h.before
  after := h.after

/-! ### Cuts of sequences with concatenations -/

/-- There is no concatenation before the first token of `us`. -/
@[simp]
theorem seam_nil_left (us : List Token) : seam [] us = [] := rfl

/-- Where `us` and `vs` meet, there is at most one concatenation, behind the end of an operand and
at the place of the start of another. -/
theorem seam_eq_cons_iff :
    seam us vs = t :: ts ↔
      ts = [] ∧ ∃ s u, us.getLast? = some s ∧ vs.head? = some u ∧ Adjoins s u ∧
        t = concat u.offset := by
  rw [seam]
  split
  next s u hs hu =>
    split
    next h => simp [hs, hu, h, eq_comm, and_comm]
    next h => simp [hs, hu, h]
  next hnone =>
    simp only [reduceCtorEq, false_iff]
    rintro ⟨-, s, u, hs, hu, -⟩
    exact hnone s u hs hu

/-- The `seam` of two sequences depends on the last token of the first and the first of the second
only. -/
theorem seam_congr {us' vs' : List Token} (hus : us.getLast? = us'.getLast?)
    (hvs : vs.head? = vs'.head?) : seam us vs = seam us' vs' := by
  rw [seam, seam, hus, hvs]

/-- The concatenations of a sequence `us` up to a place, with the token `s` more in front. -/
theorem withConcats_cons_append_seam (s : Token) (us vs : List Token) :
    withConcats (s :: us) ++ seam (s :: us) vs =
      s :: (seam [s] (us ++ vs) ++ (withConcats us ++ seam us vs)) := by
  cases us with
  | nil => simp [withConcats]
  | cons u us =>
    have hlast : seam (s :: u :: us) vs = seam (u :: us) vs := seam_congr (by simp) rfl
    have hhead : seam [s] (u :: us ++ vs) = seam [s] (u :: us) := rfl
    rw [withConcats_cons, hlast, hhead]
    simp

/-- A token `t` of `withConcats ts` is one of `ts` itself, or the concatenation where two parts of
it meet. -/
theorem exists_of_withConcats_eq (h : withConcats ts = xs ++ t :: ys) :
    (∃ us vs, ts = us ++ t :: vs ∧ xs = withConcats us ++ seam us (t :: vs) ∧
        ys = seam [t] vs ++ withConcats vs) ∨
      ∃ us vs, ts = us ++ vs ∧ seam us vs = [t] ∧ xs = withConcats us ∧ ys = withConcats vs := by
  induction ts generalizing xs with
  | nil => simp [withConcats] at h
  | cons s ts ih =>
    -- the token is the first one, the concatenation behind it, or it comes later
    rw [withConcats_cons, List.cons_append] at h
    obtain ⟨rfl, hfirst⟩ | ⟨xs, rfl, hlater⟩ := List.cons_eq_append_iff.1 h
    · obtain ⟨rfl, rfl⟩ := List.cons.inj hfirst
      exact .inl ⟨[], ts, rfl, rfl, rfl⟩
    · rcases append_eq_append_cons_iff.1 hlater with ⟨ws, hseam, rfl⟩ | ⟨xs, rfl, hrest⟩
      · obtain ⟨rfl, rfl⟩ : xs = [] ∧ ws = [] := by
          have hlength := congrArg List.length hseam
          have hle : (seam [s] ts).length ≤ 1 := by
            cases hs : seam [s] ts with
            | nil => simp
            | cons t us => simp [(seam_eq_cons_iff.1 hs).1]
          simp only [List.length_append, List.length_cons] at hlength
          exact ⟨List.length_eq_zero_iff.1 (by omega), List.length_eq_zero_iff.1 (by omega)⟩
        exact .inr ⟨[s], ts, rfl, hseam, rfl, rfl⟩
      · rcases ih hrest with ⟨us, vs, rfl, rfl, rfl⟩ | ⟨us, vs, rfl, hseam, rfl, rfl⟩
        · exact .inl ⟨s :: us, vs, rfl, (withConcats_cons_append_seam s us (t :: vs)).symm, rfl⟩
        · cases us with
          | nil => simp at hseam
          | cons u us =>
            refine .inr ⟨s :: u :: us, vs, rfl, ?_, ?_, rfl⟩
            · exact (seam_congr (by simp) rfl).trans hseam
            · exact (withConcats_cons s (u :: us)).symm

/-! ### Groups of a sequence -/

/-- The number of groups that are opened in `ts`. -/
def openings (ts : List Token) : Nat :=
  ts.countP (·.kind = .opening)

/-- The number of groups that are closed in `ts`. -/
def closings (ts : List Token) : Nat :=
  ts.countP (·.kind = .closing)

/-- The groups that are opened in `us ++ vs`. -/
@[simp]
theorem openings_append (us vs : List Token) : openings (us ++ vs) = openings us + openings vs :=
  List.countP_append

/-- The groups that are closed in `us ++ vs`. -/
@[simp]
theorem closings_append (us vs : List Token) : closings (us ++ vs) = closings us + closings vs :=
  List.countP_append

/-- If `p` is false of every concatenation, these count for nothing among the tokens with `p`. -/
theorem countP_withConcats_append_seam {p : Token → Bool} (hp : ∀ o, p (concat o) = false)
    (us vs : List Token) : (withConcats us ++ seam us vs).countP p = us.countP p := by
  rw [List.countP_eq_length_filter, List.filter_append, filter_withConcats hp, filter_seam hp,
    List.append_nil, List.countP_eq_length_filter]

/-- In the sequence `ts`, tokens of the kinds that satisfy `p` stand only inside of groups that it
opens. -/
def Enclosed (p : Kind → Prop) (ts : List Token) : Prop :=
  ∀ us t vs, ts = us ++ t :: vs → p t.kind → closings us < openings us

variable {p q : Kind → Prop}

/-- Where the kinds with `p` are enclosed, fewer kinds `q` are as well. -/
theorem Enclosed.mono (h : Enclosed p ts) (hpq : ∀ kind, q kind → p kind) : Enclosed q ts :=
  fun us t vs hsplit ht => h us t vs hsplit (hpq _ ht)

/-- The part `us` of a sequence from its start on encloses what the sequence does. -/
theorem Enclosed.of_append (h : Enclosed p (us ++ vs)) : Enclosed p us := by
  rintro xs t ys rfl ht
  exact h xs t (ys ++ vs) (by simp) ht

/-- What is enclosed in `withConcats ts` is enclosed in `ts`. -/
theorem Enclosed.of_withConcats (h : Enclosed p (withConcats ts)) : Enclosed p ts := by
  rintro us t vs rfl ht
  have hsplit : withConcats (us ++ t :: vs) =
      (withConcats us ++ seam us (t :: vs)) ++ t :: (seam [t] vs ++ withConcats vs) := by
    rw [withConcats_append, withConcats_cons]
    simp
  have hlt := h _ t _ hsplit ht
  rwa [closings, openings, countP_withConcats_append_seam (fun _ => rfl),
    countP_withConcats_append_seam (fun _ => rfl)] at hlt

/-- Where the operands of `us` and `vs` adjoin, a group is open if concatenations are enclosed. -/
theorem Enclosed.lt_of_seam_ne_nil (h : Enclosed p (withConcats (us ++ vs))) (hp : p .concat)
    (hseam : seam us vs ≠ []) : closings us < openings us := by
  obtain ⟨t, ts, hseam⟩ := List.exists_cons_of_ne_nil hseam
  obtain ⟨rfl, s, u, -, -, -, rfl⟩ := seam_eq_cons_iff.1 hseam
  have hsplit : withConcats (us ++ vs) = (withConcats us ++ seam us []) ++
      concat u.offset :: withConcats vs := by
    have hnil : seam us [] = [] := by cases hus : us.getLast? <;> simp [seam, hus]
    rw [withConcats_append, hseam, hnil]
    simp
  have hlt := h _ _ _ hsplit hp
  rwa [closings, openings, countP_withConcats_append_seam (fun _ => rfl),
    countP_withConcats_append_seam (fun _ => rfl)] at hlt

/-- If the ends of groups are enclosed in `ts`, no more groups are closed than opened. -/
theorem Enclosed.closings_le (h : Enclosed p ts) (hp : p .closing) : closings ts ≤ openings ts := by
  induction ts using List.reverseRecOn with
  | nil => exact Nat.le_refl _
  | append_singleton ts t ih =>
    have hle := ih h.of_append
    rw [closings_append, openings_append]
    by_cases ht : t.kind = .closing
    · have hlt := h ts t [] rfl (by rwa [ht])
      have hone : closings [t] = 1 := by simp [closings, ht]
      omega
    · have hnone : closings [t] = 0 := by simp [closings, ht]
      omega

/-! ### The right operand of an operator -/

/-- What is read behind an operator, `xs`, up to a token that ends its right operand, is the operand
with its concatenations. If it leaves no operand, it has a gap, which is a gap of the whole
sequence. -/
theorem exists_gap_of_operand (hts : ∀ t ∈ ts, t.kind ≠ .concat ∧ t.kind ≠ .endMark)
    (h : withConcats ts = xs ++ ys)
    (hys : ∀ m ∈ ys.head?, m.kind = .closing ∨ m.kind = .bar ∨ m.kind = .concat)
    (hbalance : balance xs ≤ 0) :
    ∃ us vs, ts = us ++ vs ∧ Gap us vs ∧ withConcats us <+: xs := by
  -- behind the operand no operand starts, unless it ends in one
  obtain ⟨operand, after, rfl, rfl, hafter⟩ : ∃ us vs, ts = us ++ vs ∧ xs = withConcats us ∧
      (vs.head?.elim true (!·.kind.startsOperand) = true ∨
        ∃ s ∈ us.getLast?, s.kind.endsOperand = true) := by
    cases ys with
    | nil => exact ⟨ts, [], (List.append_nil ts).symm, by simpa using h.symm, .inl rfl⟩
    | cons m ys =>
      have hm := hys m rfl
      rcases exists_of_withConcats_eq h with ⟨us, vs, rfl, rfl, -⟩ | ⟨us, vs, rfl, hseam, rfl, -⟩
      · have hconcat := (hts m (by simp)).1
        have hstarts : m.kind.startsOperand = false := by
          cases hkind : m.kind <;> simp_all [Kind.startsOperand]
        refine ⟨us, m :: vs, rfl, ?_, .inl (by simp [hstarts])⟩
        rw [seam_cons_eq_nil hstarts, List.append_nil]
      · obtain ⟨-, s, u, hs, -, hadjoins, -⟩ := seam_eq_cons_iff.1 hseam
        exact ⟨us, vs, rfl, rfl, .inr ⟨s, hs, hadjoins.1⟩⟩
  have hdefects := balance_withConcats_add_defects
    fun t ht => (hts t (List.mem_append_left after ht)).2
  obtain ⟨us, vs, rfl, hgap⟩ : ∃ us vs, operand = us ++ vs ∧ Gap us vs :=
    exists_gap_of_defects_ne_zero (by omega)
  refine ⟨us, vs ++ after, by simp, ⟨hgap.before, ?_⟩, ?_⟩
  · cases vs with
    | nil =>
      refine hafter.resolve_right ?_
      rintro ⟨s, hs, hends⟩
      have hbefore := hgap.before
      rw [List.append_nil] at hs
      rw [Option.mem_def.1 hs, Option.elim_some, hends] at hbefore
      cases hbefore
    | cons v vs => exact hgap.after
  · rw [withConcats_append, List.append_assoc]
    exact List.prefix_append _ _

/-- The kinds that end the right operand of a concatenation. -/
def EndsOperand (kind : Kind) : Prop :=
  kind = .closing ∨ kind = .bar ∨ kind = .concat

section Operand

variable (hts : ∀ t ∈ us ++ vs, t.kind ≠ .concat ∧ t.kind ≠ .endMark)
  (h : Enclosed EndsOperand (withConcats (us ++ vs)))
include hts h

/-- In an operand that is not ended, an operand ends behind `us` if no group is open there. -/
theorem endsOperand_of_closings_eq (hbalanced : closings us = openings us) :
    ∀ s ∈ us.getLast?, s.kind.endsOperand = true := by
  intro s hs
  obtain ⟨us, rfl⟩ := List.getLast?_eq_some_iff.1 hs
  have henclosed := h.of_withConcats.of_append
  have hle := henclosed.of_append.closings_le (.inl rfl)
  rw [closings_append, openings_append] at hbalanced
  cases hkind : s.kind with
  | letter | closing | star => rfl
  | opening =>
    -- before the group there would be more ends of groups than starts
    have hcount : closings [s] = 0 ∧ openings [s] = 1 := by simp [closings, openings, hkind]
    omega
  | bar =>
    have hcount : closings [s] = 0 ∧ openings [s] = 0 := by simp [closings, openings, hkind]
    have hlt := henclosed us s [] rfl (.inr (.inl hkind))
    omega
  | concat => exact absurd hkind (hts s (by simp)).1
  | endMark => exact absurd hkind (hts s (by simp)).2

/-- If an operand that is not ended goes on to a place where no operand ends, a group is open after
each part `us` before. -/
theorem closings_lt_of_gap (hne : us ≠ [])
    (hlast : ∀ s ∈ (us ++ vs).getLast?, s.kind.endsOperand = false) :
    closings us < openings us := by
  refine Nat.lt_of_le_of_ne (h.of_withConcats.of_append.closings_le (.inl rfl)) fun hbalanced => ?_
  -- by induction on the tokens up to that place, which can only be stars
  induction vs generalizing us with
  | nil =>
    obtain ⟨us, s, rfl⟩ := (List.eq_nil_or_concat us).resolve_left hne
    have hends := endsOperand_of_closings_eq hts h hbalanced s (by simp)
    have hnone := hlast s (by simp)
    rw [hends] at hnone
    cases hnone
  | cons t vs ih =>
    have hmem : t ∈ us ++ t :: vs := by simp
    have henclosed (ht : EndsOperand t.kind) : False := by
      have hlt := h.of_withConcats us t vs rfl ht
      omega
    have hadjoins (ht : t.kind.startsOperand = true) : False := by
      -- the token before ends an operand, so that a concatenation would come in between
      obtain ⟨us, s, rfl⟩ := (List.eq_nil_or_concat us).resolve_left hne
      have hs := endsOperand_of_closings_eq hts h hbalanced s (by simp)
      have hseam : seam (us.concat s) (t :: vs) = [concat t.offset] :=
        seam_of_adjoins (by simp) rfl ⟨hs, ht⟩
      have hlt := h.lt_of_seam_ne_nil (.inr (.inr rfl)) (hseam ▸ List.cons_ne_nil _ _)
      omega
    cases hkind : t.kind with
    | closing | bar | concat => exact henclosed (by simp [EndsOperand, hkind])
    | endMark => exact absurd hkind (hts t hmem).2
    | letter | opening => exact hadjoins (by rw [hkind]; rfl)
    | star =>
      have hsplit : us ++ t :: vs = (us ++ [t]) ++ vs := by simp
      rw [hsplit] at hts h hlast
      refine ih hts h (by simp) hlast ?_
      have hcount : closings [t] = 0 ∧ openings [t] = 0 := by simp [closings, openings, hkind]
      rw [closings_append, openings_append]
      omega

end Operand

/-- A gap in an operand `us` that is not ended before it is inside the `group` that the operand
starts with. -/
theorem exists_group_of_gap (hts : ∀ t ∈ us, t.kind ≠ .concat ∧ t.kind ≠ .endMark)
    (h : Enclosed EndsOperand (withConcats us)) (hne : us ≠ [])
    (hlast : ∀ s ∈ us.getLast?, s.kind.endsOperand = false) :
    ∃ group inner, us = group :: inner ∧ group.kind = .opening ∧ Enclosed (· = .closing) inner := by
  have hopen (xs ys : List Token) (hsplit : us = xs ++ ys) (hxs : xs ≠ []) :
      closings xs < openings xs := by
    subst hsplit
    exact closings_lt_of_gap hts h hxs hlast
  -- the first token alone opens a group, and no later one closes that
  cases us with
  | nil => exact absurd rfl hne
  | cons group inner =>
    have hgroup : group.kind = .opening := by
      have hlt := hopen [group] inner rfl (by simp)
      by_contra hnone
      simp [openings, hnone] at hlt
    refine ⟨group, inner, rfl, hgroup, ?_⟩
    rintro xs t ys rfl ht
    have hlt := hopen (group :: xs ++ [t]) ys (by simp) (by simp)
    simp [closings, openings, hgroup, ht] at hlt ⊢
    omega

end Token

end PositionAutomaton
