import PositionAutomaton.Proofs.Outcome
import PositionAutomaton.Token.Explicit

/-!
# Concatenations between sequences

The concatenations of a sequence are those of its parts and the one where the parts meet
(`withConcats_append`).
-/

namespace PositionAutomaton

namespace Token

variable {s t : Token} {ts us : List Token}

/-- The concatenation where the sequences `ts` and `us` meet, if they adjoin there. -/
def seam (ts us : List Token) : List Token :=
  match ts.getLast?, us.head? with
  | some s, some t => if Adjoins s t then [concat t.offset] else []
  | _, _ => []

/-- Where the last token `s` ends an operand and the first one `t` starts one, there is a
concatenation. -/
theorem seam_of_adjoins (hts : ts.getLast? = some s) (hus : us.head? = some t)
    (h : Adjoins s t) : seam ts us = [concat t.offset] := by
  rw [seam, hts, hus]
  exact if_pos h

/-- There is no concatenation behind a token `s` that ends no operand. -/
theorem seam_singleton_eq_nil (h : s.kind.endsOperand = false) : seam [s] us = [] := by
  cases us <;> simp [seam, Adjoins, h]

/-- There is no concatenation before a token `t` that starts no operand. -/
theorem seam_cons_eq_nil (h : t.kind.startsOperand = false) : seam ts (t :: us) = [] := by
  cases hts : ts.getLast? <;> simp [seam, hts, Adjoins, h]

/-- A first token `t` is followed by the concatenation with the others, if there is one. -/
theorem withConcats_cons (t : Token) (ts : List Token) :
    withConcats (t :: ts) = t :: seam [t] ts ++ withConcats ts := by
  cases ts with
  | nil => rfl
  | cons u us =>
    by_cases h : Adjoins t u <;> simp [withConcats, seam, h]

/-- The concatenations of `ts ++ us` are those of `ts` and of `us` and the one where they meet. -/
theorem withConcats_append (ts us : List Token) :
    withConcats (ts ++ us) = withConcats ts ++ seam ts us ++ withConcats us := by
  induction ts with
  | nil => simp [withConcats, seam]
  | cons t ts ih =>
    cases ts with
    | nil => simpa [withConcats] using withConcats_cons t us
    | cons s ss =>
      -- where the sequences meet is not changed by one more token in front
      have hseam : seam (t :: s :: ss) us = seam (s :: ss) us := by simp [seam]
      have hhead : seam [t] (s :: ss ++ us) = seam [t] (s :: ss) := rfl
      rw [List.cons_append, withConcats_cons, ih, hhead, hseam, withConcats_cons t]
      simp

/-- With concatenations, a sequence `ts` that is not empty is not empty. -/
theorem withConcats_eq_nil_iff : withConcats ts = [] ↔ ts = [] := by
  cases ts with
  | nil => exact Iff.rfl
  | cons t ts => simp [withConcats_cons]

/-- The tokens of `withConcats ts` are those of `ts` and, at the places of some of them,
concatenations. -/
theorem exists_of_mem_withConcats (h : t ∈ withConcats ts) :
    ∃ u ∈ ts, t = u ∨ t = concat u.offset := by
  induction ts with
  | nil => cases h
  | cons s ss ih =>
    rw [withConcats_cons, List.cons_append, List.mem_cons, List.mem_append] at h
    rcases h with rfl | h | h
    · exact ⟨t, List.mem_cons_self, .inl rfl⟩
    · -- a concatenation has the place of the token behind it
      rw [seam] at h
      split at h
      next s u hs hu =>
        split at h
        next =>
          have hmem : u ∈ ss := List.mem_of_head? hu
          exact ⟨u, List.mem_cons_of_mem _ hmem, .inr (List.mem_singleton.1 h)⟩
        next => cases h
      next => cases h
    · obtain ⟨u, hu, hut⟩ := ih h
      exact ⟨u, List.mem_cons_of_mem s hu, hut⟩

/-- If there is no end mark in `ts`, there is none in `withConcats ts`. -/
theorem kind_ne_endMark_of_mem_withConcats (hts : ∀ t ∈ ts, t.kind ≠ .endMark) :
    ∀ t ∈ withConcats ts, t.kind ≠ .endMark := by
  intro t ht
  obtain ⟨u, hu, rfl | rfl⟩ := exists_of_mem_withConcats ht
  · exact hts t hu
  · exact Kind.noConfusion

/-- If `p` is false of every concatenation, filtering `seam ts us` by `p` leaves nothing. -/
theorem filter_seam {p : Token → Bool} (hp : ∀ offset, p (concat offset) = false)
    (ts us : List Token) : (seam ts us).filter p = [] := by
  rw [seam]
  split
  next s t _ _ =>
    split
    next => exact List.filter_cons_of_neg (by simp [hp])
    next => rfl
  next => rfl

/-- If `p` is false of every concatenation, filtering `withConcats ts` by `p` leaves what filtering
`ts` does. -/
theorem filter_withConcats {p : Token → Bool} (hp : ∀ offset, p (concat offset) = false)
    (ts : List Token) : (withConcats ts).filter p = ts.filter p := by
  induction ts with
  | nil => rfl
  | cons t ts ih =>
    rw [withConcats_cons, List.cons_append, List.filter_cons, List.filter_append,
      filter_seam hp, ih, List.nil_append, List.filter_cons]

/-- The number of bytes before the end of `ts`: those before its last token and those of that
token. -/
def byteEnd (ts : List Token) : Nat :=
  ts.getLast?.elim 0 fun t => t.offset.bytes + t.value.utf8Size

/-- There is an offset for the end of `ts` if `byteEnd ts` is below the bound. -/
theorem endOffset_eq_ok_iff {last : Offset} :
    endOffset ts = .ok last ↔ byteEnd ts < Offset.bound ∧ last = ⟨byteEnd ts⟩ := by
  rw [endOffset, byteEnd]
  cases ts.getLast? with
  | none => simp [Offset.bound, UInt64.size, eq_comm]
  | some t =>
    by_cases hlt : t.offset.bytes + t.value.utf8Size < Offset.bound
    · simp [Offset.advance?, hlt, eq_comm]
    · simp [Offset.advance?, hlt]

/-- A sequence `ts` is made explicit if there is an offset for its end. -/
theorem explicit_eq_ok_iff :
    explicit ts = .ok us ↔
      ∃ offset, endOffset ts = .ok offset ∧ us = withConcats ts ++ [endMark offset] := by
  simp only [explicit, bind_eq_ok_iff, pure_eq_ok, Except.ok.injEq, eq_comm (a := us)]

/-- A sequence `ts` is made explicit if `byteEnd ts` is below the bound. -/
theorem explicit_eq_ok_iff_byteEnd :
    explicit ts = .ok us ↔
      byteEnd ts < Offset.bound ∧ us = withConcats ts ++ [endMark ⟨byteEnd ts⟩] := by
  simp only [explicit_eq_ok_iff, endOffset_eq_ok_iff, and_assoc, exists_and_left, exists_eq_left]

end Token

end PositionAutomaton
