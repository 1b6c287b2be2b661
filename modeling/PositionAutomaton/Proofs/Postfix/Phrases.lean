import PositionAutomaton.Proofs.Postfix.Yard
import PositionAutomaton.Proofs.Postorder
import PositionAutomaton.Proofs.Regex.Grammar
import PositionAutomaton.Proofs.Token.Explicit

/-!
# Phrases in the yard

What the yard does with the tokens of a phrase. The operators it waits with afterwards are
those that the operator of the phrase, the one that goes on with a phrase of the same kind,
sends on; behind what is sent on, they complete the postorder traversal of the phrase
(`Postfix.Yard.After`). The parts of a phrase keep this up (`Derives.exists_after`), so that
the postfix sequence of a whole expression is its postorder traversal
(`Derives.exists_ofTokens_eq_ok`).
-/

namespace PositionAutomaton

/-- The operator that goes on with a phrase of the same kind. -/
def Phrase.operator? : Phrase → Option Kind
  | choice => some .bar
  | sequence => some .concat
  | repetition | atom => none

/-- Whether a waiting token `t` goes before the operator of a phrase of the kind `k`. -/
def Phrase.releases (k : Phrase) (t : Token) : Bool :=
  k.operator?.any (Postfix.Yard.precedes · t)

namespace Phrase

/-- No token `t` goes before the operator of a repetition, since there is none. -/
@[simp]
theorem releases_repetition (t : Token) : repetition.releases t = false := rfl

/-- No operator sends on the start of a group: `releases` is false of it. -/
theorem kind_ne_opening_of_releases {k : Phrase} {t : Token} (h : k.releases t = true) :
    t.kind ≠ .opening := by
  cases k with
  | choice | sequence => exact Postfix.Yard.kind_ne_opening_of_precedes h
  | repetition | atom => cases h

/-- The operator of a sequence does not send on a bar `t`. -/
theorem not_releases_sequence_of_bar {t : Token} (ht : t.kind = .bar) :
    ¬sequence.releases t = true := by
  rw [releases, operator?, Option.any_some, Postfix.Yard.precedes, ht]
  exact Bool.false_ne_true

/-- A token `t` that the operator of a sequence sends on goes before the operator of a choice. -/
theorem releases_choice_of_releases_sequence {t : Token} (h : sequence.releases t = true) :
    choice.releases t = true := by
  obtain ⟨kind, value, offset⟩ := t
  cases kind <;> first | rfl | cases h

end Phrase

namespace Postfix

namespace Yard

variable {k m : Phrase} {x y z : Yard} {t : Token} {ms ns : List (Kind × Char)}

/-- The yard is `y` before a phrase of the kind `k` and `z` after it, and `marks` is the
postorder traversal of the phrase: some of its tokens are sent on, the others wait for the
operator of the phrase. -/
structure After (k : Phrase) (marks : List (Kind × Char)) (y z : Yard) : Prop where
  /-- The tokens that are sent on and those that wait. -/
  exists_pending : ∃ sent pending, z.output.toList = y.output.toList ++ sent ∧
    z.waiting = pending ++ y.waiting ∧ (∀ t ∈ pending, k.releases t = true) ∧
    (sent ++ pending).map Token.mark = marks
  /-- The last token of the phrase ends an operand. -/
  exists_previous : ∃ kind, z.previous = some kind ∧ kind.endsOperand = true

/-- A letter `t` is sent on. -/
theorem exists_after_letter (y : Yard) (ht : t.kind = .letter) :
    ∃ z, y.step t = .ok z ∧ After .atom [t.mark] y z := by
  refine ⟨⟨y.output.push t, y.waiting, some .letter⟩, ?_, ?_⟩
  · rw [step_eq_ok_iff, ht]
  · exact ⟨⟨[t], [], by simp⟩, .letter, rfl, rfl⟩

/-- A phrase of the kind `k` is one of the kind `m` if the operator of `m` sends on all that waits
for its own operator. -/
theorem After.weaken (h : After k ms y z) (hkm : ∀ t, k.releases t = true → m.releases t = true) :
    After m ms y z := by
  obtain ⟨⟨sent, pending, hsent, hwaiting, hpending, hmarks⟩, hprevious⟩ := h
  exact ⟨⟨sent, pending, hsent, hwaiting, fun t ht => hkm t (hpending t ht), hmarks⟩, hprevious⟩

/-- After a repetition no operator waits, and a star `t` is sent on. -/
theorem After.exists_star (h : After .repetition ms y z) (ht : t.kind = .star) :
    ∃ x, z.step t = .ok x ∧ After .repetition (ms ++ [t.mark]) y x := by
  obtain ⟨⟨sent, pending, hsent, hwaiting, hpending, rfl⟩, -⟩ := h
  obtain rfl : pending = [] := List.eq_nil_iff_forall_not_mem.2 fun s hs => by
    simpa using hpending s hs
  refine ⟨⟨z.output.push t, z.waiting, some .star⟩, ?_, ?_⟩
  · rw [step_eq_ok_iff, ht]
  · exact ⟨⟨sent ++ [t], [], by simp [hsent, hwaiting]⟩, .star, rfl, rfl⟩

/-- The operator `t` of a phrase sends on what waits, and waits itself until the operand on its
right is complete. -/
theorem After.exists_operator (h : After k ms y z) (hk : k.operator? = some t.kind)
    (hy : y.waiting.takeWhile k.releases = []) :
    ∃ x, z.step t = .ok x ∧ x.waiting = t :: y.waiting ∧
      ∀ {m w ns}, (∀ s, m.releases s = true → k.releases s = true) → After m ns x w →
        After k (ms ++ ns ++ [t.mark]) y w := by
  obtain ⟨⟨sent, pending, hsent, hwaiting, hpending, rfl⟩, -⟩ := h
  have hkind : t.kind = .bar ∨ t.kind = .concat := by
    cases k with
    | choice => exact .inl (Option.some.inj hk).symm
    | sequence => exact .inr (Option.some.inj hk).symm
    | repetition | atom => cases hk
  have hreleases : k.releases = precedes t.kind := by
    funext s
    rw [Phrase.releases, hk, Option.any_some]
  -- what waits for the operator is sent on, and nothing else
  have htake : z.waiting.takeWhile (precedes t.kind) = pending := by
    rw [hwaiting, ← hreleases, List.takeWhile_append_of_pos hpending, hy, List.append_nil]
  have hdrop : z.waiting.dropWhile (precedes t.kind) = y.waiting := by
    have hsplit := List.takeWhile_append_dropWhile (p := precedes t.kind) (l := z.waiting)
    rw [htake] at hsplit
    exact List.append_cancel_left (hsplit.trans hwaiting)
  refine ⟨⟨z.output ++ pending, t :: y.waiting, some t.kind⟩, ?_, rfl, ?_⟩
  · rw [step_eq_ok_iff, htake, hdrop]
    rcases hkind with hkind | hkind <;> rw [hkind]
  · rintro m w ns hmk ⟨⟨sent', pending', hsent', hwaiting', hpending', rfl⟩, hprevious⟩
    refine ⟨⟨sent ++ pending ++ sent', pending' ++ [t], ?_, ?_, ?_, ?_⟩, hprevious⟩
    · simp [hsent', hsent]
    · simp [hwaiting']
    · rw [List.forall_mem_append, List.forall_mem_singleton]
      refine ⟨fun s hs => hmk s (hpending' s hs), ?_⟩
      rw [hreleases, precedes]
      rcases hkind with hkind | hkind <;> rw [hkind] <;> rfl
    · simp

/-- Between the parentheses `opening` and `closing` of a group stands a choice, and the group that
closes sends on what waits of it. -/
theorem After.exists_group {opening closing : Token}
    (h : After .choice ms ⟨y.output, opening :: y.waiting, some .opening⟩ z)
    (hopening : opening.kind = .opening) (hclosing : closing.kind = .closing) :
    ∃ x, z.step closing = .ok x ∧ After .atom ms y x := by
  obtain ⟨⟨sent, pending, hsent, hwaiting, hpending, rfl⟩, kind, hprevious, hkind⟩ := h
  refine ⟨⟨z.output ++ pending, y.waiting, some .closing⟩, ?_, ?_⟩
  · rw [step_eq_ok_iff, hclosing]
    refine ⟨?_, pending, opening, y.waiting, hwaiting, ?_, hopening, rfl⟩
    · rw [hprevious]
      rintro ⟨⟩
      cases hkind
    · -- what waits in the group are operators
      exact fun s hs => Phrase.kind_ne_opening_of_releases (hpending s hs)
  · exact ⟨⟨sent ++ pending, [], by simp [hsent]⟩, .closing, rfl, rfl⟩

end Yard

open Token

/-- The tokens `ts` are a phrase of the kind `k` with the postorder traversal `marks`. -/
structure Spells (k : Phrase) (ts : List Token) (marks : List (Kind × Char)) : Prop where
  /-- The first token starts an operand. -/
  exists_head : ∃ t, ts.head? = some t ∧ t.kind.startsOperand = true
  /-- The last token ends an operand. -/
  exists_last : ∃ t, ts.getLast? = some t ∧ t.kind.endsOperand = true
  /-- With concatenations, the tokens lead the yard from any state in which nothing goes before
  the operator of the phrase to one after the phrase. -/
  exists_after : ∀ y : Yard, y.waiting.takeWhile k.releases = [] →
    ∃ z, (withConcats ts).foldlM Yard.step y = .ok z ∧ Yard.After k marks y z

namespace Spells

variable {k m : Phrase} {t : Token} {ts us vs : List Token} {ms ns : List (Kind × Char)}

/-- A phrase of the kind `k` is one of a kind `m` whose operator sends on at least as much. -/
theorem weaken (h : Spells k ts ms) (hkm : ∀ t, k.releases t = true → m.releases t = true) :
    Spells m ts ms := by
  refine ⟨h.exists_head, h.exists_last, fun y hy => ?_⟩
  have hyk : y.waiting.takeWhile k.releases = [] := by
    cases hwaiting : y.waiting with
    | nil => rfl
    | cons s ss =>
      rw [hwaiting] at hy
      by_cases hs : k.releases s = true
      · rw [List.takeWhile_cons_of_pos (hkm s hs)] at hy
        cases hy
      · exact List.takeWhile_cons_of_neg hs
  obtain ⟨z, hz, hafter⟩ := h.exists_after y hyk
  exact ⟨z, hz, hafter.weaken hkm⟩

/-- A letter `t` is an atom. -/
theorem letter (ht : t.kind = .letter) : Spells .atom [t] [t.mark] := by
  refine ⟨⟨t, rfl, by rw [ht]; rfl⟩, ⟨t, rfl, by rw [ht]; rfl⟩, fun y _ => ?_⟩
  obtain ⟨z, hz, hafter⟩ := Yard.exists_after_letter y ht
  refine ⟨z, ?_, hafter⟩
  rw [withConcats, List.foldlM_cons, hz]
  rfl

/-- A choice `ts` in parentheses is an atom. -/
theorem group {opening closing : Token} (h : Spells .choice ts ms)
    (hopening : opening.kind = .opening) (hclosing : closing.kind = .closing) :
    Spells .atom (opening :: ts ++ [closing]) ms := by
  refine ⟨⟨opening, rfl, by rw [hopening]; rfl⟩,
    ⟨closing, List.getLast?_concat, by rw [hclosing]; rfl⟩, fun y _ => ?_⟩
  -- inside the group, the yard starts anew
  have hstep : y.step opening = .ok ⟨y.output, opening :: y.waiting, some .opening⟩ := by
    rw [Yard.step_eq_ok_iff, hopening]
  have hstart : ¬Phrase.choice.releases opening = true :=
    fun h => Phrase.kind_ne_opening_of_releases h hopening
  obtain ⟨z, hz, hafter⟩ := h.exists_after ⟨y.output, opening :: y.waiting, some .opening⟩
    (List.takeWhile_cons_of_neg hstart)
  obtain ⟨x, hx, hafter⟩ := hafter.exists_group hopening hclosing
  refine ⟨x, ?_, hafter⟩
  rw [withConcats_append, withConcats_cons,
    seam_singleton_eq_nil (by rw [hopening]; rfl),
    seam_cons_eq_nil (by rw [hclosing]; rfl)]
  simp only [List.append_nil, List.cons_append, List.foldlM_append, List.foldlM_cons, hstep,
    ok_bind, hz, withConcats, hx, List.foldlM_nil, pure_eq_ok]

/-- A repetition `ts` with a star `t` behind it is a repetition. -/
theorem star (h : Spells .repetition ts ms) (ht : t.kind = .star) :
    Spells .repetition (ts ++ [t]) (ms ++ [t.mark]) := by
  obtain ⟨s, hs, hstarts⟩ := h.exists_head
  refine ⟨⟨s, by simp [hs], hstarts⟩, ⟨t, by simp, by rw [ht]; rfl⟩, fun y hy => ?_⟩
  obtain ⟨z, hz, hafter⟩ := h.exists_after y hy
  obtain ⟨x, hx, hafter⟩ := hafter.exists_star ht
  refine ⟨x, ?_, hafter⟩
  rw [withConcats_append, seam_cons_eq_nil (by rw [ht]; rfl)]
  simp only [List.append_nil, List.foldlM_append, hz, ok_bind, withConcats, List.foldlM_cons, hx,
    List.foldlM_nil, pure_eq_ok]

/-- A repetition `vs` behind a sequence `us` makes it longer, by a concatenation. -/
theorem append (hl : Spells .sequence us ms) (hr : Spells .repetition vs ns) :
    Spells .sequence (us ++ vs) (ms ++ ns ++ [(.concat, concatSign)]) := by
  obtain ⟨s, hs, hends⟩ := hl.exists_last
  obtain ⟨t, ht, hstarts⟩ := hr.exists_head
  obtain ⟨s', hs', hstarts'⟩ := hl.exists_head
  obtain ⟨t', ht', hends'⟩ := hr.exists_last
  refine ⟨⟨s', by simp [hs'], hstarts'⟩, ⟨t', by simp [ht'], hends'⟩, fun y hy => ?_⟩
  obtain ⟨z, hz, hafter⟩ := hl.exists_after y hy
  obtain ⟨x, hx, -, hjoin⟩ := hafter.exists_operator (t := concat t.offset) rfl hy
  obtain ⟨w, hw, hafter⟩ := hr.exists_after x (by cases x.waiting <;> rfl)
  refine ⟨w, ?_, hjoin (fun _ h => by cases h) hafter⟩
  rw [withConcats_append, seam_of_adjoins hs ht ⟨hends, hstarts⟩]
  simp only [List.foldlM_append, List.foldlM_cons, List.foldlM_nil, hz, hx, ok_bind,
    pure_eq_ok, hw]

/-- A bar `t` and a sequence `vs` behind a choice `us` make it longer. -/
theorem bar (hl : Spells .choice us ms) (ht : t.kind = .bar) (hr : Spells .sequence vs ns) :
    Spells .choice (us ++ t :: vs) (ms ++ ns ++ [t.mark]) := by
  obtain ⟨s', hs', hstarts'⟩ := hl.exists_head
  obtain ⟨t', ht', hends'⟩ := hr.exists_last
  refine ⟨⟨s', by simp [hs'], hstarts'⟩, ⟨t', by simp [List.getLast?_cons, ht'], hends'⟩,
    fun y hy => ?_⟩
  obtain ⟨z, hz, hafter⟩ := hl.exists_after y hy
  obtain ⟨x, hx, hwaiting, hjoin⟩ := hafter.exists_operator (t := t) (by rw [ht]; rfl) hy
  -- the bar stays where it is while the sequence is read
  have hstart := List.takeWhile_cons_of_neg (l := y.waiting)
    (Phrase.not_releases_sequence_of_bar ht)
  obtain ⟨w, hw, hafter⟩ := hr.exists_after x (hwaiting ▸ hstart)
  refine ⟨w, ?_, hjoin (fun _ => Phrase.releases_choice_of_releases_sequence) hafter⟩
  rw [withConcats_append, withConcats_cons,
    seam_singleton_eq_nil (by rw [ht]; rfl),
    seam_cons_eq_nil (by rw [ht]; rfl)]
  simp only [List.append_nil, List.foldlM_append, List.foldlM_cons, List.cons_append,
    List.nil_append, hz, hx, ok_bind, hw]

/-- A choice `ts` with an end mark behind it has a postfix order: its postorder traversal, the end
mark, and the concatenation of both. -/
theorem exists_ofTokens_eq_ok (h : Spells .choice ts ms) (hms : ms ≠ []) (last : Offset) :
    ∃ form, ofTokens (withConcats ts ++ [endMark last]) = .ok form ∧
      form.tokens.map mark = ms ++ [(.endMark, endSign), (.concat, concatSign)] := by
  obtain ⟨z, hz, ⟨sent, pending, hsent, hwaiting, hpending, rfl⟩, -⟩ := h.exists_after {} rfl
  have hclosed : ∀ s ∈ z.waiting, s.kind ≠ .opening := by
    intro s hs
    rw [hwaiting, List.append_nil] at hs
    exact Phrase.kind_ne_opening_of_releases (hpending s hs)
  have hflushed : (z.output ++ z.waiting).toList = sent ++ pending := by
    simp [hsent, hwaiting]
  -- the end mark has an operand before it, with which it is concatenated
  have hne : (z.output ++ z.waiting).toList ≠ [] := by
    rw [hflushed]
    intro hnil
    exact hms (by rw [hnil, List.map_nil])
  have hstep : z.step (endMark last) =
      .ok ⟨((z.output ++ z.waiting).push (endMark last)).push (concat last), [],
        some .endMark⟩ := by
    refine Yard.step_eq_ok_iff.2 ⟨hclosed, ?_⟩
    rw [Yard.close_of_output_ne_nil hne]
    rfl
  have hrun : Yard.run (withConcats ts ++ [endMark last]) =
      .ok ⟨((z.output ++ z.waiting).push (endMark last)).push (concat last), [],
        some .endMark⟩ := by
    rw [Yard.run, List.foldlM_append, hz, ok_bind, List.foldlM_cons, hstep]
    rfl
  refine ⟨⟨_⟩, ofTokens_eq_ok_iff.2 ⟨_, hrun, ?_, rfl⟩, ?_⟩
  · intro s hs
    cases hs
  · rw [Array.toList_push, Array.toList_push, hflushed]
    simp [mark, endMark, concat]

end Spells

end Postfix

namespace Derives

open Postfix

variable {k : Phrase} {cs : List Char} {r : Regex Char} {foldCase : Bool} {offset : Offset}
  {ts : List Token}

/-- The `mark` of the token of a character `c`. -/
theorem mark_eq_of_ofChar {c : Char} {t : Token} {kind : Kind} (hc : Kind.ofChar? c = some kind)
    (ht : Token.ofChar foldCase offset c = .ok t) :
    t.mark = (kind, Token.folded foldCase c) := by
  obtain ⟨hkind, hvalue, -⟩ := Token.ofChar_eq_ok_iff.1 ht
  rw [Token.mark, hvalue, Option.some.inj (hkind.symm.trans hc)]

/-- The `mark` of the token of a character `c` that is the same in both cases. -/
theorem mark_and_kind_of_ofChar {c : Char} {t : Token} (kind : Kind)
    (hc : Kind.ofChar? c = some kind) (hlower : c.toLower = c)
    (ht : Token.ofChar foldCase offset c = .ok t) : t.mark = (kind, c) ∧ t.kind = kind := by
  have hmark := mark_eq_of_ofChar hc ht
  rw [Token.folded, hlower, ite_self] at hmark
  exact ⟨hmark, congrArg Prod.fst hmark⟩

/-- The tokens `ts` of a phrase spell the expression `r` that the phrase is read as. -/
theorem spells (h : Derives k cs r) (hts : Token.scanFrom foldCase offset cs = .ok ts) :
    Spells k ts ((r.map (Token.folded foldCase)).map some).postorder := by
  -- each phrase is cut as its tokens are; the cases of `Derives` are those of `Spells`
  induction h generalizing offset ts with
  | letter hc =>
    obtain ⟨t, ht, rfl⟩ := Token.scanFrom_singleton_eq_ok_iff.1 hts
    have hmark := mark_eq_of_ofChar (Kind.ofChar?_of_isAlpha hc) ht
    have hspells := Spells.letter (congrArg Prod.fst hmark)
    rwa [hmark] at hspells
  | group _ ih =>
    obtain ⟨ws, vs, hws, hvs, rfl⟩ := Token.scanFrom_append_eq_ok_iff.1 hts
    obtain ⟨opening, us, hopening, hus, rfl⟩ := Token.scanFrom_cons_eq_ok_iff.1 hws
    obtain ⟨closing, hclosing, rfl⟩ := Token.scanFrom_singleton_eq_ok_iff.1 hvs
    obtain ⟨-, hopening⟩ := mark_and_kind_of_ofChar .opening rfl rfl hopening
    obtain ⟨-, hclosing⟩ := mark_and_kind_of_ofChar .closing rfl rfl hclosing
    exact (ih hus).group hopening hclosing
  | star _ ih =>
    obtain ⟨us, vs, hus, hvs, rfl⟩ := Token.scanFrom_append_eq_ok_iff.1 hts
    obtain ⟨t, ht, rfl⟩ := Token.scanFrom_singleton_eq_ok_iff.1 hvs
    obtain ⟨hmark, hkind⟩ := mark_and_kind_of_ofChar .star rfl rfl ht
    have hspells := (ih hus).star hkind
    rwa [hmark] at hspells
  | append _ _ ihl ihr =>
    obtain ⟨us, vs, hus, hvs, rfl⟩ := Token.scanFrom_append_eq_ok_iff.1 hts
    exact (ihl hus).append (ihr hvs)
  | bar _ _ ihl ihr =>
    obtain ⟨us, ws, hus, hws, rfl⟩ := Token.scanFrom_append_eq_ok_iff.1 hts
    obtain ⟨t, vs, ht, hvs, rfl⟩ := Token.scanFrom_cons_eq_ok_iff.1 hws
    obtain ⟨hmark, hkind⟩ := mark_and_kind_of_ofChar .bar rfl rfl ht
    have hspells := (ihl hus).bar hkind (ihr hvs)
    rwa [hmark] at hspells
  | once _ ih => exact (ih hts).weaken fun _ h => h
  | single _ ih => exact (ih hts).weaken fun _ h => by cases h
  | only _ ih => exact (ih hts).weaken fun _ => Phrase.releases_choice_of_releases_sequence

end Derives

end PositionAutomaton
