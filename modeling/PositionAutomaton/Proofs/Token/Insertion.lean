import PositionAutomaton.Proofs.Token.Lexer

/-!
# Where concatenations are inserted

A sequence is made explicit by a look at each token and the one before it
(`withConcats_eq_flatten`). What comes out has no place left for another concatenation
(`adjoining_withConcats`), and without the tokens that were inserted it is the sequence that went
in.

Main statement:

* `explicit_exact`: the explicit form of a sequence pair by pair, its length and its explicit form
  in turn, and how the explicit form of the tokens of a text gives back the text.
-/

namespace PositionAutomaton

namespace Token

variable {s t : Token} {ts us vs : List Token}

/-- The neighbours in `ts` of which the first ends an operand and the second starts one. -/
def adjoining (ts : List Token) : List (Token × Token) :=
  (ts.zip ts.tail).filter fun pair => Adjoins pair.1 pair.2

/-- The token `t` behind another one, or at the start of a sequence, with the concatenation before
it if the two adjoin. -/
def joined (previous : Option Token) (t : Token) : List Token :=
  if previous.any fun s => Adjoins s t then [concat t.offset, t] else [t]

/-- A first token `s` adds the pair of itself and the next one, `t`, to the neighbours that
adjoin. -/
theorem adjoining_cons_cons :
    adjoining (s :: t :: ts) =
      if Adjoins s t then (s, t) :: adjoining (t :: ts) else adjoining (t :: ts) := by
  simp [adjoining, List.filter_cons]

/-- A concatenation adjoins neither of its neighbours `s` and `t`. -/
theorem adjoining_cons_concat (s t : Token) (offset : Offset) (ts : List Token) :
    adjoining (s :: concat offset :: t :: ts) = adjoining (t :: ts) := by
  rw [adjoining_cons_cons, if_neg (by simp [Adjoins, concat, Kind.startsOperand]),
    adjoining_cons_cons, if_neg (by simp [Adjoins, concat, Kind.endsOperand])]

/-- What is `joined` to the token before is the token `t` behind the seam of the two. -/
theorem joined_eq (previous : Option Token) (t : Token) (ts : List Token) :
    joined previous t = seam previous.toList (t :: ts) ++ [t] := by
  cases previous with
  | none => rfl
  | some s => by_cases h : Adjoins s t <;> simp [joined, seam, h]

/-- Behind some token `previous` or at the start, each token of `ts` is joined to the one before
it. -/
theorem seam_append_withConcats (previous : Option Token) (ts : List Token) :
    seam previous.toList ts ++ withConcats ts =
      (List.zipWith joined (previous :: ts.map some) ts).flatten := by
  induction ts generalizing previous with
  | nil => cases previous <;> rfl
  | cons t ts ih =>
    -- behind the first token, that token is the one before
    have hrest := ih (some t)
    rw [Option.toList_some] at hrest
    rw [List.map_cons, List.zipWith_cons_cons, List.flatten_cons, ← hrest, withConcats_cons,
      joined_eq previous t ts]
    simp

/-- In `withConcats ts`, each token of `ts` is joined to the one before it. -/
theorem withConcats_eq_flatten (ts : List Token) :
    withConcats ts = (List.zipWith joined (none :: ts.map some) ts).flatten :=
  seam_append_withConcats none ts

/-- One token more is there in `withConcats ts` for each pair of neighbours that adjoin. -/
theorem length_withConcats (ts : List Token) :
    (withConcats ts).length = ts.length + (adjoining ts).length := by
  fun_induction withConcats ts with
  | case1 | case2 => rfl
  | case3 s t ts h ih => simp only [List.length_cons, ih, adjoining_cons_cons, if_pos h]; omega
  | case4 s t ts h ih => simp only [List.length_cons, ih, adjoining_cons_cons, if_neg h]; omega

/-- Where no neighbours in `ts` adjoin, there is nothing to insert. -/
theorem withConcats_eq_self (h : adjoining ts = []) : withConcats ts = ts := by
  fun_induction withConcats ts with
  | case1 | case2 => rfl
  | case3 s t ts hadjoins => simp [adjoining_cons_cons, hadjoins] at h
  | case4 s t ts hadjoins ih =>
    rw [adjoining_cons_cons, if_neg hadjoins] at h
    rw [ih h]

/-- With its concatenations and the end mark, a sequence `ts` has no neighbours that adjoin. -/
theorem adjoining_withConcats (ts : List Token) (last : Offset) :
    adjoining (withConcats ts ++ [endMark last]) = [] := by
  fun_induction withConcats ts with
  | case1 => rfl
  | case2 t => simp [adjoining, Adjoins, endMark, Kind.startsOperand]
  | case3 s t ts hadjoins ih =>
    -- the concatenation parts the two tokens and adjoins neither of them
    simp only [withConcats_cons, List.cons_append] at ih ⊢
    rw [adjoining_cons_concat, ih]
  | case4 s t ts hadjoins ih =>
    simp only [withConcats_cons, List.cons_append] at ih ⊢
    rw [adjoining_cons_cons, if_neg hadjoins, ih]

/-! ### Explicit sequences -/

/-- With an end mark at `last` behind it, a sequence ends one byte behind `last`. -/
theorem byteEnd_append_endMark (ts : List Token) (last : Offset) :
    byteEnd (ts ++ [endMark last]) = last.bytes + 1 := by
  rw [byteEnd, List.getLast?_concat]
  rfl

/-- The explicit form of an explicit sequence `us` has one end mark more. -/
theorem explicit_of_explicit_eq_ok (h : explicit ts = .ok us) :
    explicit us = .ok vs ↔
      byteEnd ts + 1 < Offset.bound ∧ vs = us ++ [endMark ⟨byteEnd ts + 1⟩] := by
  obtain ⟨-, rfl⟩ := explicit_eq_ok_iff_byteEnd.1 h
  rw [explicit_eq_ok_iff_byteEnd, withConcats_eq_self (adjoining_withConcats ts _),
    byteEnd_append_endMark]

/-- Without the tokens that were inserted, the explicit form `us` of the tokens `ts` of a text is
`ts`. -/
theorem filter_kind_of_explicit_eq_ok {foldCase : Bool} {s : String}
    (hts : scan foldCase s = .ok ts) (h : explicit ts = .ok us) :
    us.filter (fun t => t.kind ≠ .concat ∧ t.kind ≠ .endMark) = ts := by
  obtain ⟨-, rfl⟩ := explicit_eq_ok_iff_byteEnd.1 h
  rw [List.filter_append, filter_withConcats (fun _ => rfl),
    List.filter_cons_of_neg (by simp [endMark]), List.filter_nil, List.append_nil,
    List.filter_eq_self]
  intro t ht
  exact decide_eq_true ⟨kind_ne_concat_of_scanFrom hts t ht, kind_ne_endMark_of_scanFrom hts t ht⟩

/-- Without the signs of concatenations and of the end mark, the explicit form `us` of the tokens of
a text `s` is written as `s`. -/
theorem toList_render_of_explicit_eq_ok {foldCase : Bool} {s : String}
    (hts : scan foldCase s = .ok ts) (h : explicit ts = .ok us) :
    ∃ body, (render us).toList = body ++ [endSign] ∧
      body.filter (· ≠ concatSign) = s.toList.map (folded foldCase) := by
  obtain ⟨-, rfl⟩ := explicit_eq_ok_iff_byteEnd.1 h
  refine ⟨(withConcats ts).map value, by simp [render, endMark], ?_⟩
  rw [List.filter_map, filter_withConcats (fun _ => rfl), ← map_value_of_scanFrom hts]
  congr 1
  rw [List.filter_eq_self]
  exact fun t ht => decide_eq_true (value_ne_concatSign_of_scanFrom hts t ht)

/-- A sequence whose end is below the bound has an explicit form: each token is joined to the one
before it, by a concatenation at its place exactly if the two adjoin, and the end mark stands at the
end of the last token. No neighbours adjoin in it, so that its explicit form in turn has one end
mark more and nothing else.

The explicit form of the tokens of a text, of which there is one for each character, gives back the
text: without the signs of concatenations and the end mark it is written as the text, in lower case
if case is folded. Its own tokens are at the places of their characters, and the end mark is at the
end of the text. -/
theorem explicit_exact :
    (∀ ts us, explicit ts = .ok us ↔
      byteEnd ts < Offset.bound ∧
        us = (List.zipWith joined (none :: ts.map some) ts).flatten ++ [endMark ⟨byteEnd ts⟩]) ∧
    (∀ ts us, explicit ts = .ok us →
      adjoining us = [] ∧ us.length = ts.length + (adjoining ts).length + 1 ∧
      ∀ vs, explicit us = .ok vs ↔
        byteEnd ts + 1 < Offset.bound ∧ vs = us ++ [endMark ⟨byteEnd ts + 1⟩]) ∧
    ∀ (foldCase : Bool) (s : String) (ts : List Token), scan foldCase s = .ok ts →
      ((∃ us, explicit ts = .ok us) ↔ s.utf8ByteSize < Offset.bound) ∧
      ts.length = s.toList.length ∧
      (∀ (i : Nat) (t : Token), ts[i]? = some t →
        t.offset = ⟨(String.ofList (s.toList.take i)).utf8ByteSize⟩) ∧
      ∀ us, explicit ts = .ok us →
        (∃ body, (render us).toList = body ++ [endSign] ∧
          body.filter (· ≠ concatSign) = s.toList.map (folded foldCase)) ∧
        us.filter (fun t => t.kind ≠ .concat ∧ t.kind ≠ .endMark) = ts ∧
        us.getLast? = some (endMark ⟨s.utf8ByteSize⟩) := by
  refine ⟨fun ts us => ?_, fun ts us h => ⟨?_, ?_, fun vs => explicit_of_explicit_eq_ok h⟩,
    fun foldCase s ts hts => ⟨?_, ?_, fun i t ht => ?_, fun us h => ⟨?_, ?_, ?_⟩⟩⟩
  · rw [explicit_eq_ok_iff_byteEnd, withConcats_eq_flatten]
  · obtain ⟨-, rfl⟩ := explicit_eq_ok_iff_byteEnd.1 h
    exact adjoining_withConcats ts _
  · obtain ⟨-, rfl⟩ := explicit_eq_ok_iff_byteEnd.1 h
    rw [List.length_append, length_withConcats, List.length_singleton]
  · simp only [explicit_eq_ok_iff_byteEnd, byteEnd_of_scan hts, exists_and_left, exists_eq,
      and_true]
  · simpa using congrArg List.length (map_value_of_scanFrom hts)
  · rw [offset_of_getElem?_scanFrom hts ht, ← String.utf8Len_toList, String.toList_ofList,
      Nat.zero_add]
  · exact toList_render_of_explicit_eq_ok hts h
  · exact filter_kind_of_explicit_eq_ok hts h
  · obtain ⟨-, rfl⟩ := explicit_eq_ok_iff_byteEnd.1 h
    rw [List.getLast?_concat, byteEnd_of_scan hts]

/-- In `(a|B)*cd`, with case folded, two pairs of neighbours adjoin, and without the concatenations
between them and the end mark the explicit form is written as the text in lower case. -/
theorem explicit_exact_of_repeated_group :
    ∃ ts us, scan true "(a|B)*cd" = .ok ts ∧ explicit ts = .ok us ∧
      (us.length = ts.length + 2 + 1 ∧ ∃ vs, explicit us = .ok vs ∧ vs.length = us.length + 1) ∧
      us.filter (fun t => t.kind ≠ .concat ∧ t.kind ≠ .endMark) = ts ∧
      ∃ body, (render us).toList = body ++ ['#'] ∧
        body.filter (· ≠ '.') = ['(', 'a', '|', 'b', ')', '*', 'c', 'd'] := by
  obtain ⟨hexplicit, hagain, htext⟩ := explicit_exact
  let ts : List Token := [⟨.opening, '(', ⟨0⟩⟩, ⟨.letter, 'a', ⟨1⟩⟩, ⟨.bar, '|', ⟨2⟩⟩,
    ⟨.letter, 'b', ⟨3⟩⟩, ⟨.closing, ')', ⟨4⟩⟩, ⟨.star, '*', ⟨5⟩⟩, ⟨.letter, 'c', ⟨6⟩⟩,
    ⟨.letter, 'd', ⟨7⟩⟩]
  have hts : scan true "(a|B)*cd" = .ok ts := rfl
  obtain ⟨us, hus⟩ : ∃ us, explicit ts = .ok us := ⟨_, (hexplicit _ _).2 ⟨by decide, rfl⟩⟩
  obtain ⟨-, hlength, hvs⟩ := hagain ts us hus
  obtain ⟨-, -, -, hus'⟩ := htext true _ ts hts
  obtain ⟨hrender, hfilter, -⟩ := hus' us hus
  exact ⟨ts, us, hts, hus, ⟨hlength, _, (hvs _).2 ⟨by decide, rfl⟩, List.length_append⟩, hfilter,
    hrender⟩

end Token

end PositionAutomaton
