import PositionAutomaton.Proofs.Automaton.Renaming
import PositionAutomaton.Proofs.Compilation.Limit
import PositionAutomaton.Proofs.Compilation.Rearrangement
import PositionAutomaton.Proofs.Regex.Commutation

/-!
# Alternatives in another order

If the sides of choices are exchanged, the leaves come in another order and are numbered
differently, and a permutation of the positions takes the one numbering to the other
(`Regex.Commutes.exists_renames`). Where the two alternatives of a group of a text are exchanged,
the automaton stays the same but for the names of the positions
(`renames_of_exchanged_alternatives`).
-/

namespace PositionAutomaton

variable {e f pre post s t : String} {r r' : Regex Char} {foldCase : Bool}

namespace Regex

variable {p : Position}

/-- The leaves of `r` are numbered with the first positions. -/
theorem mem_leaves_number_iff : p ∈ (r.number 0).leaves ↔ p.index < r.leaves.length := by
  rw [leaves_number, List.mem_map]
  constructor
  · rintro ⟨i, hi, rfl⟩
    simpa using hi
  · exact fun hp => ⟨p.index, by simpa using hp, p.ofIndex_index⟩

/-- No position is given to two leaves. -/
theorem nodup_leaves_number (r : Regex Char) : (r.number 0).leaves.Nodup := by
  rw [leaves_number]
  refine List.Nodup.map (fun i j hij => ?_) List.nodup_range'
  simpa using congrArg Position.index hij

end Regex

namespace Expression

/-- Nothing is read behind the leaves of `r`. -/
theorem symbol?_ofRegex_eq_none {p : Position} (hp : r.leaves.length ≤ p.index) :
    (ofRegex r).symbol? p = none := by
  rw [symbol?, ofRegex, List.getElem?_toArray, List.getElem?_append_right (by simpa using hp),
    List.getElem?_singleton]
  split <;> rfl

end Expression

/-- If `r'` is `r` with sides of choices exchanged, the positions are renamed, but for the end
mark. -/
theorem Regex.Commutes.exists_renames (h : r.Commutes r') :
    ∃ σ : Equiv.Perm Position, (Expression.ofRegex r).Renames σ (.ofRegex r') ∧
      σ (Expression.ofRegex r).endMark = (Expression.ofRegex r).endMark := by
  have hlength : r'.leaves.length = r.leaves.length := h.leaves_perm.length_eq.symm
  have hnumber (r : Regex Char) : (r.number 0).map (Expression.ofRegex r).symbol? = r.map some :=
    (Regex.cat.inj (Expression.map_symbol?_tree_ofRegex r)).1
  have hperm : (r.number 0).leaves.Perm (r'.number 0).leaves := by
    rw [leaves_number, leaves_number, hlength]
  have hcommutes : Commutes ((r.number 0).map (Expression.ofRegex r).symbol?)
      ((r'.number 0).map (Expression.ofRegex r').symbol?) := by
    rw [hnumber, hnumber]
    exact h.map some
  -- both numberings give the positions `0, 1, …` to the leaves, in different orders
  obtain ⟨σ, hσ, hsymbols, hfixes⟩ := hcommutes.exists_perm r.nodup_leaves_number hperm
  -- the end mark comes behind all leaves, and is not moved
  have hbehind {p : Position} (hp : r.leaves.length ≤ p.index) : σ p = p :=
    hfixes p fun hleaf => Nat.not_lt.2 hp (mem_leaves_number_iff.1 hleaf)
  have hend : σ (.ofIndex r.leaves.length) = .ofIndex r.leaves.length := hbehind (Nat.le_refl _)
  refine ⟨σ, ⟨?_, fun p hp => ?_, fun p => ?_, ?_, fun w => ?_⟩, hend⟩
  · simp [Expression.positionCount, Expression.ofRegex, hlength]
  · refine hbehind (Nat.le_trans ?_ hp)
    simp [Expression.positionCount, Expression.ofRegex]
  · by_cases hp : p ∈ (r.number 0).leaves
    · exact hsymbols p hp
    · have hp := Nat.not_lt.1 (mt mem_leaves_number_iff.2 hp)
      rw [hbehind hp, Expression.symbol?_ofRegex_eq_none hp,
        Expression.symbol?_ofRegex_eq_none (hlength ▸ hp)]
  · rw [Expression.ofRegex, Expression.ofRegex, hlength, hend]
  · have htree : Commutes ((Expression.ofRegex r).tree.map σ) (Expression.ofRegex r').tree := by
      rw [Expression.ofRegex, Expression.ofRegex, Regex.map, Regex.map, hlength, hend]
      exact .cat hσ (.refl _)
    rw [← htree.matches_iff, matches_map_map_iff σ.injective]

/-! ### Texts -/

/-- If the alternatives `e` and `f` of a group of a text are exchanged, sides of choices are
exchanged in what the text is read as. -/
theorem exists_derives_exchanged (hne : e ≠ "" ∧ f ≠ "") (he : ∃ a, compile e = .ok a)
    (hf : ∃ a, compile f = .ok a)
    (hplace : ∃ a, compile (pre ++ grouped (grouped e ++ "|" ++ grouped f) ++ post) = .ok a) :
    ∃ r r', Derives .choice (pre ++ grouped (grouped e ++ "|" ++ grouped f) ++ post).toList r ∧
      Derives .choice (pre ++ grouped (grouped f ++ "|" ++ grouped e) ++ post).toList r' ∧
      r.Commutes r' := by
  obtain ⟨re, hre⟩ := exists_derives_of_compile_eq_ok hne.1 he
  obtain ⟨rf, hrf⟩ := exists_derives_of_compile_eq_ok hne.2 hf
  obtain ⟨r, hr⟩ := exists_derives_of_compile_eq_ok (by simp [grouped]) hplace
  have htext (x : String) : (pre ++ grouped x ++ post).toList =
      pre.toList ++ '(' :: (x.toList ++ ')' :: post.toList) := by
    simp
  rw [htext] at hr
  obtain ⟨r', hr', hcommutes⟩ := Derives.exists_replaced Regex.isCongruence_commutes
    (hre.toList_group.toList_bar hrf.toList_group) (hrf.toList_group.toList_bar hre.toList_group) hr
  rw [← htext] at hr hr'
  exact ⟨r, r', hr, hr', hcommutes (.swap re rf)⟩

/-- If the alternatives `e` and `f` of a group of a text that is compiled are exchanged, the
automaton stays the same but for the names of its positions, with and without folding case: a
permutation of the positions leaves the end mark where it is, keeps what is read at each position,
and takes the start, the states, the states that accept and the transitions of the one automaton to
those of the other. So there are as many states, accepting states and transitions as before, and a
bound on the number of states ends the one compilation exactly if it ends the other. -/
theorem renames_of_exchanged_alternatives (foldCase : Bool) (hne : e ≠ "" ∧ f ≠ "")
    (he : ∃ a, compile e = .ok a) (hf : ∃ a, compile f = .ok a)
    (hplace : ∃ a, compile (pre ++ grouped (grouped e ++ "|" ++ grouped f) ++ post) = .ok a) :
    let s := pre ++ grouped (grouped e ++ "|" ++ grouped f) ++ post
    let t := pre ++ grouped (grouped f ++ "|" ++ grouped e) ++ post
    ∃ x y a b, Expression.ofText foldCase s = .ok x ∧ Expression.ofText foldCase t = .ok y ∧
      Options.compile ⟨foldCase, none⟩ s = .ok a ∧ Options.compile ⟨foldCase, none⟩ t = .ok b ∧
      (∃ σ : Equiv.Perm Position, (∀ p, x.positionCount ≤ p.index → σ p = p) ∧
        σ a.endMark = a.endMark ∧ b.endMark = a.endMark ∧
        (∀ p, y.symbol? (σ p) = x.symbol? p) ∧ a.Renames σ b) ∧
      b.states.size = a.states.size ∧ b.accepting.size = a.accepting.size ∧
      b.transitions.size = a.transitions.size ∧
      ∀ n, Options.compile ⟨foldCase, some n⟩ s = .error (.tooManyStates n) ↔
        Options.compile ⟨foldCase, some n⟩ t = .error (.tooManyStates n) := by
  intro s t
  obtain ⟨r, r', hr, hr', hcommutes⟩ := exists_derives_exchanged hne he hf hplace
  have hsize := (of_compile_eq_ok hplace).1
  -- the texts are of the same length
  have hsize' : t.utf8ByteSize < Offset.bound := by
    simp only [grouped, String.utf8ByteSize_append] at hsize
    simp only [t, grouped, String.utf8ByteSize_append]
    omega
  have hx := hr.ofText_eq_ok foldCase hsize
  have hy := hr'.ofText_eq_ok foldCase hsize'
  obtain ⟨σ, hσ, hend⟩ := (hcommutes.map (Token.folded foldCase)).exists_renames
  obtain ⟨a, ha⟩ :=
    Automaton.exists_build_ofExpression_eq_ok (.ofRegex (r.map (Token.folded foldCase)))
  obtain ⟨b, hb⟩ :=
    Automaton.exists_build_ofExpression_eq_ok (.ofRegex (r'.map (Token.folded foldCase)))
  have hs : Options.compile ⟨foldCase, none⟩ s = .ok { a with foldCase := foldCase } :=
    Options.compile_eq_ok_iff.2 ⟨_, a, hx, ha, rfl⟩
  have ht : Options.compile ⟨foldCase, none⟩ t = .ok { b with foldCase := foldCase } :=
    Options.compile_eq_ok_iff.2 ⟨_, b, hy, hb, rfl⟩
  -- the renaming of the expressions is one of the automata
  have hrenames := hσ.build ha hb
  obtain ⟨hstates, haccepting, htransitions⟩ := hrenames.size_eq σ.injective
  refine ⟨_, _, _, _, hx, hy, hs, ht, ⟨σ, hσ.fixes, ?_, ?_, hσ.symbol?_eq, ?_⟩, hstates, haccepting,
    htransitions, fun n => ?_⟩
  · rw [Automaton.endMark_eq ha, hend]
  · rw [Automaton.endMark_eq hb, Automaton.endMark_eq ha, hσ.endMark_eq, hend]
  · exact ⟨hrenames.start_eq, hrenames.states_eq, hrenames.accepting_eq, hrenames.transitions_eq⟩
  · rw [Options.compile_eq_tooManyStates_iff hs, Options.compile_eq_tooManyStates_iff ht, hstates]

/-- The alternatives `ab` and `a*` in `x((ab)|(a*))*y`. Their positions are renamed: the leaf `b` is
the third one, and the fourth one when `a*` comes first. -/
theorem renames_of_repeated_alternatives :
    ∃ a b, Options.compile ⟨false, none⟩ "x((ab)|(a*))*y" = .ok a ∧
      Options.compile ⟨false, none⟩ "x((a*)|(ab))*y" = .ok b ∧
      (∃ σ : Equiv.Perm Position, σ a.endMark = a.endMark ∧ σ (.ofIndex 2) = .ofIndex 3 ∧
        a.Renames σ b) ∧
      b.states.size = a.states.size ∧ b.transitions.size = a.transitions.size := by
  have he : ∃ a, compile "ab" = .ok a :=
    exists_compile_eq_ok_iff.2 ⟨_, _, _, _, rfl, rfl, rfl, rfl⟩
  have hf : ∃ a, compile "a*" = .ok a :=
    exists_compile_eq_ok_iff.2 ⟨_, _, _, _, rfl, rfl, rfl, rfl⟩
  have hplace :
      ∃ a, compile ("x" ++ grouped (grouped "ab" ++ "|" ++ grouped "a*") ++ "*y") = .ok a :=
    exists_compile_eq_ok_iff.2 ⟨_, _, _, _, rfl, rfl, rfl, rfl⟩
  obtain ⟨x, y, a, b, hx, hy, ha, hb, ⟨σ, -, hend, -, hsymbols, hσ⟩, hstates, -, htransitions,
    -⟩ := renames_of_exchanged_alternatives false (by decide) he hf hplace
  -- the renaming takes `b` to the one position at which `b` is read
  have hletter : y.symbol? (σ (.ofIndex 2)) = some 'b' := by
    rw [hsymbols]
    cases hx
    rfl
  have hfourth : ∀ i < y.positionCount, y.symbol? (.ofIndex i) = some 'b' → i = 3 := by
    cases hy
    decide
  have hσb : σ (.ofIndex 2) = .ofIndex 3 := by
    have hindex := hfourth _ (Expression.index_lt_of_symbol?_eq_some hletter)
      (by rwa [Position.ofIndex_index])
    rw [← Position.ofIndex_index (σ (.ofIndex 2)), hindex]
  exact ⟨a, b, ha, hb, ⟨σ, hend, hσb, hσ⟩, hstates, htransitions⟩

end PositionAutomaton
