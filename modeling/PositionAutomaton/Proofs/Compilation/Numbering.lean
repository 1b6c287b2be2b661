import Mathlib.Order.Bounds.Basic
import PositionAutomaton.Proofs.Compilation.Stages
import PositionAutomaton.Proofs.Expression.Source
import PositionAutomaton.Proofs.Token.Lexer

/-!
# Positions are the letters of the text

The leaves of a sequence are numbered in the order of the sequence. The sequence that a text is
compiled from has the letters of the text and the end mark behind them as its leaves
(`Token.leaves_of_explicit_eq_ok`, `Token.map_symbol?_leaves_of_scanFrom`), so that the letters of
the text are its positions one by one and the end mark is the position after the last letter
(`Expression.symbols_eq_of_ofText_eq_ok`). No state has a position after the end mark, and therefore
one that accepts has it as its greatest member (`Automaton.mem_accepting_iff_isGreatest`).

Main statement:

* `positions_of_source`: the positions of a sequence of tokens are its letters and its end mark, and
  those of a text are its letters.
-/

namespace PositionAutomaton

/-- Of the characters of expressions, the letters become leaves. -/
theorem Kind.isLeaf_iff_of_ofChar? {c : Char} {kind : Kind} (h : ofChar? c = some kind) :
    kind.isLeaf = true ↔ c.isAlpha = true := by
  have hchar := ofChar?_eq_some_iff.1 h
  cases kind with
  | letter => exact iff_of_true rfl hchar
  | opening | closing | star | bar =>
    obtain rfl := hchar
    decide
  | concat | endMark => exact hchar.elim

namespace Token

variable {foldCase : Bool} {offset : Offset} {cs : List Char} {ts us : List Token}

/-- The leaves of the tokens of `cs` read the letters of `cs`, in lower case if case is folded. -/
theorem map_symbol?_leaves_of_scanFrom (h : scanFrom foldCase offset cs = .ok ts) :
    (leaves ts).map symbol? = ((cs.filter Char.isAlpha).map (folded foldCase)).map some := by
  induction cs generalizing offset ts with
  | nil =>
    cases h
    rfl
  | cons c cs ih =>
    obtain ⟨t, us, ht, hus, rfl⟩ := scanFrom_cons_eq_ok_iff.1 h
    obtain ⟨hkind, hvalue, -⟩ := ofChar_eq_ok_iff.1 ht
    have hleaves : leaves (t :: us) = leaves [t] ++ leaves us := leaves_append [t] us
    rw [hleaves, List.map_append, ih hus]
    have hleaf := Kind.isLeaf_iff_of_ofChar? hkind
    -- a character is a leaf exactly if it is a letter
    by_cases hc : c.isAlpha = true
    · have hletter : t.kind = .letter :=
        Option.some.inj (hkind.symm.trans (Kind.ofChar?_of_isAlpha hc))
      rw [leaves_singleton_of_isLeaf (hleaf.2 hc), List.filter_cons_of_pos hc]
      simp [symbol?, hletter, hvalue]
    · rw [leaves_singleton_of_not_isLeaf (Bool.eq_false_iff.2 fun h => hc (hleaf.1 h)),
        List.filter_cons_of_neg hc]
      rfl

/-- To make `ts` explicit adds one leaf, the end mark. -/
theorem leaves_of_explicit_eq_ok (h : explicit ts = .ok us) :
    leaves us = leaves ts ++ [endMark ⟨byteEnd ts⟩] := by
  obtain ⟨-, rfl⟩ := explicit_eq_ok_iff_byteEnd.1 h
  rw [leaves_append, leaves_singleton_of_isLeaf (t := endMark _) rfl, leaves,
    filter_withConcats fun _ => rfl]
  rfl

end Token

namespace Expression

variable {foldCase : Bool} {s : String} {e : Expression}

/-- What is read at the positions of the text `s` are its letters, in lower case if case is folded,
and nothing at the end mark, which has the position after the last letter. -/
theorem symbols_eq_of_ofText_eq_ok (h : ofText foldCase s = .ok e) :
    e.symbols.toList = ((s.toList.filter Char.isAlpha).map (Token.folded foldCase)).map some ++
        [none] ∧
      e.endMark = .ofIndex (s.toList.filter Char.isAlpha).length := by
  obtain ⟨ts, tokens, form, hts, htokens, hform, he⟩ := ofText_eq_ok_iff.1 h
  have hsymbols := Token.map_symbol?_leaves_of_scanFrom hts
  have hleaves := Token.leaves_of_explicit_eq_ok htokens
  have hlength : (Token.leaves ts).length = (s.toList.filter Char.isAlpha).length := by
    simpa using congrArg List.length hsymbols
  constructor
  · -- the end mark is the last leaf, and nothing is read there
    rw [symbols_eq_of_ofPostfix_eq_ok hform he, hleaves, List.map_append, hsymbols]
    rfl
  · have hlast : (Token.leaves tokens)[(Token.leaves ts).length]? =
        some (.endMark ⟨Token.byteEnd ts⟩) := by
      rw [hleaves, List.getElem?_concat_length]
    rw [endMark_eq_of_ofPostfix_eq_ok hform he hlast rfl, hlength]

/-- The letter of `s` with the index `k` is read at the position with the index `k`. -/
theorem symbol?_ofIndex_of_ofText_eq_ok (h : ofText foldCase s = .ok e) {k : Nat} {c : Char}
    (hc : (s.toList.filter Char.isAlpha)[k]? = some c) :
    e.symbol? (.ofIndex k) = some (Token.folded foldCase c) := by
  have hsome : e.symbols.toList[k]? = some (some (Token.folded foldCase c)) := by
    obtain ⟨hk, -⟩ := List.getElem?_eq_some_iff.1 hc
    rw [(symbols_eq_of_ofText_eq_ok h).1, List.getElem?_append_left (by simpa using hk)]
    simp only [List.getElem?_map, hc, Option.map_some]
  rw [symbol?, Position.index_ofIndex, ← Array.getElem?_toList, hsome]
  rfl

/-- The end mark of the text `s` is its last position. -/
theorem number_endMark_of_ofText_eq_ok (h : ofText foldCase s = .ok e) :
    e.endMark.number = (s.toList.filter Char.isAlpha).length + 1 ∧
      e.endMark.number = e.positionCount := by
  obtain ⟨hsymbols, hend⟩ := symbols_eq_of_ofText_eq_ok h
  have hcount := congrArg List.length hsymbols
  simp only [Array.length_toList, List.length_append, List.length_map, List.length_singleton]
    at hcount
  rw [hend, positionCount, hcount]
  exact ⟨rfl, rfl⟩

end Expression

namespace Automaton

variable {e : Expression} {limit : Option Nat} {a : Automaton} {state : PositionSet} {p : Position}

/-- The members of a state are leaves of the expression `e`. -/
theorem Reached.mem_leaves (h : Reached e (.ofExpression e) state) (hp : p ∈ state) :
    p ∈ e.tree.leaves := by
  cases h with
  | start =>
    obtain ⟨w, hw⟩ := Regex.mem_first_boundary_iff.1 hp
    exact hw.mem_leaves List.mem_cons_self
  | step _ _ =>
    -- a position that is entered follows another one in some word
    obtain ⟨q, -, -, hq⟩ := mem_step_iff.1 hp
    obtain ⟨-, u, v, huv⟩ := FollowTable.allows_ofExpression_iff.1 hq
    exact huv.mem_leaves (by simp)

/-- The test `isAccepting` holds of the states that accept. -/
theorem isAccepting_iff_mem_accepting : a.isAccepting state = true ↔ state ∈ a.accepting := by
  rw [isAccepting, OrderedSet.contains_iff]

/-- Where the end mark of `e` is the last position, the states that accept are those with the end
mark as their greatest member. -/
theorem mem_accepting_iff_isGreatest (h : (build e (.ofExpression e) limit).outcome = .ok a)
    (hleaves : e.tree.leaves = e.positions) (hend : e.endMark.number = e.positionCount) :
    state ∈ a.accepting ↔
      state ∈ a.states ∧ IsGreatest (Position.number '' {p | p ∈ state}) a.endMark.number := by
  rw [mem_accepting_iff h, endMark_eq h]
  refine and_congr_right fun hstate => ⟨fun haccept => ⟨⟨_, haccept, rfl⟩, ?_⟩, ?_⟩
  · -- no member is beyond the last position, which is the end mark
    rintro _ ⟨p, hp, rfl⟩
    have hreached := (mem_states_iff h).1 hstate
    have hindex := Expression.mem_positions_iff.1 (hleaves ▸ hreached.mem_leaves hp)
    rw [Position.index] at hindex
    rw [hend]
    omega
  · rintro ⟨⟨p, hp, hnumber⟩, -⟩
    exact Position.ext hnumber ▸ hp

end Automaton

/-- The positions of an expression are the letters and the end mark of the tokens it is made from,
in their order: as many of them, with their symbols, and nothing is read beyond. In particular the
letters of a text are read at the positions with their numbers, in lower case if case is folded, the
end mark is the position after the last letter, and a state of the automaton accepts exactly if the
end mark is its greatest member. -/
theorem positions_of_source :
    (∀ ts form e, Postfix.ofTokens ts = .ok form → Expression.ofPostfix form = .ok e →
      e.positionCount = (Token.leaves ts).length ∧
      (∀ (k : Nat) (t : Token), (Token.leaves ts)[k]? = some t →
        (t.kind = .letter → e.symbol? (.ofIndex k) = some t.value) ∧
        (t.kind = .endMark → e.symbol? (.ofIndex k) = none ∧ e.endMark = .ofIndex k)) ∧
      ∀ p : Position, e.positionCount < p.number → e.symbol? p = none) ∧
    ∀ (o : Options) (s : String) a, o.compile s = .ok a →
      ∃ e, Expression.ofText o.foldCase s = .ok e ∧
        (∀ (k : Nat) (c : Char), (s.toList.filter Char.isAlpha)[k]? = some c →
          e.symbol? (.ofIndex k) = some (Token.folded o.foldCase c)) ∧
        a.endMark = e.endMark ∧ a.endMark.number = (s.toList.filter Char.isAlpha).length + 1 ∧
        ∀ state, (a.isAccepting state = true ↔ state ∈ a.accepting) ∧
          (state ∈ a.accepting ↔ state ∈ a.states ∧
            IsGreatest (Position.number '' {p | p ∈ state}) a.endMark.number) := by
  refine ⟨fun ts form e hform he => ⟨?_, fun k t ht => ?_, fun p hp => ?_⟩, fun o s a h => ?_⟩
  · have hsymbols := Expression.symbols_eq_of_ofPostfix_eq_ok hform he
    simpa [Expression.positionCount] using congrArg List.length hsymbols
  · rw [Expression.symbol?_ofIndex_of_ofPostfix_eq_ok hform he, ht, Option.bind_some]
    refine ⟨fun hletter => if_pos hletter, fun hend => ⟨if_neg ?_, ?_⟩⟩
    · rw [hend]
      exact Kind.noConfusion
    · exact Expression.endMark_eq_of_ofPostfix_eq_ok hform he ht hend
  · rw [Expression.symbol?, Array.getElem?_eq_none]
    · rfl
    · exact Nat.le_sub_one_of_lt hp
  · -- of a text, the leaves are the letters and then the end mark
    obtain ⟨e, b, he, hb, rfl⟩ := Options.compile_eq_ok_iff.1 h
    obtain ⟨hletters, hlast⟩ := Expression.number_endMark_of_ofText_eq_ok he
    have hend := Automaton.endMark_eq hb
    refine ⟨e, he, fun k c => Expression.symbol?_ofIndex_of_ofText_eq_ok he, hend, ?_, ?_⟩
    · rw [← hletters, ← hend]
    · have hleaves := Expression.leaves_tree_of_ofText_eq_ok he
      exact fun state => ⟨Automaton.isAccepting_iff_mem_accepting,
        Automaton.mem_accepting_iff_isGreatest (a := b) hb hleaves hlast⟩

/-- In `(a|B)*c`, with case folded, the end mark is the fourth position, behind those of the
letters. So it is in tokens that already hold the concatenation and the end mark. -/
theorem positions_of_repeated_choice :
    (∃ ts form e, Postfix.ofTokens ts = .ok form ∧ Expression.ofPostfix form = .ok e ∧
      (Token.leaves ts).map (·.value) = ['a', 'b', 'c', '#'] ∧ e.positionCount = 4 ∧
      e.symbol? (.ofIndex 1) = some 'b' ∧ e.endMark = .ofIndex 3) ∧
    ∃ a, Options.compile ⟨true, none⟩ "(a|B)*c" = .ok a ∧ a.endMark.number = 4 ∧
      ∀ state, state ∈ a.accepting ↔ state ∈ a.states ∧
        IsGreatest (Position.number '' {p | p ∈ state}) 4 := by
  obtain ⟨htokens, htext⟩ := positions_of_source
  constructor
  · let ts : List Token := [⟨.opening, '(', ⟨0⟩⟩, ⟨.letter, 'a', ⟨1⟩⟩, ⟨.bar, '|', ⟨2⟩⟩,
      ⟨.letter, 'b', ⟨3⟩⟩, ⟨.closing, ')', ⟨4⟩⟩, ⟨.star, '*', ⟨5⟩⟩, .concat ⟨6⟩,
      ⟨.letter, 'c', ⟨6⟩⟩, .endMark ⟨7⟩]
    obtain ⟨form, e, hform, he⟩ : ∃ form e, Postfix.ofTokens ts = .ok form ∧
        Expression.ofPostfix form = .ok e := ⟨_, _, rfl, rfl⟩
    obtain ⟨hcount, hleaves, -⟩ := htokens ts form e hform he
    obtain ⟨hletter, -⟩ := hleaves 1 _ rfl
    obtain ⟨-, hend⟩ := hleaves 3 _ rfl
    exact ⟨ts, form, e, hform, he, rfl, hcount, hletter rfl, (hend rfl).2⟩
  · obtain ⟨a, ha⟩ : ∃ a, Options.compile ⟨true, none⟩ "(a|B)*c" = .ok a :=
      (Options.exists_compile_eq_ok_iff rfl).2 ⟨_, rfl⟩
    obtain ⟨e, -, -, -, hnumber, haccepting⟩ := htext _ _ a ha
    have hfour : a.endMark.number = 4 := hnumber
    exact ⟨a, ha, hfour, fun state => hfour ▸ (haccepting state).2⟩

end PositionAutomaton
