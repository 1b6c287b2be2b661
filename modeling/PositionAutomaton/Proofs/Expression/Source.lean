import PositionAutomaton.Proofs.Expression.Numbering
import PositionAutomaton.Proofs.Postfix.Conservation

/-!
# Positions in the order of the source

The letters and the end mark of a sequence become the leaves of its expression. The yard puts
operators behind their operands but keeps the order of the leaves (`Postfix.leaves_tokens`), and
these are numbered as they are taken in (`Expression.Assembly.Sourced.run`). So the positions of an
expression are the leaves of the source from left to right, in whatever order the operators stand.

Main statement:

* `Expression.symbol?_ofIndex_of_ofPostfix_eq_ok`: at each position, what is read is the symbol of
  the leaf of the source with its number.
* `Expression.endMark_eq_of_ofPostfix_eq_ok`: the end mark is where the source has it.
-/

namespace PositionAutomaton

/-- The postfix order of a sequence `ts` has the leaves of `ts`, in their order. -/
theorem Postfix.leaves_tokens {ts : List Token} {form : Postfix} (h : ofTokens ts = .ok form) :
    Token.leaves form.tokens = Token.leaves ts := by
  -- leaves are among the tokens that the yard leaves in their order
  have hleaves (us : List Token) :
      Token.leaves us = (us.filter (·.kind.isFixed)).filter (·.kind.isLeaf) := by
    rw [Token.leaves, List.filter_filter]
    congr 1
    funext t
    cases t.kind <;> rfl
  rw [hleaves, (conserves_of_ofTokens_eq_ok h).order, ← hleaves]

namespace Expression

namespace Assembly

variable {a b : Assembly} {t : Token} {ts : List Token}

/-- The positions given so far in `a` are the leaves of the sequence `ts`, in their order: the
symbols are theirs, and the end mark has the position of its token. -/
structure Sourced (ts : List Token) (a : Assembly) : Prop where
  /-- The symbols are those of the leaves. -/
  symbols_eq : a.symbols.toList = (Token.leaves ts).map Token.symbol?
  /-- The end mark is where the leaves have it. -/
  endMark_eq : ∀ (k : Nat) (u : Token), (Token.leaves ts)[k]? = some u → u.kind = .endMark →
    a.endMark = some (.ofIndex k)

namespace Sourced

/-- There are as many positions in `a` as leaves in `ts`. -/
theorem size_symbols (h : Sourced ts a) : a.symbols.size = (Token.leaves ts).length := by
  rw [← Array.length_toList, h.symbols_eq, List.length_map]

/-- Each token that `step` takes in keeps the positions in the order of the leaves. -/
theorem step (h : Sourced ts a) (hb : a.step t = .ok b) : Sourced (ts ++ [t]) b := by
  constructor
  · rw [toList_symbols_of_step_eq_ok hb, h.symbols_eq, Token.leaves_append, List.map_append]
  · intro k u hu hend
    rw [Token.getElem?_leaves_append_singleton_iff] at hu
    by_cases ht : t.kind = .endMark
    · rw [step_eq_ok_iff, ht] at hb
      obtain ⟨hnone, rfl⟩ := hb
      rcases hu with hu | ⟨rfl, -, -⟩
      · -- an end mark among the leaves before would have been refused
        cases hnone.symm.trans (h.endMark_eq k u hu hend)
      · rw [← h.size_symbols]
        rfl
    · rw [endMark_of_step_eq_ok ht hb]
      rcases hu with hu | ⟨-, -, rfl⟩
      · exact h.endMark_eq k u hu hend
      · exact absurd hend ht

/-- Before the first token there are no leaves. -/
theorem nil : Sourced [] {} where
  symbols_eq := rfl
  endMark_eq := fun _ _ hu _ => nomatch hu

/-- What is put together from a sequence is `Sourced` by it. -/
theorem run (h : Assembly.run ts = .ok a) : Sourced ts a := by
  -- tokens are taken in from the left, so that the induction takes off the last one
  induction ts using List.reverseRecOn generalizing a with
  | nil =>
    cases h
    exact nil
  | append_singleton ts t ih =>
    obtain ⟨b, hb, hstep⟩ := foldlM_append_singleton_eq_ok_iff.1 h
    exact (ih hb).step hstep

end Sourced

end Assembly

variable {ts : List Token} {form : Postfix} {e : Expression}

/-- The symbols and the end mark of `e` are those of an assembly that is `Sourced` by the sequence
`ts` before its conversion to postfix order. -/
theorem exists_sourced_of_ofPostfix_eq_ok (hform : Postfix.ofTokens ts = .ok form)
    (h : ofPostfix form = .ok e) :
    ∃ a, Assembly.Sourced ts a ∧ a.symbols = e.symbols ∧ a.endMark = some e.endMark := by
  obtain ⟨a, ha, he⟩ := bind_eq_ok_iff.1 h
  have hsourced := Assembly.Sourced.run ha
  rw [Assembly.result] at he
  split at he
  next tree endMark _ hend =>
    cases he
    refine ⟨a, ⟨?_, ?_⟩, rfl, hend⟩
    · rw [← Postfix.leaves_tokens hform, hsourced.symbols_eq]
    · rw [← Postfix.leaves_tokens hform]
      exact hsourced.endMark_eq
  next => cases he
  next => cases he

/-- The symbols of an expression `e` are those of the leaves of its source `ts`, in their order. -/
theorem symbols_eq_of_ofPostfix_eq_ok (hform : Postfix.ofTokens ts = .ok form)
    (h : ofPostfix form = .ok e) : e.symbols.toList = (Token.leaves ts).map Token.symbol? := by
  obtain ⟨a, hsourced, hsymbols, -⟩ := exists_sourced_of_ofPostfix_eq_ok hform h
  rw [← hsymbols, hsourced.symbols_eq]

/-- The end mark of an expression `e` has the position of its token `t` among the leaves of the
source `ts`. -/
theorem endMark_eq_of_ofPostfix_eq_ok (hform : Postfix.ofTokens ts = .ok form)
    (h : ofPostfix form = .ok e) {k : Nat} {t : Token} (ht : (Token.leaves ts)[k]? = some t)
    (hkind : t.kind = .endMark) : e.endMark = .ofIndex k := by
  obtain ⟨a, hsourced, -, hend⟩ := exists_sourced_of_ofPostfix_eq_ok hform h
  exact Option.some.inj (hend.symm.trans (hsourced.endMark_eq k t ht hkind))

/-- At the position of index `k`, the symbol of leaf `k` of the source `ts` is read. -/
theorem symbol?_ofIndex_of_ofPostfix_eq_ok (hform : Postfix.ofTokens ts = .ok form)
    (h : ofPostfix form = .ok e) (k : Nat) :
    e.symbol? (.ofIndex k) = (Token.leaves ts)[k]?.bind Token.symbol? := by
  rw [symbol?, Position.index_ofIndex, ← Array.getElem?_toList,
    symbols_eq_of_ofPostfix_eq_ok hform h, List.getElem?_map]
  cases (Token.leaves ts)[k]? <;> rfl

end Expression

end PositionAutomaton
