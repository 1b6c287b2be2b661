import PositionAutomaton.Proofs.Expression.Numbering
import PositionAutomaton.Proofs.Postorder
import PositionAutomaton.Proofs.Token.Balance

/-!
# Putting expressions together

From the tokens of the postorder traversal of a regular expression, that expression is put
together, with its leaves numbered from the left (`Assembly.foldlM_step_of_postorder`). With
an end mark behind it, it becomes a numbered expression (`ofPostfix_of_postorder`).

An expression is put together only from a sequence whose balance is one
(`balance_eq_one_of_ofPostfix_eq_ok`).
-/

namespace PositionAutomaton

namespace Token

variable {tokens : List Token} {ms : List (Kind × Char)} {kind : Kind} {c : Char}

/-- Tokens whose marks are `ms` and one more: the last token has that mark. -/
theorem map_mark_eq_append_singleton_iff :
    tokens.map mark = ms ++ [(kind, c)] ↔
      ∃ us t, tokens = us ++ [t] ∧ us.map mark = ms ∧ t.kind = kind ∧ t.value = c := by
  rw [List.map_eq_append_iff]
  constructor
  · rintro ⟨us, vs, rfl, hus, hvs⟩
    obtain ⟨t, rfl, ht⟩ := List.map_eq_singleton_iff.1 hvs
    obtain ⟨hkind, hvalue⟩ := Prod.mk.inj ht
    exact ⟨us, t, rfl, hus, hkind, hvalue⟩
  · rintro ⟨us, t, rfl, hus, rfl, rfl⟩
    exact ⟨us, [t], rfl, hus, rfl⟩

end Token

namespace Regex

variable {α β : Type}

/-- What `P` says of every element of a list at its index, it says of those of both its parts. -/
private theorem forall_getElem?_append {P : Nat → α → Prop} {xs ys : List α}
    (h : ∀ i a, (xs ++ ys)[i]? = some a → P i a) :
    (∀ i a, xs[i]? = some a → P i a) ∧ ∀ i a, ys[i]? = some a → P (xs.length + i) a := by
  constructor
  · intro i a hi
    obtain ⟨hlt, -⟩ := List.getElem?_eq_some_iff.1 hi
    exact h i a (by rw [List.getElem?_append_left hlt, hi])
  · intro i a hi
    exact h _ a (by rw [List.getElem?_append_right (by omega), Nat.add_sub_cancel_left, hi])

/-- The expression over the positions of its leaves, where `start` positions are given already. -/
def number : Regex α → Nat → Regex Position
  | leaf _, start => leaf (.ofIndex start)
  | star r, start => star (r.number start)
  | alt l r, start => alt (l.number start) (r.number (start + l.leaves.length))
  | cat l r, start => cat (l.number start) (r.number (start + l.leaves.length))

/-- The leaves of `r.number start` are numbered in a row, from `start` on. -/
theorem leaves_number (r : Regex α) (start : Nat) :
    (r.number start).leaves = (List.range' start r.leaves.length).map Position.ofIndex := by
  induction r generalizing start with
  | leaf a => rfl
  | star r ih => exact ih start
  | alt l r ihl ihr | cat l r ihl ihr =>
    rw [number, leaves, ihl, ihr, leaves, List.length_append, ← List.range'_append_1,
      List.map_append]

/-- The leaves of `r` are found again from their positions, if `f` reads them there as `g` does. -/
theorem map_number {f : Position → β} {g : α → β} (r : Regex α) (start : Nat)
    (hf : ∀ i a, r.leaves[i]? = some a → f (.ofIndex (start + i)) = g a) :
    (r.number start).map f = r.map g := by
  induction r generalizing start with
  | leaf a =>
    have ha := hf 0 a rfl
    rw [number, map, map]
    exact congrArg leaf ha
  | star r ih => rw [number, map, map, ih start hf]
  | alt l r ihl ihr =>
    obtain ⟨hl, hr⟩ := forall_getElem?_append hf
    rw [number, map, map, ihl start hl, ihr _ (by simpa only [Nat.add_assoc] using hr)]
  | cat l r ihl ihr =>
    obtain ⟨hl, hr⟩ := forall_getElem?_append hf
    rw [number, map, map, ihl start hl, ihr _ (by simpa only [Nat.add_assoc] using hr)]

end Regex

namespace Expression

namespace Assembly

variable {tokens : List Token} {t : Token} {a b : Assembly}

/-- Each token changes the number of operands by its `weight`. -/
theorem length_operands_of_step_eq_ok (h : a.step t = .ok b) :
    (b.operands.length : Int) = a.operands.length + t.kind.weight := by
  rw [step_eq_ok_iff] at h
  cases hkind : t.kind with
  | letter =>
    rw [hkind] at h
    subst h
    simp [Kind.weight]
  | endMark =>
    rw [hkind] at h
    obtain ⟨-, rfl⟩ := h
    simp [Kind.weight]
  | star =>
    rw [hkind] at h
    obtain ⟨r, rest, hoperands, rfl⟩ := h
    simp [hoperands, Kind.weight]
  | bar | concat =>
    rw [hkind] at h
    obtain ⟨r, l, rest, hoperands, rfl⟩ := h
    simp only [hoperands, List.length_cons, Kind.weight]
    omega
  | opening | closing =>
    rw [hkind] at h
    exact h.elim

/-- A sequence of tokens changes the number of operands by its `balance`. -/
theorem length_operands_of_foldlM_eq_ok (h : tokens.foldlM step a = .ok b) :
    (b.operands.length : Int) = a.operands.length + Token.balance tokens := by
  induction tokens generalizing a with
  | nil =>
    cases h
    simp
  | cons t tokens ih =>
    rw [List.foldlM_cons] at h
    obtain ⟨c, hc, hb⟩ := bind_eq_ok_iff.1 h
    rw [ih hb, length_operands_of_step_eq_ok hc, Token.balance_cons, Int.add_assoc]

/-- The tokens of the postorder traversal of `r` add `r` as an operand, numbered, and what is read
at its leaves. -/
theorem foldlM_step_of_postorder (r : Regex Char) (a : Assembly)
    (h : tokens.map Token.mark = (r.map some).postorder) :
    tokens.foldlM step a = .ok { a with
      operands := r.number a.symbols.size :: a.operands
      symbols := a.symbols ++ (r.leaves.map some).toArray } := by
  induction r generalizing tokens a with
  | leaf c =>
    obtain ⟨us, t, rfl, hus, hkind, hvalue⟩ := Token.map_mark_eq_append_singleton_iff.1
      (h.trans (List.nil_append _).symm)
    obtain rfl : us = [] := List.map_eq_nil_iff.1 hus
    simp [step, hkind, hvalue, push, next, Regex.number, Regex.leaves]
  | star r ih =>
    obtain ⟨us, t, rfl, hus, hkind, hvalue⟩ := Token.map_mark_eq_append_singleton_iff.1 h
    rw [List.foldlM_append, ih a hus]
    simp [step, hkind, star, Regex.number, Regex.leaves]
  | alt l r ihl ihr =>
    -- the right operand is put together on top of the left one
    obtain ⟨us, t, rfl, hus, hkind, hvalue⟩ := Token.map_mark_eq_append_singleton_iff.1 h
    obtain ⟨us, vs, rfl, hus, hvs⟩ := List.map_eq_append_iff.1 hus
    rw [List.foldlM_append, List.foldlM_append, ihl a hus, ok_bind, ihr _ hvs]
    simp [step, hkind, join, Regex.number, Regex.leaves]
  | cat l r ihl ihr =>
    obtain ⟨us, t, rfl, hus, hkind, hvalue⟩ := Token.map_mark_eq_append_singleton_iff.1 h
    obtain ⟨us, vs, rfl, hus, hvs⟩ := List.map_eq_append_iff.1 hus
    rw [List.foldlM_append, List.foldlM_append, ihl a hus, ok_bind, ihr _ hvs]
    simp [step, hkind, join, Regex.number, Regex.leaves]

end Assembly

/-- The numbered expression of `r` with an end mark behind it. -/
def ofRegex (r : Regex Char) : Expression where
  tree := .cat (r.number 0) (.leaf (.ofIndex r.leaves.length))
  symbols := (r.leaves.map some ++ [none]).toArray
  endMark := .ofIndex r.leaves.length

/-- Without the positions, the tree of `ofRegex r` is `r` with an end mark behind it. -/
theorem map_symbol?_tree_ofRegex (r : Regex Char) :
    (ofRegex r).tree.map (ofRegex r).symbol? = .cat (r.map some) (.leaf none) := by
  -- what is read at a position is read off the list of the leaves
  have hsymbol (i : Nat) (o : Option Char) (hi : (r.leaves.map some ++ [none])[i]? = some o) :
      (ofRegex r).symbol? (.ofIndex i) = o := by
    simp [symbol?, ofRegex, hi]
  have hend : (ofRegex r).symbol? (.ofIndex r.leaves.length) = none :=
    hsymbol _ none (by simp)
  have hleaves : (r.number 0).map (ofRegex r).symbol? = r.map some := by
    apply Regex.map_number r 0
    intro i c hi
    rw [Nat.zero_add]
    apply hsymbol i (some c)
    obtain ⟨hlt, -⟩ := List.getElem?_eq_some_iff.1 hi
    rw [List.getElem?_append_left (by simpa using hlt), List.getElem?_map, hi, Option.map_some]
  rw [ofRegex, Regex.map, Regex.map]
  exact congrArg₂ Regex.cat hleaves (congrArg Regex.leaf hend)

/-- The postorder traversal of `r`, followed by the end mark and a concatenation, makes the numbered
expression `ofRegex r`. -/
theorem ofPostfix_of_postorder {r : Regex Char} {form : Postfix}
    (h : form.tokens.map Token.mark =
      (r.map some).postorder ++ [(.endMark, Token.endSign), (.concat, Token.concatSign)]) :
    ofPostfix form = .ok (ofRegex r) := by
  obtain ⟨tokens⟩ := form
  -- the last two tokens are the concatenation and, before it, the end mark
  rw [List.append_cons] at h
  obtain ⟨us, t, rfl, hus, hconcat, -⟩ := Token.map_mark_eq_append_singleton_iff.1 h
  obtain ⟨us, s, rfl, hus, hend, -⟩ := Token.map_mark_eq_append_singleton_iff.1 hus
  rw [ofPostfix, Assembly.run]
  simp only [List.foldlM_append, Assembly.foldlM_step_of_postorder r {} hus]
  simp [Assembly.step, Assembly.finish, Assembly.join, Assembly.push, Assembly.next,
    Assembly.result, hend, hconcat, ofRegex]

/-- If the tokens `body` before the end mark are neither parentheses nor end marks and leave at most
one operand, then only an operator `t` among them that lacks an operand keeps them from making an
expression. -/
theorem exists_missingOperand_of_ofPostfix_eq_error {form : Postfix} {body : List Token}
    {last : Offset} {error : Error}
    (hform : form.tokens = body ++ [Token.endMark last, Token.concat last]) (hne : body ≠ [])
    (hbody : ∀ t ∈ body, t.kind ≠ .opening ∧ t.kind ≠ .closing ∧ t.kind ≠ .endMark)
    (hbalance : Token.balance body ≤ 1) (h : ofPostfix form = .error error) :
    ∃ us t vs a, body = us ++ t :: vs ∧ Assembly.run us = .ok a ∧ a.step t = .error error ∧
      error = .malformed t.offset (.missingOperand t.value) := by
  cases hrun : body.foldlM Assembly.step {} with
  | error first =>
    obtain ⟨us, t, vs, a, hsplit, hus, hfirst⟩ := foldlM_eq_error_iff.1 hrun
    have hmem : t ∈ body := by simp [hsplit]
    obtain ⟨hopening, hclosing, hend⟩ := hbody t hmem
    -- the whole sequence fails as the tokens before the end mark do
    have hwhole : ofPostfix form = .error first := by
      rw [ofPostfix, Assembly.run, hform, List.foldlM_append, hrun, error_bind, error_bind]
    obtain rfl : first = error := Except.error.inj (hwhole.symm.trans h)
    refine ⟨us, t, vs, a, hsplit, hus, hfirst, ?_⟩
    have ht := Assembly.step_eq_error_iff.1 hfirst
    cases hkind : t.kind with
    | letter =>
      rw [hkind] at ht
      exact ht.elim
    | star | bar | concat =>
      rw [hkind] at ht
      exact ht.2
    | opening => exact absurd hkind hopening
    | closing => exact absurd hkind hclosing
    | endMark => exact absurd hkind hend
  | ok a =>
    -- exactly one operand is left, to which the end mark is joined
    have hlength := Assembly.length_operands_of_foldlM_eq_ok hrun
    have hpos := List.length_pos_iff.2 (Assembly.operands_ne_nil_of_foldlM_eq_ok hne hrun)
    obtain ⟨r, hr⟩ : ∃ r, a.operands = [r] := by
      rw [← List.length_eq_one_iff]
      simp only [List.length_nil] at hlength
      omega
    have hnone : a.endMark = none :=
      of_foldlM_eq_ok (P := fun b => b.endMark = none)
        (fun ht hb hc => (Assembly.endMark_of_step_eq_ok (hbody _ ht).2.2 hc).trans hb) rfl hrun
    have hok : ∃ e, ofPostfix form = .ok e := by
      rw [ofPostfix, Assembly.run, hform, List.foldlM_append, hrun]
      simp [Assembly.step, Assembly.finish, Assembly.join, Assembly.result, Token.endMark,
        Token.concat, hr, hnone]
    obtain ⟨e, he⟩ := hok
    rw [he] at h
    cases h

/-- Tokens that make an expression leave one operand: their `balance` is one. -/
theorem balance_eq_one_of_ofPostfix_eq_ok {form : Postfix} {e : Expression}
    (h : ofPostfix form = .ok e) : Token.balance form.tokens = 1 := by
  obtain ⟨a, ha, he⟩ := bind_eq_ok_iff.1 h
  have hlength := Assembly.length_operands_of_foldlM_eq_ok ha
  rw [Assembly.result] at he
  split at he
  next tree endMark hoperands _ => simpa [hoperands, eq_comm] using hlength
  next => cases he
  next => cases he

end Expression

end PositionAutomaton
