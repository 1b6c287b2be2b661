import PositionAutomaton.Proofs.Expression.Assembly
import PositionAutomaton.Proofs.Postfix.Phrases

/-!
# From texts to trees

The tokens of a text that derives from the grammar are brought into the postorder traversal of
the expression the text is read as, and from that the expression with an end mark is put
together (`Derives.exists_postorder_and_tree`). In particular the grammar reads a text as one
expression only (`Derives.unique`).
-/

namespace PositionAutomaton

namespace Derives

variable {foldCase : Bool} {offset : Offset} {cs : List Char} {s : String} {r r' : Regex Char}
  {ts : List Token}

/-- The tokens of a choice that is read as `r`, with an end mark behind them, are brought into the
postorder of `r` and put together to the numbered expression `ofRegex`. -/
theorem exists_ofPostfix_eq_ok (h : Derives .choice cs r)
    (hts : Token.scanFrom foldCase offset cs = .ok ts) (last : Offset) :
    ∃ form, Postfix.ofTokens (Token.withConcats ts ++ [Token.endMark last]) = .ok form ∧
      form.tokens.map Token.mark = ((r.map (Token.folded foldCase)).map some).postorder ++
        [(.endMark, Token.endSign), (.concat, Token.concatSign)] ∧
      Expression.ofPostfix form = .ok (.ofRegex (r.map (Token.folded foldCase))) := by
  obtain ⟨form, hform, hmarks⟩ :=
    (h.spells hts).exists_ofTokens_eq_ok (Regex.postorder_ne_nil _) last
  exact ⟨form, hform, hmarks, Expression.ofPostfix_of_postorder hmarks⟩

/-- The tokens of a text that derives from the grammar can be made explicit. -/
theorem exists_explicit_eq_ok (foldCase : Bool) (h : Derives .choice s.toList r)
    (hsize : s.utf8ByteSize < Offset.bound) :
    ∃ ts, Token.scan foldCase s = .ok ts ∧
      Token.explicit ts = .ok (Token.withConcats ts ++ [Token.endMark ⟨s.utf8ByteSize⟩]) := by
  obtain ⟨ts, hts⟩ : ∃ ts, Token.scan foldCase s = .ok ts :=
    Token.exists_scanFrom_eq_ok_iff.2 h.isSome_ofChar?
  refine ⟨ts, hts, Token.explicit_eq_ok_iff.2 ⟨_, ?_, rfl⟩⟩
  exact (Token.endOffset_eq_ok_iff_of_scan hts).2 ⟨hsize, rfl⟩

/-- A text `cs` is read as one expression only. -/
theorem unique (h : Derives .choice cs r) (h' : Derives .choice cs r') : r = r' := by
  obtain ⟨ts, hts⟩ : ∃ ts, Token.scanFrom false {} cs = .ok ts :=
    Token.exists_scanFrom_eq_ok_iff.2 h.isSome_ofChar?
  obtain ⟨form, hform, -, he⟩ := h.exists_ofPostfix_eq_ok hts {}
  obtain ⟨form', hform', -, he'⟩ := h'.exists_ofPostfix_eq_ok hts {}
  -- both trees are put together from the same sequence
  obtain rfl : form = form' := Except.ok.inj (hform.symm.trans hform')
  have heq := Except.ok.inj (he.symm.trans he')
  have htree := congrArg (fun e : Expression => e.tree.map e.symbol?) heq
  simp only [Expression.map_symbol?_tree_ofRegex, Regex.cat.injEq, and_true] at htree
  have hfolded : Token.folded false = fun c => c := rfl
  have hr := Regex.map_injective (fun _ _ => Option.some.inj) htree
  rwa [hfolded, Regex.map_id, Regex.map_id] at hr

/-- For every text that derives from the grammar, read as `r`, the conversion to postfix order
finds the postorder traversal of `r`, with the end mark and a concatenation behind it. From it
an expression is put together whose tree is that of `r` with the end mark behind it, its leaves
numbered from the left. The node table has one entry for each token: an entry gives the indices
of the roots of its operands, it stands where the postorder traversal of its subexpression ends,
and the root of the whole expression is the last one. -/
theorem exists_postorder_and_tree (foldCase : Bool) (h : Derives .choice s.toList r)
    (hsize : s.utf8ByteSize < Offset.bound) :
    let t := r.map (Token.folded foldCase)
    ∃ tokens form e, Token.scan foldCase s >>= Token.explicit = .ok tokens ∧
      Postfix.ofTokens tokens = .ok form ∧
      form.tokens.map Token.mark = (t.map some).postorder ++
        [(.endMark, Token.endSign), (.concat, Token.concatSign)] ∧
      Expression.ofPostfix form = .ok e ∧
      e.tree.map e.symbol? = .cat (t.map some) (.leaf none) ∧ e.tree.leaves = e.positions ∧
      Orders e.symbol? e.entries 0 (form.tokens.map Token.mark) ∧
      e.entries.size = form.tokens.length ∧
      Denotes e.entries e.root e.tree ∧ e.root + 1 = e.entries.size := by
  intro t
  obtain ⟨ts, hts, hexplicit⟩ := exists_explicit_eq_ok foldCase h hsize
  obtain ⟨form, hform, hmarks, he⟩ := h.exists_ofPostfix_eq_ok hts ⟨s.utf8ByteSize⟩
  have htree := Expression.map_symbol?_tree_ofRegex t
  -- the postfix sequence is the postorder traversal of the whole tree
  have hpostorder : ((Expression.ofRegex t).tree.map (Expression.ofRegex t).symbol?).postorder =
      form.tokens.map Token.mark := by
    rw [htree, hmarks, Regex.postorder, Regex.postorder, List.append_assoc]
    rfl
  have horders := (Expression.ofRegex t).tree.orders_tabulate (Expression.ofRegex t).symbol? #[]
  rw [hpostorder] at horders
  refine ⟨_, form, .ofRegex t, bind_eq_ok_iff.2 ⟨ts, hts, hexplicit⟩, hform, hmarks, he, htree,
    Expression.leaves_tree_of_ofPostfix_eq_ok he, horders, ?_,
    Expression.denotes_entries _, Expression.root_add_one _⟩
  rw [Expression.size_entries, ← List.length_map (f := Token.mark), ← hpostorder,
    Regex.length_postorder, Regex.size_map]

/-- In `(a|b)*a`, the star repeats the group and binds more tightly than the concatenation. -/
theorem exists_postorder_and_tree_of_repeated_group :
    let r : Regex Char := .cat (.star (.alt (.leaf 'a') (.leaf 'b'))) (.leaf 'a')
    Derives .choice "(a|b)*a".toList r ∧ "(a|b)*a".utf8ByteSize < Offset.bound ∧
      ∃ tokens form e, Token.scan false "(a|b)*a" >>= Token.explicit = .ok tokens ∧
        Postfix.ofTokens tokens = .ok form ∧
        form.tokens.map Token.mark = [(.letter, 'a'), (.letter, 'b'), (.bar, '|'), (.star, '*'),
          (.letter, 'a'), (.concat, '.'), (.endMark, '#'), (.concat, '.')] ∧
        Expression.ofPostfix form = .ok e ∧
        e.tree.map e.symbol? = .cat (r.map some) (.leaf none) := by
  intro r
  have hletter {c : Char} (hc : c.isAlpha = true) : Derives .repetition [c] (.leaf c) :=
    .once (.letter hc)
  have hgroup : Derives .choice ['a', '|', 'b'] (.alt (.leaf 'a') (.leaf 'b')) :=
    .bar (.only (.single (hletter rfl))) (.single (hletter rfl))
  have hr : Derives .choice "(a|b)*a".toList r :=
    .only (.append (.single (.star (.once (.group hgroup)))) (hletter rfl))
  have hsize : "(a|b)*a".utf8ByteSize < Offset.bound := by decide
  obtain ⟨tokens, form, e, htokens, hform, hmarks, he, htree, -⟩ :=
    exists_postorder_and_tree false hr hsize
  exact ⟨hr, hsize, tokens, form, e, htokens, hform, hmarks, he, htree⟩

end Derives

end PositionAutomaton
