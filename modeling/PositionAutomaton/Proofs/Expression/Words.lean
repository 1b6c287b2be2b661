import PositionAutomaton.Proofs.Boundary
import PositionAutomaton.Proofs.Expression.Assembly
import PositionAutomaton.Proofs.Expression.Table
import PositionAutomaton.Proofs.FollowTable

/-!
# What the tables of an expression say about its words

A node table names the operands of a node by their indices. In the table of an expression from a
postfix sequence, where operands stand before the node they belong to, exactly one expression can
be read off from each index (`InOrder.exists_denotes`, `Denotes.unique`), and the boundary that
is stored there is that of the expression (`InOrder.boundary_eq_of_denotes`). So what the tables
hold can be said in terms of words alone:

* each entry is exact about the words of its own subexpression
  (`Expression.boundary_entries_of_ofPostfix_eq_ok`);
* the follow table is exact about the words of the whole expression
  (`Expression.mem_row_ofExpression_of_ofPostfix_eq_ok`).
-/

namespace PositionAutomaton

variable {table : Array Entry} {i : Nat} {entry : Entry} {r s : Regex Position}

/-! ### One expression for each index -/

/-- No two expressions `r` and `s` can be read off from the same index. -/
theorem Denotes.unique (hr : Denotes table i r) (hs : Denotes table i s) : r = s := by
  -- both derivations start from the node at the index, which decides on the form of both
  induction hr generalizing s with
  | leaf hi =>
    cases hs with
    | leaf hj =>
      cases hi.symm.trans hj
      rfl
    | star hj | alt hj | cat hj => cases hi.symm.trans hj
  | star hi _ ih =>
    cases hs with
    | star hj hinner =>
      cases hi.symm.trans hj
      rw [ih hinner]
    | leaf hj | alt hj | cat hj => cases hi.symm.trans hj
  | alt hi _ _ ihl ihr =>
    cases hs with
    | alt hj hleft hright =>
      cases hi.symm.trans hj
      rw [ihl hleft, ihr hright]
    | leaf hj | star hj | cat hj => cases hi.symm.trans hj
  | cat hi _ _ ihl ihr =>
    cases hs with
    | cat hj hleft hright =>
      cases hi.symm.trans hj
      rw [ihl hleft, ihr hright]
    | leaf hj | star hj | alt hj => cases hi.symm.trans hj

namespace InOrder

/-- In a table that is `InOrder`, an expression can be read off from every entry. -/
theorem exists_denotes (h : InOrder table) (hi : table[i]? = some entry) :
    ∃ r, Denotes table i r := by
  -- the operands of a node have smaller indices
  induction i using Nat.strongRecOn generalizing entry with
  | ind i ih =>
    obtain ⟨node, b⟩ := entry
    cases node with
    | leaf p => exact ⟨.leaf p, .leaf hi⟩
    | star inner =>
      obtain ⟨operand, hoperand, hlt, -⟩ := h.exists_of_star hi
      obtain ⟨r, hr⟩ := ih inner hlt hoperand
      exact ⟨.star r, .star hi hr⟩
    | alt left right =>
      obtain ⟨first, second, hfirst, hsecond, hleft, hright, -⟩ := h.exists_of_alt hi
      obtain ⟨l, hl⟩ := ih left hleft hfirst
      obtain ⟨r, hr⟩ := ih right hright hsecond
      exact ⟨.alt l r, .alt hi hl hr⟩
    | cat left right =>
      obtain ⟨first, second, hfirst, hsecond, hleft, hright, -⟩ := h.exists_of_cat hi
      obtain ⟨l, hl⟩ := ih left hleft hfirst
      obtain ⟨r, hr⟩ := ih right hright hsecond
      exact ⟨.cat l r, .cat hi hl hr⟩

/-- In a table that is `InOrder`, an entry holds the boundary of the expression `r` that can be read
off from it. -/
theorem boundary_eq_of_denotes (h : InOrder table) (hi : table[i]? = some entry)
    (hr : Denotes table i r) : entry.boundary = r.boundary := by
  induction hr generalizing entry with
  | leaf hj =>
    cases hi.symm.trans hj
    exact h.boundary_eq_of_leaf hi
  | star hj _ ih =>
    cases hi.symm.trans hj
    obtain ⟨operand, hoperand, -, rfl⟩ := h.exists_of_star hi
    rw [ih hoperand, Regex.boundary]
  | alt hj _ _ ihl ihr =>
    cases hi.symm.trans hj
    obtain ⟨left, right, hleft, hright, -, -, rfl⟩ := h.exists_of_alt hi
    rw [ihl hleft, ihr hright, Regex.boundary]
  | cat hj _ _ ihl ihr =>
    cases hi.symm.trans hj
    obtain ⟨left, right, hleft, hright, -, -, rfl⟩ := h.exists_of_cat hi
    rw [ihl hleft, ihr hright, Regex.boundary]

end InOrder

namespace Expression

namespace Assembly

variable {a b : Assembly} {tokens : List Token}

/-- Each token adds one entry to the table of `a`. -/
theorem size_table_of_foldlM_eq_ok (h : tokens.foldlM step a = .ok b) :
    b.table.size = a.table.size + tokens.length := by
  induction tokens generalizing a with
  | nil =>
    cases h
    rfl
  | cons t tokens ih =>
    rw [List.foldlM_cons] at h
    obtain ⟨c, hc, hb⟩ := bind_eq_ok_iff.1 h
    obtain ⟨node, rest, boundary, -, -, htable, -⟩ := tabulates_of_step_eq_ok hc
    rw [ih hb, htable, Array.size_push, List.length_cons]
    omega

end Assembly

variable {e : Expression} {form : Postfix}

/-- The table `e.entries` has an entry for each token of the postfix sequence of `e`. -/
theorem size_entries_of_ofPostfix_eq_ok (h : ofPostfix form = .ok e) :
    e.entries.size = form.tokens.length := by
  obtain ⟨a, ha, htable, -⟩ := exists_run_of_ofPostfix_eq_ok h
  rw [← htable, Assembly.size_table_of_foldlM_eq_ok ha, Assembly.table, Assembly.tableOf,
    Array.size_empty, Nat.zero_add]

/-! ### Words -/

/-- The table of an expression from a postfix sequence has an entry for each token. One expression
can be read off from it, and the entry is exact about its words: it says whether the empty word is
one of them, and lists the positions that words start with and those that they end with. -/
theorem boundary_entries_of_ofPostfix_eq_ok (h : ofPostfix form = .ok e) :
    e.entries.size = form.tokens.length ∧
      ∀ i < form.tokens.length, ∃ entry r, e.entries[i]? = some entry ∧
        (∀ s, Denotes e.entries i s ↔ s = r) ∧
        (entry.boundary.nullable = true ↔ r.Matches []) ∧
        (∀ p, p ∈ entry.boundary.first ↔ ∃ w, r.Matches (p :: w)) ∧
        ∀ p, p ∈ entry.boundary.last ↔ ∃ w, r.Matches (w ++ [p]) := by
  have hsize := size_entries_of_ofPostfix_eq_ok h
  refine ⟨hsize, fun i hlt => ?_⟩
  have hi := Array.getElem?_eq_getElem (hsize ▸ hlt)
  have horder := inOrder_entries_of_ofPostfix_eq_ok h
  obtain ⟨r, hr⟩ := horder.exists_denotes hi
  refine ⟨_, r, hi, fun s => ⟨fun hs => hs.unique hr, fun hs => hs ▸ hr⟩, ?_⟩
  rw [horder.boundary_eq_of_denotes hi hr]
  exact ⟨Regex.nullable_boundary_iff, fun _ => Regex.mem_first_boundary_iff,
    fun _ => Regex.mem_last_boundary_iff⟩

/-- In the table of `(a|b)*c` with its end mark, the fourth entry is that of `(a|b)*`, which has the
empty word and words that start with either letter. -/
theorem boundary_entries_of_repeated_choice :
    ∃ form e, ofPostfix form = .ok e ∧ e.entries.size = 8 ∧
      ∃ r, r = .star (.alt (.leaf (.ofIndex 0)) (.leaf (.ofIndex 1))) ∧
        (∀ s, Denotes e.entries 3 s ↔ s = r) ∧ r.Matches [] ∧
        ∀ p, p ∈ [Position.ofIndex 0, .ofIndex 1] → ∃ w, r.Matches (p :: w) := by
  let form : Postfix := ⟨[⟨.letter, 'a', ⟨1⟩⟩, ⟨.letter, 'b', ⟨3⟩⟩, ⟨.bar, '|', ⟨2⟩⟩,
    ⟨.star, '*', ⟨5⟩⟩, ⟨.letter, 'c', ⟨6⟩⟩, .concat ⟨6⟩, .endMark ⟨7⟩, .concat ⟨7⟩]⟩
  have hform : ofPostfix form = .ok (.ofRegex (.cat (.star (.alt (.leaf 'a') (.leaf 'b')))
    (.leaf 'c'))) := rfl
  obtain ⟨hsize, hentries⟩ := boundary_entries_of_ofPostfix_eq_ok hform
  obtain ⟨entry, r, hentry, hr, hnil, hfirst, -⟩ := hentries 3 (by decide)
  obtain rfl : entry = ⟨.star 2, ⟨true, .ofList [.ofIndex 0, .ofIndex 1],
    .ofList [.ofIndex 0, .ofIndex 1]⟩⟩ := (Option.some.inj hentry).symm
  have hdenotes := (hr _).1 (.star rfl (.alt rfl (.leaf rfl) (.leaf rfl)))
  refine ⟨form, _, hform, hsize, r, hdenotes.symm, hr, hnil.1 rfl, fun p hp => (hfirst p).1 ?_⟩
  exact OrderedSet.mem_ofList.2 hp

/-- The follow table of an expression from a postfix sequence is exact about the words of the one
expression that can be read off from the root and has each position as a leaf: the table has a row
for each position, and in that row the positions that come directly after it in some word. -/
theorem mem_row_ofExpression_of_ofPostfix_eq_ok (h : ofPostfix form = .ok e) :
    (∀ r, Denotes e.entries e.root r ↔ r = e.tree) ∧ e.tree.leaves = e.positions ∧
      (FollowTable.ofExpression e).rows.size = e.positionCount ∧
      ∀ p ∈ e.positions, ∃ row, (FollowTable.ofExpression e).row? p = some row ∧
        ∀ q, q ∈ row ↔ ∃ u v, e.tree.Matches (u ++ p :: q :: v) := by
  refine ⟨fun r => ⟨fun hr => hr.unique e.denotes_entries, fun hr => hr ▸ e.denotes_entries⟩,
    leaves_tree_of_ofPostfix_eq_ok h, FollowTable.size_rows_ofExpression, fun p hp => ?_⟩
  have hlt := mem_positions_iff.1 hp
  obtain ⟨row, hrow⟩ : ∃ row, (FollowTable.ofExpression e).row? p = some row := by
    rw [← Option.isSome_iff_exists, FollowTable.isSome_row?_iff, FollowTable.size_rows_ofExpression]
    exact hlt
  refine ⟨row, hrow, fun q => ?_⟩
  have hallows := FollowTable.allows_ofExpression_iff (e := e) (p := p) (q := q)
  rw [FollowTable.Allows, hrow] at hallows
  simpa [hlt, Regex.Follows] using hallows

/-- In words of `(ab*)*` with its end mark, `b` is followed by either letter or by the end mark. -/
theorem mem_row_ofExpression_of_nested_star :
    ∃ form e, ofPostfix form = .ok e ∧ e.positionCount = 3 ∧
      e.tree = .cat (.star (.cat (.leaf (.ofIndex 0)) (.star (.leaf (.ofIndex 1)))))
        (.leaf (.ofIndex 2)) ∧
      ∀ q, q ∈ [Position.ofIndex 0, .ofIndex 1, .ofIndex 2] ↔
        ∃ u v, e.tree.Matches (u ++ .ofIndex 1 :: q :: v) := by
  let form : Postfix := ⟨[⟨.letter, 'a', ⟨1⟩⟩, ⟨.letter, 'b', ⟨2⟩⟩, ⟨.star, '*', ⟨3⟩⟩, .concat ⟨2⟩,
    ⟨.star, '*', ⟨5⟩⟩, .endMark ⟨6⟩, .concat ⟨6⟩]⟩
  have hform : ofPostfix form =
      .ok (.ofRegex (.star (.cat (.leaf 'a') (.star (.leaf 'b'))))) := rfl
  obtain ⟨-, -, -, hrows⟩ := mem_row_ofExpression_of_ofPostfix_eq_ok hform
  obtain ⟨row, hrow, hmem⟩ := hrows (.ofIndex 1) (by decide)
  obtain rfl : row = .ofList [.ofIndex 0, .ofIndex 1, .ofIndex 2] := (Option.some.inj hrow).symm
  exact ⟨form, _, hform, rfl, rfl, fun q => OrderedSet.mem_ofList.symm.trans (hmem q)⟩

end Expression

end PositionAutomaton
