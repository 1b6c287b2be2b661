import Mathlib.Data.List.Perm.Basic
import PositionAutomaton.Proofs.FollowTable

/-!
# Follow tables in one pass

A follow table is filled by one pass over the nodes of an expression. Each node adds to the rows
what it links, and nothing is ever taken out of a row (`exists_row?_extend`). Nodes may add to the
same row, but what two of them add does not depend on which comes first (`extend_right_comm`), and
a table that has what a node links is left as it is (`extend_eq_self`).

Main statement:

* `ofExpression_of_any_order`: the nodes give the same table in any order, rows only grow, and
  another pass changes nothing.
-/

namespace PositionAutomaton

namespace FollowTable

variable {entries : Array Entry} {entry : Entry} {t : FollowTable} {p : Position}

/-- Taking in the node `entry` adds what it `Links` to a row, and takes nothing out. -/
theorem exists_row?_extend {row : PositionSet} (h : t.row? p = some row) :
    ∃ larger, (t.extend entries entry).row? p = some larger ∧
      ∀ q, q ∈ larger ↔ q ∈ row ∨ Links entries entry p q := by
  have hp : p.index < t.rows.size := by
    rw [← isSome_row?_iff, h, Option.isSome_some]
  -- the number of rows is kept, and thus the row of `p` is there
  obtain ⟨larger, hlarger⟩ : ∃ larger, (t.extend entries entry).row? p = some larger := by
    rwa [← Option.isSome_iff_exists, isSome_row?_iff, size_rows_extend]
  refine ⟨larger, hlarger, fun q => ?_⟩
  rw [← allows_iff_of_row?_eq_some hlarger, allows_extend_iff, allows_iff_of_row?_eq_some h,
    and_iff_right hp]

/-- It does not matter in which order two nodes `a` and `b` are taken in. -/
theorem extend_right_comm (t : FollowTable) (a b : Entry) :
    (t.extend entries a).extend entries b = (t.extend entries b).extend entries a := by
  apply eq_of_allows_iff
  · simp only [size_rows_extend]
  · -- the links of a node do not depend on the table, so that both tables allow what either links
    intro p q
    simp only [allows_extend_iff, size_rows_extend]
    rw [or_right_comm]

instance : RightCommutative (extend entries) :=
  ⟨extend_right_comm⟩

/-- A table that `Allows` what a node links is not changed by it. -/
theorem extend_eq_self
    (h : ∀ p q, p.index < t.rows.size → Links entries entry p q → t.Allows p q) :
    t.extend entries entry = t := by
  apply eq_of_allows_iff size_rows_extend
  intro p q
  rw [allows_extend_iff, or_iff_left_iff_imp]
  rintro ⟨hp, hlinks⟩
  exact h p q hp hlinks

/-- The table of a pass over `nodes` is not changed by any of them. -/
theorem extend_foldl_extend {nodes : List Entry} (h : entry ∈ nodes) :
    (nodes.foldl (extend entries) t).extend entries entry = nodes.foldl (extend entries) t := by
  refine extend_eq_self fun p q hp hlinks => allows_foldl_extend_iff.2 (.inr ⟨?_, entry, h, hlinks⟩)
  rwa [size_rows_foldl_extend] at hp

/-- A second pass, over nodes `again` of the first one, changes nothing. -/
theorem foldl_extend_foldl_extend {nodes again : List Entry} (h : ∀ entry ∈ again, entry ∈ nodes) :
    again.foldl (extend entries) (nodes.foldl (extend entries) t) =
      nodes.foldl (extend entries) t := by
  induction again with
  | nil => rfl
  | cons entry again ih =>
    rw [List.forall_mem_cons] at h
    rw [List.foldl_cons, extend_foldl_extend h.1, ih h.2]

/-- The follow table of an expression is the same in whatever order its nodes are taken in. Each
node lets every row keep what is in it and adds what the node links, and to take in nodes again
changes nothing. -/
theorem ofExpression_of_any_order (e : Expression) :
    (∀ nodes : List Entry, nodes.Perm e.entries.toList →
      nodes.foldl (extend e.entries) (blank e.positionCount) = ofExpression e) ∧
    (∀ (t : FollowTable) (entry : Entry),
      (t.extend e.entries entry).rows.size = t.rows.size ∧
      ∀ p row, t.row? p = some row →
        ∃ larger, (t.extend e.entries entry).row? p = some larger ∧
          ∀ q, q ∈ larger ↔ q ∈ row ∨ Links e.entries entry p q) ∧
    ∀ nodes : List Entry, (∀ entry ∈ nodes, entry ∈ e.entries) →
      nodes.foldl (extend e.entries) (ofExpression e) = ofExpression e := by
  refine ⟨fun nodes hnodes => ?_, fun t entry => ?_, fun nodes hnodes => ?_⟩
  · rw [hnodes.foldl_eq, Array.foldl_toList, ofExpression]
  · exact ⟨size_rows_extend, fun p row => exists_row?_extend⟩
  · rw [ofExpression, ← Array.foldl_toList]
    exact foldl_extend_foldl_extend fun entry hentry => Array.mem_toList_iff.2 (hnodes entry hentry)

/-- The nodes of `(a|b)*` with its end mark, of which the repetition and the concatenation with the
end mark add to the same rows, from the root down and then once more from the leaves up. -/
theorem ofExpression_of_reversed_order :
    ∃ e : Expression, e.tree = .cat (.star (.alt (.leaf (.ofIndex 0)) (.leaf (.ofIndex 1))))
        (.leaf (.ofIndex 2)) ∧
      e.entries.toList.reverse.foldl (extend e.entries) (blank e.positionCount) = ofExpression e ∧
      e.entries.toList.foldl (extend e.entries) (ofExpression e) = ofExpression e ∧
      (ofExpression e).row? (.ofIndex 0) = some (.ofList [.ofIndex 0, .ofIndex 1, .ofIndex 2]) := by
  obtain ⟨hperm, -, hagain⟩ := ofExpression_of_any_order ⟨.cat (.star (.alt (.leaf (.ofIndex 0))
    (.leaf (.ofIndex 1)))) (.leaf (.ofIndex 2)), #[some 'a', some 'b', none], .ofIndex 2⟩
  exact ⟨_, rfl, hperm _ (List.reverse_perm _), hagain _ fun entry => Array.mem_toList_iff.1, rfl⟩

end FollowTable

end PositionAutomaton
