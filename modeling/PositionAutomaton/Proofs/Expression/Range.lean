import PositionAutomaton.Automaton.Construction
import PositionAutomaton.Proofs.Expression.Table
import PositionAutomaton.Proofs.FollowTable

/-!
# What an expression looks up in its tables

The follow table of an expression is computed from its node table, and its automaton from both.
Whatever is looked up on the way is there, if the expression comes from a postfix sequence
(`inRange_of_ofPostfix_eq_ok`).
-/

namespace PositionAutomaton

/-- The entries that `tabulate` adds for `r` have leaves of `r` as their first and last
positions. -/
theorem Regex.mem_leaves_of_mem_tabulate {r : Regex Position} {table : Array Entry} {entry : Entry}
    {p : Position} (h : entry ∈ (r.tabulate table).1)
    (hp : p ∈ entry.boundary.first ∨ p ∈ entry.boundary.last) : entry ∈ table ∨ p ∈ r.leaves := by
  have hroot (s : Regex Position) (hs : p ∈ s.boundary.first ∨ p ∈ s.boundary.last) :
      p ∈ s.leaves := by
    rw [mem_first_boundary_iff, mem_last_boundary_iff] at hs
    rcases hs with ⟨w, hw⟩ | ⟨w, hw⟩
    · exact hw.mem_leaves List.mem_cons_self
    · exact hw.mem_leaves (List.mem_append_right w List.mem_cons_self)
  -- the entry is that of an operand, or that of the root
  induction r generalizing table with
  | leaf q =>
    rcases Array.mem_push.1 h with h | rfl
    · exact .inl h
    · exact .inr (hroot (.leaf q) hp)
  | star r ih =>
    rcases Array.mem_push.1 h with h | rfl
    · exact ih h
    · rw [boundary_tabulate] at hp
      exact .inr (hroot (.star r) hp)
  | alt l r ihl ihr | cat l r ihl ihr =>
    rcases Array.mem_push.1 h with h | rfl
    · rcases ihr h with h | h
      · exact (ihl h).imp_right (List.mem_append_left _)
      · exact .inr (List.mem_append_right _ h)
    · rw [boundary_tabulate, boundary_tabulate] at hp
      exact .inr (hroot _ hp)

namespace Expression

/-- What is looked up for an expression in its node table and its follow table is there. -/
structure InRange (e : Expression) : Prop where
  /-- The leaves are numbered from one. -/
  numbers : e.tree.leaves.map Position.number = List.range' 1 e.positionCount
  /-- Each entry stands behind those of its operands and is computed from them. -/
  inOrder : InOrder e.entries
  /-- The root has an entry, and the automaton starts in its first positions. -/
  root : ∃ entry, e.entries[e.root]? = some entry ∧ entry.boundary.first = e.start
  /-- While the follow table is filled, the last positions of every entry have rows. -/
  last : ∀ entry ∈ e.entries, ∀ p ∈ entry.boundary.last, ∀ taken : List Entry,
    ((taken.foldl (FollowTable.extend e.entries) (.blank e.positionCount)).row? p).isSome = true
  /-- Positions at which a letter is read have rows. -/
  rows : ∀ p, (e.symbol? p).isSome = true → ((FollowTable.ofExpression e).row? p).isSome = true

variable {e : Expression} {form : Postfix}

/-- An expression from a postfix sequence is `InRange`: it finds what it looks up. -/
theorem inRange_of_ofPostfix_eq_ok (h : ofPostfix form = .ok e) : e.InRange := by
  have hleaves := leaves_tree_of_ofPostfix_eq_ok h
  constructor
  case numbers =>
    rw [hleaves, positions, List.map_map, List.range'_eq_map_range]
    exact List.map_congr_left fun i _ => Nat.add_comm i 1
  case inOrder => exact inOrder_entries_of_ofPostfix_eq_ok h
  case root =>
    obtain ⟨node, hnode⟩ := e.tree.getElem?_tabulate_root #[]
    exact ⟨_, hnode, rfl⟩
  case last =>
    intro entry hentry p hp taken
    rw [FollowTable.isSome_row?_iff, FollowTable.size_rows_foldl_extend,
      FollowTable.size_rows_blank, ← mem_positions_iff, ← hleaves]
    exact (Regex.mem_leaves_of_mem_tabulate hentry (.inr hp)).resolve_left (by simp)
  case rows => exact fun p hp => FollowTable.isSome_row?_ofExpression hp

end Expression

end PositionAutomaton
