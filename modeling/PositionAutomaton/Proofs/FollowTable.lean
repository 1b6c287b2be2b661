import PositionAutomaton.FollowTable
import PositionAutomaton.Proofs.Boundary
import PositionAutomaton.Proofs.Expression.Numbering
import PositionAutomaton.Proofs.NodeTable

/-!
# What follow tables say about words

A follow table is filled by one union for each pair of sets that a node connects. What it
allows in the end is therefore what some node links (`allows_foldl_extend_iff`), in whatever
order the nodes are taken in. The nodes of an expression link the positions that stand side
by side in its words (`links_entries_iff`).

Main statement:

* `allows_ofExpression_iff`: the table of an expression lets one position follow another if
  it does so in a word of the expression.
-/

namespace PositionAutomaton

namespace FollowTable

variable {entries : Array Entry} {entry : Entry} {t : FollowTable} {p q : Position}

/-- The table `t` has a row for `p`, and `q` is in it. -/
def Allows (t : FollowTable) (p q : Position) : Prop :=
  ∃ row, t.row? p = some row ∧ q ∈ row

/-- What may follow `p` is what its row has. -/
theorem allows_iff_of_row?_eq_some {row : PositionSet} (h : t.row? p = some row) :
    t.Allows p q ↔ q ∈ row := by
  simp [Allows, h]

/-- There is a row for each position up to the number of rows. -/
theorem isSome_row?_iff : (t.row? p).isSome = true ↔ p.index < t.rows.size := by
  simp [row?]

/-- The table `blank n` has `n` rows. -/
@[simp]
theorem size_rows_blank (n : Nat) : (blank n).rows.size = n :=
  Array.size_replicate

/-- The table `blank n` allows nothing. -/
@[simp]
theorem not_allows_blank {n : Nat} : ¬(blank n).Allows p q := by
  rintro ⟨row, hrow, hq⟩
  simp only [row?, blank, Array.getElem?_replicate, Option.ite_none_right_eq_some,
    Option.some.injEq] at hrow
  obtain ⟨-, rfl⟩ := hrow
  exact OrderedSet.not_mem_empty hq

/-- Two tables with as many rows are equal if `Allows` is the same for them. -/
theorem eq_of_allows_iff {u : FollowTable} (hsize : t.rows.size = u.rows.size)
    (h : ∀ p q, t.Allows p q ↔ u.Allows p q) : t = u := by
  obtain ⟨rows⟩ := t
  obtain ⟨rows'⟩ := u
  refine congrArg FollowTable.mk (Array.ext hsize fun i hi hi' => ?_)
  ext q
  have hq := h (.ofIndex i) q
  simpa [Allows, row?, hi, hi'] using hq

/-! ### Updates -/

/-- With `add`, the number of rows stays the same. -/
@[simp]
theorem size_rows_add (s : Position) (targets : PositionSet) :
    (t.add s targets).rows.size = t.rows.size := by
  simp [add]

/-- With `add`, the members of `targets` may follow `s`. -/
theorem allows_add_iff {s : Position} {targets : PositionSet} :
    (t.add s targets).Allows p q ↔
      t.Allows p q ∨ s = p ∧ p.index < t.rows.size ∧ q ∈ targets := by
  simp only [Allows, row?, add, Array.getElem?_modify, Position.index_inj]
  -- only the row of `s` changes, and only if there is one
  by_cases hs : s = p
  · subst hs
    by_cases hsize : s.index < t.rows.size
    · simp [hsize]
    · simp [hsize]
  · simp [hs]

/-- With `connect`, the number of rows stays the same. -/
@[simp]
theorem size_rows_connect (sources targets : PositionSet) :
    (t.connect sources targets).rows.size = t.rows.size := by
  rw [connect]
  induction sources.toList generalizing t with
  | nil => rfl
  | cons s sources ih => rw [List.foldl_cons, ih, size_rows_add]

/-- With `connect`, each member of `targets` may follow each member of `sources`. -/
theorem allows_connect_iff {sources targets : PositionSet} :
    (t.connect sources targets).Allows p q ↔
      t.Allows p q ∨ p ∈ sources ∧ p.index < t.rows.size ∧ q ∈ targets := by
  rw [connect, OrderedSet.mem_iff]
  -- the sources are taken one by one, each adding `targets` to its row
  induction sources.toList generalizing t with
  | nil => simp
  | cons s sources ih =>
    rw [List.foldl_cons, ih, allows_add_iff, size_rows_add, List.mem_cons]
    constructor
    · rintro ((h | ⟨rfl, hp, hq⟩) | ⟨hs, hp, hq⟩)
      · exact .inl h
      · exact .inr ⟨.inl rfl, hp, hq⟩
      · exact .inr ⟨.inr hs, hp, hq⟩
    · rintro (h | ⟨rfl | hs, hp, hq⟩)
      · exact .inl (.inl h)
      · exact .inl (.inr ⟨rfl, hp, hq⟩)
      · exact .inr ⟨hs, hp, hq⟩

/-- What the node of `entry` connects: the ends of a repetition with its starts, and the ends of the
left operand of a concatenation with the starts of the right one. -/
def Links (entries : Array Entry) (entry : Entry) (p q : Position) : Prop :=
  match entry.node with
  | .leaf _ | .alt _ _ => False
  | .star _ => p ∈ entry.boundary.last ∧ q ∈ entry.boundary.first
  | .cat left right =>
    ∃ l r, entries[left]? = some l ∧ entries[right]? = some r ∧
      p ∈ l.boundary.last ∧ q ∈ r.boundary.first

/-- A leaf links nothing. -/
@[simp]
theorem not_links_leaf {s : Position} {b : Boundary} : ¬Links entries ⟨.leaf s, b⟩ p q :=
  id

/-- A choice links nothing. -/
@[simp]
theorem not_links_alt {left right : Nat} {b : Boundary} :
    ¬Links entries ⟨.alt left right, b⟩ p q :=
  id

/-- With `extend`, the number of rows stays the same. -/
@[simp]
theorem size_rows_extend : (t.extend entries entry).rows.size = t.rows.size := by
  rw [extend]
  split
  next => rfl
  next => rfl
  next => exact size_rows_connect _ _
  next =>
    split
    next => exact size_rows_connect _ _
    next => rfl

/-- With `extend`, what the node of `entry` links is allowed. -/
theorem allows_extend_iff :
    (t.extend entries entry).Allows p q ↔
      t.Allows p q ∨ p.index < t.rows.size ∧ Links entries entry p q := by
  obtain ⟨node, b⟩ := entry
  cases node with
  | leaf s => simp [extend]
  | alt left right => simp [extend]
  | star inner => simp only [extend, Links, allows_connect_iff, and_left_comm]
  | cat left right =>
    simp only [extend]
    split
    -- without entries for both operands the table stays as it is, and nothing is linked
    next l r hl hr =>
      rw [allows_connect_iff]
      simp [Links, hl, hr, and_left_comm]
    next hnone =>
      have hnot : ¬Links entries ⟨.cat left right, b⟩ p q :=
        fun ⟨l, r, hl, hr, _⟩ => hnone l r hl hr
      simp [hnot]

/-- With `extend` for all of `added`, the number of rows stays the same. -/
@[simp]
theorem size_rows_foldl_extend (added : List Entry) :
    (added.foldl (extend entries) t).rows.size = t.rows.size := by
  induction added generalizing t with
  | nil => rfl
  | cons entry added ih => rw [List.foldl_cons, ih, size_rows_extend]

/-- With `extend` for all of `added`, what one of these nodes links is allowed. -/
theorem allows_foldl_extend_iff {added : List Entry} :
    (added.foldl (extend entries) t).Allows p q ↔
      t.Allows p q ∨ p.index < t.rows.size ∧ ∃ entry ∈ added, Links entries entry p q := by
  induction added generalizing t with
  | nil => simp
  | cons entry added ih =>
    rw [List.foldl_cons, ih, allows_extend_iff, size_rows_extend]
    simp only [List.mem_cons, or_and_right, exists_or, exists_eq_left, and_or_left, or_assoc]

/-! ### The table of an expression -/

variable {r : Regex Position} {before after : Array Entry}

/-- The nodes of `r` that are added to the table `before` link what stands side by side in its
words. The links are looked up in any later table `after` that keeps the nodes. -/
theorem links_tabulate_iff (hafter : Keeps (r.tabulate before).1 after) :
    (∃ entry ∈ (r.tabulate before).1, Links after entry p q) ↔
      (∃ entry ∈ before, Links after entry p q) ∨ r.Follows p q := by
  induction r generalizing before with
  | leaf s =>
    simp only [Regex.tabulate, Node.record, Array.mem_push, or_and_right, exists_or,
      exists_eq_left, not_links_leaf, Regex.not_follows_leaf]
  | star r ih =>
    have hinner := (keeps_push _ _).trans hafter
    -- the entry of the repetition links the ends of its operand with its starts
    have hlinks : Links after ⟨.star ((r.tabulate before).1.size - 1), r.boundary.star⟩ p q ↔
        r.Ends p ∧ r.Starts q :=
      and_congr r.mem_last_boundary_iff r.mem_first_boundary_iff
    simp only [Regex.tabulate, Node.record, Array.mem_push, or_and_right, exists_or,
      exists_eq_left, Regex.boundary_tabulate, ih hinner, hlinks, Regex.follows_star_iff,
      or_assoc]
  | alt l r ihl ihr =>
    have hright := (keeps_push _ _).trans hafter
    have hleft := (r.keeps_tabulate _).trans hright
    simp only [Regex.tabulate, Node.record, Array.mem_push, or_and_right, exists_or,
      exists_eq_left, ihr hright, ihl hleft, not_links_alt, or_false, Regex.follows_alt_iff,
      or_assoc]
  | cat l r ihl ihr =>
    have hright := (keeps_push _ _).trans hafter
    have hleft := (r.keeps_tabulate _).trans hright
    -- the operands of the entry are looked up in the later table, which keeps them
    obtain ⟨nodeₗ, hl⟩ := l.getElem?_tabulate_root before
    obtain ⟨nodeᵣ, hr⟩ := r.getElem?_tabulate_root (l.tabulate before).1
    have hlinks (b : Boundary) : Links after ⟨.cat ((l.tabulate before).1.size - 1)
        ((r.tabulate (l.tabulate before).1).1.size - 1), b⟩ p q ↔ l.Ends p ∧ r.Starts q := by
      simp [Links, hleft _ _ hl, hright _ _ hr, Regex.mem_last_boundary_iff,
        Regex.mem_first_boundary_iff]
    simp only [Regex.tabulate, Node.record, Array.mem_push, or_and_right, exists_or,
      exists_eq_left, ihr hright, ihl hleft, hlinks, Regex.follows_cat_iff, or_assoc]

variable {e : Expression}

/-- The nodes of `e` link what stands side by side in its words. -/
theorem links_entries_iff :
    (∃ entry ∈ e.entries, Links e.entries entry p q) ↔ e.tree.Follows p q := by
  rw [Expression.entries, links_tabulate_iff (Keeps.refl _)]
  simp

/-- The table of `e` has a row for each of its positions. -/
@[simp]
theorem size_rows_ofExpression : (ofExpression e).rows.size = e.positionCount := by
  rw [ofExpression, ← Array.foldl_toList, size_rows_foldl_extend, size_rows_blank]

/-- The table of `e` has a row for each position at which a letter is read. -/
theorem isSome_row?_ofExpression (h : (e.symbol? p).isSome = true) :
    ((ofExpression e).row? p).isSome = true := by
  obtain ⟨c, hc⟩ := Option.isSome_iff_exists.1 h
  rw [isSome_row?_iff, size_rows_ofExpression]
  exact Expression.index_lt_of_symbol?_eq_some hc

/-- The table of `e` lets `q` follow `p` if they stand side by side in a word of `e`. -/
theorem allows_ofExpression_iff :
    (ofExpression e).Allows p q ↔ p.index < e.positionCount ∧ e.tree.Follows p q := by
  rw [ofExpression, ← Array.foldl_toList, allows_foldl_extend_iff, ← links_entries_iff]
  simp

end FollowTable

end PositionAutomaton
