import Mathlib.Logic.Relation
import PositionAutomaton.OrderedSet.Lemmas
import PositionAutomaton.Proofs.Expression.Table

/-!
# Blocks of node tables

The nodes below a node of a table are found by going from nodes to their operands. In a `Block` they
stand side by side: the blocks of the operands follow each other without a gap, and the node itself
comes right behind them. The positions of the leaves follow each other in the same way.

* `Block.spans` and `Block.covers`: a block has the nodes and the leaves that are below its root.
* `Block.bounds`: the boundary of the root lists positions of the block, and some at either end.
* `InBlocks.eq_of_isOperand`: where every node is the root of a block, none is an operand of two
  others.
-/

namespace PositionAutomaton

variable {table : Array Entry} {i j k start low mid high : Nat} {node : Node} {entry : Entry}
  {b c : Boundary} {p : Position}

/-! ### Sets of positions between bounds -/

/-- A set `s` has members, and their indices are from `low` on and before `high`. -/
def PositionSet.Bounded (s : PositionSet) (low high : Nat) : Prop :=
  (∃ p, p ∈ s) ∧ ∀ p ∈ s, low ≤ p.index ∧ p.index < high

namespace PositionSet.Bounded

variable {s t : PositionSet}

/-- The lower bound `low` is at most the upper one, since there is a member in between. -/
theorem le (h : s.Bounded low high) : low ≤ high := by
  obtain ⟨⟨p, hp⟩, hbounds⟩ := h
  exact Nat.le_trans (hbounds p hp).1 (Nat.le_of_lt (hbounds p hp).2)

/-- A set with the one member `p` is between the index of `p` and the next one. -/
theorem singleton (p : Position) : Bounded (.singleton p) p.index (p.index + 1) := by
  refine ⟨⟨p, OrderedSet.mem_singleton.2 rfl⟩, fun q hq => ?_⟩
  obtain rfl := OrderedSet.mem_singleton.1 hq
  exact ⟨Nat.le_refl _, Nat.lt_succ_self _⟩

/-- The upper bound `mid` may be larger. -/
theorem left (h : s.Bounded low mid) (hle : mid ≤ high) : s.Bounded low high :=
  ⟨h.1, fun p hp => ⟨(h.2 p hp).1, Nat.lt_of_lt_of_le (h.2 p hp).2 hle⟩⟩

/-- The lower bound `mid` may be smaller. -/
theorem right (h : s.Bounded mid high) (hle : low ≤ mid) : s.Bounded low high :=
  ⟨h.1, fun p hp => ⟨Nat.le_trans hle (h.2 p hp).1, (h.2 p hp).2⟩⟩

/-- The union of two sets `s` and `t` side by side is between their outer bounds. -/
theorem union (hs : s.Bounded low mid) (ht : t.Bounded mid high) :
    Bounded (s.union t) low high := by
  obtain ⟨p, hp⟩ := hs.1
  refine ⟨⟨p, OrderedSet.mem_union.2 (.inl hp)⟩, fun q hq => ?_⟩
  rcases OrderedSet.mem_union.1 hq with hq | hq
  · exact (hs.left ht.le).2 q hq
  · exact (ht.right hs.le).2 q hq

end PositionSet.Bounded

/-- The first and the last positions of a boundary `b` are between two bounds. -/
def Boundary.Bounded (b : Boundary) (low high : Nat) : Prop :=
  b.first.Bounded low high ∧ b.last.Bounded low high

/-- The boundary of a choice is between the outer bounds of its operands, of the boundaries `b` and
`c`. -/
theorem Boundary.Bounded.alt (hb : b.Bounded low mid) (hc : c.Bounded mid high) :
    (b.alt c).Bounded low high :=
  ⟨hb.1.union hc.1, hb.2.union hc.2⟩

/-- The boundary of a concatenation is between the outer bounds of its operands, of the boundaries
`b` and `c`. -/
theorem Boundary.Bounded.cat (hb : b.Bounded low mid) (hc : c.Bounded mid high) :
    (b.cat c).Bounded low high := by
  rw [Boundary.cat]
  constructor
  · change PositionSet.Bounded (if b.nullable then _ else _) low high
    split
    next => exact hb.1.union hc.1
    next => exact hb.1.left hc.1.le
  · change PositionSet.Bounded (if c.nullable then _ else _) low high
    split
    next => exact hb.2.union hc.2
    next => exact hc.2.right hb.2.le

/-! ### Nodes below a node -/

/-- The node at `i` has the one at `j` as an operand. -/
def IsOperand (table : Array Entry) (j i : Nat) : Prop :=
  ∃ entry, table[i]? = some entry ∧ j ∈ entry.node.operands

/-- The node at `j` is the one at `i` or below it, by one step from a node to an operand or more. -/
def Below (table : Array Entry) (j i : Nat) : Prop :=
  Relation.ReflTransGen (IsOperand table) j i

/-- The nodes below the one at `i`, with itself, are those from `start` to `i`. -/
def Spans (table : Array Entry) (start i : Nat) : Prop :=
  start ≤ i ∧ ∀ j, Below table j i ↔ start ≤ j ∧ j ≤ i

/-- The positions of the leaves below the node at `i` are those whose index is from `low` on and
before `high`. -/
def Covers (table : Array Entry) (i low high : Nat) : Prop :=
  low < high ∧ ∀ p, (∃ j b, Below table j i ∧ table[j]? = some ⟨.leaf p, b⟩) ↔
    low ≤ p.index ∧ p.index < high

/-- The operands of a node at `i` are placed without gaps: the last one comes right before the node,
and a left one right before the nodes of the right one. The positions from `low` on and before
`high` are split between them in the same order. -/
def Node.Placed (table : Array Entry) (i low high : Nat) : Node → Prop
  | leaf p => low = p.index ∧ high = p.index + 1
  | star inner => inner + 1 = i ∧ Covers table inner low high
  | alt left right | cat left right =>
    right + 1 = i ∧ Spans table (left + 1) right ∧
      ∃ mid, Covers table left low mid ∧ Covers table right mid high

/-- The nodes below the one at `i` are those below its operands, and itself. -/
theorem below_iff (hi : table[i]? = some entry) :
    Below table j i ↔ j = i ∨ ∃ k ∈ entry.node.operands, Below table j k := by
  rw [Below, Relation.ReflTransGen.cases_tail_iff, eq_comm]
  refine or_congr_right ⟨?_, ?_⟩
  · rintro ⟨k, hk, entry', hi', hmem⟩
    cases hi.symm.trans hi'
    exact ⟨k, hmem, hk⟩
  · rintro ⟨k, hmem, hk⟩
    exact ⟨k, hk, entry, hi, hmem⟩

/-- The leaves below a node at `i` that is no leaf are those below its operands. -/
theorem exists_leaf_below_iff (hi : table[i]? = some entry) (hnode : entry.node ≠ .leaf p) :
    (∃ j b, Below table j i ∧ table[j]? = some ⟨.leaf p, b⟩) ↔
      ∃ k ∈ entry.node.operands, ∃ j b, Below table j k ∧ table[j]? = some ⟨.leaf p, b⟩ := by
  simp only [below_iff hi]
  constructor
  · rintro ⟨j, b, rfl | ⟨k, hmem, hk⟩, hj⟩
    · cases hi.symm.trans hj
      exact absurd rfl hnode
    · exact ⟨k, hmem, j, b, hk, hj⟩
  · rintro ⟨k, hmem, j, b, hk, hj⟩
    exact ⟨j, b, .inr ⟨k, hmem, hk⟩, hj⟩

/-! ### Blocks -/

/-- `Block table start i low high` says that the nodes from `start` to `i` are those of one operand
with its root at `i`, each behind its own operands, and that the leaves among them have the
positions whose index is from `low` on and before `high`. -/
inductive Block (table : Array Entry) : (start i low high : Nat) → Prop where
  /-- A leaf is a block for itself. -/
  | leaf {i : Nat} {p : Position} {b : Boundary} :
      table[i]? = some ⟨.leaf p, b⟩ → Block table i i p.index (p.index + 1)
  /-- A repetition comes right behind its operand. -/
  | star {start i low high : Nat} {b : Boundary} :
      table[i + 1]? = some ⟨.star i, b⟩ → Block table start i low high →
        Block table start (i + 1) low high
  /-- A choice comes right behind its right operand, and that one behind the left operand. -/
  | alt {start left i low mid high : Nat} {b : Boundary} :
      table[i + 1]? = some ⟨.alt left i, b⟩ → Block table start left low mid →
        Block table (left + 1) i mid high → Block table start (i + 1) low high
  /-- A concatenation comes right behind its right operand, and that one behind the left
  operand. -/
  | cat {start left i low mid high : Nat} {b : Boundary} :
      table[i + 1]? = some ⟨.cat left i, b⟩ → Block table start left low mid →
        Block table (left + 1) i mid high → Block table start (i + 1) low high

namespace Block

/-- A block of `table` stays one in a table `u` that keeps its entries. -/
theorem keeps {u : Array Entry} (h : Block table start i low high) (hkeeps : Keeps table u) :
    Block u start i low high := by
  induction h with
  | leaf hi => exact .leaf (hkeeps _ _ hi)
  | star hi _ ih => exact .star (hkeeps _ _ hi) ih
  | alt hi _ _ ihl ihr => exact .alt (hkeeps _ _ hi) ihl ihr
  | cat hi _ _ ihl ihr => exact .cat (hkeeps _ _ hi) ihl ihr

/-- The nodes of a block are those below its root `i`. -/
theorem spans (h : Block table start i low high) : Spans table start i := by
  induction h with
  | leaf hi =>
    refine ⟨Nat.le_refl _, fun j => ?_⟩
    simp only [below_iff hi, Node.operands, List.not_mem_nil, false_and, exists_false, or_false]
    omega
  | star hi _ ih =>
    refine ⟨Nat.le_succ_of_le ih.1, fun j => ?_⟩
    have := ih.1
    simp only [below_iff hi, Node.operands, List.mem_singleton, exists_eq_left, ih.2]
    omega
  | alt hi _ _ ihl ihr | cat hi _ _ ihl ihr =>
    -- the right operand starts where the left one ends, so that there is no gap to close
    have hleft := ihl.1
    have hright := ihr.1
    refine ⟨by omega, fun j => ?_⟩
    simp only [below_iff hi, Node.operands, List.mem_cons, List.not_mem_nil, or_false, or_and_right,
      exists_or, exists_eq_left, ihl.2, ihr.2]
    omega

/-- The positions of a block are those of the leaves below its root `i`. -/
theorem covers (h : Block table start i low high) : Covers table i low high := by
  induction h with
  | @leaf i p b hi =>
    -- the bounds leave room for the position of the leaf alone
    refine ⟨Nat.lt_succ_self _, fun q => ?_⟩
    simp only [below_iff hi, Node.operands, List.not_mem_nil, false_and, exists_false, or_false]
    constructor
    · rintro ⟨_, _, rfl, hj⟩
      cases hi.symm.trans hj
      exact ⟨Nat.le_refl _, Nat.lt_succ_self _⟩
    · intro hq
      obtain rfl : q = p := Position.index_inj.1 (by omega)
      exact ⟨i, b, rfl, hi⟩
  | star hi _ ih =>
    refine ⟨ih.1, fun p => ?_⟩
    rw [exists_leaf_below_iff hi (by simp), ← ih.2]
    simp [Node.operands]
  | alt hi _ _ ihl ihr | cat hi _ _ ihl ihr =>
    have hleft := ihl.1
    have hright := ihr.1
    refine ⟨by omega, fun p => ?_⟩
    rw [exists_leaf_below_iff hi (by simp)]
    simp only [Node.operands, List.mem_cons, List.not_mem_nil, or_false, or_and_right,
      exists_or, exists_eq_left, ihl.2, ihr.2]
    omega

/-- The operands of the root of a block are `Placed` without gaps. -/
theorem placed (h : Block table start i low high) (hi : table[i]? = some entry) :
    entry.node.Placed table i low high := by
  cases h with
  | leaf hi' =>
    cases hi.symm.trans hi'
    exact ⟨rfl, rfl⟩
  | star hi' hinner =>
    cases hi.symm.trans hi'
    exact ⟨rfl, hinner.covers⟩
  | alt hi' hleft hright | cat hi' hleft hright =>
    cases hi.symm.trans hi'
    exact ⟨rfl, hright.spans, _, hleft.covers, hright.covers⟩

/-- The boundary at the root of a block lists positions of the block, if the table is `InOrder`. -/
theorem bounds (h : Block table start i low high) (htable : InOrder table)
    (hi : table[i]? = some entry) : entry.boundary.Bounded low high := by
  induction h generalizing entry with
  | leaf hj =>
    cases hi.symm.trans hj
    obtain rfl := htable.boundary_eq_of_leaf hi
    exact ⟨.singleton _, .singleton _⟩
  | star hj _ ih =>
    cases hi.symm.trans hj
    obtain ⟨operand, hoperand, -, rfl⟩ := htable.exists_of_star hi
    -- a repetition has the first and the last positions of its operand
    have hinner := ih hoperand
    exact hinner
  | alt hj _ _ ihl ihr =>
    cases hi.symm.trans hj
    obtain ⟨left, right, hleft, hright, -, -, rfl⟩ := htable.exists_of_alt hi
    exact (ihl hleft).alt (ihr hright)
  | cat hj _ _ ihl ihr =>
    cases hi.symm.trans hj
    obtain ⟨left, right, hleft, hright, -, -, rfl⟩ := htable.exists_of_cat hi
    exact (ihl hleft).cat (ihr hright)

/-- The last operand of the root of a block comes right before it. Any other one comes right before
the nodes of the last one. -/
theorem succ_eq_or_spans (h : Block table start i low high) (hj : IsOperand table j i) :
    j + 1 = i ∨ ∃ last, last + 1 = i ∧ Spans table (j + 1) last := by
  obtain ⟨⟨node, b⟩, hi, hmem⟩ := hj
  have hplaced := h.placed hi
  cases node with
  | leaf p => simp [Node.operands] at hmem
  | star inner =>
    obtain rfl := List.mem_singleton.1 hmem
    exact .inl hplaced.1
  | alt left right | cat left right =>
    obtain ⟨hlast, hspans, -⟩ := hplaced
    simp only [Node.operands, List.mem_cons, List.not_mem_nil, or_false] at hmem
    rcases hmem with rfl | rfl
    · exact .inr ⟨right, hlast, hspans⟩
    · exact .inl hlast

end Block

/-- Every node of `table` is the root of a block. -/
def InBlocks (table : Array Entry) : Prop :=
  ∀ i < table.size, ∃ start low high, Block table start i low high

namespace InBlocks

variable (h : InBlocks table)
include h

/-- The last operand of a node comes right before it, and any other one right before the nodes of
the last one. -/
theorem succ_eq_or_spans (hj : IsOperand table j i) :
    j + 1 = i ∨ ∃ last, last + 1 = i ∧ Spans table (j + 1) last := by
  obtain ⟨entry, hi, -⟩ := id hj
  obtain ⟨hlt, -⟩ := Array.getElem?_eq_some_iff.1 hi
  obtain ⟨start, low, high, hblock⟩ := h i hlt
  exact hblock.succ_eq_or_spans hj

/-- A node, at `i`, does not come before its operands. -/
theorem lt_of_isOperand (hj : IsOperand table j i) : j < i := by
  rcases h.succ_eq_or_spans hj with rfl | ⟨last, rfl, hspans⟩
  · exact Nat.lt_succ_self _
  · exact Nat.lt_succ_of_le (Nat.le_of_succ_le hspans.1)

/-- A node at `j` that is an operand of the one at `i` is no operand of a later one. -/
theorem le_of_isOperand (hi : IsOperand table j i) (hk : IsOperand table j k) : k ≤ i := by
  have hji := h.lt_of_isOperand hi
  rcases h.succ_eq_or_spans hk with rfl | ⟨last, rfl, hspans⟩
  · exact hji
  · -- otherwise both would be below the last operand of the later one, which starts behind them
    refine Nat.le_of_not_lt fun hlt => ?_
    have hlast : Below table i last := (hspans.2 i).2 ⟨hji, Nat.le_of_lt_succ hlt⟩
    have hj : Below table j last := .head hi hlast
    exact absurd ((hspans.2 j).1 hj).1 (Nat.not_succ_le_self j)

/-- No node `j` is an operand of two others. -/
theorem eq_of_isOperand (hi : IsOperand table j i) (hk : IsOperand table j k) : i = k :=
  Nat.le_antisymm (h.le_of_isOperand hk hi) (h.le_of_isOperand hi hk)

end InBlocks

end PositionAutomaton
