import PositionAutomaton.Proofs.Expression.Words
import PositionAutomaton.Proofs.NodeTable.Blocks
import PositionAutomaton.Proofs.PositionSet

/-!
# The shape of node tables

While an expression is put together, the operands on the stack tile what there is so far: their
blocks follow each other from the first entry of the table to the last one, and their positions from
the first to the last one given (`Assembly.Tiled`). Each token either adds a block behind the others
or makes one block of the last ones and a root behind them (`Assembly.Tiled.step`).

Main statement:

* `shape_of_ofPostfix_eq_ok`: in the table of an expression, the nodes below a node and the
  positions of its leaves are without gaps, operands come right before what they belong to, each
  node but the root is an operand of exactly one other, and boundaries keep within their block.
-/

namespace PositionAutomaton

namespace Expression

variable {table u : Array Entry} {start size low high count : Nat}

/-- `Tiles table roots size count` says that the operands with the given roots, of which the first
is the last one in the table, have adjacent blocks: these end before the entry `size` and have the
positions whose index is less than `count`. -/
inductive Tiles (table : Array Entry) : List Nat → (size count : Nat) → Prop where
  /-- Without operands there are no entries and no positions. -/
  | nil : Tiles table [] 0 0
  /-- An operand has its block behind those of the others. -/
  | cons {rest : List Nat} {start i low high : Nat} :
      Tiles table rest start low → Block table start i low high →
        Tiles table (i :: rest) (i + 1) high

/-- Operands that tile `table` tile a table `u` that keeps its entries. -/
theorem Tiles.keeps {roots : List Nat} (h : Tiles table roots size count)
    (hkeeps : Keeps table u) : Tiles u roots size count := by
  induction h with
  | nil => exact .nil
  | cons _ hblock ih => exact .cons ih (hblock.keeps hkeeps)

/-- The operand at the root `i`, the last one, ends the tiling, and the others tile what is before
it. -/
theorem tiles_cons_iff {i : Nat} {rest : List Nat} :
    Tiles table (i :: rest) size count ↔
      size = i + 1 ∧ ∃ start low, Tiles table rest start low ∧ Block table start i low count := by
  constructor
  · rintro (_ | ⟨hrest, hblock⟩)
    exact ⟨rfl, _, _, hrest, hblock⟩
  · rintro ⟨rfl, start, low, hrest, hblock⟩
    exact .cons hrest hblock

namespace Assembly

variable {a b : Assembly} {t : Token} {tokens : List Token}

/-- The operands on the stack tile the table and the positions given so far, and every node of the
table is the root of a block. -/
structure Tiled (a : Assembly) : Prop where
  /-- The operands are adjacent. -/
  tiles : Tiles a.table a.roots a.table.size a.symbols.size
  /-- Every node has its operands right before it. -/
  inBlocks : InBlocks a.table

/-- Before the first token, `{}` has nothing to tile. -/
theorem tiled_empty : Tiled {} where
  tiles := .nil
  inBlocks i hi := absurd hi (Nat.not_lt_zero i)

namespace Tiled

/-- A new entry keeps up the tiling if it is the root of a block behind the operands `rest` that are
left on the stack. -/
theorem of_block {entry : Entry} {rest : List Nat} (ha : a.Tiled)
    (htable : b.table = a.table.push entry) (hroots : b.roots = a.table.size :: rest)
    (hrest : Tiles a.table rest start low)
    (hblock : Block b.table start a.table.size low b.symbols.size) : b.Tiled := by
  have hkeeps : Keeps a.table b.table := htable ▸ keeps_push _ _
  have hsize : b.table.size = a.table.size + 1 := by rw [htable, Array.size_push]
  constructor
  · rw [hroots, hsize]
    exact .cons (hrest.keeps hkeeps) hblock
  · intro i hi
    rw [hsize] at hi
    rcases Nat.lt_succ_iff_lt_or_eq.1 hi with hlt | rfl
    · obtain ⟨start, low, high, h⟩ := ha.inBlocks i hlt
      exact ⟨start, low, high, h.keeps hkeeps⟩
    · exact ⟨_, _, _, hblock⟩

/-- Each token that `step` takes in keeps up the tiling. -/
theorem step (ha : a.Tiled) (hb : a.step t = .ok b) : b.Tiled := by
  -- the token makes a node of the last operands; what is left is to see that they are adjacent
  obtain ⟨node, rest, boundary, hnode, -, htable, hroots⟩ := tabulates_of_step_eq_ok hb
  have hkeeps : Keeps a.table b.table := htable ▸ keeps_push _ _
  have hlast : b.table[a.table.size]? = some ⟨node, boundary⟩ := by
    rw [htable, Array.getElem?_push_size]
  have htiles := ha.tiles
  have hcount := size_symbols_of_step_eq_ok hb
  rw [node?_eq_some_iff] at hnode
  cases hkind : t.kind with
  | letter | endMark =>
    rw [hkind] at hnode
    obtain ⟨rfl, rfl⟩ := hnode
    rw [Token.leaves_singleton_of_isLeaf (by rw [hkind]; rfl)] at hcount
    exact ha.of_block htable hroots htiles (hcount ▸ .leaf hlast)
  | star =>
    rw [hkind] at hnode
    obtain ⟨inner, hstack, rfl⟩ := hnode
    rw [Token.leaves_singleton_of_not_isLeaf (by rw [hkind]; rfl)] at hcount
    rw [hstack] at htiles
    obtain ⟨hsize, start, low, hrest, hblock⟩ := tiles_cons_iff.1 htiles
    rw [hsize] at hlast
    exact ha.of_block htable hroots hrest (hcount ▸ hsize ▸ .star hlast (hblock.keeps hkeeps))
  | bar =>
    rw [hkind] at hnode
    obtain ⟨right, left, hstack, rfl⟩ := hnode
    rw [Token.leaves_singleton_of_not_isLeaf (by rw [hkind]; rfl)] at hcount
    -- the block of the left operand ends where that of the right one starts
    rw [hstack] at htiles
    obtain ⟨hsize, middle, mid, htiles, hright⟩ := tiles_cons_iff.1 htiles
    obtain ⟨rfl, start, low, hrest, hleft⟩ := tiles_cons_iff.1 htiles
    rw [hsize] at hlast
    exact ha.of_block htable hroots hrest
      (hcount ▸ hsize ▸ .alt hlast (hleft.keeps hkeeps) (hright.keeps hkeeps))
  | concat =>
    rw [hkind] at hnode
    obtain ⟨right, left, hstack, rfl⟩ := hnode
    rw [Token.leaves_singleton_of_not_isLeaf (by rw [hkind]; rfl)] at hcount
    rw [hstack] at htiles
    obtain ⟨hsize, middle, mid, htiles, hright⟩ := tiles_cons_iff.1 htiles
    obtain ⟨rfl, start, low, hrest, hleft⟩ := tiles_cons_iff.1 htiles
    rw [hsize] at hlast
    exact ha.of_block htable hroots hrest
      (hcount ▸ hsize ▸ .cat hlast (hleft.keeps hkeeps) (hright.keeps hkeeps))
  | opening | closing =>
    rw [hkind] at hnode
    exact hnode.elim

/-- What is put together from a sequence is `Tiled` by its operands. -/
theorem run (h : Assembly.run tokens = .ok a) : a.Tiled :=
  of_foldlM_eq_ok (fun _ => step) tiled_empty h

end Tiled

end Assembly

variable {e : Expression} {form : Postfix}

/-- Every node of the table `e.entries` is the root of a block, and the block of `e.root` is the
whole table. -/
theorem inBlocks_entries_of_ofPostfix_eq_ok (h : ofPostfix form = .ok e) :
    InBlocks e.entries ∧ Spans e.entries 0 e.root := by
  obtain ⟨a, ha, htable, hroots⟩ := exists_run_of_ofPostfix_eq_ok h
  obtain ⟨htiles, hblocks⟩ := Assembly.Tiled.run ha
  rw [htable, hroots, tiles_cons_iff] at htiles
  obtain ⟨-, _, _, _ | _, hroot⟩ := htiles
  exact ⟨htable ▸ hblocks, hroot.spans⟩

/-- In the table of an expression from a postfix sequence, the nodes below a node and the positions
of its leaves are without gaps. Operands come right before the node they belong to, the left one
right before the nodes of the right one, and split the positions in that order. The first and the
last positions of a node are listed in increasing order, and there are some of either, all among the
positions of its leaves. Each node but the root is an operand of exactly one other. -/
theorem shape_of_ofPostfix_eq_ok (h : ofPostfix form = .ok e) :
    e.entries.size = form.tokens.length ∧ e.root + 1 = e.entries.size ∧
    (∀ i entry, e.entries[i]? = some entry → ∃ start low high,
      Spans e.entries start i ∧ Covers e.entries i low high ∧
      entry.node.Placed e.entries i low high ∧
      ∀ s ∈ [entry.boundary.first, entry.boundary.last],
        s.toList ≠ [] ∧ (s.toList.Pairwise fun p q => p.number < q.number) ∧
          ∀ p ∈ s, low ≤ p.index ∧ p.index < high) ∧
    (∀ j < e.root, ∃! i, IsOperand e.entries j i) ∧ ∀ i, ¬IsOperand e.entries e.root i := by
  obtain ⟨hblocks, hroot⟩ := inBlocks_entries_of_ofPostfix_eq_ok h
  have hinOrder := inOrder_entries_of_ofPostfix_eq_ok h
  refine ⟨size_entries_of_ofPostfix_eq_ok h, e.root_add_one, fun i entry hi => ?_, fun j hj => ?_,
    fun i hi => ?_⟩
  · obtain ⟨hlt, -⟩ := Array.getElem?_eq_some_iff.1 hi
    obtain ⟨start, low, high, hblock⟩ := hblocks i hlt
    obtain ⟨hfirst, hlast⟩ := hblock.bounds hinOrder hi
    refine ⟨start, low, high, hblock.spans, hblock.covers, hblock.placed hi, ?_⟩
    have hlisted {s : PositionSet} (hs : s.Bounded low high) : s.toList ≠ [] ∧
        (s.toList.Pairwise fun p q => p.number < q.number) ∧
          ∀ p ∈ s, low ≤ p.index ∧ p.index < high := by
      obtain ⟨⟨p, hp⟩, hbounds⟩ := hs
      exact ⟨List.ne_nil_of_mem hp, s.pairwise_number_toList, hbounds⟩
    simpa using ⟨hlisted hfirst, hlisted hlast⟩
  · -- the way up to the root starts with a node that the given one is an operand of
    have hbelow : Below e.entries j e.root := (hroot.2 j).2 ⟨Nat.zero_le j, hj.le⟩
    rcases hbelow.cases_head with rfl | ⟨i, hi, -⟩
    · exact absurd hj (Nat.lt_irrefl _)
    · exact ⟨i, hi, fun k hk => hblocks.eq_of_isOperand hk hi⟩
  · -- operands come before the node they belong to, and nothing comes behind the root
    obtain ⟨entry, hentry, -⟩ := id hi
    obtain ⟨hlt, -⟩ := Array.getElem?_eq_some_iff.1 hentry
    have := hblocks.lt_of_isOperand hi
    have := e.root_add_one
    omega

/-- In the table of `a(b|c)` with its end mark, the group is the right operand of the fifth node. It
comes right before that node, and the left operand right before the three nodes of the group. -/
theorem shape_of_grouped_right_operand :
    ∃ form e, ofPostfix form = .ok e ∧
      e.tree = .cat (.cat (.leaf (.ofIndex 0)) (.alt (.leaf (.ofIndex 1)) (.leaf (.ofIndex 2))))
        (.leaf (.ofIndex 3)) ∧
      (e.entries[4]?.map (·.node) = some (.cat 0 3) ∧ Spans e.entries 1 3 ∧
        ∃ low mid high, Covers e.entries 0 low mid ∧ Covers e.entries 3 mid high) ∧
      (∃! i, IsOperand e.entries 0 i) ∧ ∀ i, ¬IsOperand e.entries 6 i := by
  let form : Postfix := ⟨[⟨.letter, 'a', ⟨0⟩⟩, ⟨.letter, 'b', ⟨2⟩⟩, ⟨.letter, 'c', ⟨4⟩⟩,
    ⟨.bar, '|', ⟨3⟩⟩, .concat ⟨1⟩, .endMark ⟨6⟩, .concat ⟨6⟩]⟩
  have hform : ofPostfix form =
      .ok (.ofRegex (.cat (.leaf 'a') (.alt (.leaf 'b') (.leaf 'c')))) := rfl
  obtain ⟨-, -, hentries, hoperand, hroot⟩ := shape_of_ofPostfix_eq_ok hform
  refine ⟨form, _, hform, rfl, ⟨rfl, ?_⟩, hoperand 0 (by decide), hroot⟩
  obtain ⟨-, low, high, -, -, ⟨-, hspans, mid, hleft, hright⟩, -⟩ := hentries 4 _ rfl
  exact ⟨hspans, low, mid, high, hleft, hright⟩

end Expression

end PositionAutomaton
