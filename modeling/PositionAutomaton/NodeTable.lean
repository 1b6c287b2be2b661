import PositionAutomaton.Boundary
import PositionAutomaton.Expression

/-!
# Node tables

The nodes of an expression in postfix order, each with the indices of its operands and
with the boundary of the subexpression it is the root of. An operand stands before the
node it belongs to, so that every boundary is computed once, from entries already in the
table.
-/

namespace PositionAutomaton

/-- The root of a subexpression; operands are given by their index in the table. -/
inductive Node where
  /-- The leaf at a position. -/
  | leaf (p : Position)
  /-- A repetition of an operand. -/
  | star (inner : Nat)
  /-- A choice between two operands. -/
  | alt (left right : Nat)
  /-- A concatenation of two operands. -/
  | cat (left right : Nat)
  deriving DecidableEq

/-- What a node table holds for a node. -/
structure Entry where
  /-- The node. -/
  node : Node
  /-- The boundary of the subexpression it is the root of. -/
  boundary : Boundary
  deriving DecidableEq

/-- `Denotes entries i r` says that the node at index `i` of a table is the root of the
expression `r`, whose subexpressions are found at the indices that the nodes give. -/
inductive Denotes (entries : Array Entry) : Nat → Regex Position → Prop where
  /-- A leaf is read off its node. -/
  | leaf {i : Nat} {p : Position} {b : Boundary} :
      entries[i]? = some ⟨.leaf p, b⟩ → Denotes entries i (.leaf p)
  /-- A repetition has its operand at the index in its node. -/
  | star {i inner : Nat} {b : Boundary} {r : Regex Position} :
      entries[i]? = some ⟨.star inner, b⟩ → Denotes entries inner r →
        Denotes entries i (.star r)
  /-- A choice has its operands at the indices in its node. -/
  | alt {i left right : Nat} {b : Boundary} {l r : Regex Position} :
      entries[i]? = some ⟨.alt left right, b⟩ → Denotes entries left l →
        Denotes entries right r → Denotes entries i (.alt l r)
  /-- A concatenation has its operands at the indices in its node. -/
  | cat {i left right : Nat} {b : Boundary} {l r : Regex Position} :
      entries[i]? = some ⟨.cat left right, b⟩ → Denotes entries left l →
        Denotes entries right r → Denotes entries i (.cat l r)

/-- Adds `node` with its boundary to `table`, and returns the boundary with the new table. -/
def Node.record (node : Node) (boundary : Boundary) (table : Array Entry) :
    Array Entry × Boundary :=
  (table.push ⟨node, boundary⟩, boundary)

/-- Adds the nodes of an expression to a table, operands first, and returns its boundary with the
new table. -/
def Regex.tabulate : Regex Position → Array Entry → Array Entry × Boundary
  | leaf p, table => Node.record (.leaf p) (.leaf p) table
  | star r, table =>
    let inner := r.tabulate table
    Node.record (.star (inner.1.size - 1)) inner.2.star inner.1
  | alt l r, table =>
    let left := l.tabulate table
    let right := r.tabulate left.1
    Node.record (.alt (left.1.size - 1) (right.1.size - 1)) (left.2.alt right.2) right.1
  | cat l r, table =>
    let left := l.tabulate table
    let right := r.tabulate left.1
    Node.record (.cat (left.1.size - 1) (right.1.size - 1)) (left.2.cat right.2) right.1

namespace Expression

/-- The nodes of `e` in postfix order. -/
def entries (e : Expression) : Array Entry :=
  (e.tree.tabulate #[]).1

/-- The index of the node of `e.entries` that is the root of the whole expression. -/
def root (e : Expression) : Nat :=
  e.entries.size - 1

end Expression

end PositionAutomaton
