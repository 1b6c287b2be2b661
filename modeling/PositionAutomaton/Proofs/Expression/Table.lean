import PositionAutomaton.Proofs.Expression.Steps
import PositionAutomaton.Proofs.NodeTable

/-!
# Node tables entry by entry

A node table can be kept while its expression is put together: each token of a postfix sequence adds
one entry, whose boundary is computed from the entries of the operands. The operands are found by
their indices, which wait on a stack until the token of their operator.

`Assembly.table` and `Assembly.roots` are the table and the stack after some tokens. Every index on
the stack is that of an entry (`Assembly.lt_size_of_mem_roots`), and so each token that is taken in
finds its operands in the table (`Assembly.tabulates_of_step_eq_ok`). After the last token the
table is that of the expression (`exists_run_of_ofPostfix_eq_ok`), in which operands stand before
the node they belong to.
-/

namespace PositionAutomaton

/-! ### Operands of a node -/

/-- The indices of the operands of a node. -/
def Node.operands : Node → List Nat
  | leaf _ => []
  | star inner => [inner]
  | alt left right | cat left right => [left, right]

/-- The boundary of a node, computed from the entries of its operands if `table` has them. -/
def Node.boundary? (table : Array Entry) : Node → Option Boundary
  | leaf p => some (.leaf p)
  | star inner => do
    let r ← table[inner]?
    return r.boundary.star
  | alt left right => do
    let l ← table[left]?
    let r ← table[right]?
    return l.boundary.alt r.boundary
  | cat left right => do
    let l ← table[left]?
    let r ← table[right]?
    return l.boundary.cat r.boundary

/-- A node whose boundary can be computed from `table` has its operands there. -/
theorem Node.lt_size_of_boundary?_eq_some {table : Array Entry} {node : Node} {b : Boundary}
    (h : node.boundary? table = some b) : ∀ i ∈ node.operands, i < table.size := by
  cases node with
  | leaf p => simp [operands]
  | star inner =>
    obtain ⟨r, hr, -⟩ := Option.bind_eq_some_iff.1 h
    obtain ⟨hlt, -⟩ := Array.getElem?_eq_some_iff.1 hr
    simpa [operands] using hlt
  | alt left right | cat left right =>
    obtain ⟨l, hl, h⟩ := Option.bind_eq_some_iff.1 h
    obtain ⟨r, hr, -⟩ := Option.bind_eq_some_iff.1 h
    obtain ⟨hleft, -⟩ := Array.getElem?_eq_some_iff.1 hl
    obtain ⟨hright, -⟩ := Array.getElem?_eq_some_iff.1 hr
    simpa [operands] using ⟨hleft, hright⟩

/-- A boundary that is computed from `t` is computed in the same way from a table `u` that keeps the
entries of `t`. -/
theorem Node.boundary?_keeps {t u : Array Entry} {node : Node} {b : Boundary} (htu : Keeps t u)
    (h : node.boundary? t = some b) : node.boundary? u = some b := by
  cases node with
  | leaf p => exact h
  | star inner =>
    obtain ⟨r, hr, hb⟩ := Option.bind_eq_some_iff.1 h
    exact Option.bind_eq_some_iff.2 ⟨r, htu _ _ hr, hb⟩
  | alt left right | cat left right =>
    obtain ⟨l, hl, h⟩ := Option.bind_eq_some_iff.1 h
    obtain ⟨r, hr, hb⟩ := Option.bind_eq_some_iff.1 h
    exact Option.bind_eq_some_iff.2 ⟨l, htu _ _ hl, Option.bind_eq_some_iff.2 ⟨r, htu _ _ hr, hb⟩⟩

/-- Each entry of a table stands behind those of its operands and is computed from them. -/
def InOrder (table : Array Entry) : Prop :=
  ∀ (i : Nat) (entry : Entry), table[i]? = some entry →
    (∀ j ∈ entry.node.operands, j < i) ∧ entry.node.boundary? table = some entry.boundary

/-- A table without entries is in order. -/
theorem inOrder_empty : InOrder #[] := by
  intro i entry h
  simp at h

/-- A table stays in order with an entry for `node` more, if its boundary `b` is computed from those
that are there. -/
theorem InOrder.push {table : Array Entry} {node : Node} {b : Boundary} (h : InOrder table)
    (hb : node.boundary? table = some b) : InOrder (table.push ⟨node, b⟩) := by
  intro i entry hi
  obtain ⟨hlt, -⟩ := Array.getElem?_eq_some_iff.1 hi
  rw [Array.size_push] at hlt
  rcases Nat.lt_succ_iff_lt_or_eq.1 hlt with hlt | rfl
  · rw [Array.getElem?_push_lt hlt, ← Array.getElem?_eq_getElem] at hi
    obtain ⟨hoperands, hboundary⟩ := h i entry hi
    exact ⟨hoperands, Node.boundary?_keeps (keeps_push _ _) hboundary⟩
  · rw [Array.getElem?_push_size, Option.some.injEq] at hi
    subst hi
    exact ⟨Node.lt_size_of_boundary?_eq_some hb, Node.boundary?_keeps (keeps_push _ _) hb⟩

namespace InOrder

variable {table : Array Entry} {i left right inner : Nat} {b : Boundary} (h : InOrder table)
include h

/-- A leaf has the boundary of a leaf in a table that is `InOrder`. -/
theorem boundary_eq_of_leaf {p : Position} (hi : table[i]? = some ⟨.leaf p, b⟩) : b = .leaf p :=
  (Option.some.inj (h _ _ hi).2).symm

/-- A repetition has its operand `inner` in a table that is `InOrder`, and its boundary comes from
that of the operand. -/
theorem exists_of_star (hi : table[i]? = some ⟨.star inner, b⟩) :
    ∃ r, table[inner]? = some r ∧ inner < i ∧ b = r.boundary.star := by
  obtain ⟨hlt, hb⟩ := h _ _ hi
  obtain ⟨r, hr, hb⟩ := Option.bind_eq_some_iff.1 hb
  exact ⟨r, hr, hlt inner (by simp [Node.operands]), (Option.some.inj hb).symm⟩

/-- A choice has both operands in a table that is `InOrder`, and its boundary comes from those of
the operands. -/
theorem exists_of_alt (hi : table[i]? = some ⟨.alt left right, b⟩) :
    ∃ l r, table[left]? = some l ∧ table[right]? = some r ∧ left < i ∧ right < i ∧
      b = l.boundary.alt r.boundary := by
  obtain ⟨hlt, hb⟩ := h _ _ hi
  obtain ⟨l, hl, hb⟩ := Option.bind_eq_some_iff.1 hb
  obtain ⟨r, hr, hb⟩ := Option.bind_eq_some_iff.1 hb
  exact ⟨l, r, hl, hr, hlt left (by simp [Node.operands]), hlt right (by simp [Node.operands]),
    (Option.some.inj hb).symm⟩

/-- A concatenation has both operands in a table that is `InOrder`, and its boundary comes from
those of the operands. -/
theorem exists_of_cat (hi : table[i]? = some ⟨.cat left right, b⟩) :
    ∃ l r, table[left]? = some l ∧ table[right]? = some r ∧ left < i ∧ right < i ∧
      b = l.boundary.cat r.boundary := by
  obtain ⟨hlt, hb⟩ := h _ _ hi
  obtain ⟨l, hl, hb⟩ := Option.bind_eq_some_iff.1 hb
  obtain ⟨r, hr, hb⟩ := Option.bind_eq_some_iff.1 hb
  exact ⟨l, r, hl, hr, hlt left (by simp [Node.operands]), hlt right (by simp [Node.operands]),
    (Option.some.inj hb).symm⟩

end InOrder

namespace Expression

namespace Assembly

variable {a b : Assembly} {t : Token} {tokens : List Token}

/-! ### The table and its stack -/

/-- The table of some operands side by side, the last one first. -/
def tableOf : List (Regex Position) → Array Entry
  | [] => #[]
  | r :: rest => (r.tabulate (tableOf rest)).1

/-- The indices of the roots of some operands side by side, the last one first. -/
def rootsOf : List (Regex Position) → List Nat
  | [] => []
  | r :: rest => ((tableOf (r :: rest)).size - 1) :: rootsOf rest

/-- The nodes that are put together so far, in postfix order. -/
def table (a : Assembly) : Array Entry :=
  tableOf a.operands

/-- The indices of the operands that still lack their operator, the last one first. -/
def roots (a : Assembly) : List Nat :=
  rootsOf a.operands

/-- The node that a token of some kind makes of the operands whose indices are on the stack, with
the indices that it leaves there. -/
def node? (a : Assembly) : Kind → Option (Node × List Nat)
  | .letter | .endMark => some (.leaf a.next, a.roots)
  | .star =>
    match a.roots with
    | inner :: rest => some (.star inner, rest)
    | _ => none
  | .bar =>
    match a.roots with
    | right :: left :: rest => some (.alt left right, rest)
    | _ => none
  | .concat =>
    match a.roots with
    | right :: left :: rest => some (.cat left right, rest)
    | _ => none
  | .opening | .closing => none

/-- What `node?` makes of the stack, according to the kind of the token. -/
theorem node?_eq_some_iff {kind : Kind} {node : Node} {rest : List Nat} :
    a.node? kind = some (node, rest) ↔
      match kind with
      | .letter | .endMark => node = .leaf a.next ∧ rest = a.roots
      | .star => ∃ inner, a.roots = inner :: rest ∧ node = .star inner
      | .bar => ∃ right left, a.roots = right :: left :: rest ∧ node = .alt left right
      | .concat => ∃ right left, a.roots = right :: left :: rest ∧ node = .cat left right
      | .opening | .closing => False := by
  cases kind with
  | letter | endMark => simp [node?, eq_comm]
  | star =>
    simp only [node?]
    rcases a.roots with _ | ⟨inner, others⟩
    · simp
    · simp [and_comm, and_assoc, eq_comm]
  | bar | concat =>
    simp only [node?]
    rcases a.roots with _ | ⟨right, _ | ⟨left, others⟩⟩
    · simp
    · simp
    · simp [and_comm, and_assoc, eq_comm]
  | opening | closing => simp [node?]

/-- The root of the last operand `r` holds its boundary, in any table `u` that keeps the entries. -/
theorem getElem?_tableOf {r : Regex Position} {rest : List (Regex Position)} {u : Array Entry}
    (h : Keeps (tableOf (r :: rest)) u) :
    ∃ node, u[(tableOf (r :: rest)).size - 1]? = some ⟨node, r.boundary⟩ := by
  obtain ⟨node, hnode⟩ := r.getElem?_tabulate_root (tableOf rest)
  exact ⟨node, h _ _ hnode⟩

/-- The table of some operands keeps that of the operands `rest` before the last one. -/
theorem keeps_tableOf (r : Regex Position) (rest : List (Regex Position)) :
    Keeps (tableOf rest) (tableOf (r :: rest)) :=
  r.keeps_tabulate _

/-- A table with the operand `r` more is larger by the size of `r`. -/
theorem size_tableOf_cons (r : Regex Position) (rest : List (Regex Position)) :
    (tableOf (r :: rest)).size = (tableOf rest).size + r.size :=
  r.size_tabulate _

/-- Every index among `a.roots` is that of an entry. -/
theorem lt_size_of_mem_roots : ∀ i ∈ a.roots, i < a.table.size := by
  rw [roots, table]
  induction a.operands with
  | nil => simp [rootsOf]
  | cons r rest ih =>
    have hsize := size_tableOf_cons r rest
    have hpos := r.size_pos
    intro i hi
    rcases List.mem_cons.1 hi with rfl | hi
    · omega
    · have := ih i hi
      omega

/-- If an entry becomes the last one of the table `t`, its index becomes the last one of the
stack. -/
theorem rootsOf_of_tableOf_eq_push {r : Regex Position} {rest : List (Regex Position)}
    {t : Array Entry} {entry : Entry} (h : tableOf (r :: rest) = t.push entry) :
    rootsOf (r :: rest) = t.size :: rootsOf rest := by
  rw [rootsOf, h, Array.size_push, Nat.add_sub_cancel]

/-- A leaf `p` adds an entry for itself. -/
theorem tableOf_leaf (p : Position) (rest : List (Regex Position)) :
    tableOf (.leaf p :: rest) = (tableOf rest).push ⟨.leaf p, .leaf p⟩ := rfl

variable (l r : Regex Position) (rest : List (Regex Position))

/-- A repetition adds an entry for its root to the table of its operand `r`. -/
theorem tableOf_star :
    tableOf (.star r :: rest) = (tableOf (r :: rest)).push
      ⟨.star ((tableOf (r :: rest)).size - 1), r.boundary.star⟩ := by
  simp only [tableOf, Regex.tabulate, Node.record, Regex.boundary_tabulate]

/-- A choice adds an entry for its root to the table of its operands `l` and `r`. -/
theorem tableOf_alt :
    tableOf (.alt l r :: rest) = (tableOf (r :: l :: rest)).push
      ⟨.alt ((tableOf (l :: rest)).size - 1) ((tableOf (r :: l :: rest)).size - 1),
        l.boundary.alt r.boundary⟩ := by
  simp only [tableOf, Regex.tabulate, Node.record, Regex.boundary_tabulate]

/-- A concatenation adds an entry for its root to the table of its operands `l` and `r`. -/
theorem tableOf_cat :
    tableOf (.cat l r :: rest) = (tableOf (r :: l :: rest)).push
      ⟨.cat ((tableOf (l :: rest)).size - 1) ((tableOf (r :: l :: rest)).size - 1),
        l.boundary.cat r.boundary⟩ := by
  simp only [tableOf, Regex.tabulate, Node.record, Regex.boundary_tabulate]

/-- From `a` to `b`, a token makes a node of operands that are on the stack and in the table. The
node becomes the last entry of the table, and its index the last one of the stack. -/
def Tabulates (a : Assembly) (t : Token) (b : Assembly) : Prop :=
  ∃ node rest boundary, a.node? t.kind = some (node, rest) ∧
    node.boundary? a.table = some boundary ∧ b.table = a.table.push ⟨node, boundary⟩ ∧
    b.roots = a.table.size :: rest

/-- Each token that `step` takes in finds its operands on the stack and in the table. -/
theorem tabulates_of_step_eq_ok (h : a.step t = .ok b) : a.Tabulates t b := by
  rw [step_eq_ok_iff] at h
  rw [Tabulates]
  cases hkind : t.kind with
  | letter =>
    rw [hkind] at h
    subst h
    exact ⟨_, _, _, rfl, rfl, tableOf_leaf _ _, rootsOf_of_tableOf_eq_push (tableOf_leaf _ _)⟩
  | endMark =>
    rw [hkind] at h
    obtain ⟨-, rfl⟩ := h
    exact ⟨_, _, _, rfl, rfl, tableOf_leaf _ _, rootsOf_of_tableOf_eq_push (tableOf_leaf _ _)⟩
  | star =>
    rw [hkind] at h
    obtain ⟨r, rest, hoperands, rfl⟩ := h
    -- the last index on the stack is that of the last entry, the root of the operand
    obtain ⟨nodeᵣ, hr⟩ := getElem?_tableOf (Keeps.refl (tableOf (r :: rest)))
    rw [node?, roots, table, hoperands]
    refine ⟨_, _, _, rfl, ?_, tableOf_star r rest, rootsOf_of_tableOf_eq_push (tableOf_star r rest)⟩
    simp [Node.boundary?, hr]
  | bar =>
    rw [hkind] at h
    obtain ⟨r, l, rest, hoperands, rfl⟩ := h
    -- the left operand had the last entry before the nodes of the right one were added
    obtain ⟨nodeₗ, hl⟩ := getElem?_tableOf (keeps_tableOf r (l :: rest))
    obtain ⟨nodeᵣ, hr⟩ := getElem?_tableOf (Keeps.refl (tableOf (r :: l :: rest)))
    rw [node?, roots, table, hoperands]
    refine ⟨_, _, _, rfl, ?_, tableOf_alt l r rest,
      rootsOf_of_tableOf_eq_push (tableOf_alt l r rest)⟩
    simp [Node.boundary?, hl, hr]
  | concat =>
    rw [hkind] at h
    obtain ⟨r, l, rest, hoperands, rfl⟩ := h
    obtain ⟨nodeₗ, hl⟩ := getElem?_tableOf (keeps_tableOf r (l :: rest))
    obtain ⟨nodeᵣ, hr⟩ := getElem?_tableOf (Keeps.refl (tableOf (r :: l :: rest)))
    rw [node?, roots, table, hoperands]
    refine ⟨_, _, _, rfl, ?_, tableOf_cat l r rest,
      rootsOf_of_tableOf_eq_push (tableOf_cat l r rest)⟩
    simp [Node.boundary?, hl, hr]
  | opening | closing =>
    rw [hkind] at h
    exact h.elim

/-- After the tokens that `run` takes in, the table is in order. -/
theorem inOrder_table_of_run_eq_ok (h : Assembly.run tokens = .ok a) : InOrder a.table := by
  refine of_foldlM_eq_ok (P := fun a => InOrder a.table) (fun _ ha hb => ?_) inOrder_empty h
  obtain ⟨node, rest, boundary, -, hboundary, htable, -⟩ := tabulates_of_step_eq_ok hb
  rw [htable]
  exact ha.push hboundary

end Assembly

variable {e : Expression} {form : Postfix}

/-- After the last token of a postfix sequence, the table is `e.entries`, that of the expression,
and `e.root` is the one index on the stack. -/
theorem exists_run_of_ofPostfix_eq_ok (h : ofPostfix form = .ok e) :
    ∃ a, Assembly.run form.tokens = .ok a ∧ a.table = e.entries ∧ a.roots = [e.root] := by
  obtain ⟨a, ha, he⟩ := bind_eq_ok_iff.1 h
  rw [Assembly.result] at he
  split at he
  next tree endMark hoperands _ =>
    cases he
    refine ⟨a, ha, ?_⟩
    rw [Assembly.table, Assembly.roots, hoperands]
    exact ⟨rfl, rfl⟩
  next => cases he
  next => cases he

/-- The node table of an expression from a postfix sequence is `InOrder`. -/
theorem inOrder_entries_of_ofPostfix_eq_ok (h : ofPostfix form = .ok e) : InOrder e.entries := by
  obtain ⟨a, ha, htable, -⟩ := exists_run_of_ofPostfix_eq_ok h
  exact htable ▸ Assembly.inOrder_table_of_run_eq_ok ha

end Expression

end PositionAutomaton
