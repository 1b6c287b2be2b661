import PositionAutomaton.NodeTable

/-!
# Reading expressions off node tables

Adding the nodes of an expression to a table keeps the entries that are there
(`keeps_tabulate`), adds one entry for each node (`size_tabulate`), and leaves the root of
the expression as the last one, from which the expression can be read (`denotes_tabulate`)
and which holds its boundary (`getElem?_tabulate_root`).
-/

namespace PositionAutomaton

/-- Every entry of the table `t` stands at the same index of `u`. -/
def Keeps (t u : Array Entry) : Prop :=
  ∀ (i : Nat) (entry : Entry), t[i]? = some entry → u[i]? = some entry

/-- A table keeps its own entries. -/
theorem Keeps.refl (t : Array Entry) : Keeps t t :=
  fun _ _ h => h

/-- What is kept twice in a row is kept. -/
theorem Keeps.trans {t u v : Array Entry} (htu : Keeps t u) (huv : Keeps u v) : Keeps t v :=
  fun i entry h => huv i entry (htu i entry h)

/-- The table `t` with one entry more keeps the others. -/
theorem keeps_push (t : Array Entry) (entry : Entry) : Keeps t (t.push entry) := by
  intro i e h
  obtain ⟨hi, rfl⟩ := Array.getElem?_eq_some_iff.1 h
  rw [Array.getElem?_push_lt hi]

/-- An expression `r` can still be read off from a table `u` that keeps the entries of `t`. -/
theorem Denotes.keeps {t u : Array Entry} {i : Nat} {r : Regex Position} (h : Denotes t i r)
    (htu : Keeps t u) : Denotes u i r := by
  induction h with
  | leaf hi => exact .leaf (htu _ _ hi)
  | star hi _ ih => exact .star (htu _ _ hi) ih
  | alt hi _ _ ihl ihr => exact .alt (htu _ _ hi) ihl ihr
  | cat hi _ _ ihl ihr => exact .cat (htu _ _ hi) ihl ihr

namespace Regex

/-- The number of nodes of an expression. -/
def size {α : Type} : Regex α → Nat
  | leaf _ => 1
  | star r => r.size + 1
  | alt l r => l.size + r.size + 1
  | cat l r => l.size + r.size + 1

/-- An expression `r` has a node. -/
theorem size_pos {α : Type} (r : Regex α) : 0 < r.size := by
  cases r <;> simp [size]

variable (r : Regex Position) (t : Array Entry)

/-- The boundary that `tabulate` returns is that of the expression. -/
theorem boundary_tabulate : (r.tabulate t).2 = r.boundary := by
  induction r generalizing t with
  | leaf p => rfl
  | star r ih => simp [tabulate, Node.record, boundary, ih]
  | alt l r ihl ihr => simp [tabulate, Node.record, boundary, ihl, ihr]
  | cat l r ihl ihr => simp [tabulate, Node.record, boundary, ihl, ihr]

/-- One entry is added by `tabulate` for each node. -/
theorem size_tabulate : (r.tabulate t).1.size = t.size + r.size := by
  induction r generalizing t with
  | leaf p => simp [tabulate, Node.record, size]
  | star r ih => simp [tabulate, Node.record, size, ih, Nat.add_assoc]
  | alt l r ihl ihr => simp [tabulate, Node.record, size, ihl, ihr, Nat.add_assoc]
  | cat l r ihl ihr => simp [tabulate, Node.record, size, ihl, ihr, Nat.add_assoc]

/-- The entries that are there in `t` are kept by `tabulate`. -/
theorem keeps_tabulate : Keeps t (r.tabulate t).1 := by
  induction r generalizing t with
  | leaf p => exact keeps_push t _
  | star r ih => exact (ih t).trans (keeps_push _ _)
  | alt l r ihl ihr => exact ((ihl t).trans (ihr _)).trans (keeps_push _ _)
  | cat l r ihl ihr => exact ((ihl t).trans (ihr _)).trans (keeps_push _ _)

/-- The last entry that `tabulate` adds holds the boundary of the expression. -/
theorem getElem?_tabulate_root :
    ∃ node, (r.tabulate t).1[(r.tabulate t).1.size - 1]? = some ⟨node, r.boundary⟩ := by
  rw [← boundary_tabulate r t]
  cases r <;> exact ⟨_, by simp [tabulate, Node.record]; rfl⟩

/-- The expression `r` can be read off from the last entry that `tabulate` adds. -/
theorem denotes_tabulate :
    Denotes (r.tabulate t).1 ((r.tabulate t).1.size - 1) r := by
  induction r generalizing t with
  | leaf p => exact .leaf (b := .leaf p) (by simp [tabulate, Node.record])
  | star r ih =>
    -- the operand is read off the smaller table, which the larger one keeps
    refine .star (b := (r.tabulate t).2.star) ?_ ((ih t).keeps (keeps_push _ _))
    simp [tabulate, Node.record]
  | alt l r ihl ihr =>
    refine .alt (b := (l.tabulate t).2.alt (r.tabulate (l.tabulate t).1).2) ?_
      ((ihl t).keeps ((keeps_tabulate r _).trans (keeps_push _ _)))
      ((ihr _).keeps (keeps_push _ _))
    simp [tabulate, Node.record]
  | cat l r ihl ihr =>
    refine .cat (b := (l.tabulate t).2.cat (r.tabulate (l.tabulate t).1).2) ?_
      ((ihl t).keeps ((keeps_tabulate r _).trans (keeps_push _ _)))
      ((ihr _).keeps (keeps_push _ _))
    simp [tabulate, Node.record]

end Regex

namespace Expression

/-- The node table `e.entries` has an entry for each node. -/
theorem size_entries (e : Expression) : e.entries.size = e.tree.size := by
  simp [entries, Regex.size_tabulate]

/-- The `root` is the last entry. -/
theorem root_add_one (e : Expression) : e.root + 1 = e.entries.size := by
  have := e.tree.size_pos
  rw [root, size_entries]
  omega

/-- The tree of an expression `e` can be read off its node table. -/
theorem denotes_entries (e : Expression) : Denotes e.entries e.root e.tree :=
  e.tree.denotes_tabulate #[]

end Expression

end PositionAutomaton
