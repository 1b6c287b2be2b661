import PositionAutomaton.Proofs.NodeTable
import PositionAutomaton.Token.Basic

/-!
# Postorder

The postorder traversal of an expression, as tokens without their places, and its use as an
order on the entries of a node table: each entry is the root of a subexpression whose
postorder traversal ends at the index of the entry (`Regex.orders_tabulate`).
-/

namespace PositionAutomaton

namespace Token

/-- What a token `t` is and how it is written, apart from its place. -/
def mark (t : Token) : Kind × Char :=
  (t.kind, t.value)

end Token

namespace Regex

/-- The postorder traversal of an expression in which nothing is read at the end mark. -/
def postorder : Regex (Option Char) → List (Kind × Char)
  | leaf (some c) => [(.letter, c)]
  | leaf none => [(.endMark, Token.endSign)]
  | star r => r.postorder ++ [(.star, '*')]
  | alt l r => l.postorder ++ r.postorder ++ [(.bar, '|')]
  | cat l r => l.postorder ++ r.postorder ++ [(.concat, Token.concatSign)]

/-- The postorder traversal of `r` has an element for each node. -/
theorem length_postorder (r : Regex (Option Char)) : r.postorder.length = r.size := by
  induction r with
  | leaf a => cases a <;> rfl
  | star r ih => simp [postorder, size, ih]
  | alt l r ihl ihr => simp [postorder, size, ihl, ihr, Nat.add_assoc]
  | cat l r ihl ihr => simp [postorder, size, ihl, ihr, Nat.add_assoc]

/-- The postorder traversal of `r` is not empty. -/
theorem postorder_ne_nil (r : Regex (Option Char)) : r.postorder ≠ [] := by
  have := r.size_pos
  rw [← length_postorder] at this
  exact List.ne_nil_of_length_pos this

/-- The expression in which `f` replaces the leaves has as many nodes as `r`. -/
theorem size_map {α β : Type} (f : α → β) (r : Regex α) : (r.map f).size = r.size := by
  induction r with
  | leaf a => rfl
  | star r ih => simp [map, size, ih]
  | alt l r ihl ihr => simp [map, size, ihl, ihr]
  | cat l r ihl ihr => simp [map, size, ihl, ihr]

/-- The postorder traversal of `r` with the symbols of its leaves has an element for each node. -/
theorem length_postorder_map {α : Type} (symbol : α → Option Char) (r : Regex α) :
    (r.map symbol).postorder.length = r.size := by
  rw [length_postorder, size_map]

/-- The expression `r` can be read off from the last one of the entries that `tabulate` adds. -/
theorem denotes_tabulate_of_add_one_eq (r : Regex Position) (t : Array Entry) {k : Nat}
    (hk : k + 1 = r.size) : Denotes (r.tabulate t).1 (t.size + k) r := by
  have hindex : (r.tabulate t).1.size - 1 = t.size + k := by
    rw [size_tabulate]
    omega
  exact hindex ▸ r.denotes_tabulate t

end Regex

/-- The entries of a table from `start` on are roots of subexpressions: an element of `marks`
that `i` elements precede is where the postorder traversal of the subexpression at the index
`start + i` ends. -/
def Orders (symbol : Position → Option Char) (table : Array Entry) (start : Nat)
    (marks : List (Kind × Char)) : Prop :=
  ∀ i < marks.length, ∃ s, Denotes table (start + i) s ∧
    (s.map symbol).postorder <:+ marks.take (i + 1)

namespace Orders

variable {symbol : Position → Option Char} {t u : Array Entry} {start : Nat}
  {ms ns : List (Kind × Char)} {m : Kind × Char} {s : Regex Position}

/-- A table `u` that keeps the entries of `t` keeps their order. -/
theorem keeps (h : Orders symbol t start ms) (htu : Keeps t u) : Orders symbol u start ms := by
  intro i hi
  obtain ⟨s, hs, hsuffix⟩ := h i hi
  exact ⟨s, hs.keeps htu, hsuffix⟩

/-- Entries with the marks `ms` may be followed by those of another expression, with the marks
`ns`. -/
theorem append (hms : Orders symbol t start ms) (hns : Orders symbol t (start + ms.length) ns) :
    Orders symbol t start (ms ++ ns) := by
  intro i hi
  by_cases hlt : i < ms.length
  · rw [List.take_append_of_le_length (by omega)]
    exact hms i hlt
  · -- the elements before this one are all of `ms` and a first part of `ns`
    rw [List.length_append] at hi
    obtain ⟨s, hs, hsuffix⟩ := hns (i - ms.length) (by omega)
    have hindex : start + ms.length + (i - ms.length) = start + i := by omega
    have htake : (ms ++ ns).take (i + 1) = ms ++ ns.take (i - ms.length + 1) := by
      rw [List.take_append, List.take_of_length_le (by omega)]
      congr 2
      omega
    rw [hindex] at hs
    rw [htake]
    exact ⟨s, hs, hsuffix.trans (List.suffix_append _ _)⟩

/-- The entries of the operands, with the marks `ms`, may be followed by that of the root, with the
mark `m`. -/
theorem root (hms : Orders symbol t start ms) (hs : Denotes t (start + ms.length) s)
    (hmarks : (s.map symbol).postorder = ms ++ [m]) :
    Orders symbol t start (s.map symbol).postorder := by
  intro i hi
  rw [hmarks, List.length_append, List.length_singleton] at hi
  by_cases hlt : i < ms.length
  · rw [hmarks, List.take_append_of_le_length (by omega)]
    exact hms i hlt
  · obtain rfl : i = ms.length := by omega
    rw [List.take_of_length_le (by simp [hmarks])]
    exact ⟨s, hs, List.suffix_rfl⟩

/-- The entries of two operands in a row, of `l` and then of `r`, in a table `u` that keeps
them. -/
theorem operands {l r : Regex Position}
    (hl : Orders symbol (l.tabulate t).1 t.size (l.map symbol).postorder)
    (hr : Orders symbol (r.tabulate (l.tabulate t).1).1 (l.tabulate t).1.size
      (r.map symbol).postorder)
    (hkeeps : Keeps (r.tabulate (l.tabulate t).1).1 u) :
    Orders symbol u t.size ((l.map symbol).postorder ++ (r.map symbol).postorder) := by
  have hr := hr.keeps hkeeps
  rw [Regex.size_tabulate, ← Regex.length_postorder_map symbol l] at hr
  exact (hl.keeps ((Regex.keeps_tabulate r _).trans hkeeps)).append hr

end Orders

/-- The entries that `tabulate` adds for an expression are in the order of its postorder
traversal. -/
theorem Regex.orders_tabulate (symbol : Position → Option Char) (r : Regex Position)
    (t : Array Entry) :
    Orders symbol (r.tabulate t).1 t.size (r.map symbol).postorder := by
  induction r generalizing t with
  | leaf p =>
    intro i hi
    obtain rfl : i = 0 := by
      rw [length_postorder_map, size] at hi
      omega
    have hone : ((leaf p).map symbol).postorder.length ≤ 0 + 1 :=
      Nat.le_of_eq (length_postorder_map symbol (.leaf p))
    rw [List.take_of_length_le hone]
    exact ⟨.leaf p, denotes_tabulate_of_add_one_eq (.leaf p) t rfl, List.suffix_rfl⟩
  | star r ih =>
    have hkeeps : Keeps (r.tabulate t).1 ((star r).tabulate t).1 := keeps_push _ _
    refine ((ih t).keeps hkeeps).root (denotes_tabulate_of_add_one_eq (.star r) t ?_) rfl
    rw [length_postorder_map, size]
  | alt l r ihl ihr =>
    -- behind the entries of both operands, that of the root is pushed
    refine ((ihl t).operands (ihr _) (keeps_push _ _)).root
      (denotes_tabulate_of_add_one_eq (.alt l r) t ?_) rfl
    rw [List.length_append, length_postorder_map, length_postorder_map, size]
  | cat l r ihl ihr =>
    refine ((ihl t).operands (ihr _) (keeps_push _ _)).root
      (denotes_tabulate_of_add_one_eq (.cat l r) t ?_) rfl
    rw [List.length_append, length_postorder_map, length_postorder_map, size]

end PositionAutomaton
