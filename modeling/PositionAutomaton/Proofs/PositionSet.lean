import Mathlib.Data.Finset.Sort
import PositionAutomaton.PositionSet
import PositionAutomaton.Proofs.OrderedSet

/-!
# Sets of positions are finite sets

However a set of positions is made, it is the sorted list of the finite set that the same operations
make, so that its look-ups, its size and its order are those of that set
(`PositionSet.Term.value_refines_numbers`).
-/

namespace PositionAutomaton

/-- Positions `p` and `q` are equal if their numbers are. -/
theorem Position.number_inj {p q : Position} : p.number = q.number ↔ p = q :=
  ⟨Position.ext, congrArg Position.number⟩

/-- A position `p` comes before `q` if its number is less. -/
theorem Position.compare_eq_lt_iff {p q : Position} : compare p q = .lt ↔ p.number < q.number :=
  Nat.compare_eq_lt

namespace PositionSet

/-- The members of a set `s` are listed by their numbers, from least to greatest. -/
theorem pairwise_number_toList (s : PositionSet) :
    s.toList.Pairwise fun p q => p.number < q.number :=
  s.toList_increasing.imp Position.compare_eq_lt_iff.1

/-- The set `s` comes before `t` if its numbers do in lexicographic order. -/
theorem compare_eq_lt_iff_lex {s t : PositionSet} :
    compare s t = .lt ↔
      List.Lex (· < ·) (s.toList.map Position.number) (t.toList.map Position.number) := by
  rw [OrderedSet.compare_eq_lt_iff]
  generalize s.toList = ps, t.toList = qs
  induction ps generalizing qs with
  | nil => cases qs <;> simp
  | cons p ps ih =>
    cases qs with
    | nil => simp
    | cons q qs =>
      rw [List.map_cons, List.map_cons, List.cons_lex_cons_iff, List.cons_lex_cons_iff, ih,
        Position.compare_eq_lt_iff, Position.number_inj]

/-- How a set of positions is made. -/
inductive Term where
  /-- The empty set. -/
  | new
  /-- The set that is there without any operation. -/
  | initial
  /-- The set of one position. -/
  | singleton (p : Position)
  /-- The set of the positions in a list. -/
  | collect (ps : List Position)
  /-- A set of the members of two others. -/
  | union (s t : Term)
  /-- A set to which the members of another one are added. -/
  | unionWith (s t : Term)

namespace Term

/-- The set that a `Term` makes. -/
def value : Term → PositionSet
  | new => .empty
  | initial => default
  | singleton p => .singleton p
  | collect ps => .ofList ps
  | union s t => s.value.union t.value
  | unionWith s t => s.value.absorb t.value

/-- The finite set of numbers that the operations of a `Term` make. -/
def numbers : Term → Finset Nat
  | new | initial => ∅
  | singleton p => {p.number}
  | collect ps => (ps.map Position.number).toFinset
  | union s t | unionWith s t => s.numbers ∪ t.numbers

variable {s t : Term} {p : Position}

/-- The members of `t.value` are the positions whose numbers are in `t.numbers`. -/
theorem mem_value_iff : p ∈ t.value ↔ p.number ∈ t.numbers := by
  induction t with
  | new => simp [value, numbers]
  | initial => simp [value, numbers, default]
  | singleton q => simp [value, numbers, Position.number_inj]
  | collect ps => simp [value, numbers, Position.number_inj]
  | union s t ihs iht => simp [value, numbers, ihs, iht]
  | unionWith s t ihs iht => simp [value, numbers, ihs, iht]

/-- Only positive numbers are in `t.numbers`, since counting starts at one. -/
theorem pos_of_mem_numbers {n : Nat} (h : n ∈ t.numbers) : 0 < n := by
  induction t with
  | new | initial => simp [numbers] at h
  | singleton p =>
    obtain rfl := Finset.mem_singleton.1 h
    exact p.number_pos
  | collect ps =>
    obtain ⟨p, -, rfl⟩ := List.mem_map.1 (List.mem_toFinset.1 h)
    exact p.number_pos
  | union s t ihs iht | unionWith s t ihs iht => exact (Finset.mem_union.1 h).elim ihs iht

/-- The numbers of the members of `t.value` are those in `t.numbers`. -/
theorem mem_map_number_toList_iff {n : Nat} :
    n ∈ t.value.toList.map Position.number ↔ n ∈ t.numbers := by
  rw [List.mem_map]
  constructor
  · rintro ⟨p, hp, rfl⟩
    exact mem_value_iff.1 hp
  · intro hn
    exact ⟨⟨n, pos_of_mem_numbers hn⟩, mem_value_iff.2 hn, rfl⟩

/-- The members of `t.value` are listed from least to greatest. -/
theorem pairwise_map_number_toList (t : Term) :
    (t.value.toList.map Position.number).Pairwise (· < ·) :=
  List.pairwise_map.2 t.value.pairwise_number_toList

/-- The list of members of `t.value` is the sorted list of `t.numbers`. -/
theorem map_number_toList (t : Term) :
    t.value.toList.map Position.number = t.numbers.sort (· ≤ ·) := by
  have hsorted := pairwise_map_number_toList t
  have hnumbers : t.numbers = (t.value.toList.map Position.number).toFinset := by
    ext n
    rw [List.mem_toFinset, mem_map_number_toList_iff]
  rw [hnumbers]
  exact ((List.toFinset_sort (· ≤ ·) (hsorted.imp Nat.ne_of_lt)).2 (hsorted.imp Nat.le_of_lt)).symm

/-- The sets of two terms `s` and `t` are equal exactly if the finite sets are. -/
theorem value_eq_iff : s.value = t.value ↔ s.numbers = t.numbers := by
  constructor
  · intro h
    ext n
    rw [← mem_map_number_toList_iff, ← mem_map_number_toList_iff, h]
  · intro h
    ext p
    rw [mem_value_iff, mem_value_iff, h]

/-- However sets of positions are made, their lists of members are the sorted lists of the finite
sets that the same operations make. Bisection finds the members, the size is the number of members,
and adding the members of another set makes the union. Two such sets are equal, and compare as
equal, exactly if they have the same members; otherwise the one comes first whose sorted members do
in lexicographic order, which is a strict total order. -/
theorem value_refines_numbers :
    (∀ t : Term,
      (t.value.toList.map Position.number).Pairwise (· < ·) ∧
        t.value.toList.map Position.number = t.numbers.sort (· ≤ ·) ∧
        (∀ p : Position, t.value.contains p = true ↔ p.number ∈ t.numbers) ∧
        t.value.size = t.numbers.card) ∧
      (∀ s t : Term,
        (unionWith s t).value = (union s t).value ∧
          (s.value = t.value ↔ s.numbers = t.numbers) ∧
          (compare s.value t.value = .eq ↔ s.numbers = t.numbers) ∧
          (compare s.value t.value = .lt ↔
            List.Lex (· < ·) (s.numbers.sort (· ≤ ·)) (t.numbers.sort (· ≤ ·))) ∧
          (compare s.value t.value = .gt ↔
            List.Lex (· < ·) (t.numbers.sort (· ≤ ·)) (s.numbers.sort (· ≤ ·)))) ∧
      IsStrictTotalOrder PositionSet fun s t => compare s t = .lt := by
  refine ⟨fun t => ⟨pairwise_map_number_toList t, map_number_toList t, fun p => ?_, ?_⟩,
    fun s t => ⟨?_, value_eq_iff, ?_, ?_, ?_⟩, inferInstance⟩
  · rw [OrderedSet.contains_iff, mem_value_iff]
  · rw [← OrderedSet.length_toList, ← List.length_map (f := Position.number), map_number_toList,
      Finset.length_sort]
  · exact OrderedSet.absorb_eq_union s.value t.value
  · rw [Std.LawfulEqOrd.compare_eq_iff_eq, value_eq_iff]
  · rw [compare_eq_lt_iff_lex, map_number_toList, map_number_toList]
  · rw [Std.OrientedCmp.gt_iff_lt, compare_eq_lt_iff_lex, map_number_toList, map_number_toList]

end Term

end PositionSet

end PositionAutomaton
