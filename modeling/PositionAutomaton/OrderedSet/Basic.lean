import PositionAutomaton.OrderedSet.Increasing

/-!
# Ordered sets

A finite set over a linearly ordered type, kept as a strictly increasing array. The
members determine the array, so two sets with the same members are equal as values, and
the members can be read off in their order.

Look-up goes through a bisection of the array, `lowerBound`; `contains` and `find?` are
built on it. Sets are compared lexicographically by their members.
-/

namespace PositionAutomaton

/-- A finite set, as the strictly increasing array of its members. -/
structure OrderedSet (α : Type) [Ord α] where
  /-- The members, from least to greatest. -/
  members : Array α
  /-- No member is repeated or out of order. -/
  increasing : Increasing members.toList
  deriving DecidableEq

namespace OrderedSet

variable {α : Type} [Ord α]

/-- The members of `s`, from least to greatest. -/
def toList (s : OrderedSet α) : List α :=
  s.members.toList

/-- The list of members of `s` is increasing. -/
theorem toList_increasing (s : OrderedSet α) : Increasing s.toList :=
  s.increasing

/-- The number of members. -/
def size (s : OrderedSet α) : Nat :=
  s.members.size

/-- Whether a set has no members. -/
def isEmpty (s : OrderedSet α) : Bool :=
  s.members.isEmpty

/-- The set whose members are those of the increasing list `xs`. -/
def ofIncreasing (xs : List α) (h : Increasing xs) : OrderedSet α :=
  ⟨xs.toArray, h⟩

/-- The set without members. -/
def empty : OrderedSet α :=
  ofIncreasing [] List.Pairwise.nil

instance : Inhabited (OrderedSet α) :=
  ⟨empty⟩

/-- The set whose only member is `a`. -/
def singleton (a : α) : OrderedSet α :=
  ofIncreasing [a] (List.pairwise_singleton _ a)

/-- The members of `s` that satisfy the condition `p`. -/
def filter (p : α → Bool) (s : OrderedSet α) : OrderedSet α :=
  ofIncreasing (s.toList.filter p) (s.toList_increasing.filter p)

/-- The index of the first element from `low` on, and before `high`, for which `isBelow`
fails, in `steps` halvings of what lies between them. -/
def lowerBoundIn (isBelow : α → Bool) (xs : Array α) : (steps low high : Nat) → Nat
  | 0, low, _ => low
  | steps + 1, low, high =>
    if low < high then
      let middle := (low + high) / 2
      if xs[middle]?.any isBelow then lowerBoundIn isBelow xs steps (middle + 1) high
      else lowerBoundIn isBelow xs steps low middle
    else low

/-- The index of the first element for which `isBelow` fails, by bisection: `isBelow` has
to hold of a first part of the array and to fail on the rest. -/
def lowerBound (isBelow : α → Bool) (xs : Array α) : Nat :=
  lowerBoundIn isBelow xs xs.size 0 xs.size

/-- The member at the place that `locate` looks for, where `locate a` says how `a` lies to
that place. -/
def find? (locate : α → Ordering) (s : OrderedSet α) : Option α :=
  s.members[lowerBound (fun a => (locate a).isLT) s.members]?.filter fun a => (locate a).isEq

/-- Whether `a` is a member of `s`, by bisection. -/
def contains (s : OrderedSet α) (a : α) : Bool :=
  (s.find? (compare · a)).isSome

instance : Membership α (OrderedSet α) :=
  ⟨fun s a => a ∈ s.toList⟩

/-- Sets are ordered lexicographically by their members. -/
instance : Ord (OrderedSet α) :=
  ⟨fun s t => compare s.members t.members⟩

/-- Sets with the same list of members are equal. -/
theorem eq_of_toList_eq {s t : OrderedSet α} (h : s.toList = t.toList) : s = t := by
  cases s
  cases t
  simpa [toList, Array.toList_inj] using h

instance [Std.TransOrd α] : Std.TransOrd (OrderedSet α) where
  eq_swap := Std.OrientedOrd.eq_swap (α := Array α)
  isLE_trans := Std.TransOrd.isLE_trans (α := Array α)

instance [Std.LawfulEqOrd α] : Std.LawfulEqOrd (OrderedSet α) where
  compare_self {s} :=
    show compare s.members s.members = .eq from Std.ReflCmp.compare_self
  eq_of_compare h :=
    eq_of_toList_eq (congrArg Array.toList (Std.LawfulEqOrd.eq_of_compare (α := Array α) h))

section Operations

variable [Std.TransOrd α] [Std.LawfulEqOrd α]

/-- The set of the members of `s` and of `t`. -/
def union (s t : OrderedSet α) : OrderedSet α :=
  ofIncreasing (Increasing.merge s.toList t.toList)
    (Increasing.merge_increasing s.toList_increasing t.toList_increasing)

/-- The union of `s` and `t`, found without a merge where `t` adds nothing to `s`. -/
def absorb (s t : OrderedSet α) : OrderedSet α :=
  if t.toList.all s.contains then s else s.union t

/-- The unions of the sets of a list with their neighbours, two by two. -/
def unionPairs : List (OrderedSet α) → List (OrderedSet α)
  | s :: t :: ss => s.union t :: unionPairs ss
  | ss => ss

/-- The set of the elements of `as`, in any order and with repetitions: the union of their
singletons, from which `unionPairs` leaves no more than one set. -/
def ofList (as : List α) : OrderedSet α :=
  (as.length.repeat unionPairs (as.map singleton)).foldr union empty

end Operations

end OrderedSet

end PositionAutomaton
