/-!
# Positions

The leaves of an expression are numbered from one, left to right; a leaf's number is its
position.
-/

namespace PositionAutomaton

/-- The number of a leaf of an expression, counted from one. -/
structure Position where
  /-- The number itself. -/
  number : Nat
  /-- Counting starts at one. -/
  number_pos : 0 < number
  deriving DecidableEq

namespace Position

/-- The position of the leaf that `index` leaves precede. -/
def ofIndex (index : Nat) : Position :=
  ⟨index + 1, index.succ_pos⟩

/-- The position with the number `number`; zero is the number of none. -/
def ofNat? (number : Nat) : Option Position :=
  if h : 0 < number then some ⟨number, h⟩ else none

/-- The number of leaves before `p`, which is its index in a table of positions. -/
def index (p : Position) : Nat :=
  p.number - 1

/-- The decimal digits of the number of `p`. -/
def digits (p : Position) : List Char :=
  Nat.toDigits 10 p.number

/-- The number of `p` in decimal. -/
def text (p : Position) : String :=
  String.ofList p.digits

/-- The position whose number the characters `cs` write in decimal, if they do. -/
def ofDigits? (cs : List Char) : Option Position :=
  if cs ≠ [] ∧ cs.all Char.isDigit then ofNat? (Nat.ofDigitChars 10 cs 0) else none

/-- Positions with the same number are equal. -/
@[ext]
theorem ext {p q : Position} (h : p.number = q.number) : p = q := by
  cases p
  cases q
  simpa using h

/-- The position `p` is found again from its index. -/
@[simp]
theorem ofIndex_index (p : Position) : ofIndex p.index = p :=
  ext (Nat.sub_add_cancel p.number_pos)

/-- The index of `ofIndex index` is `index`. -/
@[simp]
theorem index_ofIndex (index : Nat) : (ofIndex index).index = index := rfl

/-- Positions are equal if their indices are. -/
theorem index_inj {p q : Position} : p.index = q.index ↔ p = q :=
  ⟨fun h => by rw [← p.ofIndex_index, h, q.ofIndex_index], congrArg _⟩

/-- Positions are ordered by their numbers. -/
instance : Ord Position :=
  ⟨fun p q => compare p.number q.number⟩

instance : Std.TransOrd Position where
  eq_swap := Std.OrientedOrd.eq_swap (α := Nat)
  isLE_trans := Std.TransOrd.isLE_trans (α := Nat)

instance : Std.LawfulEqOrd Position where
  compare_self {p} :=
    show compare p.number p.number = .eq from Std.ReflCmp.compare_self
  eq_of_compare h := ext (Std.LawfulEqOrd.eq_of_compare (α := Nat) h)

end Position

end PositionAutomaton
