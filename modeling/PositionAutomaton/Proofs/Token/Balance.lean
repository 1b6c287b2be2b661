import PositionAutomaton.Proofs.Token.Explicit

/-!
# The balance of operands and operators

A sequence of tokens in postfix order leaves as many operands as its `balance` says. Since a
concatenation is inserted only where one operand ends and the next one starts, the balance of
a sequence with its concatenations falls short of one by the number of its `defects`, the
places where an operand has to start and none does (`balance_withConcats_add_defects`). No
token can make up for a defect elsewhere.
-/

namespace PositionAutomaton

/-- How many operands there are more after a token in a postfix sequence than before it. -/
def Kind.weight : Kind → Int
  | letter | endMark => 1
  | bar | concat => -1
  | opening | closing | star => 0

/-- A token takes the place of an operand, and leaves the place of one, as its `weight` says. -/
theorem Kind.weight_add_toNat {kind : Kind} (h : kind ≠ .endMark) :
    kind.weight + (!kind.endsOperand).toNat = kind.startsOperand.toNat := by
  cases kind <;> first | rfl | exact absurd rfl h

namespace Token

/-- How many operands a sequence leaves in postfix order. -/
def balance : List Token → Int
  | [] => 0
  | t :: ts => t.kind.weight + balance ts

/-- Without tokens there are no operands. -/
@[simp]
theorem balance_nil : balance [] = 0 := rfl

/-- The balance changes by the weight of each token `t`. -/
@[simp]
theorem balance_cons (t : Token) (ts : List Token) :
    balance (t :: ts) = t.kind.weight + balance ts := rfl

/-- The balances of two sequences `ts` and `us` in a row add up. -/
@[simp]
theorem balance_append (ts us : List Token) : balance (ts ++ us) = balance ts + balance us := by
  induction ts with
  | nil => simp
  | cons t ts ih => simp [ih, Int.add_assoc]

/-- The number of places at which an operand has to start, but none does. If `slot` is set, one
has to start at once. -/
def defects (slot : Bool) : List Token → Nat
  | [] => slot.toNat
  | t :: ts => (slot && !t.kind.startsOperand).toNat + defects (!t.kind.endsOperand) ts

/-- Whether the parentheses of a sequence are nested, if `depth` groups are open before it. -/
def Nested : Nat → List Token → Prop
  | depth, [] => depth = 0
  | depth, t :: ts =>
    match t.kind with
    | .opening => Nested (depth + 1) ts
    | .closing => 0 < depth ∧ Nested (depth - 1) ts
    | .letter | .star | .bar | .concat | .endMark => Nested depth ts

variable {s t : Token} {ts : List Token} {depth : Nat}

/-- Between two tokens `s` and `t` there is a concatenation if `s` ends an operand and `t` starts
one. -/
theorem balance_seam (s t : Token) (ts : List Token) :
    balance (seam [s] (t :: ts)) = -((s.kind.endsOperand && t.kind.startsOperand).toNat : Int) := by
  by_cases h : Adjoins s t
  · rw [seam_of_adjoins rfl rfl h, h.1, h.2]
    rfl
  · have hand : (s.kind.endsOperand && t.kind.startsOperand) = false := by
      simpa [Adjoins] using h
    simp [seam, h, hand]

/-- Behind a token `t` that ends an operand, the balance of `ts` falls short of zero by the defects
there; behind one after which an operand has to start, it falls short of one. -/
theorem balance_seam_add_defects (hts : ∀ u ∈ ts, u.kind ≠ .endMark) (t : Token) :
    balance (seam [t] ts) + balance (withConcats ts) + defects (!t.kind.endsOperand) ts =
      (!t.kind.endsOperand).toNat := by
  induction ts generalizing t with
  | nil => simp [seam, withConcats, defects]
  | cons u us ih =>
    obtain ⟨hu, hus⟩ := List.forall_mem_cons.1 hts
    have hweight := Kind.weight_add_toNat hu
    have hrest := ih hus u
    -- `u` fills the place behind `t` or leaves a defect there, whatever is inserted between
    rw [withConcats_cons, List.cons_append, balance_cons, balance_append, balance_seam, defects]
    cases t.kind.endsOperand <;> cases hstarts : u.kind.startsOperand <;>
      simp only [hstarts, Bool.and_true, Bool.and_false, Bool.not_true, Bool.not_false,
        Bool.toNat_true, Bool.toNat_false] at hweight ⊢ <;> omega

/-- A sequence `ts` with its concatenations falls short of one operand by the number of its
defects. -/
theorem balance_withConcats_add_defects (hts : ∀ u ∈ ts, u.kind ≠ .endMark) :
    balance (withConcats ts) + defects true ts = 1 := by
  cases ts with
  | nil => rfl
  | cons t ts =>
    obtain ⟨ht, hts⟩ := List.forall_mem_cons.1 hts
    have hweight := Kind.weight_add_toNat ht
    have hrest := balance_seam_add_defects hts t
    -- nothing is inserted before the first token, which has to start an operand
    rw [withConcats_cons, List.cons_append, balance_cons, balance_append, defects]
    cases hstarts : t.kind.startsOperand <;>
      simp only [hstarts, Bool.and_true, Bool.and_false, Bool.not_true, Bool.not_false,
        Bool.toNat_true, Bool.toNat_false] at hweight ⊢ <;> omega

/-- In a sequence without defects, an operand starts at each place where one has to: at the start,
if `slot` is set, and behind a token that ends none. -/
theorem startsOperand_of_defects_eq_zero {slot : Bool} {us : List Token}
    (h : defects slot (us ++ t :: ts) = 0)
    (hplace : us.getLast?.elim slot (!·.kind.endsOperand) = true) :
    t.kind.startsOperand = true := by
  induction us generalizing slot with
  | nil =>
    obtain rfl : slot = true := hplace
    rw [List.nil_append, defects, Nat.add_eq_zero_iff, Bool.toNat_eq_zero] at h
    simpa using h.1
  | cons u us ih =>
    rw [List.cons_append, defects, Nat.add_eq_zero_iff] at h
    apply ih h.2
    rw [List.getLast?_cons] at hplace
    cases hlast : us.getLast? <;> simpa [hlast] using hplace

/-- A sequence without defects does not end where an operand has to start: its last token `t` ends
one. -/
theorem endsOperand_of_defects_eq_zero {slot : Bool} (h : defects slot (ts ++ [t]) = 0) :
    t.kind.endsOperand = true := by
  induction ts generalizing slot with
  | nil =>
    rw [List.nil_append, defects, defects, Nat.add_eq_zero_iff, Bool.toNat_eq_zero] at h
    simpa using h.2
  | cons s ss ih =>
    rw [List.cons_append, defects, Nat.add_eq_zero_iff] at h
    exact ih h.2

/-- An end mark does not change how the parentheses of `ts` before it are nested. -/
theorem nested_append_endMark_iff {last : Offset} :
    Nested depth (ts ++ [endMark last]) ↔ Nested depth ts := by
  induction ts generalizing depth with
  | nil => rfl
  | cons t ts ih =>
    rw [List.cons_append, Nested, Nested]
    cases t.kind <;> simp only [ih]

/-- The concatenations of `withConcats` do not change how parentheses are nested. -/
theorem nested_withConcats_iff : Nested depth (withConcats ts) ↔ Nested depth ts := by
  induction ts generalizing depth with
  | nil => rfl
  | cons t ts ih =>
    -- a concatenation is no parenthesis
    have hseam (d : Nat) : Nested d (seam [t] ts ++ withConcats ts) ↔ Nested d ts := by
      cases ts with
      | nil => rfl
      | cons u us =>
        by_cases h : Adjoins t u
        · rw [seam_of_adjoins rfl rfl h]
          exact ih
        · rw [show seam [t] (u :: us) = [] by simp [seam, h]]
          exact ih
    rw [withConcats_cons, List.cons_append, Nested, Nested]
    cases t.kind <;> simp only [hseam]

end Token

end PositionAutomaton
