import PositionAutomaton.Expression
import PositionAutomaton.Proofs.Outcome

/-!
# The steps of an assembly

What each kind of token does to an expression that is put together (`Assembly.step_eq_ok_iff`), and
which tokens are refused (`Assembly.step_eq_error_iff`). The tokens that become leaves give the next
position its symbol (`Assembly.toList_symbols_of_step_eq_ok`).
-/

namespace PositionAutomaton

/-! ### Leaves -/

/-- The kinds of the tokens that become leaves: letters and end marks. -/
def Kind.isLeaf : Kind → Bool
  | letter | endMark => true
  | opening | closing | star | bar | concat => false

namespace Token

/-- The tokens of a sequence that become leaves, in their order. -/
def leaves (ts : List Token) : List Token :=
  ts.filter (·.kind.isLeaf)

/-- What is read at the leaf that the token `t` becomes: a letter, or nothing at an end mark. -/
def symbol? (t : Token) : Option Char :=
  if t.kind = .letter then some t.value else none

variable {t u : Token} {ts : List Token}

/-- The leaves of `ts ++ us` are those of `ts` and then those of `us`. -/
theorem leaves_append (ts us : List Token) : leaves (ts ++ us) = leaves ts ++ leaves us :=
  List.filter_append ..

/-- A letter or an end mark `t` is a leaf. -/
theorem leaves_singleton_of_isLeaf (h : t.kind.isLeaf = true) : leaves [t] = [t] := by
  simp [leaves, h]

/-- A token `t` of another kind is no leaf. -/
theorem leaves_singleton_of_not_isLeaf (h : t.kind.isLeaf = false) : leaves [t] = [] := by
  simp [leaves, h]

/-- A leaf `t` behind a sequence `ts` comes after the leaves of `ts`. -/
theorem getElem?_leaves_append_singleton_iff {k : Nat} :
    (leaves (ts ++ [t]))[k]? = some u ↔
      (leaves ts)[k]? = some u ∨ k = (leaves ts).length ∧ t.kind.isLeaf = true ∧ t = u := by
  rw [leaves_append]
  cases ht : t.kind.isLeaf with
  | false => simp [leaves_singleton_of_not_isLeaf ht]
  | true =>
    rw [leaves_singleton_of_isLeaf ht]
    rcases Nat.lt_trichotomy k (leaves ts).length with hlt | rfl | hgt
    · simp [List.getElem?_append_left hlt, Nat.ne_of_lt hlt]
    · simp
    · rw [List.getElem?_eq_none (by simpa using Nat.succ_le_of_lt hgt),
        List.getElem?_eq_none (Nat.le_of_lt hgt)]
      simp [Nat.ne_of_gt hgt]

end Token

namespace Expression

namespace Assembly

variable {a b : Assembly} {t : Token} {tokens : List Token} {error : Error}
  {op : Regex Position → Regex Position → Regex Position}

/-- The leaf that `push` adds is the last operand. -/
@[simp]
theorem operands_push (a : Assembly) (symbol : Option Char) :
    (a.push symbol).operands = .leaf a.next :: a.operands := rfl

/-- A repetition takes the last operand `r`. -/
theorem star_eq_ok_iff :
    a.star t = .ok b ↔
      ∃ r rest, a.operands = r :: rest ∧ b = { a with operands := .star r :: rest } := by
  rw [star]
  split
  next r rest hoperands =>
    constructor
    · rintro ⟨⟩
      exact ⟨r, rest, hoperands, rfl⟩
    · rintro ⟨_, _, h, rfl⟩
      obtain ⟨rfl, rfl⟩ := List.cons.inj (hoperands.symm.trans h)
      rfl
  next hoperands => simp [hoperands]

/-- An operator `op` takes the last two operands, `l` and `r`. -/
theorem join_eq_ok_iff :
    a.join op t = .ok b ↔
      ∃ r l rest, a.operands = r :: l :: rest ∧ b = { a with operands := op l r :: rest } := by
  rw [join]
  split
  next r l rest hoperands =>
    constructor
    · rintro ⟨⟩
      exact ⟨r, l, rest, hoperands, rfl⟩
    · rintro ⟨_, _, _, h, rfl⟩
      obtain ⟨rfl, hrest⟩ := List.cons.inj (hoperands.symm.trans h)
      obtain ⟨rfl, rfl⟩ := List.cons.inj hrest
      rfl
  next hoperands =>
    simp only [reduceCtorEq, false_iff]
    rintro ⟨r, l, rest, h, -⟩
    exact hoperands r l rest h

/-- An end mark is taken in by `finish` if there is none. -/
theorem finish_eq_ok_iff :
    a.finish t = .ok b ↔
      a.endMark = none ∧ b = { a.push none with endMark := some a.next } := by
  rw [finish]
  split
  next hend => simp [hend]
  next hend => simp [hend, eq_comm]

/-- What `step` does to an expression that is put together, according to the kind of the token
`t`. -/
theorem step_eq_ok_iff :
    a.step t = .ok b ↔
      match t.kind with
      | .letter => b = a.push (some t.value)
      | .endMark => a.endMark = none ∧ b = { a.push none with endMark := some a.next }
      | .star => ∃ r rest, a.operands = r :: rest ∧ b = { a with operands := .star r :: rest }
      | .bar =>
        ∃ r l rest, a.operands = r :: l :: rest ∧ b = { a with operands := .alt l r :: rest }
      | .concat =>
        ∃ r l rest, a.operands = r :: l :: rest ∧ b = { a with operands := .cat l r :: rest }
      | .opening | .closing => False := by
  rw [step]
  cases t.kind with
  | letter => simp [eq_comm]
  | endMark => exact finish_eq_ok_iff
  | star => exact star_eq_ok_iff
  | bar | concat => exact join_eq_ok_iff
  | opening | closing => simp

/-- The tokens that `step` refuses: operators without operands, a second end mark, and
parentheses. -/
theorem step_eq_error_iff :
    a.step t = .error error ↔
      match t.kind with
      | .letter => False
      | .endMark => a.endMark.isSome = true ∧ error = .malformed t.offset .duplicateEndMark
      | .star =>
        a.operands.length < 1 ∧ error = .malformed t.offset (.missingOperand t.value)
      | .bar | .concat =>
        a.operands.length < 2 ∧ error = .malformed t.offset (.missingOperand t.value)
      | .opening | .closing => error = .malformed t.offset (.unexpectedToken t.value) := by
  rw [step]
  cases t.kind with
  | letter => simp
  | endMark =>
    cases hend : a.endMark <;> simp [finish, hend, eq_comm]
  | star =>
    rcases hoperands : a.operands with _ | ⟨r, rest⟩
    · simp [star, hoperands, eq_comm]
    · simp [star, hoperands]
  | bar | concat =>
    rcases hoperands : a.operands with _ | ⟨r, _ | ⟨l, rest⟩⟩
    · simp [join, hoperands, eq_comm]
    · simp [join, hoperands, eq_comm]
    · simp only [join, hoperands, List.length_cons, reduceCtorEq, false_iff, not_and]
      omega
  | opening | closing => simp [eq_comm]

/-- Behind each token that `step` takes in there is an operand. -/
theorem operands_ne_nil_of_step_eq_ok (h : a.step t = .ok b) : b.operands ≠ [] := by
  rw [step_eq_ok_iff] at h
  cases hkind : t.kind with
  | letter =>
    rw [hkind] at h
    subst h
    simp
  | endMark =>
    rw [hkind] at h
    obtain ⟨-, rfl⟩ := h
    simp
  | star =>
    rw [hkind] at h
    obtain ⟨r, rest, -, rfl⟩ := h
    simp
  | bar | concat =>
    rw [hkind] at h
    obtain ⟨r, l, rest, -, rfl⟩ := h
    simp
  | opening | closing =>
    rw [hkind] at h
    exact h.elim

/-- Behind a sequence of tokens that is not empty there is an operand in `b`. -/
theorem operands_ne_nil_of_foldlM_eq_ok (hne : tokens ≠ []) (h : tokens.foldlM step a = .ok b) :
    b.operands ≠ [] := by
  obtain rfl | ⟨us, t, rfl⟩ := List.eq_nil_or_concat tokens
  · exact absurd rfl hne
  · rw [List.concat_eq_append, foldlM_append_singleton_eq_ok_iff] at h
    obtain ⟨c, -, hstep⟩ := h
    exact operands_ne_nil_of_step_eq_ok hstep

/-- A token that becomes a leaf gives a position its `symbol?`, and no other token does. -/
theorem toList_symbols_of_step_eq_ok (h : a.step t = .ok b) :
    b.symbols.toList = a.symbols.toList ++ (Token.leaves [t]).map Token.symbol? := by
  rw [step_eq_ok_iff] at h
  cases hkind : t.kind with
  | letter =>
    rw [hkind] at h
    subst h
    simp [push, Token.leaves_singleton_of_isLeaf, hkind, Kind.isLeaf, Token.symbol?]
  | endMark =>
    rw [hkind] at h
    obtain ⟨-, rfl⟩ := h
    simp [push, Token.leaves_singleton_of_isLeaf, hkind, Kind.isLeaf, Token.symbol?]
  | star =>
    rw [hkind] at h
    obtain ⟨r, rest, -, rfl⟩ := h
    simp [Token.leaves_singleton_of_not_isLeaf, hkind, Kind.isLeaf]
  | bar | concat =>
    rw [hkind] at h
    obtain ⟨r, l, rest, -, rfl⟩ := h
    simp [Token.leaves_singleton_of_not_isLeaf, hkind, Kind.isLeaf]
  | opening | closing =>
    rw [hkind] at h
    exact h.elim

/-- Each token that becomes a leaf gives one position more. -/
theorem size_symbols_of_step_eq_ok (h : a.step t = .ok b) :
    b.symbols.size = a.symbols.size + (Token.leaves [t]).length := by
  simpa using congrArg List.length (toList_symbols_of_step_eq_ok h)

/-- Only a token of the kind `endMark` makes a leaf the end mark. -/
theorem endMark_of_step_eq_ok (ht : t.kind ≠ .endMark) (h : a.step t = .ok b) :
    b.endMark = a.endMark := by
  rw [step_eq_ok_iff] at h
  cases hkind : t.kind with
  | letter =>
    rw [hkind] at h
    subst h
    rfl
  | star =>
    rw [hkind] at h
    obtain ⟨r, rest, -, rfl⟩ := h
    rfl
  | bar | concat =>
    rw [hkind] at h
    obtain ⟨r, l, rest, -, rfl⟩ := h
    rfl
  | endMark => exact absurd hkind ht
  | opening | closing =>
    rw [hkind] at h
    exact h.elim

end Assembly

end Expression

end PositionAutomaton
