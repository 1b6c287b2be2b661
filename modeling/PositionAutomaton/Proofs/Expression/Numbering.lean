import Mathlib.Data.List.Nodup
import PositionAutomaton.Proofs.Expression.Steps

/-!
# Leaves are numbered from the left

While an expression is put together, its operands side by side have the positions given so
far as their leaves, in order (`Assembly.Numbered.run`). The tree of an expression from a
postfix sequence therefore has each position as a leaf once, from left to right
(`leaves_tree_of_ofPostfix_eq_ok`).
-/

namespace PositionAutomaton

namespace Expression

/-- The positions of an expression, from the first to the last. -/
def positions (e : Expression) : List Position :=
  (List.range e.positionCount).map Position.ofIndex

/-- The `positions` of an expression are those whose index is below `positionCount`. -/
theorem mem_positions_iff {e : Expression} {p : Position} :
    p ∈ e.positions ↔ p.index < e.positionCount := by
  rw [positions, List.mem_map]
  constructor
  · rintro ⟨i, hi, rfl⟩
    simpa using hi
  · intro hp
    exact ⟨p.index, by simpa using hp, p.ofIndex_index⟩

/-- No position is twice among the `positions` of an expression. -/
theorem nodup_positions (e : Expression) : e.positions.Nodup := by
  rw [positions, List.nodup_map_iff_inj_on List.nodup_range]
  intro i _ j _ hij
  simpa using congrArg Position.index hij

/-- Only positions of the expression `e` have a symbol. -/
theorem index_lt_of_symbol?_eq_some {e : Expression} {p : Position} {c : Char}
    (h : e.symbol? p = some c) : p.index < e.positionCount := by
  obtain ⟨hp, -⟩ := Array.getElem?_eq_some_iff.1 (Option.join_eq_some_iff.1 h)
  exact hp

/-- The letters that are read at some position are those among `e.symbols`. -/
theorem exists_symbol?_eq_some_iff_mem {e : Expression} {c : Char} :
    (∃ p, e.symbol? p = some c) ↔ some c ∈ e.symbols := by
  simp only [symbol?, Option.join_eq_some_iff, Array.mem_iff_getElem?]
  constructor
  · rintro ⟨p, hp⟩
    exact ⟨p.index, hp⟩
  · rintro ⟨i, hi⟩
    exact ⟨.ofIndex i, hi⟩

namespace Assembly

variable {a b : Assembly} {t : Token} {tokens : List Token}

/-- The leaves of the operands, from the first one on, are the positions given so far. -/
def Numbered (a : Assembly) : Prop :=
  a.operands.reverse.flatMap Regex.leaves = (List.range a.symbols.size).map Position.ofIndex

/-- A new leaf has the `next` position, which keeps the leaves in order. -/
theorem Numbered.push (h : a.Numbered) (symbol : Option Char) : (a.push symbol).Numbered := by
  rw [Numbered] at h ⊢
  -- the stack is reversed, so that the new leaf comes last
  simp [Assembly.push, h, List.range_succ, Regex.leaves, next]

/-- Each token keeps the leaves `Numbered`. -/
theorem Numbered.step (h : a.Numbered) (hb : a.step t = .ok b) : b.Numbered := by
  rw [step_eq_ok_iff] at hb
  cases hkind : t.kind with
  | letter =>
    rw [hkind] at hb
    subst hb
    exact h.push (some t.value)
  | endMark =>
    -- an end mark is a leaf like any other
    rw [hkind] at hb
    obtain ⟨-, rfl⟩ := hb
    exact h.push none
  | star =>
    rw [hkind] at hb
    obtain ⟨r, rest, hoperands, rfl⟩ := hb
    rw [Numbered] at h ⊢
    simpa [hoperands, Regex.leaves] using h
  | bar | concat =>
    rw [hkind] at hb
    obtain ⟨r, l, rest, hoperands, rfl⟩ := hb
    rw [Numbered] at h ⊢
    simpa [hoperands, Regex.leaves] using h
  | opening | closing =>
    rw [hkind] at hb
    exact hb.elim

/-- Before the first token there are no operands and no positions. -/
theorem numbered_empty : Numbered {} := rfl

/-- What is put together from a sequence is `Numbered`: its leaves are in order. -/
theorem Numbered.run (h : Assembly.run tokens = .ok a) : a.Numbered :=
  of_foldlM_eq_ok (fun _ => Numbered.step) numbered_empty h

end Assembly

variable {e : Expression} {form : Postfix}

/-- The leaves of `e.tree`, for an expression from a postfix sequence, are its `positions`, in
order. -/
theorem leaves_tree_of_ofPostfix_eq_ok (h : ofPostfix form = .ok e) :
    e.tree.leaves = e.positions := by
  obtain ⟨a, ha, he⟩ := bind_eq_ok_iff.1 h
  have hnumbered := Assembly.Numbered.run ha
  rw [Assembly.Numbered] at hnumbered
  rw [Assembly.result] at he
  split at he
  next tree endMark hoperands _ =>
    cases he
    simpa [hoperands, positions, positionCount] using hnumbered
  next => cases he
  next => cases he

end Expression

end PositionAutomaton
