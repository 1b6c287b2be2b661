import PositionAutomaton.Proofs.Token.Balance
import PositionAutomaton.Proofs.Token.Lexer
import PositionAutomaton.Regex.Grammar

/-!
# Texts and the grammar

Each character of a phrase is written for a token (`Derives.isSome_ofChar?`). Conversely, a
text whose tokens have nested parentheses and no defects is a choice: what is read of it at
each place is a choice so far, behind the starts of the groups that are open
(`Begun.exists_derives`).
-/

namespace PositionAutomaton

/-- Each character `c` of a phrase is written for a kind of token. -/
theorem Derives.isSome_ofChar? {k : Phrase} {cs : List Char} {r : Regex Char}
    (h : Derives k cs r) : ∀ c ∈ cs, (Kind.ofChar? c).isSome = true := by
  induction h with
  | letter hc =>
    intro c hmem
    obtain rfl := List.mem_singleton.1 hmem
    exact Option.isSome_of_eq_some (Kind.ofChar?_of_isAlpha hc)
  | group _ ih =>
    rw [List.forall_mem_append, List.forall_mem_cons, List.forall_mem_singleton]
    exact ⟨⟨rfl, ih⟩, rfl⟩
  | star _ ih =>
    rw [List.forall_mem_append, List.forall_mem_singleton]
    exact ⟨ih, rfl⟩
  | append _ _ ihl ihr => exact List.forall_mem_append.2 ⟨ihl, ihr⟩
  | bar _ _ ihl ihr =>
    rw [List.forall_mem_append, List.forall_mem_cons]
    exact ⟨ihl, rfl, ihr⟩
  | once _ ih | single _ ih | only _ ih => exact ih

/-! ### Longer choices -/

/-- The characters `cs` are a choice. -/
def IsChoice (cs : List Char) : Prop :=
  ∃ r, Derives .choice cs r

/-- The characters `cs` are the start of a choice in which the next operand has to follow: nothing,
or a choice and a bar. -/
def IsStart (cs : List Char) : Prop :=
  cs = [] ∨ ∃ ds, IsChoice ds ∧ cs = ds ++ ['|']

namespace IsChoice

variable {cs ds : List Char} {r : Regex Char}

/-- A repetition `ds` can follow a choice. -/
theorem append (h : IsChoice cs) (hr : Derives .repetition ds r) : IsChoice (cs ++ ds) := by
  obtain ⟨_, h⟩ := h
  cases h with
  | only hl => exact ⟨_, .only (.append hl hr)⟩
  | bar hl hs =>
    rw [List.append_assoc, List.cons_append]
    exact ⟨_, .bar hl (.append hs hr)⟩

/-- A star can follow a choice `cs`; it repeats the last repetition of its last sequence. -/
theorem star (h : IsChoice cs) : IsChoice (cs ++ ['*']) := by
  -- the last sequence of a choice ends in a repetition, behind which the star stands
  have hsequence {cs : List Char} {r : Regex Char} (h : Derives .sequence cs r) :
      ∃ s, Derives .sequence (cs ++ ['*']) s := by
    cases h with
    | single hr => exact ⟨_, .single (.star hr)⟩
    | append hl hr =>
      rw [List.append_assoc]
      exact ⟨_, .append hl (.star hr)⟩
  obtain ⟨_, h⟩ := h
  cases h with
  | only hs =>
    obtain ⟨_, hs⟩ := hsequence hs
    exact ⟨_, .only hs⟩
  | bar hl hs =>
    obtain ⟨_, hs⟩ := hsequence hs
    rw [List.append_assoc, List.cons_append]
    exact ⟨_, .bar hl hs⟩

/-- A bar makes a choice `cs` the start of one. -/
theorem bar (h : IsChoice cs) : IsStart (cs ++ ['|']) :=
  .inr ⟨cs, h, rfl⟩

/-- A choice `cs` in parentheses is a repetition. -/
theorem group (h : IsChoice cs) : ∃ r, Derives .repetition ('(' :: cs ++ [')']) r := by
  obtain ⟨r, h⟩ := h
  exact ⟨r, .once (.group h)⟩

end IsChoice

/-- A repetition `ds` makes the start of a choice a choice. -/
theorem IsStart.append {cs ds : List Char} {r : Regex Char} (h : IsStart cs)
    (hr : Derives .repetition ds r) : IsChoice (cs ++ ds) := by
  rcases h with rfl | ⟨cs, ⟨l, hl⟩, rfl⟩
  · exact ⟨r, .only (.single hr)⟩
  · rw [List.append_assoc]
    exact ⟨.alt l r, .bar hl (.single hr)⟩

/-! ### Texts with open groups -/

/-- The characters are a text in which `depth` groups are open. If `slot` is set, the innermost
one is the start of a choice, otherwise it is a choice. -/
inductive Begun : Nat → Bool → List Char → Prop where
  /-- The start of a choice. -/
  | start {cs : List Char} : IsStart cs → Begun 0 true cs
  /-- A choice. -/
  | choice {cs : List Char} : IsChoice cs → Begun 0 false cs
  /-- A group that is the start of a choice. -/
  | groupStart {depth : Nat} {slot : Bool} {cs ds : List Char} :
      Begun depth slot cs → IsStart ds → Begun (depth + 1) true (cs ++ '(' :: ds)
  /-- A group that is a choice. -/
  | groupChoice {depth : Nat} {slot : Bool} {cs ds : List Char} :
      Begun depth slot cs → IsChoice ds → Begun (depth + 1) false (cs ++ '(' :: ds)

namespace Begun

variable {depth : Nat} {slot : Bool} {cs ds : List Char} {r : Regex Char}

/-- A repetition `ds` can always follow. -/
theorem append (h : Begun depth slot cs) (hr : Derives .repetition ds r) :
    Begun depth false (cs ++ ds) := by
  cases h with
  | start h => exact .choice (h.append hr)
  | choice h => exact .choice (h.append hr)
  | groupStart ho h =>
    rw [List.append_assoc]
    exact .groupChoice ho (h.append hr)
  | groupChoice ho h =>
    rw [List.append_assoc]
    exact .groupChoice ho (h.append hr)

/-- A star can follow if `slot` is not set. -/
theorem star (h : Begun depth false cs) : Begun depth false (cs ++ ['*']) := by
  cases h with
  | choice h => exact .choice h.star
  | groupChoice ho h =>
    rw [List.append_assoc]
    exact .groupChoice ho h.star

/-- A bar can follow if `slot` is not set, and sets it. -/
theorem bar (h : Begun depth false cs) : Begun depth true (cs ++ ['|']) := by
  cases h with
  | choice h => exact .start h.bar
  | groupChoice ho h =>
    rw [List.append_assoc]
    exact .groupStart ho h.bar

/-- A group can always start. -/
theorem opening (h : Begun depth slot cs) : Begun (depth + 1) true (cs ++ ['(']) :=
  .groupStart h (.inl rfl)

/-- A group that is a choice can end, so that `depth` groups remain open. -/
theorem closing (h : Begun (depth + 1) false cs) : Begun depth false (cs ++ [')']) := by
  cases h with
  | groupChoice ho h =>
    obtain ⟨r, hr⟩ := h.group
    rw [List.append_assoc]
    exact ho.append hr

/-- If the rest `ds` of a text has nested parentheses and no defects, the whole text is a choice. -/
theorem exists_derives {foldCase : Bool} {offset : Offset} {ts : List Token}
    (h : Begun depth slot cs) (hts : Token.scanFrom foldCase offset ds = .ok ts)
    (hnested : Token.Nested depth ts) (hdefects : Token.defects slot ts = 0) :
    ∃ r, Derives .choice (cs ++ ds) r := by
  induction ds generalizing depth slot cs offset ts with
  | nil =>
    cases hts
    obtain rfl : slot = false := Bool.toNat_eq_zero.1 hdefects
    obtain rfl : depth = 0 := hnested
    rw [List.append_nil]
    cases h with
    | choice h => exact h
  | cons c ds ih =>
    obtain ⟨t, us, ht, hus, rfl⟩ := Token.scanFrom_cons_eq_ok_iff.1 hts
    obtain ⟨hkind, -⟩ := Token.ofChar_eq_ok_iff.1 ht
    rw [Token.defects, Nat.add_eq_zero_iff] at hdefects
    obtain ⟨hslot, hdefects⟩ := hdefects
    rw [Token.Nested] at hnested
    rw [List.append_cons]
    have hchar := Kind.ofChar?_eq_some_iff.1 hkind
    -- a token that starts no operand does not stand where one has to start
    have hplace (hstarts : t.kind.startsOperand = false) : slot = false := by
      rw [Bool.toNat_eq_zero, hstarts] at hslot
      simpa using hslot
    cases hk : t.kind with
    | letter =>
      rw [hk] at hchar hnested hdefects
      exact ih (h.append (.once (.letter hchar))) hus hnested hdefects
    | opening =>
      rw [hk] at hchar hnested hdefects
      subst hchar
      exact ih h.opening hus hnested hdefects
    | closing =>
      obtain rfl := hplace (by rw [hk]; rfl)
      rw [hk] at hchar hnested hdefects
      subst hchar
      obtain ⟨hpos, hnested⟩ := hnested
      obtain ⟨outer, rfl⟩ := Nat.exists_eq_add_of_lt hpos
      rw [Nat.zero_add] at h hnested
      exact ih h.closing hus hnested hdefects
    | star =>
      obtain rfl := hplace (by rw [hk]; rfl)
      rw [hk] at hchar hnested hdefects
      subst hchar
      exact ih h.star hus hnested hdefects
    | bar =>
      obtain rfl := hplace (by rw [hk]; rfl)
      rw [hk] at hchar hnested hdefects
      subst hchar
      exact ih h.bar hus hnested hdefects
    | concat | endMark =>
      rw [hk] at hchar
      exact hchar.elim

end Begun

end PositionAutomaton
