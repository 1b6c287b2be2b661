import PositionAutomaton.Proofs.Cuts
import PositionAutomaton.Regex.Language

/-!
# Inside the words of a regular expression

A word of a concatenation or of a repetition that is cut at one of its symbols has the
symbol in a word of an operand (`matches_cat_cut_iff`, `matches_star_cut_iff`). From the
cuts follow the symbols that words start with, end with and have side by side.

Main statement:

* `Matches.exchange`: in an expression without repeated leaves, what may come behind a
  symbol does not depend on what stands before it.
-/

namespace PositionAutomaton

namespace Regex

variable {α β : Type} {l r : Regex α} {a b : α} {u v w x y : List α}

/-- Some word of the expression `r` starts with the symbol `a`. -/
def Starts (r : Regex α) (a : α) : Prop :=
  ∃ w, Matches r (a :: w)

/-- Some word of the expression `r` ends with the symbol `a`. -/
def Ends (r : Regex α) (a : α) : Prop :=
  ∃ w, Matches r (w ++ [a])

/-- Some word of the expression `r` has the symbol `b` directly behind `a`. -/
def Follows (r : Regex α) (a b : α) : Prop :=
  ∃ x y, Matches r (x ++ a :: b :: y)

/-- The leaves of the expression `r` in which `f` replaces every leaf. -/
theorem leaves_map (f : α → β) (r : Regex α) : (r.map f).leaves = r.leaves.map f := by
  induction r with
  | leaf a => rfl
  | star r ih => exact ih
  | alt l r ihl ihr | cat l r ihl ihr => rw [map, leaves, leaves, List.map_append, ihl, ihr]

/-- Every expression `r` has a word. -/
theorem exists_matches (r : Regex α) : ∃ w, Matches r w := by
  induction r with
  | leaf a => exact ⟨[a], .leaf a⟩
  | star r _ => exact ⟨[], .starNil r⟩
  | alt l r ihl _ =>
    obtain ⟨w, hw⟩ := ihl
    exact ⟨w, .altLeft r hw⟩
  | cat l r ihl ihr =>
    obtain ⟨u, hu⟩ := ihl
    obtain ⟨v, hv⟩ := ihr
    exact ⟨u ++ v, .cat hu hv⟩

/-- The symbols of a word `w` of `r` are leaves of `r`. -/
theorem Matches.mem_leaves (h : Matches r w) (ha : a ∈ w) : a ∈ r.leaves := by
  induction h with
  | leaf b => simpa [leaves] using ha
  | starNil r => cases ha
  | starAppend _ _ ihu ihv => exact (List.mem_append.1 ha).elim ihu ihv
  | altLeft r _ ih => exact List.mem_append_left _ (ih ha)
  | altRight l _ ih => exact List.mem_append_right _ (ih ha)
  | cat _ _ ihu ihv => exact List.mem_append.2 ((List.mem_append.1 ha).imp ihu ihv)

/-- Each leaf `a` of an expression stands in one of its words. -/
theorem exists_matches_of_mem_leaves (ha : a ∈ r.leaves) : ∃ x y, Matches r (x ++ a :: y) := by
  induction r with
  | leaf b =>
    obtain rfl := List.mem_singleton.1 ha
    exact ⟨[], [], .leaf a⟩
  | star r ih =>
    obtain ⟨x, y, h⟩ := ih ha
    exact ⟨x, y, by simpa using Matches.starAppend h (.starNil r)⟩
  | alt l r ihl ihr =>
    rcases List.mem_append.1 ha with ha | ha
    · obtain ⟨x, y, h⟩ := ihl ha
      exact ⟨x, y, .altLeft r h⟩
    · obtain ⟨x, y, h⟩ := ihr ha
      exact ⟨x, y, .altRight l h⟩
  | cat l r ihl ihr =>
    -- the word of the other operand is any one
    rcases List.mem_append.1 ha with ha | ha
    · obtain ⟨x, y, h⟩ := ihl ha
      obtain ⟨v, hv⟩ := exists_matches r
      exact ⟨x, y ++ v, by simpa using Matches.cat h hv⟩
    · obtain ⟨x, y, h⟩ := ihr ha
      obtain ⟨u, hu⟩ := exists_matches l
      exact ⟨u ++ x, y, by simpa using Matches.cat hu h⟩

/-- The words of `r.map f` are the words of `r` with their symbols replaced by `f`. -/
theorem matches_map_iff {f : α → β} {w : List β} :
    Matches (r.map f) w ↔ ∃ v, w = v.map f ∧ Matches r v := by
  constructor
  · intro h
    -- an expression with replaced leaves has the form of the expression itself
    induction r generalizing w with
    | leaf a => exact ⟨[a], matches_leaf_iff.1 h, .leaf a⟩
    | star r ih =>
      -- the repeated matches are pulled back one after the other
      obtain ⟨us, rfl, hus⟩ := matches_star_iff.1 h
      clear h
      induction us with
      | nil => exact ⟨[], rfl, .starNil r⟩
      | cons u us ihus =>
        obtain ⟨hu, htail⟩ := List.forall_mem_cons.1 hus
        obtain ⟨v, rfl, hv⟩ := ih hu
        obtain ⟨vs, hmap, hvs⟩ := ihus htail
        exact ⟨v ++ vs, by simp [hmap], .starAppend hv hvs⟩
    | alt l r ihl ihr =>
      rcases matches_alt_iff.1 h with h | h
      · obtain ⟨v, rfl, hv⟩ := ihl h
        exact ⟨v, rfl, .altLeft r hv⟩
      · obtain ⟨v, rfl, hv⟩ := ihr h
        exact ⟨v, rfl, .altRight l hv⟩
    | cat l r ihl ihr =>
      obtain ⟨u, v, rfl, hu, hv⟩ := matches_cat_iff.1 h
      obtain ⟨x, rfl, hx⟩ := ihl hu
      obtain ⟨y, rfl, hy⟩ := ihr hv
      exact ⟨x ++ y, by simp, .cat hx hy⟩
  · rintro ⟨v, rfl, h⟩
    induction h with
    | leaf a => exact .leaf (f a)
    | starNil r => exact .starNil _
    | starAppend _ _ ihu ihv =>
      rw [List.map_append]
      exact .starAppend ihu ihv
    | altLeft r _ ih => exact .altLeft _ ih
    | altRight l _ ih => exact .altRight _ ih
    | cat _ _ ihu ihv =>
      rw [List.map_append]
      exact .cat ihu ihv

/-- Where `f` is injective, the words of `r.map f` with symbols that `f` replaces are those of
`r`. -/
theorem matches_map_map_iff {f : α → β} (hf : Function.Injective f) :
    Matches (r.map f) (w.map f) ↔ Matches r w := by
  rw [matches_map_iff]
  constructor
  · rintro ⟨v, hv, h⟩
    rwa [(List.map_inj_right fun _ _ heq => hf heq).1 hv]
  · exact fun h => ⟨w, rfl, h⟩

/-! ### Cuts -/

/-- A symbol `a` in a word of a concatenation lies in the word of one of the operands `l` and
`r`. -/
theorem matches_cat_cut_iff :
    Matches (.cat l r) (x ++ a :: y) ↔
      (∃ y₁ y₂, y = y₁ ++ y₂ ∧ Matches l (x ++ a :: y₁) ∧ Matches r y₂) ∨
        ∃ x₁ x₂, x = x₁ ++ x₂ ∧ Matches l x₁ ∧ Matches r (x₂ ++ a :: y) := by
  rw [matches_cat_iff]
  constructor
  · rintro ⟨u, v, hw, hu, hv⟩
    rcases append_eq_append_cons_iff.1 hw.symm with ⟨y₁, rfl, rfl⟩ | ⟨x₂, rfl, rfl⟩
    · exact .inl ⟨y₁, v, rfl, hu, hv⟩
    · exact .inr ⟨u, x₂, rfl, hu, hv⟩
  · rintro (⟨y₁, y₂, rfl, hl, hr⟩ | ⟨x₁, x₂, rfl, hl, hr⟩)
    · exact ⟨_, y₂, by simp, hl, hr⟩
    · exact ⟨x₁, _, by simp, hl, hr⟩

/-- Two words `u` and `v` of a repetition in a row are a word of it. -/
theorem Matches.star_append (hu : Matches (.star r) u) (hv : Matches (.star r) v) :
    Matches (.star r) (u ++ v) := by
  obtain ⟨us, rfl, hus⟩ := matches_star_iff.1 hu
  obtain ⟨vs, rfl, hvs⟩ := matches_star_iff.1 hv
  refine matches_star_iff.2 ⟨us ++ vs, by simp, fun w hw => ?_⟩
  exact (List.mem_append.1 hw).elim (hus w) (hvs w)

/-- A word `w` of the operand is a word of a repetition. -/
theorem Matches.star_single (h : Matches r w) : Matches (.star r) w := by
  simpa using Matches.starAppend h (.starNil r)

/-- A symbol `a` in a word of a repetition lies in a word of the operand, with words of the
repetition on both sides. -/
theorem matches_star_cut_iff :
    Matches (.star r) (x ++ a :: y) ↔
      ∃ x₁ x₂ y₁ y₂, x = x₁ ++ x₂ ∧ y = y₁ ++ y₂ ∧ Matches (.star r) x₁ ∧
        Matches r (x₂ ++ a :: y₁) ∧ Matches (.star r) y₂ := by
  constructor
  · intro h
    obtain ⟨us, hw, hus⟩ := matches_star_iff.1 h
    clear h
    -- the cut lies in the first of the repeated matches or in one of the others
    induction us generalizing x with
    | nil => simp at hw
    | cons u us ih =>
      obtain ⟨hu, hus'⟩ := List.forall_mem_cons.1 hus
      rw [List.flatten_cons] at hw
      rcases append_eq_append_cons_iff.1 hw.symm with ⟨y₁, rfl, rfl⟩ | ⟨z, rfl, hz⟩
      · exact ⟨[], x, y₁, us.flatten, rfl, rfl, .starNil r, hu, matches_star_iff.2 ⟨us, rfl, hus'⟩⟩
      · obtain ⟨x₁, x₂, y₁, y₂, rfl, rfl, hx, ha, hy⟩ := ih hz.symm hus'
        exact ⟨u ++ x₁, x₂, y₁, y₂, by simp, rfl, .starAppend hu hx, ha, hy⟩
  · rintro ⟨x₁, x₂, y₁, y₂, rfl, rfl, hx, ha, hy⟩
    have h := hx.star_append (.starAppend ha hy)
    simpa using h

/-! ### First, last and neighbouring symbols -/

/-- The words of a leaf `b` start with it. -/
theorem starts_leaf_iff : Starts (.leaf b) a ↔ a = b := by
  simp [Starts]

/-- Words of a repetition start as those of its operand do. -/
theorem starts_star_iff : Starts (.star r) a ↔ Starts r a := by
  constructor
  · rintro ⟨w, hw⟩
    obtain ⟨x₁, x₂, y₁, y₂, hx, -, -, ha, -⟩ := matches_star_cut_iff (x := []).1 hw
    obtain ⟨rfl, rfl⟩ := List.append_eq_nil_iff.1 hx.symm
    exact ⟨y₁, ha⟩
  · rintro ⟨w, hw⟩
    exact ⟨w, hw.star_single⟩

/-- Words of a choice start as those of one side do. -/
theorem starts_alt_iff : Starts (.alt l r) a ↔ Starts l a ∨ Starts r a := by
  simp [Starts, exists_or]

/-- Words of a concatenation start as those of the left operand do, or of the right one
behind the empty word. -/
theorem starts_cat_iff :
    Starts (.cat l r) a ↔ Starts l a ∨ Matches l [] ∧ Starts r a := by
  constructor
  · rintro ⟨w, hw⟩
    rcases matches_cat_cut_iff (x := []).1 hw with ⟨y₁, y₂, -, hl, -⟩ | ⟨x₁, x₂, hx, hl, hr⟩
    · exact .inl ⟨y₁, hl⟩
    · obtain ⟨rfl, rfl⟩ := List.append_eq_nil_iff.1 hx.symm
      exact .inr ⟨hl, w, hr⟩
  · rintro (⟨u, hu⟩ | ⟨hl, v, hv⟩)
    · obtain ⟨v, hv⟩ := exists_matches r
      exact ⟨u ++ v, .cat hu hv⟩
    · exact ⟨v, .cat hl hv⟩

/-- The words of a leaf `b` end with it. -/
theorem ends_leaf_iff : Ends (.leaf b) a ↔ a = b := by
  simp [Ends, List.append_eq_singleton_iff]

/-- Words of a repetition end as those of its operand do. -/
theorem ends_star_iff : Ends (.star r) a ↔ Ends r a := by
  constructor
  · rintro ⟨w, hw⟩
    obtain ⟨x₁, x₂, y₁, y₂, -, hy, -, ha, -⟩ := matches_star_cut_iff.1 hw
    obtain ⟨rfl, rfl⟩ := List.append_eq_nil_iff.1 hy.symm
    exact ⟨x₂, ha⟩
  · rintro ⟨w, hw⟩
    exact ⟨w, hw.star_single⟩

/-- Words of a choice end as those of one side do. -/
theorem ends_alt_iff : Ends (.alt l r) a ↔ Ends l a ∨ Ends r a := by
  simp [Ends, exists_or]

/-- Words of a concatenation end as those of the right operand do, or of the left one
before the empty word. -/
theorem ends_cat_iff :
    Ends (.cat l r) a ↔ Ends r a ∨ Matches r [] ∧ Ends l a := by
  constructor
  · rintro ⟨w, hw⟩
    rcases matches_cat_cut_iff.1 hw with ⟨y₁, y₂, hy, hl, hr⟩ | ⟨x₁, x₂, -, -, hr⟩
    · obtain ⟨rfl, rfl⟩ := List.append_eq_nil_iff.1 hy.symm
      exact .inr ⟨hr, w, hl⟩
    · exact .inl ⟨x₂, hr⟩
  · rintro (⟨v, hv⟩ | ⟨hr, u, hu⟩)
    · obtain ⟨u, hu⟩ := exists_matches l
      exact ⟨u ++ v, by simpa using Matches.cat hu hv⟩
    · exact ⟨u, by simpa using Matches.cat hu hr⟩

/-- Nothing follows a symbol in the words of a leaf `c`. -/
theorem not_follows_leaf {c : α} : ¬Follows (.leaf c) a b := by
  rintro ⟨x, y, h⟩
  have hlength := congrArg List.length (matches_leaf_iff.1 h)
  simp only [List.length_append, List.length_cons, List.length_nil] at hlength
  omega

/-- In words of a repetition stand side by side what does in words of the operand, and
besides the end of a word with the start of the next. -/
theorem follows_star_iff :
    Follows (.star r) a b ↔ Follows r a b ∨ Ends r a ∧ Starts r b := by
  constructor
  · rintro ⟨x, y, h⟩
    obtain ⟨x₁, x₂, y₁, y₂, -, hy, -, ha, hy₂⟩ := matches_star_cut_iff.1 h
    -- the match with `a` in it ends at `a`, or it goes on with `b`
    rcases List.cons_eq_append_iff.1 hy with ⟨rfl, rfl⟩ | ⟨y₁, rfl, -⟩
    · exact .inr ⟨⟨x₂, ha⟩, starts_star_iff.1 ⟨y, hy₂⟩⟩
    · exact .inl ⟨x₂, y₁, ha⟩
  · rintro (⟨x, y, h⟩ | ⟨⟨x, hx⟩, y, hy⟩)
    · exact ⟨x, y, h.star_single⟩
    · exact ⟨x, y, by simpa using Matches.starAppend hx hy.star_single⟩

/-- In words of a choice stand side by side what does in words of one side. -/
theorem follows_alt_iff : Follows (.alt l r) a b ↔ Follows l a b ∨ Follows r a b := by
  simp [Follows, exists_or]

/-- In words of a concatenation stand side by side what does in words of one operand, and
besides the end of a left word with the start of a right one. -/
theorem follows_cat_iff :
    Follows (.cat l r) a b ↔ Follows l a b ∨ Follows r a b ∨ Ends l a ∧ Starts r b := by
  constructor
  · rintro ⟨x, y, h⟩
    rcases matches_cat_cut_iff.1 h with ⟨y₁, y₂, hy, hl, hr⟩ | ⟨x₁, x₂, -, -, hr⟩
    · -- the left match ends at `a`, or it goes on with `b`
      rcases List.cons_eq_append_iff.1 hy with ⟨rfl, rfl⟩ | ⟨y₁, rfl, -⟩
      · exact .inr (.inr ⟨⟨x, hl⟩, y, hr⟩)
      · exact .inl ⟨x, y₁, hl⟩
    · exact .inr (.inl ⟨x₂, y, hr⟩)
  · rintro (⟨x, y, hl⟩ | ⟨x, y, hr⟩ | ⟨⟨x, hl⟩, y, hr⟩)
    · obtain ⟨v, hv⟩ := exists_matches r
      exact ⟨x, y ++ v, by simpa using Matches.cat hl hv⟩
    · obtain ⟨u, hu⟩ := exists_matches l
      exact ⟨u ++ x, y, by simpa using Matches.cat hu hr⟩
    · exact ⟨x, y, by simpa using Matches.cat hl hr⟩

/-! ### Expressions without repeated leaves -/

/-- In an expression `r` without repeated leaves, the parts of two words behind a common symbol `a`
can be exchanged. -/
theorem Matches.exchange {r : Regex α} (hr : r.leaves.Nodup) {a : α} {x y x' y' : List α}
    (h : Matches r (x ++ a :: y)) (h' : Matches r (x' ++ a :: y')) :
    Matches r (x ++ a :: y') := by
  induction r generalizing x y x' y' with
  | leaf b =>
    rw [matches_leaf_iff, List.append_eq_singleton_iff] at h h'
    simp_all
  | star r ih =>
    -- what is before the match with the symbol is kept, what is behind it is exchanged
    obtain ⟨x₁, x₂, y₁, y₂, rfl, -, hx, ha, -⟩ := matches_star_cut_iff.1 h
    obtain ⟨w₁, w₂, z₁, z₂, rfl, rfl, -, ha', hz⟩ := matches_star_cut_iff.1 h'
    exact matches_star_cut_iff.2 ⟨x₁, x₂, z₁, z₂, rfl, rfl, hx, ih hr ha ha', hz⟩
  | alt l r ihl ihr =>
    obtain ⟨hl, hr, hdisj⟩ := List.nodup_append.1 hr
    -- the common symbol is a leaf of one side only, so both words belong to that side
    rcases matches_alt_iff.1 h with h | h <;> rcases matches_alt_iff.1 h' with h' | h'
    · exact .altLeft _ (ihl hl h h')
    · exact absurd rfl (hdisj a (h.mem_leaves (by simp)) a (h'.mem_leaves (by simp)))
    · exact absurd rfl (hdisj a (h'.mem_leaves (by simp)) a (h.mem_leaves (by simp)))
    · exact .altRight _ (ihr hr h h')
  | cat l r ihl ihr =>
    obtain ⟨hl, hr, hdisj⟩ := List.nodup_append.1 hr
    -- as above, the symbol is on the same side in both words
    rcases matches_cat_cut_iff.1 h with ⟨y₁, y₂, -, h, -⟩ | ⟨x₁, x₂, rfl, hx, h⟩ <;>
      rcases matches_cat_cut_iff.1 h' with ⟨z₁, z₂, rfl, h', hz⟩ | ⟨z₁, z₂, -, -, h'⟩
    · exact matches_cat_cut_iff.2 (.inl ⟨z₁, z₂, rfl, ihl hl h h', hz⟩)
    · exact absurd rfl (hdisj a (h.mem_leaves (by simp)) a (h'.mem_leaves (by simp)))
    · exact absurd rfl (hdisj a (h'.mem_leaves (by simp)) a (h.mem_leaves (by simp)))
    · exact matches_cat_cut_iff.2 (.inr ⟨x₁, x₂, rfl, hx, ihr hr h h'⟩)

end Regex

end PositionAutomaton
