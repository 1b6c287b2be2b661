/-!
# Increasing lists

Lists whose elements increase strictly, over a type with a comparison. The list function
behind `OrderedSet` merges two of them, with lemmas that give the elements of the result and
keep it increasing.
-/

namespace PositionAutomaton

/-- Each element of `xs` is less than every later one. -/
abbrev Increasing {α : Type} [Ord α] (xs : List α) : Prop :=
  xs.Pairwise fun a b => compare a b = .lt

namespace Increasing

variable {α : Type} [Ord α]

/-- Merges two increasing lists; an element of both is kept once. -/
def merge : List α → List α → List α
  | [], bs => bs
  | a :: as, bs =>
    bs.takeWhile (fun b => (compare b a).isLT) ++
      a :: merge as (bs.dropWhile fun b => (compare b a).isLE)

/-- In an increasing list `bs`, all elements behind those up to `a` are greater than `a`. -/
theorem lt_of_mem_dropWhile [Std.TransOrd α] {x a : α} {bs : List α} (h : Increasing bs)
    (hx : x ∈ bs.dropWhile fun b => (compare b a).isLE) : compare a x = .lt := by
  induction bs with
  | nil => simp at hx
  | cons b bs ih =>
    obtain ⟨hb, hbs⟩ := List.pairwise_cons.1 h
    rw [List.dropWhile_cons] at hx
    split at hx
    next => exact ih hbs hx
    next hba =>
      have hab : compare a b = .lt := Std.OrientedCmp.lt_of_not_isLE hba
      rcases List.mem_cons.1 hx with rfl | hx
      · exact hab
      · exact Std.TransCmp.lt_trans hab (hb x hx)

/-- An element of an increasing list `bs` is below `a`, is `a`, or stands behind those up to `a`. -/
theorem mem_takeWhile_or_mem_dropWhile [Std.TransOrd α] [Std.LawfulEqOrd α] {x a : α}
    {bs : List α} (h : Increasing bs) (hx : x ∈ bs) :
    x ∈ bs.takeWhile (fun b => (compare b a).isLT) ∨ x = a ∨
      x ∈ bs.dropWhile fun b => (compare b a).isLE := by
  induction bs with
  | nil => simp at hx
  | cons b bs ih =>
    obtain ⟨hb, hbs⟩ := List.pairwise_cons.1 h
    -- the first element is below `a`, is `a`, or is above it as all others are then
    rcases hba : compare b a with _ | _ | _
    · rcases List.mem_cons.1 hx with rfl | hx
      · simp [hba]
      · simpa [hba] using Or.imp_left Or.inr (ih hbs hx)
    · obtain rfl := Std.LawfulEqOrd.eq_of_compare hba
      have : bs.dropWhile (fun c => (compare c b).isLE) = bs := by
        cases bs with
        | nil => rfl
        | cons c cs => simp [Std.OrientedCmp.gt_of_lt (hb c (by simp))]
      simpa [this] using hx
    · simpa [hba] using Or.inr hx

/-- The elements of `merge as bs` are those of `as` and `bs`. -/
theorem mem_merge [Std.TransOrd α] [Std.LawfulEqOrd α] {x : α} {as bs : List α}
    (h : Increasing bs) : x ∈ merge as bs ↔ x ∈ as ∨ x ∈ bs := by
  induction as generalizing bs with
  | nil => simp [merge]
  | cons a as ih =>
    have hdrop : Increasing (bs.dropWhile fun b => (compare b a).isLE) :=
      h.sublist (List.dropWhile_sublist _)
    rw [merge, List.mem_append, List.mem_cons, List.mem_cons, ih hdrop]
    constructor
    · rintro (hx | rfl | hx | hx)
      · exact .inr ((List.takeWhile_sublist _).subset hx)
      · exact .inl (.inl rfl)
      · exact .inl (.inr hx)
      · exact .inr ((List.dropWhile_sublist _).subset hx)
    · rintro ((rfl | hx) | hx)
      · exact .inr (.inl rfl)
      · exact .inr (.inr (.inl hx))
      · -- an element of `bs` comes before `a`, is `a`, or comes behind it
        rcases mem_takeWhile_or_mem_dropWhile (a := a) h hx with hx | rfl | hx
        · exact .inl hx
        · exact .inr (.inl rfl)
        · exact .inr (.inr (.inr hx))

/-- The `merge` of increasing lists is increasing. -/
theorem merge_increasing [Std.TransOrd α] [Std.LawfulEqOrd α] {as bs : List α}
    (ha : Increasing as) (hb : Increasing bs) : Increasing (merge as bs) := by
  induction as generalizing bs with
  | nil => simpa [merge] using hb
  | cons a as ih =>
    obtain ⟨haas, has⟩ := List.pairwise_cons.1 ha
    have hdrop : Increasing (bs.dropWhile fun b => (compare b a).isLE) :=
      hb.sublist (List.dropWhile_sublist _)
    -- `a` stands between what is taken of `bs` and what is merged behind it
    have hrest : ∀ y ∈ merge as (bs.dropWhile fun b => (compare b a).isLE),
        compare a y = .lt := fun y hy =>
      ((mem_merge hdrop).1 hy).elim (haas y) (lt_of_mem_dropWhile hb)
    refine List.pairwise_append.2 ⟨hb.sublist (List.takeWhile_sublist _),
      List.pairwise_cons.2 ⟨hrest, ih has hdrop⟩, fun x hx y hy => ?_⟩
    have hxa : compare x a = .lt := by
      simpa using List.all_eq_true.1 List.all_takeWhile x hx
    rcases List.mem_cons.1 hy with rfl | hy
    · exact hxa
    · exact Std.TransCmp.lt_trans hxa (hrest y hy)

/-- An increasing list is determined by its elements. -/
theorem eq_of_mem_iff [Std.TransOrd α] {as bs : List α} (ha : Increasing as)
    (hb : Increasing bs) (h : ∀ x, x ∈ as ↔ x ∈ bs) : as = bs := by
  induction as generalizing bs with
  | nil =>
    cases bs with
    | nil => rfl
    | cons b bs => simpa using h b
  | cons a as ih =>
    cases bs with
    | nil => simpa using h a
    | cons b bs =>
      obtain ⟨haas, has⟩ := List.pairwise_cons.1 ha
      obtain ⟨hbbs, hbs⟩ := List.pairwise_cons.1 hb
      have hne {x y : α} (hxy : compare x y = .lt) : x ≠ y := by
        rintro rfl
        simp at hxy
      -- each first element is the least one, and both lists have it
      have hab : a = b := by
        rcases List.mem_cons.1 ((h a).1 (by simp)) with hab | hab
        · exact hab
        · rcases List.mem_cons.1 ((h b).2 (by simp)) with hba | hba
          · exact hba.symm
          · exact absurd (Std.TransCmp.lt_trans (hbbs a hab) (haas b hba)) (by simp)
      subst hab
      congr 1
      refine ih has hbs fun x => ⟨fun hx => ?_, fun hx => ?_⟩
      · exact (List.mem_cons.1 ((h x).1 (by simp [hx]))).resolve_left (hne (haas x hx)).symm
      · exact (List.mem_cons.1 ((h x).2 (by simp [hx]))).resolve_left (hne (hbbs x hx)).symm

end Increasing

end PositionAutomaton
