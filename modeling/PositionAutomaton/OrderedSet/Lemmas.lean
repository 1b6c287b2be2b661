import PositionAutomaton.OrderedSet.Basic

/-!
# Membership in ordered sets

What each operation on ordered sets does to membership, that bisection finds every
member (`contains_iff`, `find?_eq_some_iff`), and that sets with the same members are
equal (`ext`).
-/

namespace PositionAutomaton

namespace OrderedSet

variable {α : Type} [Ord α]

/-- A member of `s` is an element of `s.toList`. -/
theorem mem_iff {s : OrderedSet α} {a : α} : a ∈ s ↔ a ∈ s.toList := Iff.rfl

/-- The set of an increasing list has that list of members. -/
@[simp]
theorem toList_ofIncreasing (xs : List α) (h : Increasing xs) :
    (ofIncreasing xs h).toList = xs := rfl

/-- The empty set has no members. -/
@[simp]
theorem not_mem_empty {a : α} : a ∉ (empty : OrderedSet α) := by
  simp [mem_iff, empty]

/-- A singleton has its one member. -/
@[simp]
theorem mem_singleton {a b : α} : a ∈ singleton b ↔ a = b := by
  simp [mem_iff, singleton]

/-- The members of `s.filter p` are those of `s` that satisfy `p`. -/
@[simp]
theorem mem_filter {p : α → Bool} {s : OrderedSet α} {a : α} :
    a ∈ s.filter p ↔ a ∈ s ∧ p a = true := by
  simp [mem_iff, filter]

/-- The test `isEmpty` holds of a set exactly if nothing is a member. -/
theorem isEmpty_iff {s : OrderedSet α} : s.isEmpty = true ↔ ∀ a, a ∉ s := by
  simp [isEmpty, mem_iff, toList, Array.eq_empty_iff_forall_not_mem]

/-- Sets are compared as their lists of members. -/
theorem compare_eq (s t : OrderedSet α) : compare s t = compare s.toList t.toList :=
  Array.compareLex_eq_compareLex_toList

section Bisection

omit [Ord α] in
/-- If `isBelow` holds of the first `k` elements and no others, bisection between `low` and `high`
finds the index `k`, as long as `k` lies between them and there are steps enough. -/
theorem lowerBoundIn_eq {isBelow : α → Bool} {xs : Array α} {k : Nat}
    (hk : ∀ i (h : i < xs.size), isBelow xs[i] = true ↔ i < k) {steps low high : Nat}
    (hlow : low ≤ k) (hhigh : k ≤ high) (hsize : high ≤ xs.size) (hsteps : high - low ≤ steps) :
    lowerBoundIn isBelow xs steps low high = k := by
  -- `k` stays between `low` and `high`, and the distance of these shrinks with each step
  induction steps generalizing low high with
  | zero =>
    rw [lowerBoundIn]
    omega
  | succ steps ih =>
    rw [lowerBoundIn]
    split
    next hlt =>
      have hmiddle : (low + high) / 2 < xs.size := by omega
      simp only [Array.getElem?_eq_getElem hmiddle, Option.any_some]
      split
      next h =>
        have := (hk _ hmiddle).1 h
        exact ih (by omega) hhigh hsize (by omega)
      next h =>
        have := mt (hk _ hmiddle).2 h
        exact ih hlow (by omega) (by omega) (by omega)
    next => omega

omit [Ord α] in
/-- If `isBelow` holds of the first `k` elements and no others, bisection finds the index `k`. -/
theorem lowerBound_eq {isBelow : α → Bool} {xs : Array α} {k : Nat}
    (hk : ∀ i (h : i < xs.size), isBelow xs[i] = true ↔ i < k) (hsize : k ≤ xs.size) :
    lowerBound isBelow xs = k :=
  lowerBoundIn_eq hk (Nat.zero_le k) hsize (Nat.le_refl _) (Nat.le_refl _)

/-- If `isBelow` passes to lesser elements, it holds of a first part of an increasing list and fails
on the rest. -/
theorem getElem_iff_lt_length_takeWhile (isBelow : α → Bool) {xs : List α}
    (hxs : Increasing xs)
    (hbelow : ∀ a b, compare a b = .lt → isBelow b = true → isBelow a = true) (i : Nat)
    (h : i < xs.length) : isBelow xs[i] = true ↔ i < (xs.takeWhile isBelow).length := by
  induction xs generalizing i with
  | nil => simp at h
  | cons x xs ih =>
    obtain ⟨hx, hxs⟩ := List.pairwise_cons.1 hxs
    by_cases hp : isBelow x = true
    · cases i with
      | zero => simp [hp]
      | succ i => simpa [hp] using ih hxs i (by simpa using h)
    · cases i with
      | zero => simp [hp]
      | succ i =>
        have := fun hi => hp (hbelow _ _ (hx _ (List.getElem_mem (by simpa using h))) hi)
        simpa [hp] using this

/-- Look-up finds the member at the wanted place: if `locate` follows the order of the set
and singles out at most one member, it finds that member. -/
theorem find?_eq_some_iff {s : OrderedSet α} (locate : α → Ordering) {a : α}
    (hlt : ∀ a b, compare a b = .lt → locate b = .lt → locate a = .lt)
    (hgt : ∀ a b, compare a b = .lt → locate a = .gt → locate b = .gt)
    (heq : ∀ a ∈ s, ∀ b ∈ s, locate a = .eq → locate b = .eq → a = b) :
    s.find? locate = some a ↔ a ∈ s ∧ locate a = .eq := by
  -- the members below the wanted place come first, so that bisection finds their number
  have hsplit := getElem_iff_lt_length_takeWhile (fun a => (locate a).isLT)
    s.toList_increasing fun a b hab hb => by simpa using hlt a b hab (by simpa using hb)
  have hbound : lowerBound (fun a => (locate a).isLT) s.members =
      (s.toList.takeWhile fun a => (locate a).isLT).length :=
    lowerBound_eq (fun i h => by simpa [toList] using hsplit i h)
      (List.takeWhile_sublist _).length_le
  rw [find?, hbound, Option.filter_eq_some_iff, Ordering.isEq_iff_eq_eq]
  constructor
  · rintro ⟨ha, hloc⟩
    exact ⟨Array.mem_toList_iff.2 (Array.mem_of_getElem? ha), hloc⟩
  · rintro ⟨ha, hloc⟩
    obtain ⟨j, hj, rfl⟩ := List.getElem_of_mem ha
    refine ⟨?_, hloc⟩
    -- the member at the index `k` that is found lies neither below the wanted place nor above it
    generalize (s.toList.takeWhile fun a => (locate a).isLT).length = k at hsplit
    have hkj : k ≤ j := Nat.le_of_not_lt fun h => by
      simpa [hloc] using (hsplit j hj).2 h
    have hk : k < s.toList.length := Nat.lt_of_le_of_lt hkj hj
    suffices h : s.toList[k] = s.toList[j] by
      rw [← h]
      exact Array.getElem?_eq_getElem hk
    refine heq _ (List.getElem_mem hk) _ ha ?_ hloc
    rcases h : locate s.toList[k] with _ | _ | _
    · exact absurd ((hsplit k hk).1 (by simp [h])) (Nat.lt_irrefl k)
    · rfl
    · rcases Nat.lt_or_eq_of_le hkj with hlt' | rfl
      · have := hgt _ _ (List.pairwise_iff_getElem.1 s.increasing k j hk hj hlt') h
        exact absurd (hloc.symm.trans this) (by simp)
      · simp [hloc] at h

end Bisection

section Operations

variable [Std.TransOrd α] [Std.LawfulEqOrd α]

/-- The bisection of `contains` decides membership. -/
@[simp]
theorem contains_iff {s : OrderedSet α} {a : α} : s.contains a = true ↔ a ∈ s := by
  have hfind := fun b => find?_eq_some_iff (s := s) (compare · a) (a := b)
    (fun _ _ => Std.TransCmp.lt_trans)
    (fun _ _ hbc hb => Std.OrientedCmp.gt_of_lt
      (Std.TransCmp.lt_trans (Std.OrientedCmp.lt_of_gt hb) hbc))
    (fun b _ c _ hb hc => (Std.LawfulEqOrd.eq_of_compare hb).trans
      (Std.LawfulEqOrd.eq_of_compare hc).symm)
  rw [contains, Option.isSome_iff_exists]
  constructor
  · rintro ⟨b, hb⟩
    obtain ⟨hb, heq⟩ := (hfind b).1 hb
    exact Std.LawfulEqOrd.eq_of_compare heq ▸ hb
  · exact fun ha => ⟨a, (hfind a).2 ⟨ha, Std.ReflCmp.compare_self⟩⟩

instance (a : α) (s : OrderedSet α) : Decidable (a ∈ s) :=
  decidable_of_iff _ contains_iff

/-- The members of `s.union t` are those of `s` and those of `t`. -/
@[simp]
theorem mem_union {s t : OrderedSet α} {a : α} : a ∈ s.union t ↔ a ∈ s ∨ a ∈ t :=
  Increasing.mem_merge t.toList_increasing

/-- The sets of `unionPairs ss` have the same members as those of `ss`. -/
theorem exists_mem_unionPairs_iff {ss : List (OrderedSet α)} {a : α} :
    (∃ s ∈ unionPairs ss, a ∈ s) ↔ ∃ s ∈ ss, a ∈ s := by
  fun_induction unionPairs ss with
  | case1 s t ss ih => simp [ih, or_assoc]
  | case2 ss => rfl

/-- The union of the sets of `ss` has their members. -/
theorem mem_foldr_union {ss : List (OrderedSet α)} {a : α} :
    a ∈ ss.foldr union empty ↔ ∃ s ∈ ss, a ∈ s := by
  induction ss with
  | nil => simp
  | cons s ss ih => simp [ih]

/-- The members of `ofList xs` are the elements of `xs`. -/
@[simp]
theorem mem_ofList {xs : List α} {a : α} : a ∈ ofList xs ↔ a ∈ xs := by
  have hpairs (n : Nat) :
      (∃ s ∈ n.repeat unionPairs (xs.map singleton), a ∈ s) ↔ a ∈ xs := by
    induction n with
    | zero =>
      constructor
      · rintro ⟨s, hs, ha⟩
        obtain ⟨b, hb, rfl⟩ := List.mem_map.1 hs
        exact mem_singleton.1 ha ▸ hb
      · exact fun ha => ⟨singleton a, List.mem_map.2 ⟨a, ha, rfl⟩, mem_singleton.2 rfl⟩
    | succ n ih => rw [Nat.repeat, exists_mem_unionPairs_iff, ih]
  rw [ofList, mem_foldr_union, hpairs]

omit [Std.LawfulEqOrd α] in
/-- Sets with the same members are equal. -/
@[ext]
theorem ext {s t : OrderedSet α} (h : ∀ a, a ∈ s ↔ a ∈ t) : s = t :=
  eq_of_toList_eq (Increasing.eq_of_mem_iff s.toList_increasing t.toList_increasing h)

/-- To `absorb` a set is to take the union with it. -/
@[simp]
theorem absorb_eq_union (s t : OrderedSet α) : s.absorb t = s.union t := by
  rw [absorb]
  split
  next h =>
    ext a
    rw [mem_union]
    refine ⟨Or.inl, fun ha => ha.elim id fun ha => ?_⟩
    exact contains_iff.1 (List.all_eq_true.1 h a ha)
  next => rfl

end Operations

end OrderedSet

end PositionAutomaton
