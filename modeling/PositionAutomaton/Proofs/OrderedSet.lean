import Mathlib.Data.List.Nodup
import Mathlib.Data.List.Perm.Basic
import Mathlib.Order.RelClasses
import PositionAutomaton.OrderedSet.Lemmas

/-!
# Sizes and order of ordered sets

The members of an ordered set are listed once each, so that the set of a list without repetitions
has as many members as the list has elements (`OrderedSet.size_ofList`). One set comes before
another if its list of members does in lexicographic order (`OrderedSet.compare_eq_lt_iff`), and
this is a strict total order.
-/

namespace PositionAutomaton

/-- The list `as` is less than `bs` in lexicographic order exactly if `compareLex` puts it first. -/
theorem compareLex_eq_lt_iff {α : Type} [Ord α] [Std.LawfulEqOrd α] {as bs : List α} :
    List.compareLex compare as bs = .lt ↔ List.Lex (fun a b => compare a b = .lt) as bs := by
  induction as generalizing bs with
  | nil => cases bs <;> simp [List.compareLex_nil_nil, List.compareLex_nil_cons]
  | cons a as ih =>
    cases bs with
    | nil => simp [List.compareLex_cons_nil]
    | cons b bs =>
      rw [List.compareLex_cons_cons, Ordering.then_eq_lt, ih, List.cons_lex_cons_iff,
        Std.LawfulEqOrd.compare_eq_iff_eq]

namespace OrderedSet

variable {α : Type} [Ord α]

/-- The `size` is the number of members in the list. -/
theorem length_toList (s : OrderedSet α) : s.toList.length = s.size :=
  Array.length_toList

/-- The set `s` comes before `t` if its list of members does. -/
theorem compare_eq_lt_iff [Std.LawfulEqOrd α] {s t : OrderedSet α} :
    compare s t = .lt ↔ List.Lex (fun a b => compare a b = .lt) s.toList t.toList := by
  rw [compare_eq]
  exact compareLex_eq_lt_iff

variable [Std.TransOrd α]

/-- No member of `s` is listed twice. -/
theorem nodup_toList (s : OrderedSet α) : s.toList.Nodup :=
  s.toList_increasing.imp fun {a b} hab => by
    rintro rfl
    simp at hab

variable [Std.LawfulEqOrd α]

/-- The set of a list `xs` without repetitions has its number of elements. -/
theorem size_ofList {xs : List α} (h : xs.Nodup) : (ofList xs).size = xs.length := by
  rw [← length_toList]
  exact ((List.perm_ext_iff_of_nodup (nodup_toList _) h).2 fun _ => mem_ofList).length_eq

/-- A member `a` is listed once, and nothing else is. -/
theorem count_toList [DecidableEq α] (s : OrderedSet α) (a : α) :
    s.toList.count a = if s.contains a then 1 else 0 := by
  rw [(nodup_toList s).count]
  simp only [contains_iff, mem_iff]

/-- Sets come before each other in a strict total order. -/
instance : IsStrictTotalOrder (OrderedSet α) fun s t => compare s t = .lt where
  trichotomous s t hst hts := by
    rcases h : compare s t with _ | _ | _
    · exact absurd h hst
    · exact Std.LawfulEqOrd.eq_of_compare h
    · exact absurd (Std.OrientedCmp.lt_of_gt h) hts
  irrefl s := by simp
  trans _ _ _ := Std.TransCmp.lt_trans

section Image

variable {β : Type} [Ord β] [Std.TransOrd β] [Std.LawfulEqOrd β] {f : α → β} {s : OrderedSet α}
  {a : α} {b : β}

omit [Std.TransOrd α] [Std.LawfulEqOrd α]

/-- The set of what `f` makes of the members of `s`. -/
def image (f : α → β) (s : OrderedSet α) : OrderedSet β :=
  .ofList (s.toList.map f)

/-- The members of an image are what `f` makes of the members. -/
@[simp]
theorem mem_image : b ∈ s.image f ↔ ∃ a ∈ s, f a = b := by
  rw [image, mem_ofList, List.mem_map]
  rfl

/-- Where `f` is injective, `f a` is in the image if `a` is a member. -/
theorem apply_mem_image_iff (hf : Function.Injective f) : f a ∈ s.image f ↔ a ∈ s := by
  rw [mem_image]
  constructor
  · rintro ⟨a', ha', heq⟩
    exact hf heq ▸ ha'
  · exact fun ha => ⟨a, ha, rfl⟩

/-- The image of `s` is empty if `s` is. -/
theorem isEmpty_image : (s.image f).isEmpty = s.isEmpty := by
  rw [Bool.eq_iff_iff, isEmpty_iff, isEmpty_iff]
  simp

/-- Where `f` is injective, sets with the same image are equal. -/
theorem image_injective [Std.TransOrd α] (hf : Function.Injective f) :
    Function.Injective (image f) := by
  intro s t hst
  ext a
  rw [← apply_mem_image_iff hf, hst, apply_mem_image_iff hf]

/-- Where `f` is injective, an image has as many members as the set `s`. -/
theorem size_image [Std.TransOrd α] (hf : Function.Injective f) :
    (s.image f).size = s.size := by
  rw [image, size_ofList ((nodup_toList s).map hf), List.length_map, length_toList]

end Image

end OrderedSet

end PositionAutomaton
