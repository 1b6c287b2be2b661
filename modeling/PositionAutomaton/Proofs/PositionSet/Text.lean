import Mathlib.Data.List.Forall2
import PositionAutomaton.Proofs.Cuts
import PositionAutomaton.Proofs.PositionSet

/-!
# Texts of sets of positions

A text lists positions if it has their numbers in decimal between braces, separated by commas
(`PositionSet.Lists`). The text of a set lists its members, and a text is read as a set if it lists
positions, which are its members then, in whatever order they come. Since the numbers have no
commas, a text is read back as the set it is the text of.

Main statements:

* `PositionSet.ofText?_eq_some_iff`: which texts are read, and as which sets.
* `PositionSet.text_identifies`: a set is known by its text.
-/

namespace PositionAutomaton

namespace Position

variable {p : Position} {cs : List Char}

/-- The characters `cs` are the digits of the number of the position `p`, possibly behind zeros. -/
structure Writes (cs : List Char) (p : Position) : Prop where
  /-- There is a digit. -/
  ne_nil : cs ≠ []
  /-- There is nothing else. -/
  isDigit : ∀ c ∈ cs, c.isDigit = true
  /-- The digits are those of the number. -/
  number_eq : Nat.ofDigitChars 10 cs 0 = p.number

/-- The characters `p.digits` write the position `p`. -/
theorem writes_digits (p : Position) : Writes p.digits p where
  ne_nil := Nat.toDigits_ne_nil
  isDigit _ hc := Nat.isDigit_of_mem_toDigits (by decide) (by decide) hc
  number_eq := Nat.ofDigitChars_ten_toDigits

/-- The position that a number `n` gives has this number. -/
theorem ofNat?_eq_some_iff {n : Nat} : ofNat? n = some p ↔ n = p.number := by
  rw [ofNat?]
  constructor
  · intro h
    split at h
    next => exact congrArg Position.number (Option.some.inj h)
    next => cases h
  · rintro rfl
    exact dif_pos p.number_pos

/-- A position `p` is read from the characters that write it. -/
theorem ofDigits?_eq_some_iff : ofDigits? cs = some p ↔ Writes cs p := by
  rw [ofDigits?, Option.ite_none_right_eq_some, ofNat?_eq_some_iff, List.all_eq_true]
  constructor
  · rintro ⟨⟨hne, hdigit⟩, hnumber⟩
    exact ⟨hne, hdigit, hnumber⟩
  · rintro ⟨hne, hdigit, hnumber⟩
    exact ⟨⟨hne, hdigit⟩, hnumber⟩

/-- A character `c` that is no digit does not stand among the digits of a number. -/
theorem Writes.not_mem (h : Writes cs p) {c : Char} (hc : c.isDigit = false) : c ∉ cs := by
  intro hmem
  rw [h.isDigit c hmem] at hc
  cases hc

end Position

namespace PositionSet

variable {s t : PositionSet} {ps : List Position} {fs : List (List Char)} {text : String}

/-- The `fields`, what stands between the commas, are what `splitOn` finds there. -/
theorem fields_eq_splitOn (cs : List Char) : fields cs = cs.splitOn ',' := by
  induction cs with
  | nil => rfl
  | cons c cs ih =>
    rw [List.splitOn_cons_eq_if_modifyHead, ← ih]
    by_cases hc : c = ','
    · subst hc
      rfl
    · obtain ⟨f, fs, hfields⟩ := List.exists_cons_of_ne_nil (ih ▸ List.splitOn_ne_nil ',' cs)
      rw [fields, hfields, if_neg (by simpa using hc)]
      · rfl
      · exact hc

/-- Positions `ps` are read from the fields `fs` if they are written there. -/
theorem mapM_ofDigits?_eq_some_iff :
    fs.mapM Position.ofDigits? = some ps ↔ List.Forall₂ Position.Writes fs ps := by
  induction fs generalizing ps with
  | nil => simp [eq_comm]
  | cons f fs ih =>
    simp only [List.mapM_cons, Option.bind_eq_bind, Option.bind_eq_some_iff, ih,
      Position.ofDigits?_eq_some_iff, List.forall₂_cons_left_iff]
    simp [eq_comm]

/-- The text has the numbers of the positions `ps` in decimal, between braces and separated by
commas. -/
def Lists (text : String) (ps : List Position) : Prop :=
  ∃ fs, text.toList = '\x7b' :: [','].intercalate fs ++ ['\x7d'] ∧
    List.Forall₂ Position.Writes fs ps

/-- The text of a set `s` lists its members, from least to greatest. -/
theorem lists_text (s : PositionSet) : Lists s.text s.toList := by
  refine ⟨s.toList.map Position.digits, by simp [PositionSet.text], ?_⟩
  rw [List.forall₂_map_left_iff, List.forall₂_same]
  exact fun p _ => p.writes_digits

/-- Between the braces there is nothing only if `ps` lists no position. -/
theorem eq_nil_of_intercalate_eq_nil (hfs : List.Forall₂ Position.Writes fs ps)
    (h : [','].intercalate fs = []) : ps = [] := by
  cases hfs with
  | nil => rfl
  | cons hf hfs =>
    refine absurd ?_ hf.ne_nil
    cases hfs with
    | nil => simpa using h
    | cons => simp [List.intercalate_cons_cons] at h

/-- The fields of `cs` are the numbers of the positions `ps` if these are what `cs` joins with
commas. -/
theorem mapM_ofDigits?_fields_eq_some_iff {cs : List Char} (hcs : cs ≠ []) :
    (fields cs).mapM Position.ofDigits? = some ps ↔
      ∃ fs, cs = [','].intercalate fs ∧ List.Forall₂ Position.Writes fs ps := by
  rw [mapM_ofDigits?_eq_some_iff, fields_eq_splitOn]
  constructor
  · intro h
    exact ⟨_, (List.intercalate_splitOn ',').symm, h⟩
  · rintro ⟨fs, rfl, hfs⟩
    have hcomma : ∀ f ∈ fs, ',' ∉ f :=
      (List.forall₂_and_left _ _ |>.1 (hfs.imp fun f p hp => ⟨hp.not_mem rfl, hp⟩)).1
    rwa [List.splitOn_intercalate ',' hcomma]
    rintro rfl
    exact hcs rfl

/-- A text is read if it `Lists` positions, as the set of these. -/
theorem ofText?_eq_some_iff : ofText? text = some s ↔ ∃ ps, Lists text ps ∧ s = .ofList ps := by
  constructor
  · intro h
    rw [ofText?] at h
    split at h
    next cs htext =>
      split at h
      next => cases h
      next hlast =>
        -- `cs` is what follows the opening brace, and ends in the closing one
        have hclose : text.toList = '\x7b' :: cs.dropLast ++ ['\x7d'] := by
          rw [List.cons_append, List.dropLast_append_getLast? _ (by simpa using hlast), htext]
        split at h
        next hnil =>
          cases h
          exact ⟨[], ⟨[], by rw [hclose, hnil]; rfl, .nil⟩, rfl⟩
        next hne =>
          obtain ⟨ps, hps, rfl⟩ := Option.map_eq_some_iff.1 h
          obtain ⟨fs, hfs, hwrites⟩ := (mapM_ofDigits?_fields_eq_some_iff hne).1 hps
          exact ⟨ps, ⟨fs, hfs ▸ hclose, hwrites⟩, rfl⟩
    next => cases h
  · rintro ⟨ps, ⟨fs, htext, hfs⟩, rfl⟩
    rw [ofText?, htext]
    simp only [List.cons_append, List.getLast?_concat, List.dropLast_concat, ne_eq,
      not_true_eq_false, if_false]
    -- nothing between the braces is no field, although it splits into an empty one
    by_cases hnil : [','].intercalate fs = []
    · obtain rfl := eq_nil_of_intercalate_eq_nil hfs hnil
      rw [if_pos hnil]
      rfl
    · rw [if_neg hnil, (mapM_ofDigits?_fields_eq_some_iff hnil).2 ⟨fs, rfl, hfs⟩]
      rfl

/-- The set of the members of `s` is `s`. -/
theorem ofList_toList (s : PositionSet) : OrderedSet.ofList s.toList = s :=
  OrderedSet.ext fun _ => OrderedSet.mem_ofList

/-- The text of a set `s` is read as `s`. -/
theorem ofText?_text (s : PositionSet) : ofText? s.text = some s :=
  ofText?_eq_some_iff.2 ⟨s.toList, lists_text s, s.ofList_toList.symm⟩

/-- Sets with the same text are equal. -/
theorem text_injective : Function.Injective PositionSet.text := by
  intro s t h
  have hread := ofText?_text t
  rw [← h, ofText?_text s] at hread
  exact Option.some.inj hread

/-- A character `c` that does not stand in any of the fields `fs`, and is not a comma, does not
stand in them when they are joined with commas. -/
theorem not_mem_intercalate {c : Char} (hfs : ∀ f ∈ fs, c ∉ f) (hc : c ≠ ',') :
    c ∉ [','].intercalate fs := by
  induction fs with
  | nil => simp
  | cons f fs ih =>
    have hrest := ih fun g hg => hfs g (List.mem_cons_of_mem f hg)
    have hf : c ∉ f := hfs f List.mem_cons_self
    cases fs with
    | nil => simpa using hf
    | cons g gs => simp [List.intercalate_cons_cons, hf, hc, hrest]

/-- The text of a set `s` ends with the only closing brace in it. -/
theorem exists_toList_text_eq (s : PositionSet) :
    ∃ cs, '\x7d' ∉ cs ∧ s.text.toList = cs ++ ['\x7d'] := by
  refine ⟨'\x7b' :: [','].intercalate (s.toList.map Position.digits), ?_,
    by simp [PositionSet.text]⟩
  have hfields : ∀ f ∈ s.toList.map Position.digits, '\x7d' ∉ f := by
    intro f hf
    obtain ⟨p, -, rfl⟩ := List.mem_map.1 hf
    exact p.writes_digits.not_mem rfl
  simpa using not_mem_intercalate hfields (by decide)

/-- Texts that start with those of the sets `s` and `t` are equal exactly if the sets are, and what
follows them. -/
theorem text_append_inj {u v : String} : s.text ++ u = t.text ++ v ↔ s = t ∧ u = v := by
  obtain ⟨cs, hcs, hs⟩ := s.exists_toList_text_eq
  obtain ⟨ds, hds, ht⟩ := t.exists_toList_text_eq
  have hsets : s = t ↔ cs = ds := by
    rw [← text_injective.eq_iff, ← String.toList_inj, hs, ht, List.append_left_inj]
  rw [hsets, ← String.toList_inj, ← String.toList_inj, String.toList_append, String.toList_append,
    hs, ht, List.append_assoc, List.append_assoc]
  exact append_cons_inj_of_not_mem hcs hds

/-- The text of a set that is made of others has the sorted numbers of the finite set that the same
operations make. -/
theorem Term.toList_text_value (t : Term) :
    t.value.text.toList =
      '\x7b' :: [','].intercalate ((t.numbers.sort (· ≤ ·)).map (Nat.toDigits 10)) ++ ['\x7d'] := by
  rw [← t.map_number_toList, List.map_map, PositionSet.text, String.toList_ofList]
  rfl

/-- Sets of positions have the same text exactly if they are equal, and the text of a set is read
back as the set. However they are made, their texts have the numbers of their members in decimal,
from least to greatest, between braces and separated by commas, and are equal exactly if the same
operations make the same finite set. What is read are the texts that list positions in this way, in
any order and with repetitions, and no others. -/
theorem text_identifies :
    (∀ s t : PositionSet, s.text = t.text ↔ s = t) ∧
      (∀ s : PositionSet, ofText? s.text = some s) ∧
      (∀ t : Term, t.value.text.toList =
        '\x7b' :: [','].intercalate ((t.numbers.sort (· ≤ ·)).map (Nat.toDigits 10)) ++
          ['\x7d']) ∧
      (∀ s t : Term, s.value.text = t.value.text ↔ s.numbers = t.numbers) ∧
      ∀ (text : String) (s : PositionSet),
        ofText? text = some s ↔ ∃ ps, Lists text ps ∧ s = .ofList ps := by
  refine ⟨fun s t => text_injective.eq_iff, ofText?_text, Term.toList_text_value, fun s t => ?_,
    fun text s => ofText?_eq_some_iff⟩
  rw [text_injective.eq_iff, Term.value_eq_iff]

/-- The order in which positions are listed does not show in the text of their set. -/
example : (ofText? "\x7b12,3,012,1\x7d").map PositionSet.text = some "\x7b1,3,12\x7d" := by
  decide +kernel

end PositionSet

end PositionAutomaton
