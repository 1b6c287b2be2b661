import Mathlib.Logic.Equiv.Basic
import PositionAutomaton.Proofs.Regex.Rearrangement

/-!
# Choices with their sides exchanged

`Commutes` exchanges the sides of choices somewhere inside an expression. This keeps the words
(`Commutes.matches_iff`), but not the order of the leaves. If the leaves of both expressions are
numbered, whatever the numbers are, then a permutation takes the one numbering to the other
(`Commutes.exists_perm`).
-/

namespace PositionAutomaton

/-- A list `l` without repetitions is taken to each of its rearrangements `m` by a permutation `σ`,
which moves nothing but its elements. -/
theorem exists_perm_map_eq {α : Type} [DecidableEq α] {l m : List α} (h : l.Perm m)
    (hnodup : l.Nodup) : ∃ σ : Equiv.Perm α, l.map σ = m ∧ ∀ a, a ∉ l → σ a = a := by
  -- a permutation for each way in which `m` may be a rearrangement of `l`
  induction h with
  | nil => exact ⟨.refl α, rfl, fun _ _ => rfl⟩
  | @cons a l m _ ih =>
    obtain ⟨ha, hnodup⟩ := List.nodup_cons.1 hnodup
    obtain ⟨σ, hmap, hfixes⟩ := ih hnodup
    refine ⟨σ, by rw [List.map_cons, hfixes a ha, hmap], fun b hb => hfixes b fun hmem => ?_⟩
    exact hb (List.mem_cons_of_mem a hmem)
  | swap a b l =>
    simp only [List.nodup_cons, List.mem_cons, not_or] at hnodup
    have hrest : l.map (Equiv.swap b a) = l.map id := List.map_congr_left fun c hc =>
      Equiv.swap_apply_of_ne_of_ne (ne_of_mem_of_not_mem hc hnodup.1.2)
        (ne_of_mem_of_not_mem hc hnodup.2.1)
    refine ⟨Equiv.swap b a, ?_, fun c hc => ?_⟩
    · rw [List.map_cons, List.map_cons, Equiv.swap_apply_left, Equiv.swap_apply_right, hrest,
        List.map_id]
    · simp only [List.mem_cons, not_or] at hc
      exact Equiv.swap_apply_of_ne_of_ne hc.1 hc.2.1
  | trans hlm _ ihl ihm =>
    obtain ⟨σ, rfl, hσ⟩ := ihl hnodup
    obtain ⟨τ, rfl, hτ⟩ := ihm (hlm.nodup_iff.1 hnodup)
    refine ⟨σ.trans τ, by simp, fun a ha => ?_⟩
    rw [Equiv.trans_apply, hσ a ha]
    exact hτ a fun hmem => ha (hlm.mem_iff.2 hmem)

namespace Regex

variable {α β γ : Type} {r r' : Regex α} {w : List α}

/-- `Commutes r s` says that `s` is `r` with the sides of some choices exchanged. -/
inductive Commutes : Regex α → Regex α → Prop where
  /-- The sides of a choice may be exchanged. -/
  | swap (l r : Regex α) : Commutes (.alt l r) (.alt r l)
  /-- An expression may be left as it is. -/
  | refl (r : Regex α) : Commutes r r
  /-- Sides may be exchanged in what is repeated. -/
  | star {r s : Regex α} : Commutes r s → Commutes (.star r) (.star s)
  /-- Sides may be exchanged in the sides of a choice. -/
  | alt {l r l' r' : Regex α} : Commutes l l' → Commutes r r' → Commutes (.alt l r) (.alt l' r')
  /-- Sides may be exchanged in the sides of a concatenation. -/
  | cat {l r l' r' : Regex α} : Commutes l l' → Commutes r r' → Commutes (.cat l r) (.cat l' r')

/-- The relation `Commutes` goes along with the operators. -/
theorem isCongruence_commutes : IsCongruence (Commutes (α := α)) :=
  ⟨.refl, .star, .alt, .cat⟩

namespace Commutes

/-- Expressions that commute, `r` and `r'`, have the same words. -/
theorem matches_iff (h : Commutes r r') : Matches r w ↔ Matches r' w := by
  induction h generalizing w with
  | swap l r => rw [matches_alt_iff, matches_alt_iff, or_comm]
  | refl r => rfl
  | star _ ih => simp only [matches_star_iff, ih]
  | alt _ _ ihl ihr => rw [matches_alt_iff, matches_alt_iff, ihl, ihr]
  | cat _ _ ihl ihr => simp only [matches_cat_iff, ihl, ihr]

/-- Expressions that commute, `r` and `r'`, have the same leaves, in some order. -/
theorem leaves_perm (h : Commutes r r') : r.leaves.Perm r'.leaves := by
  induction h with
  | swap l r => exact List.perm_append_comm
  | refl r => exact .refl _
  | star _ ih => exact ih
  | alt _ _ ihl ihr | cat _ _ ihl ihr => exact ihl.append ihr

/-- Sides may be exchanged before or after `f` replaces the leaves. -/
theorem map (f : α → β) (h : Commutes r r') : Commutes (r.map f) (r'.map f) := by
  induction h with
  | swap l r => exact .swap _ _
  | refl r => exact .refl _
  | star _ ih => exact .star ih
  | alt _ _ ihl ihr => exact .alt ihl ihr
  | cat _ _ ihl ihr => exact .cat ihl ihr

/-- If sides can be exchanged where `f` replaces the leaves, they can be where it does not. -/
theorem exists_of_map {f : β → α} {t : Regex β} (h : Commutes (t.map f) r') :
    ∃ t', t'.map f = r' ∧ Commutes t t' := by
  -- the form of `t` is that of what `f` makes of it, case by case
  generalize hr : t.map f = r at h
  induction h generalizing t with
  | swap l r =>
    cases t with
    | alt tl tr =>
      obtain ⟨rfl, rfl⟩ := Regex.alt.inj hr
      exact ⟨.alt tr tl, rfl, .swap tl tr⟩
    | leaf | star | cat => cases hr
  | refl r => exact ⟨t, hr, .refl t⟩
  | star _ ih =>
    cases t with
    | star t =>
      obtain ⟨t', rfl, ht'⟩ := ih (Regex.star.inj hr)
      exact ⟨.star t', rfl, .star ht'⟩
    | leaf | alt | cat => cases hr
  | alt _ _ ihl ihr =>
    cases t with
    | alt tl tr =>
      obtain ⟨tl', rfl, hl⟩ := ihl (Regex.alt.inj hr).1
      obtain ⟨tr', rfl, hr⟩ := ihr (Regex.alt.inj hr).2
      exact ⟨.alt tl' tr', rfl, .alt hl hr⟩
    | leaf | star | cat => cases hr
  | cat _ _ ihl ihr =>
    cases t with
    | cat tl tr =>
      obtain ⟨tl', rfl, hl⟩ := ihl (Regex.cat.inj hr).1
      obtain ⟨tr', rfl, hr⟩ := ihr (Regex.cat.inj hr).2
      exact ⟨.cat tl' tr', rfl, .cat hl hr⟩
    | leaf | star | alt => cases hr

end Commutes

/-! ### Numbered leaves -/

/-- Two expressions `t` and `t'` that are equal after their leaves are replaced have as many
leaves. -/
theorem length_leaves_eq_of_map_eq {f : α → γ} {g : β → γ} {t : Regex α} {t' : Regex β}
    (h : t.map f = t'.map g) : t.leaves.length = t'.leaves.length := by
  have hleaves := congrArg (fun r => r.leaves.length) h
  simpa [leaves_map] using hleaves

/-- An expression `t` of the same form as `t'` becomes `t'` if `σ` replaces its leaves by those of
`t'`. -/
theorem map_eq_of_leaves_eq {f : α → γ} {g : β → γ} {σ : α → β} {t : Regex α} {t' : Regex β}
    (h : t.map f = t'.map g) (hleaves : t.leaves.map σ = t'.leaves) : t.map σ = t' := by
  induction t generalizing t' with
  | leaf a =>
    cases t' with
    | leaf b => exact congrArg leaf (List.singleton_inj.1 hleaves)
    | star | alt | cat => cases h
  | star t ih =>
    cases t' with
    | star t' => exact congrArg star (ih (star.inj h) hleaves)
    | leaf | alt | cat => cases h
  | alt l r ihl ihr =>
    cases t' with
    | alt l' r' =>
      obtain ⟨hl, hr⟩ := alt.inj h
      rw [leaves, List.map_append] at hleaves
      -- the left sides have as many leaves, so that the leaves are cut at the same place
      obtain ⟨hll, hrr⟩ := List.append_inj hleaves
        (by rw [List.length_map, length_leaves_eq_of_map_eq hl])
      rw [map, ihl hl hll, ihr hr hrr]
    | leaf | star | cat => cases h
  | cat l r ihl ihr =>
    cases t' with
    | cat l' r' =>
      obtain ⟨hl, hr⟩ := cat.inj h
      rw [leaves, List.map_append] at hleaves
      obtain ⟨hll, hrr⟩ := List.append_inj hleaves
        (by rw [List.length_map, length_leaves_eq_of_map_eq hl])
      rw [map, ihl hl hll, ihr hr hrr]
    | leaf | star | alt => cases h

/-- If the leaves of an expression and of an exchange of it are numbered with the same numbers, as
in `t` and `t'`, then a permutation `σ` of the numbers makes the one numbering an exchange of the
other. It keeps what the numbers stand for, and moves no others. -/
theorem Commutes.exists_perm [DecidableEq α] {f g : α → γ} {t t' : Regex α}
    (h : Commutes (t.map f) (t'.map g)) (hnodup : t.leaves.Nodup)
    (hperm : t.leaves.Perm t'.leaves) :
    ∃ σ : Equiv.Perm α, Commutes (t.map σ) t' ∧ (∀ a, a ∈ t.leaves → g (σ a) = f a) ∧
      ∀ a, a ∉ t.leaves → σ a = a := by
  -- the exchange is made in the first numbering, and has the form of the second one
  obtain ⟨s, hs, hts⟩ := h.exists_of_map
  have hleaves := hts.leaves_perm
  obtain ⟨σ, hσ, hfixes⟩ :=
    exists_perm_map_eq (hleaves.symm.trans hperm) (hleaves.nodup_iff.1 hnodup)
  obtain rfl := map_eq_of_leaves_eq hs hσ
  refine ⟨σ, hts.map σ, fun a ha => ?_, fun a ha => hfixes a (mt hleaves.mem_iff.2 ha)⟩
  have hsymbols := congrArg leaves hs
  rw [leaves_map, leaves_map, leaves_map, List.map_map] at hsymbols
  exact (List.map_inj_left.1 hsymbols a (hleaves.mem_iff.1 ha)).symm

end Regex

end PositionAutomaton
