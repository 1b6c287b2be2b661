import PositionAutomaton.Proofs.Compilation.Acceptance

/-!
# The language of an automaton

The automaton of a text accepts the words that the text expresses
(`accepts_iff_expresses_of_compile_eq_ok`): before the end mark, in the words of its numbered
expression, stand the positions of the matches of the expression that the text is read as.
-/

namespace PositionAutomaton

namespace Expression

variable {r : Regex Char} {u : List Char} {form : Postfix}

/-- Behind a text `u`, the end mark comes next in the numbered expression `ofRegex r` if `u` is a
match of `r`. -/
theorem reads_endMark_ofRegex_iff (hnodup : (ofRegex r).tree.leaves.Nodup) :
    (ofRegex r).Reads u (ofRegex r).endMark ↔ r.Matches u := by
  have hnumber : (r.number 0).map (ofRegex r).symbol? = r.map some :=
    (Regex.cat.inj (map_symbol?_tree_ofRegex r)).1
  have hsymbols {ps : List Position} (hps : ps.map (ofRegex r).symbol? = u.map some) :
      (r.number 0).Matches ps → r.Matches u := by
    intro hmatch
    have hmap : (r.map some).Matches (u.map some) := by
      rw [← hnumber, ← hps]
      exact Regex.matches_map_iff.2 ⟨ps, rfl, hmatch⟩
    obtain ⟨v, hv, hmatch⟩ := Regex.matches_map_iff.1 hmap
    rwa [(List.map_inj_right fun _ _ => Option.some.inj).1 hv]
  have hend : (ofRegex r).endMark ∉ (r.number 0).leaves := by
    intro hmem
    rw [ofRegex, Regex.leaves, List.nodup_append] at hnodup
    exact hnodup.2.2 _ hmem _ (List.mem_singleton_self _) rfl
  constructor
  · rintro ⟨ps, w, hw, hps⟩
    rcases Regex.matches_cat_cut_iff.1 hw with ⟨y, -, -, hy, -⟩ | ⟨x, y, rfl, hx, hy⟩
    · -- the end mark stands only behind the expression itself
      exact absurd (hy.mem_leaves (by simp)) hend
    · have hlast := Regex.matches_leaf_iff.1 hy
      obtain ⟨rfl, -⟩ : y = [] ∧ w = [] := by
        have hlength := congrArg List.length hlast
        simp only [List.length_append, List.length_cons, List.length_nil] at hlength
        exact ⟨List.length_eq_zero_iff.1 (by omega), List.length_eq_zero_iff.1 (by omega)⟩
      rw [List.append_nil] at hps
      exact hsymbols hps hx
  · intro hmatch
    have hmap : ((r.number 0).map (ofRegex r).symbol?).Matches (u.map some) := by
      rw [hnumber]
      exact Regex.matches_map_iff.2 ⟨u, rfl, hmatch⟩
    obtain ⟨ps, hps, hmatch⟩ := Regex.matches_map_iff.1 hmap
    exact ⟨ps, [], .cat hmatch (.leaf _), hps.symm⟩

end Expression

/-- The words `w` that a text `cs` expresses: the empty text expresses the empty word, any other one
the `Matches` of the expression that it is read as. -/
def Expresses (cs w : List Char) : Prop :=
  (cs = [] ∧ w = []) ∨ ∃ r, Derives .choice cs r ∧ r.Matches w

variable {s : String} {a : Automaton} {r : Regex Char}

/-- The automaton `a` of a text that is read as `r` accepts the matches of `r`. -/
theorem accepts_iff_matches (h : compile s = .ok a) (hr : Derives .choice s.toList r)
    (text : String) : a.accepts text = true ↔ r.Matches text.toList := by
  obtain ⟨e, he, ha⟩ := compile_eq_ok_iff.1 h
  obtain rfl := hr.eq_ofRegex he
  have hleaves := Expression.leaves_tree_of_ofText_eq_ok he
  rw [Automaton.accepts_iff_reads hleaves ha]
  exact Expression.reads_endMark_ofRegex_iff (hleaves ▸ Expression.nodup_positions _)

/-- The automaton of the empty text accepts the empty word. -/
theorem accepts_iff_eq_nil (h : compile "" = .ok a) (text : String) :
    a.accepts text = true ↔ text.toList = [] := by
  obtain ⟨e, he, ha⟩ := compile_eq_ok_iff.1 h
  have hleaves := Expression.leaves_tree_of_ofText_eq_ok he
  obtain rfl := Except.ok.inj ((Expression.ofText_empty false).symm.trans he)
  rw [Automaton.accepts_iff_reads hleaves ha]
  constructor
  · rintro ⟨ps, w, hw, hps⟩
    have hlength := congrArg List.length (Regex.matches_leaf_iff.1 hw)
    simp only [List.length_append, List.length_cons, List.length_nil] at hlength
    obtain rfl : ps = [] := List.length_eq_zero_iff.1 (by omega)
    exact List.map_eq_nil_iff.1 hps.symm
  · intro hnil
    rw [hnil]
    exact ⟨[], [], .leaf _, rfl⟩

/-- The automaton of a text accepts the words that the text expresses. -/
theorem accepts_iff_expresses_of_compile_eq_ok (h : compile s = .ok a) (text : String) :
    a.accepts text = true ↔ Expresses s.toList text.toList := by
  constructor
  · intro haccepts
    rcases eq_empty_or_derives_of_compile_eq_ok ⟨a, h⟩ with rfl | ⟨r, hr⟩
    · exact .inl ⟨rfl, (accepts_iff_eq_nil h text).1 haccepts⟩
    · exact .inr ⟨r, hr, (accepts_iff_matches h hr text).1 haccepts⟩
  · rintro (⟨hs, hnil⟩ | ⟨r, hr, hmatch⟩)
    · obtain rfl := String.toList_eq_nil_iff.1 hs
      exact (accepts_iff_eq_nil h text).2 hnil
    · exact (accepts_iff_matches h hr text).2 hmatch

/-- The automaton of `(a|b)*a` accepts the words that the text expresses. So `bba` is one of them,
and `ab` is not. -/
theorem accepts_iff_expresses_of_repeated_group :
    ∃ a, compile "(a|b)*a" = .ok a ∧
      (∀ text, a.accepts text = true ↔ Expresses "(a|b)*a".toList text.toList) ∧
      a.accepts "bba" = true ∧ Expresses "(a|b)*a".toList "bba".toList ∧
      a.accepts "ab" = false ∧ ¬Expresses "(a|b)*a".toList "ab".toList := by
  obtain ⟨a, ha⟩ : ∃ a, compile "(a|b)*a" = .ok a :=
    exists_compile_eq_ok_iff.2 ⟨_, _, _, _, rfl, rfl, rfl, rfl⟩
  have hwords : (compile "(a|b)*a").map (fun a => (a.accepts "bba", a.accepts "ab")) =
      .ok (true, false) := by
    decide +kernel
  have hpair := apply_eq_of_map_eq_ok ha hwords
  obtain ⟨hbba, hab⟩ := Prod.mk.inj hpair
  have hexpresses (text : String) := accepts_iff_expresses_of_compile_eq_ok ha text
  refine ⟨a, ha, hexpresses, hbba, (hexpresses "bba").1 hbba, hab, ?_⟩
  rw [← hexpresses, hab]
  exact Bool.false_ne_true

end PositionAutomaton
