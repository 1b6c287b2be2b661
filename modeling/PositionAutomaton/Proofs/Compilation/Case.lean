import Mathlib.Data.List.Forall2
import PositionAutomaton.Proofs.Compilation.Stages
import PositionAutomaton.Proofs.Expression.Letters

/-!
# Folding case

With upper and lower case letters the same, a text has the same numbered expression but for its
letters, which are in lower case, and the same errors (`Expression.ofText_true`). Its automaton may
have other states, since positions at which a letter is read in both cases belong to one
transition. It accepts what the automaton with upper and lower case letters apart accepts in some
case (`foldCase_closure_of_compile`).
-/

namespace PositionAutomaton

/-- The characters `c` and `d` are equal, or they are the same letter of ASCII in upper and lower
case. -/
def SameLetter (c d : Char) : Prop :=
  c = d ∨ (c.isUpper = true ∧ d.toNat = c.toNat + 32) ∨
    (d.isUpper = true ∧ c.toNat = d.toNat + 32)

/-- In lower case, two characters are equal if they are the same letter. -/
theorem toLower_eq_toLower_iff {c d : Char} : c.toLower = d.toLower ↔ SameLetter c d := by
  rw [SameLetter, ← Char.toNat_inj, toNat_toLower, toNat_toLower, ← Char.toNat_inj]
  simp only [isUpper_iff_toNat]
  split <;> split <;> omega

/-- In lower case, `u` and `v` are equal if they are the same up to the case of their letters. -/
theorem map_toLower_eq_iff {u v : List Char} :
    u.map Char.toLower = v.map Char.toLower ↔ List.Forall₂ SameLetter u v := by
  rw [← List.forall₂_eq_eq_eq, List.forall₂_map_left_iff, List.forall₂_map_right_iff]
  simp only [toLower_eq_toLower_iff]

namespace Expression

variable {f : Char → Char} {e : Expression} {u : List Char} {q : Position}

/-- Symbols that are changed by `f` spell `u` if the symbols spell a text that `f` changes to
`u`. -/
theorem map_map_eq_map_some_iff {symbols : List (Option Char)} :
    symbols.map (Option.map f) = u.map some ↔
      ∃ v : List Char, v.map f = u ∧ symbols = v.map some := by
  constructor
  · intro h
    induction symbols generalizing u with
    | nil =>
      obtain rfl := List.map_eq_nil_iff.1 h.symm
      exact ⟨[], rfl, rfl⟩
    | cons symbol symbols ih =>
      rw [List.map_cons, eq_comm, List.map_eq_cons_iff] at h
      obtain ⟨c, u, rfl, hc, hu⟩ := h
      obtain ⟨v, rfl, rfl⟩ := ih hu.symm
      obtain ⟨d, rfl, rfl⟩ := Option.map_eq_some_iff.1 hc.symm
      exact ⟨d :: v, rfl, rfl⟩
  · rintro ⟨v, rfl, rfl⟩
    simp

/-- With letters changed by `f`, a position stands behind `u` if it stands behind a text that `f`
changes to `u`. -/
theorem reads_mapLetters_iff :
    (e.mapLetters f).Reads u q ↔ ∃ v : List Char, v.map f = u ∧ e.Reads v q := by
  have hsymbols (ps : List Position) : ps.map (e.mapLetters f).symbol? = u.map some ↔
      ∃ v : List Char, v.map f = u ∧ ps.map e.symbol? = v.map some := by
    have hsymbol : (e.mapLetters f).symbol? = Option.map f ∘ e.symbol? :=
      funext fun p => symbol?_mapLetters f e p
    rw [← map_map_eq_map_some_iff, List.map_map, hsymbol]
  constructor
  · rintro ⟨ps, w, hw, hps⟩
    obtain ⟨v, hv, hps⟩ := (hsymbols ps).1 hps
    exact ⟨v, hv, ps, w, hw, hps⟩
  · rintro ⟨v, hv, ps, w, hw, hps⟩
    exact ⟨ps, w, hw, (hsymbols ps).2 ⟨v, hv, hps⟩⟩

/-- With case folded, the numbered expression of `s` is the same with its letters in lower case. -/
theorem ofText_true (s : String) :
    ofText true s = (ofText false s).map (mapLetters Char.toLower) := by
  have hsize (c : Char) : c.toLower.utf8Size = c.utf8Size := Token.utf8Size_folded true c
  simp only [ofText_eq_bind, Token.scan_true, Token.explicit_map_mapLetter _ hsize,
    Postfix.ofTokens_map_mapLetter, ofPostfix_mapLetters, map_bind, bind_map]

end Expression

variable {s : String} {a b : Automaton}

/-- With case folded, the automaton `b` accepts `w` if the automaton `a`, which has upper and lower
case letters apart, accepts `w` in some case. -/
theorem accepts_foldCase_iff (ha : compile s = .ok a)
    (hb : Options.compile { foldCase := true } s = .ok b) (w : String) :
    b.accepts w = true ↔
      ∃ w' : String, List.Forall₂ SameLetter w'.toList w.toList ∧ a.accepts w' = true := by
  obtain ⟨e, he, ha⟩ := compile_eq_ok_iff.1 ha
  obtain ⟨_, b, hfolded, hb, rfl⟩ := Options.compile_eq_ok_iff.1 hb
  have hleaves := Expression.leaves_tree_of_ofText_eq_ok he
  have hfleaves := Expression.leaves_tree_of_ofText_eq_ok hfolded
  rw [Expression.ofText_true, he, map_ok, Except.ok.injEq] at hfolded
  subst hfolded
  -- the expression of `b` is `e` with its letters in lower case
  calc
    _ ↔ (b.run? (w.toList.map Char.toLower)).any b.isAccepting = true := Iff.rfl
    _ ↔ (e.mapLetters Char.toLower).Reads (w.toList.map Char.toLower) e.endMark :=
      Automaton.any_isAccepting_run?_iff_reads hfleaves hb
    _ ↔ ∃ v : List Char, v.map Char.toLower = w.toList.map Char.toLower ∧ e.Reads v e.endMark :=
      Expression.reads_mapLetters_iff
    _ ↔ ∃ w' : String, w'.toList.map Char.toLower = w.toList.map Char.toLower ∧
          a.accepts w' = true := by
      simp only [Automaton.accepts_iff_reads hleaves ha]
      constructor
      · rintro ⟨v, hv⟩
        exact ⟨.ofList v, by rwa [String.toList_ofList]⟩
      · rintro ⟨w', hw'⟩
        exact ⟨w'.toList, hw'⟩
    _ ↔ _ := by simp only [map_toLower_eq_iff]

/-- Folding case changes neither whether `s` is compiled nor the error if it is not, and the
automaton accepts a word if the one with upper and lower case letters apart accepts it in some
case. -/
theorem foldCase_closure_of_compile (s : String) :
    (∀ error, Options.compile { foldCase := true } s = .error error ↔ compile s = .error error) ∧
      ((∃ b, Options.compile { foldCase := true } s = .ok b) ↔ ∃ a, compile s = .ok a) ∧
      ∀ a b, compile s = .ok a → Options.compile { foldCase := true } s = .ok b →
        ∀ w : String, b.accepts w = true ↔
          ∃ w' : String, List.Forall₂ SameLetter w'.toList w.toList ∧ a.accepts w' = true := by
  refine ⟨fun error => ?_, ?_, fun a b ha hb => accepts_foldCase_iff ha hb⟩
  · rw [compile, Options.compile_eq_error_iff rfl, Options.compile_eq_error_iff rfl,
      Expression.ofText_true, map_eq_error_iff]
  · simp only [compile, Options.exists_compile_eq_ok_iff, Expression.ofText_true,
      exists_map_eq_ok_iff]

/-- In `(aA)*B` letters come in both cases. The automaton that tells them apart accepts `aAB`, but
not `aab`, which the other one accepts. -/
theorem foldCase_closure_of_mixed_case :
    ∃ a b, compile "(aA)*B" = .ok a ∧
      Options.compile { foldCase := true } "(aA)*B" = .ok b ∧
      (∀ w : String, b.accepts w = true ↔
        ∃ w' : String, List.Forall₂ SameLetter w'.toList w.toList ∧ a.accepts w' = true) ∧
      a.accepts "aAB" = true ∧ a.accepts "aab" = false ∧ b.accepts "aab" = true := by
  obtain ⟨-, hiff, hclosure⟩ := foldCase_closure_of_compile "(aA)*B"
  obtain ⟨a, ha⟩ : ∃ a, compile "(aA)*B" = .ok a :=
    exists_compile_eq_ok_iff.2 ⟨_, _, _, _, rfl, rfl, rfl, rfl⟩
  obtain ⟨b, hb⟩ := hiff.2 ⟨a, ha⟩
  have hwords : (compile "(aA)*B").map (fun a => (a.accepts "aAB", a.accepts "aab")) =
      .ok (true, false) := by
    decide +kernel
  have hpair := apply_eq_of_map_eq_ok ha hwords
  obtain ⟨hmixed, hlower⟩ := Prod.mk.inj hpair
  have hsame : List.Forall₂ SameLetter "aAB".toList "aab".toList :=
    map_toLower_eq_iff.1 (by decide)
  have hclosed := hclosure a b ha hb
  exact ⟨a, b, ha, hb, hclosed, hmixed, hlower, (hclosed "aab").2 ⟨"aAB", hsame, hmixed⟩⟩

end PositionAutomaton
