import PositionAutomaton.Proofs.Automaton.Reachability
import PositionAutomaton.Proofs.Expression.Numbering

/-!
# What the state after a text means

After a text, the automaton of an expression and its own follow table is in the state of the
positions that may come next: those that stand, in some word of the expression, behind
positions at which the text is read (`Expression.Reads`). If there is no such position, the
automaton has no transition for the text.
-/

namespace PositionAutomaton

namespace Expression

variable {e : Expression} {u : List Char} {c : Char} {q : Position}

/-- In some word of `e`, the position `q` stands behind positions whose symbols spell `u`. -/
def Reads (e : Expression) (u : List Char) (q : Position) : Prop :=
  ∃ ps w, e.tree.Matches (ps ++ q :: w) ∧ ps.map e.symbol? = u.map some

/-- Behind the empty text come the positions that words start with. -/
theorem reads_nil_iff : e.Reads [] q ↔ e.tree.Starts q := by
  constructor
  · rintro ⟨ps, w, hw, hps⟩
    obtain rfl : ps = [] := by simpa using hps
    exact ⟨w, hw⟩
  · rintro ⟨w, hw⟩
    exact ⟨[], w, hw, rfl⟩

/-- Behind `u` and the letter `c` come the positions that follow those behind `u` at which `c` is
read. Any of these may be followed, since the parts of words behind a position can be exchanged. -/
theorem reads_append_singleton_iff (hleaves : e.tree.leaves.Nodup) :
    e.Reads (u ++ [c]) q ↔ ∃ p, e.Reads u p ∧ e.symbol? p = some c ∧ e.tree.Follows p q := by
  constructor
  · rintro ⟨qs, w, hw, hqs⟩
    rw [List.map_append, List.map_eq_append_iff] at hqs
    obtain ⟨ps, ps', rfl, hps, hlast⟩ := hqs
    obtain ⟨p, rfl, hp⟩ : ∃ p, ps' = [p] ∧ e.symbol? p = some c := by
      simpa [List.map_eq_singleton_iff] using hlast
    have hw : e.tree.Matches (ps ++ p :: q :: w) := by simpa using hw
    exact ⟨p, ⟨ps, q :: w, hw, hps⟩, hp, ps, w, hw⟩
  · rintro ⟨p, ⟨ps, w, hw, hps⟩, hp, x, y, hxy⟩
    -- `q` may stand behind `p` in another word, the rest of which is put in
    have hexchanged := hw.exchange hleaves hxy
    exact ⟨ps ++ [p], y, by simpa using hexchanged, by simp [hps, hp]⟩

end Expression

namespace Regex

/-- Words of an expression start with some symbol. -/
theorem exists_starts {α : Type} (r : Regex α) : ∃ a, r.Starts a := by
  induction r with
  | leaf a => exact ⟨a, starts_leaf_iff.2 rfl⟩
  | star r ih =>
    obtain ⟨a, ha⟩ := ih
    exact ⟨a, starts_star_iff.2 ha⟩
  | alt l r ihl _ =>
    obtain ⟨a, ha⟩ := ihl
    exact ⟨a, starts_alt_iff.2 (.inl ha)⟩
  | cat l r ihl _ =>
    obtain ⟨a, ha⟩ := ihl
    exact ⟨a, starts_cat_iff.2 (.inl ha)⟩

end Regex

namespace Automaton

variable {e : Expression} {follow : FollowTable} {a : Automaton} {state : PositionSet}
  {u : List Char} {c : Char} {q : Position}

/-- Reading `c` behind `u` is one transition more. -/
theorem run?_append_singleton (a : Automaton) (u : List Char) (c : Char) :
    a.run? (u ++ [c]) = (a.run? u).bind (a.transition? · c) := by
  simp [run?, List.foldlM_append]

/-- A state with `Reached` is not empty. -/
theorem Reached.exists_mem (h : Reached e follow state) : ∃ p, p ∈ state := by
  cases h with
  | start =>
    obtain ⟨p, hp⟩ := e.tree.exists_starts
    exact ⟨p, Regex.mem_first_boundary_iff.2 hp⟩
  | step _ hne => exact isEmpty_eq_false_iff.1 hne

/-- No row is missing where the table is that of `e` itself. -/
theorem missing?_ofExpression (e : Expression) (state : PositionSet) :
    missing? e (.ofExpression e) state = none := by
  rw [missing?_eq_none_iff]
  exact fun p _ hp => FollowTable.isSome_row?_ofExpression hp

variable (hleaves : e.tree.leaves = e.positions)
  (h : (build e (.ofExpression e) none).outcome = .ok a)
include hleaves

/-- A `step` on `c` leads from the positions behind `u` to those behind `u ++ [c]`. -/
theorem mem_step_iff_reads (hstate : ∀ p, p ∈ state ↔ e.Reads u p) :
    q ∈ step e (.ofExpression e) state c ↔ e.Reads (u ++ [c]) q := by
  have hnodup : e.tree.leaves.Nodup := hleaves ▸ e.nodup_positions
  rw [mem_step_iff, Expression.reads_append_singleton_iff hnodup]
  simp only [FollowTable.allows_ofExpression_iff, hstate]
  constructor
  · rintro ⟨p, hp, hc, -, hq⟩
    exact ⟨p, hp, hc, hq⟩
  · rintro ⟨p, hp, hc, hq⟩
    exact ⟨p, hp, hc, Expression.index_lt_of_symbol?_eq_some hc, hq⟩

include h

/-- The state after `u` is that of the positions behind `u`, if there is one; if there is none, no
position is behind `u`. -/
theorem run?_spec (u : List Char) :
    match a.run? u with
    | some state => Reached e (.ofExpression e) state ∧ ∀ q, q ∈ state ↔ e.Reads u q
    | none => ∀ q, ¬e.Reads u q := by
  -- texts are read from the left, so that the induction takes off the last letter
  induction u using List.reverseRecOn with
  | nil =>
    rw [run?, List.foldlM_nil, start_eq h]
    exact ⟨.start, fun q => Regex.mem_first_boundary_iff.trans Expression.reads_nil_iff.symm⟩
  | append_singleton u c ih =>
    have hnodup : e.tree.leaves.Nodup := hleaves ▸ e.nodup_positions
    rw [run?_append_singleton]
    cases hu : a.run? u with
    | none =>
      rw [hu] at ih
      intro q hq
      obtain ⟨p, hp, -⟩ := (Expression.reads_append_singleton_iff hnodup).1 hq
      exact ih p hp
    | some source =>
      rw [hu] at ih
      obtain ⟨hsource, hmem⟩ := ih
      have hstep := fun q => mem_step_iff_reads (q := q) (c := c) hleaves hmem
      rw [Option.bind_some]
      cases hc : a.transition? source c with
      | none =>
        intro q hq
        -- a position behind the longer text would be in the target of a transition
        have hne := isEmpty_eq_false_iff.2 ⟨q, (hstep q).2 hq⟩
        have hsome := (transition?_eq_some_iff h).2 ⟨hsource, rfl, hne⟩
        rw [hc] at hsome
        cases hsome
      | some target =>
        obtain ⟨-, rfl, hne⟩ := (transition?_eq_some_iff h).1 hc
        exact ⟨hsource.step hne, hstep⟩

/-- There is a state after `u` if some position is behind `u`. -/
theorem isSome_run?_iff_exists_reads : (a.run? u).isSome = true ↔ ∃ q, e.Reads u q := by
  have hspec := run?_spec hleaves h u
  cases hu : a.run? u with
  | none =>
    rw [hu] at hspec
    simpa using hspec
  | some state =>
    rw [hu] at hspec
    obtain ⟨hreached, hmem⟩ := hspec
    obtain ⟨q, hq⟩ := hreached.exists_mem
    simpa using ⟨q, (hmem q).1 hq⟩

/-- The state after `u` has the positions behind `u`. -/
theorem mem_iff_reads_of_run?_eq_some (hu : a.run? u = some state) :
    q ∈ state ↔ e.Reads u q := by
  have hspec := run?_spec hleaves h u
  rw [hu] at hspec
  exact hspec.2 q

/-- The state after `u` accepts if the end mark is behind `u`. -/
theorem any_isAccepting_run?_iff_reads :
    (a.run? u).any a.isAccepting = true ↔ e.Reads u e.endMark := by
  have hspec := run?_spec hleaves h u
  cases hu : a.run? u with
  | none =>
    rw [hu] at hspec
    simpa using hspec e.endMark
  | some state =>
    rw [hu] at hspec
    obtain ⟨hreached, hmem⟩ := hspec
    simp [isAccepting, mem_accepting_iff h, mem_states_iff h, hreached, hmem]

/-- The automaton accepts `text` if the end mark is behind it. -/
theorem accepts_iff_reads (text : String) :
    a.accepts text = true ↔ e.Reads text.toList e.endMark := by
  have hinput : a.input text = text.toList := by simp [input, foldCase_eq_false h]
  rw [accepts, hinput]
  exact any_isAccepting_run?_iff_reads hleaves h

omit hleaves h

/-- An automaton can be built from `e` and its own follow table. -/
theorem exists_build_ofExpression_eq_ok (e : Expression) :
    ∃ a, (build e (.ofExpression e) none).outcome = .ok a :=
  exists_build_eq_ok fun state _ => missing?_ofExpression e state

/-- From every sequence of tokens that makes an expression `e`, an automaton is built that reads as
the words of `e.tree` are spelled: it has a state after a text exactly if some position is behind
the text, the state is the set of these positions, and the text is accepted exactly if the end mark
is one of them. -/
theorem exists_build_forall_reads {tokens : List Token}
    (htokens : Postfix.ofTokens tokens >>= Expression.ofPostfix = .ok e) :
    Denotes e.entries e.root e.tree ∧
      ∃ a, (build e (.ofExpression e) none).outcome = .ok a ∧ ∀ text : String,
        ((a.run? text.toList).isSome = true ↔ ∃ q, e.Reads text.toList q) ∧
          (∀ state, a.run? text.toList = some state →
            ∀ q, q ∈ state ↔ e.Reads text.toList q) ∧
          (a.accepts text = true ↔ e.Reads text.toList e.endMark) := by
  obtain ⟨form, -, he⟩ := bind_eq_ok_iff.1 htokens
  have hleaves := Expression.leaves_tree_of_ofPostfix_eq_ok he
  obtain ⟨a, ha⟩ := exists_build_ofExpression_eq_ok e
  refine ⟨e.denotes_entries, a, ha, fun text => ⟨?_, fun state hstate q => ?_, ?_⟩⟩
  · exact isSome_run?_iff_exists_reads hleaves ha
  · exact mem_iff_reads_of_run?_eq_some hleaves ha hstate
  · exact accepts_iff_reads hleaves ha text

/-- A repetition of a letter and the end mark: since nothing is read at the end mark, `a` leads to
it, and `aa` does not. -/
theorem exists_build_forall_reads_of_repeated_endMark :
    let tokens : List Token := [⟨.letter, 'a', ⟨0⟩⟩, .endMark ⟨1⟩, ⟨.star, '*', ⟨1⟩⟩]
    let e : Expression := ⟨.star (.cat (.leaf (.ofIndex 0)) (.leaf (.ofIndex 1))),
      #[some 'a', none], .ofIndex 1⟩
    Postfix.ofTokens tokens >>= Expression.ofPostfix = .ok e ∧
      Denotes e.entries e.root e.tree ∧
      ∃ a, (build e (.ofExpression e) none).outcome = .ok a ∧
        (∀ text : String,
          ((a.run? text.toList).isSome = true ↔ ∃ q, e.Reads text.toList q) ∧
            (∀ state, a.run? text.toList = some state →
              ∀ q, q ∈ state ↔ e.Reads text.toList q) ∧
            (a.accepts text = true ↔ e.Reads text.toList e.endMark)) ∧
        a.accepts "a" = true ∧ a.accepts "aa" = false := by
  intro tokens e
  have htokens : Postfix.ofTokens tokens >>= Expression.ofPostfix = .ok e := rfl
  obtain ⟨hdenotes, a, ha, hreads⟩ := exists_build_forall_reads htokens
  have hwords : (build e (.ofExpression e) none).outcome.map
      (fun a => (a.accepts "a", a.accepts "aa")) = .ok (true, false) := by
    decide +kernel
  have hpair := apply_eq_of_map_eq_ok ha hwords
  exact ⟨htokens, hdenotes, a, ha, hreads, Prod.mk.inj hpair⟩

end Automaton

end PositionAutomaton
