import PositionAutomaton.Proofs.Automaton.Reading
import PositionAutomaton.Proofs.OrderedSet
import PositionAutomaton.Proofs.Shortlex

/-!
# The order of discovery

The exploration goes breadth first, and through the letters of a state in their order. So it finds
the transitions in the order of the words that lead along them (`Transition.spell`), where the word
that leads to a state is the one along the transition that the state was found by. `Ordered` says so
of what has been found and recorded; each move keeps it up with one word more for a state that is
new (`Ordered.cross`), and so do a visit and the loop (`exists_ordered_of_exploration_eq_ok`).

In the end the word of a state is the first one that leads to it (`Ordered.leadsFirst`), so that the
states are recorded in the order of the first words that lead to them (`Ordered.exists_words`).
-/

namespace PositionAutomaton

/-! ### Words along transitions -/

namespace Transition

variable (word : PositionSet → List Char) (t : Transition)

/-- The word that leads along `t`, where its source has the word that `word` gives. -/
def spell : List Char :=
  word t.source ++ [t.symbol]

/-- What is recorded of `t`: it comes with a new state if the word of its target leads along it. -/
def record : List Event :=
  if word t.target = t.spell word then [.newState t.target, .transition t] else [.transition t]

variable {word t} {word' : PositionSet → List Char}

/-- The words along `t` agree if `word` and `word'` do on its source. -/
theorem spell_congr (h : word' t.source = word t.source) : t.spell word' = t.spell word := by
  rw [spell, spell, h]

/-- What is recorded of `t` is the same if `word` and `word'` agree on its two states. -/
theorem record_congr (hsource : word' t.source = word t.source)
    (htarget : word' t.target = word t.target) : t.record word' = t.record word := by
  rw [record, record, htarget, spell_congr hsource]

end Transition

/-! ### What events say was found -/

/-- The state that an event says was found. -/
def Event.newState? : Event → Option PositionSet
  | newState state => some state
  | postfixForm .. | positionCount .. | transition .. | summary .. => none

/-- The transition that an event says was found. -/
def Event.transition? : Event → Option Transition
  | transition t => some t
  | postfixForm .. | positionCount .. | newState .. | summary .. => none

/-- The states that `events` say were found, in the order of the events. -/
def foundStates (events : List Event) : List PositionSet :=
  events.filterMap Event.newState?

/-- The transitions that `events` say were found, in the order of the events. -/
def foundTransitions (events : List Event) : List Transition :=
  events.filterMap Event.transition?

/-- The states of `events ++ events'` are those of each part of them. -/
@[simp]
theorem foundStates_append (events events' : List Event) :
    foundStates (events ++ events') = foundStates events ++ foundStates events' :=
  List.filterMap_append

/-- The transitions of `events ++ events'` are those of each part of them. -/
@[simp]
theorem foundTransitions_append (events events' : List Event) :
    foundTransitions (events ++ events') = foundTransitions events ++ foundTransitions events' :=
  List.filterMap_append

/-- The event of `state` comes up as often as `state` is said to be found. -/
theorem count_newState (events : List Event) (state : PositionSet) :
    events.count (.newState state) = (foundStates events).count state := by
  rw [foundStates, List.count_filterMap, List.count]
  refine List.countP_congr fun x _ => ?_
  cases x <;> simp [Event.newState?]

/-- The event of the transition `t` comes up as often as `t` is said to be found. -/
theorem count_transition (events : List Event) (t : Transition) :
    events.count (.transition t) = (foundTransitions events).count t := by
  rw [foundTransitions, List.count_filterMap, List.count]
  refine List.countP_congr fun x _ => ?_
  cases x <;> simp [Event.transition?]

namespace Transition

variable {word : PositionSet → List Char} {ts : List Transition} {us vs rest : List Event}
  {state : PositionSet}

/-- The states that are recorded with the transitions `ts` are the targets of those that come with a
new state. -/
theorem foundStates_flatMap_record :
    foundStates (ts.flatMap (·.record word)) =
      (ts.filter fun t => word t.target = t.spell word).map (·.target) := by
  induction ts with
  | nil => rfl
  | cons t ts ih =>
    rw [List.flatMap_cons, foundStates_append, ih, record]
    split
    next hopens => simp [hopens, foundStates, Event.newState?]
    next hne => simp [hne, foundStates, Event.newState?]

/-- The transitions that are recorded are `ts`, in their order. -/
theorem foundTransitions_flatMap_record :
    foundTransitions (ts.flatMap (·.record word)) = ts := by
  induction ts with
  | nil => rfl
  | cons t ts ih =>
    rw [List.flatMap_cons, foundTransitions_append, ih, record]
    split <;> rfl

/-- Where `state` is recorded with the transitions `ts`, the transition that its word leads along is
recorded directly behind it. -/
theorem exists_of_flatMap_record_eq (hrest : foundStates rest = [])
    (h : ts.flatMap (·.record word) ++ rest = us ++ .newState state :: vs) :
    ∃ t ∈ ts, ∃ ws, vs = .transition t :: ws ∧ t.target = state ∧ word t.target = t.spell word := by
  induction ts generalizing us with
  | nil =>
    rw [List.flatMap_nil, List.nil_append] at h
    simp [h, foundStates, Event.newState?] at hrest
  | cons t ts ih =>
    rw [List.flatMap_cons, List.append_assoc, record] at h
    split at h
    next hopens =>
      -- the state is that of the transition, or comes with a later one
      rcases us with _ | ⟨_, _ | ⟨_, us⟩⟩
      · cases h
        exact ⟨t, List.mem_cons_self, _, rfl, rfl, hopens⟩
      · cases h
      · simp only [List.cons_append, List.nil_append, List.cons.injEq] at h
        obtain ⟨u, hu, hfollows⟩ := ih h.2.2
        exact ⟨u, List.mem_cons_of_mem _ hu, hfollows⟩
    next =>
      rcases us with _ | ⟨_, us⟩
      · cases h
      · simp only [List.cons_append, List.nil_append, List.cons.injEq] at h
        obtain ⟨u, hu, hfollows⟩ := ih h.2
        exact ⟨u, List.mem_cons_of_mem _ hu, hfollows⟩

end Transition

namespace Automaton

open Exploration

variable {e : Expression} {follow : FollowTable} {limit : Option Nat} {x y : Exploration}
  {word : PositionSet → List Char} {events : List Event} {state source : PositionSet}
  {t : Transition} {next count : Nat}

/-- What has been found, and recorded in `events`, is in the order of words, where `word` has a word
for each state. -/
structure Ordered (e : Expression) (word : PositionSet → List Char) (events : List Event)
    (x : Exploration) : Prop where
  /-- The empty word leads to the start. -/
  start : word e.start = []
  /-- The start is recorded, and then each transition. -/
  events_eq : events = .newState e.start :: x.edges.toList.flatMap (·.record word)
  /-- The states behind the start are found along the transitions that are recorded with them. -/
  found_eq : x.found.toList =
    e.start :: (x.edges.toList.filter fun t => word t.target = t.spell word).map (·.target)
  /-- The transitions are found in the order of the words along them. -/
  edges : x.edges.toList.Pairwise fun t u => Precedes (t.spell word) (u.spell word)
  /-- No word along a transition comes before that of its target. -/
  least : ∀ t ∈ x.edges, word t.target = t.spell word ∨ Precedes (word t.target) (t.spell word)
  /-- The states that transitions leave are found. -/
  source_mem : ∀ t ∈ x.edges, t.source ∈ x.found
  /-- The states that transitions enter are found. -/
  target_mem : ∀ t ∈ x.edges, t.target ∈ x.found

namespace Ordered

/-- A state that is found is the start, or was found along a transition, which its word leads
along. -/
theorem eq_start_or_exists (h : Ordered e word events x) (hstate : state ∈ x.found) :
    state = e.start ∨ ∃ t ∈ x.edges, t.target = state ∧ word state = t.spell word := by
  rw [← Array.mem_toList_iff, h.found_eq, List.mem_cons] at hstate
  refine hstate.imp_right fun hstate => ?_
  obtain ⟨t, ht, rfl⟩ := List.mem_map.1 hstate
  obtain ⟨ht, hopens⟩ := List.mem_filter.1 ht
  exact ⟨t, Array.mem_toList_iff.1 ht, rfl, by simpa using hopens⟩

/-- The states are found in the order of their words. -/
theorem found (h : Ordered e word events x) :
    x.found.toList.Pairwise fun s t => Precedes (word s) (word t) := by
  rw [h.found_eq, List.pairwise_cons, List.pairwise_map]
  constructor
  · intro state hstate
    obtain ⟨t, ht, rfl⟩ := List.mem_map.1 hstate
    have hopens : word t.target = t.spell word := by simpa using (List.mem_filter.1 ht).2
    rw [h.start, hopens]
    exact .nil_append_singleton _ _
  · refine (h.edges.filter _).imp_of_mem fun {t u} ht hu htu => ?_
    have htarget : word t.target = t.spell word := by simpa using (List.mem_filter.1 ht).2
    have hutarget : word u.target = u.spell word := by simpa using (List.mem_filter.1 hu).2
    rwa [htarget, hutarget]

/-- The states that were recorded are those of `x.found`, in their order. -/
theorem foundStates_eq (h : Ordered e word events x) : foundStates events = x.found.toList := by
  rw [h.found_eq, ← Transition.foundStates_flatMap_record, h.events_eq]
  rfl

/-- The transitions that were recorded are those of `x.edges`, in their order. -/
theorem foundTransitions_eq (h : Ordered e word events x) :
    foundTransitions events = x.edges.toList := by
  rw [h.events_eq]
  exact Transition.foundTransitions_flatMap_record

/-- The transitions that were recorded are those of the automaton of `x`, each once. -/
theorem foundTransitions_perm (h : Ordered e word events x) :
    (foundTransitions events).Perm (ofExploration e x).transitions.toList := by
  have hnodup : x.edges.toList.Nodup := h.edges.imp fun {t u} htu => by
    rintro rfl
    exact Precedes.irrefl _ htu
  rw [h.foundTransitions_eq]
  exact (List.perm_ext_iff_of_nodup hnodup (OrderedSet.nodup_toList _)).2
    fun _ => OrderedSet.mem_ofList.symm

/-- A state that is recorded is the start, or the transition that its word leads along is recorded
directly behind it. -/
theorem eq_start_or_exists_next {us vs rest : List Event} (h : Ordered e word events x)
    (hrest : foundStates rest = []) (hsplit : events ++ rest = us ++ .newState state :: vs) :
    state = e.start ∨ ∃ t ∈ x.edges, ∃ ws, vs = .transition t :: ws ∧ t.target = state ∧
      word t.target = t.spell word := by
  rw [h.events_eq, List.cons_append] at hsplit
  cases us with
  | nil =>
    cases hsplit
    exact .inl rfl
  | cons _ us =>
    rw [List.cons_append, List.cons.injEq] at hsplit
    obtain ⟨t, ht, hnext⟩ := Transition.exists_of_flatMap_record_eq hrest hsplit.2
    exact .inr ⟨t, Array.mem_toList_iff.1 ht, hnext⟩

/-- The state `s` is found before `t`, or is `t`, if the word of `t` does not come before that of
`s`. -/
theorem idxOf_lt_or_eq {s t : PositionSet} (h : Ordered e word events x) (hs : s ∈ x.found)
    (ht : t ∈ x.found) (hword : ¬Precedes (word t) (word s)) :
    x.found.toList.idxOf s < x.found.toList.idxOf t ∨ s = t := by
  have hs := List.idxOf_lt_length_of_mem (Array.mem_toList_iff.2 hs)
  have ht := List.idxOf_lt_length_of_mem (Array.mem_toList_iff.2 ht)
  rcases Nat.lt_trichotomy (x.found.toList.idxOf s) (x.found.toList.idxOf t) with hlt | heq | hgt
  · exact .inl hlt
  · exact .inr ((List.idxOf_inj (List.idxOf_lt_length_iff.1 hs)).1 heq)
  · have hprecedes := List.pairwise_iff_getElem.1 h.found _ _ ht hs hgt
    rw [List.getElem_idxOf, List.getElem_idxOf] at hprecedes
    exact absurd hprecedes hword

/-- The transitions are found in the order in which the states that they leave are, and those that
leave one state in the order of their letters. -/
theorem pairwise_idxOf (h : Ordered e word events x) :
    x.edges.toList.Pairwise fun t u =>
      x.found.toList.idxOf t.source < x.found.toList.idxOf u.source ∨
        t.source = u.source ∧ t.symbol < u.symbol := by
  refine h.edges.imp_of_mem fun {t u} ht hu htu => ?_
  have ht := h.source_mem t (Array.mem_toList_iff.1 ht)
  have hu := h.source_mem u (Array.mem_toList_iff.1 hu)
  rcases Precedes.append_singleton_iff.1 htu with hword | ⟨hword, hsymbol⟩
  · refine (h.idxOf_lt_or_eq ht hu hword.not_precedes).imp_right fun heq => ?_
    exact absurd (heq ▸ hword) (Precedes.irrefl _)
  · refine (h.idxOf_lt_or_eq ht hu ?_).imp_right fun heq => ⟨heq, hsymbol⟩
    rw [hword]
    exact Precedes.irrefl _

/-- Only the words of the states in `x.found` matter. -/
theorem congr {word' : PositionSet → List Char} (h : Ordered e word events x)
    (hword : ∀ s ∈ x.found, word' s = word s) : Ordered e word' events x := by
  have hstart : e.start ∈ x.found := by
    rw [← Array.mem_toList_iff, h.found_eq]
    exact List.mem_cons_self
  -- transitions lead from states in `x.found` to states in `x.found`
  have hspell (t : Transition) (ht : t ∈ x.edges) : t.spell word' = t.spell word :=
    Transition.spell_congr (hword _ (h.source_mem t ht))
  have htarget (t : Transition) (ht : t ∈ x.edges) : word' t.target = word t.target :=
    hword _ (h.target_mem t ht)
  constructor
  case start => rw [hword _ hstart, h.start]
  case events_eq =>
    rw [h.events_eq]
    refine congrArg _ (List.flatMap_congr fun t ht => ?_)
    have ht := Array.mem_toList_iff.1 ht
    exact (Transition.record_congr (hword _ (h.source_mem t ht)) (htarget t ht)).symm
  case found_eq =>
    rw [h.found_eq]
    refine congrArg _ (congrArg _ (List.filter_congr fun t ht => ?_))
    have ht := Array.mem_toList_iff.1 ht
    rw [htarget t ht, hspell t ht]
  case edges =>
    refine h.edges.imp_of_mem fun {t u} ht hu htu => ?_
    rwa [hspell t (Array.mem_toList_iff.1 ht), hspell u (Array.mem_toList_iff.1 hu)]
  case least =>
    intro t ht
    rw [hspell t ht, htarget t ht]
    exact h.least t ht
  case source_mem => exact h.source_mem
  case target_mem => exact h.target_mem

/-! ### One move -/

/-- The transition `t` is recorded behind the others, along with its target if the word of that
leads along `t`. -/
theorem push {y : Exploration} (h : Ordered e word events x)
    (hsource : t.source ∈ x.found)
    (hlast : ∀ u ∈ x.edges, Precedes (u.spell word) (t.spell word))
    (hleast : word t.target = t.spell word ∨ Precedes (word t.target) (t.spell word))
    (htarget : t.target ∈ y.found)
    (hfound : y.found.toList =
      x.found.toList ++ if word t.target = t.spell word then [t.target] else [])
    (hedges : y.edges = x.edges.push t) : Ordered e word (events ++ t.record word) y := by
  have hmem {s : PositionSet} (hs : s ∈ x.found) : s ∈ y.found := by
    rw [← Array.mem_toList_iff, hfound]
    exact List.mem_append_left _ (Array.mem_toList_iff.2 hs)
  constructor
  case start => exact h.start
  case events_eq => simp [h.events_eq, hedges]
  case found_eq =>
    rw [hfound, h.found_eq, hedges]
    -- the target is new exactly if its word leads along `t`
    split
    next hopens => simp [hopens]
    next hne => simp [hne]
  case edges =>
    rw [hedges, Array.toList_push, List.pairwise_append]
    exact ⟨h.edges, List.pairwise_singleton _ _, fun u hu v hv =>
      List.mem_singleton.1 hv ▸ hlast u (Array.mem_toList_iff.1 hu)⟩
  -- of the other facts, each is about the transitions: those in `x.edges`, and `t`
  all_goals
    intro u hu
    rcases Array.mem_push.1 (hedges ▸ hu) with hu | rfl
  · exact h.least u hu
  · exact hleast
  · exact hmem (h.source_mem u hu)
  · exact hmem hsource
  · exact hmem (h.target_mem u hu)
  · exact htarget

/-- If its target was found before, `t` is recorded alone, since the word of the target comes before
the word along `t`. -/
theorem known (h : Ordered e word events x) (hsource : t.source ∈ x.found)
    (htarget : t.target ∈ x.found)
    (hlast : ∀ u ∈ x.edges, Precedes (u.spell word) (t.spell word)) :
    Ordered e word (events ++ [.transition t]) { x with edges := x.edges.push t } := by
  have hprecedes : Precedes (word t.target) (t.spell word) := by
    rcases h.eq_start_or_exists htarget with hstart | ⟨u, hu, -, hword⟩
    · rw [hstart, h.start]
      exact .nil_append_singleton _ _
    · rw [hword]
      exact hlast u hu
  have hne : word t.target ≠ t.spell word := fun heq => Precedes.irrefl _ (heq ▸ hprecedes)
  have hpush := h.push (y := { x with edges := x.edges.push t }) hsource hlast (.inr hprecedes)
    htarget (by simp [hne]) rfl
  rwa [Transition.record, if_neg hne] at hpush

/-- If its target is new, and the word of that leads along `t`, both are recorded. -/
theorem new (h : Ordered e word events x) (hsource : t.source ∈ x.found)
    (hopens : word t.target = t.spell word)
    (hlast : ∀ u ∈ x.edges, Precedes (u.spell word) (t.spell word)) :
    Ordered e word (events ++ [.newState t.target, .transition t])
      { x.push e t.target with edges := x.edges.push t } := by
  have htarget : t.target ∈ x.found.push t.target := Array.mem_push_self
  have hpush := h.push (y := { x.push e t.target with edges := x.edges.push t }) hsource hlast
    (.inl hopens) htarget (by simp [hopens]) rfl
  rwa [Transition.record, if_pos hopens] at hpush

end Ordered

/-- If `state` can be noted, it is recorded unless it was found before. -/
theorem events_discover_of_eq_ok (h : (discover e limit x state).outcome = .ok y) :
    (discover e limit x state).events =
      if x.found.contains state then [] else [.newState state] := by
  rw [discover] at h ⊢
  split
  next => rfl
  next hnew =>
    rw [if_neg hnew] at h
    split at h
    next => cases h
    next => rfl

/-- If `move` can be noted, its transition is recorded, behind its target if that is new. -/
theorem events_cross_of_eq_ok {move : Char × PositionSet}
    (h : (cross e limit source x move).outcome = .ok y) :
    (cross e limit source x move).events =
      (if x.found.contains move.2 then [] else [.newState move.2]) ++
        [.transition ⟨source, move.1, move.2⟩] := by
  obtain ⟨z, hz, -⟩ := Traced.outcome_bind_eq_ok_iff.1 h
  rw [cross, Traced.events_bind_of_outcome_eq_ok hz, events_discover_of_eq_ok hz]
  rfl

namespace Ordered

/-- The transition of `move` is noted behind the others if its word comes behind theirs. A new state
gets a word, and those that were found keep theirs. -/
theorem cross {move : Char × PositionSet} (h : Ordered e word events x)
    (hsource : source ∈ x.found)
    (hlast : ∀ u ∈ x.edges, Precedes (u.spell word) (word source ++ [move.1]))
    (hy : (Automaton.cross e limit source x move).outcome = .ok y) :
    ∃ word', (∀ s ∈ x.found, word' s = word s) ∧
      Ordered e word' (events ++ (Automaton.cross e limit source x move).events) y := by
  obtain ⟨c, target⟩ := move
  rw [events_cross_of_eq_ok hy, eq_of_cross_eq_ok hy, withMove, withState]
  by_cases hfound : x.found.contains target = true
  · refine ⟨word, fun _ _ => rfl, ?_⟩
    rw [if_pos hfound, if_pos hfound, List.nil_append]
    exact h.known (t := ⟨source, c, target⟩) hsource (Array.contains_iff_mem.1 hfound) hlast
  · have hnew : target ∉ x.found := fun hmem => hfound (Array.contains_iff_mem.2 hmem)
    -- the new state gets the word along the transition
    let word' := Function.update word target (word source ++ [c])
    have hword (s : PositionSet) (hs : s ∈ x.found) : word' s = word s :=
      Function.update_of_ne (ne_of_mem_of_not_mem hs hnew) _ _
    refine ⟨word', hword, ?_⟩
    rw [if_neg hfound, if_neg hfound]
    refine (h.congr hword).new (t := ⟨source, c, target⟩) hsource ?_ fun u hu => ?_
    · rw [Transition.spell, hword source hsource]
      exact Function.update_self _ _ _
    · rw [Transition.spell_congr (hword _ (h.source_mem u hu)),
        Transition.spell_congr (t := ⟨source, c, target⟩) (hword source hsource)]
      exact hlast u hu

/-- The moves `out` from `source` are noted behind the others if their words come behind those and
their letters are in order. -/
theorem foldlM_cross {out : List (Char × PositionSet)} (h : Ordered e word events x)
    (hsource : source ∈ x.found)
    (hlast : ∀ move ∈ out, ∀ u ∈ x.edges, Precedes (u.spell word) (word source ++ [move.1]))
    (hout : out.Pairwise fun move move' => move.1 < move'.1)
    (hy : (out.foldlM (Automaton.cross e limit source) x).outcome = .ok y) :
    ∃ word', Ordered e word'
      (events ++ (out.foldlM (Automaton.cross e limit source) x).events) y := by
  induction out generalizing word events x with
  | nil =>
    cases hy
    exact ⟨word, by simpa using h⟩
  | cons move out ih =>
    obtain ⟨hmove, hout⟩ := List.pairwise_cons.1 hout
    rw [List.foldlM_cons] at hy ⊢
    obtain ⟨z, hz, hy⟩ := Traced.outcome_bind_eq_ok_iff.1 hy
    obtain ⟨word', hword, hz'⟩ := h.cross hsource (hlast move List.mem_cons_self) hz
    rw [Traced.events_bind_of_outcome_eq_ok hz, ← List.append_assoc]
    obtain rfl := eq_of_cross_eq_ok hz
    -- the next move comes behind the transitions there were, and behind the one noted now
    refine ih hz' (mem_found_withState.2 (.inl hsource)) (fun move' hmem u hu => ?_) hout hy
    rw [hword source hsource]
    rcases Array.mem_push.1 hu with hu | rfl
    · rw [Transition.spell_congr (hword _ (h.source_mem u hu))]
      exact hlast move' (List.mem_cons_of_mem _ hmem) u hu
    · rw [Transition.spell, hword source hsource]
      exact Precedes.append_singleton_iff.2 (.inr ⟨rfl, hmove move' hmem⟩)

end Ordered

/-! ### Visits -/

/-- The moves of a state are in the order of their letters. -/
theorem pairwise_of_moves_eq_ok {out : List (Char × PositionSet)}
    (h : moves e follow state = .ok out) : out.Pairwise fun move move' => move.1 < move'.1 := by
  rw [moves] at h
  split at h
  next => cases h
  next =>
    cases h
    refine List.Pairwise.filter _ (List.pairwise_map.2 ?_)
    exact (e.letters state).toList_increasing.imp compareOfLessAndEq_eq_lt.1

namespace Ordered

/-- The visit of the next state keeps up the order. The transitions that were found leave states
which were visited before, and whose words therefore come before that of `state`. -/
theorem visit (h : Ordered e word events x) (hx : Explored e follow next x)
    (hnext : x.found[next]? = some state)
    (hy : (Automaton.visit e follow limit x state).outcome = .ok y) :
    ∃ word', Ordered e word' (events ++ (Automaton.visit e follow limit x state).events) y := by
  obtain ⟨out, hout, hy⟩ := Traced.outcome_bind_eq_ok_iff.1 hy
  rw [Automaton.visit, Traced.events_bind_of_outcome_eq_ok hout]
  refine h.foldlM_cross (Array.mem_of_getElem? hnext) ?_ (pairwise_of_moves_eq_ok hout) hy
  intro move _ u hu
  obtain ⟨⟨i, hi, hui⟩, -⟩ := (hx.mem_edges_iff u).1 hu
  obtain ⟨hisize, hui⟩ := Array.getElem?_eq_some_iff.1 hui
  obtain ⟨hsize, hnext⟩ := Array.getElem?_eq_some_iff.1 hnext
  have hprecedes := List.pairwise_iff_getElem.1 h.found i next hisize hsize hi
  rw [Array.getElem_toList, Array.getElem_toList, hui, hnext] at hprecedes
  exact Precedes.append_singleton_iff.2 (.inl hprecedes)

/-- The loop keeps up the order, since each of its visits does. -/
theorem explore (h : Ordered e word events x) (hx : Explored e follow next x)
    (hy : (Automaton.explore e follow limit count next x).outcome = .ok y) :
    ∃ word', Ordered e word'
      (events ++ (Automaton.explore e follow limit count next x).events) y := by
  -- the words change with each visit, and those of the last one remain
  induction count generalizing word events next x with
  | zero =>
    cases hy
    exact ⟨word, by simpa [Automaton.explore] using h⟩
  | succ count ih =>
    rw [Automaton.explore] at hy ⊢
    split at hy
    next =>
      cases hy
      exact ⟨word, by simpa using h⟩
    next state hnext =>
      obtain ⟨z, hz, hy⟩ := Traced.outcome_bind_eq_ok_iff.1 hy
      obtain ⟨word', h'⟩ := h.visit hx hnext hz
      rw [Traced.events_bind_of_outcome_eq_ok hz, ← List.append_assoc]
      exact ih h' (hx.visit hnext hz) hy

end Ordered

/-- What is found from the start is in the order of words, where `word` gives each state the first
word that is found to lead to it. -/
theorem exists_ordered_of_exploration_eq_ok (h : (exploration e follow limit).outcome = .ok x) :
    ∃ word, Ordered e word (exploration e follow limit).events x := by
  obtain ⟨z, hz, hx⟩ := Traced.outcome_bind_eq_ok_iff.1 h
  rw [exploration, Traced.events_bind_of_outcome_eq_ok hz, events_discover_of_eq_ok hz]
  obtain rfl := eq_of_discover_eq_ok hz
  have hstart : Ordered e (fun _ => []) [.newState e.start] (withState e {} e.start) := by
    constructor <;> simp [withState]
  simpa using hstart.explore explored_start hx

/-! ### The words that lead to the states -/

/-- The word `u` leads from the start of `a` to `state`, and no word before it does. -/
structure LeadsFirst (a : Automaton) (state : PositionSet) (u : List Char) : Prop where
  /-- The word leads to the state. -/
  run?_eq : a.run? u = some state
  /-- It comes before all others that do. -/
  least : ∀ v, a.run? v = some state → v = u ∨ Precedes u v

/-- It does not matter to the words that lead to a state whether case is folded. -/
theorem LeadsFirst.withFoldCase {a : Automaton} {u : List Char} (h : a.LeadsFirst state u)
    (foldCase : Bool) : { a with foldCase := foldCase }.LeadsFirst state u :=
  ⟨h.run?_eq, h.least⟩

namespace Ordered

variable (h : Ordered e word events x) (hx : (exploration e follow limit).outcome = .ok x)
include h hx

/-- The word of `state` leads to it. -/
theorem run?_word (hstate : state ∈ x.found) :
    (ofExploration e x).run? (word state) = some state := by
  have hbuild := build_eq_ok_iff.2 ⟨x, hx, rfl⟩
  -- the state was found along a transition from a state with a shorter word
  generalize hlength : (word state).length = n
  induction n using Nat.strongRecOn generalizing state with
  | ind n ih =>
    rcases h.eq_start_or_exists hstate with rfl | ⟨t, ht, rfl, hword⟩
    · rw [h.start]
      rfl
    · rw [hword, Transition.spell, List.length_append] at hlength
      have hsource := ih _ (by simp at hlength; omega) (h.source_mem t ht) rfl
      rw [hword, Transition.spell, run?_append_singleton, hsource, Option.bind_some,
        transition?_eq_some_iff hbuild]
      exact (mem_edges_iff_step hx).1 ht

/-- No word `v` that leads to `state` comes before the word of `state`. -/
theorem eq_or_precedes_of_run?_eq_some {v : List Char}
    (hv : (ofExploration e x).run? v = some state) : v = word state ∨ Precedes (word state) v := by
  have hbuild := build_eq_ok_iff.2 ⟨x, hx, rfl⟩
  induction v using List.reverseRecOn generalizing state with
  | nil =>
    obtain rfl : e.start = state := by simpa [run?, ofExploration] using hv
    exact .inl h.start.symm
  | append_singleton v c ih =>
    rw [run?_append_singleton] at hv
    obtain ⟨source, hsource, hstate⟩ := Option.bind_eq_some_iff.1 hv
    -- the word of the target is no greater than the one along the transition
    have hedge : ⟨source, c, state⟩ ∈ x.edges :=
      (mem_edges_iff_step hx).2 ((transition?_eq_some_iff hbuild).1 hstate)
    have halong : v ++ [c] = word source ++ [c] ∨ Precedes (word source ++ [c]) (v ++ [c]) := by
      rcases ih hsource with rfl | hprecedes
      · exact .inl rfl
      · exact .inr (Precedes.append_singleton_iff.2 (.inl hprecedes))
    rcases h.least _ hedge with hword | hword
    · rwa [hword]
    · rcases halong with heq | hprecedes
      · exact .inr (heq ▸ hword)
      · exact .inr (hword.trans hprecedes)

/-- The word of `state` is the first one that leads to it. -/
theorem leadsFirst (hstate : state ∈ x.found) :
    (ofExploration e x).LeadsFirst state (word state) :=
  ⟨h.run?_word hx hstate, fun _ hv => h.eq_or_precedes_of_run?_eq_some hx hv⟩

/-- The states that were recorded are those of the automaton, each once. -/
theorem foundStates_perm : (foundStates events).Perm (ofExploration e x).states.toList := by
  obtain ⟨_, hexplored, -⟩ := explored_of_exploration_eq_ok hx
  rw [h.foundStates_eq]
  exact (List.perm_ext_iff_of_nodup hexplored.nodup (OrderedSet.nodup_toList _)).2
    fun _ => OrderedSet.mem_ofList.symm

/-- The states were recorded in the order of `words`, the first words that lead to them. -/
theorem exists_words :
    ∃ words, List.Forall₂ (ofExploration e x).LeadsFirst (foundStates events) words ∧
      words.Pairwise Precedes := by
  rw [h.foundStates_eq]
  refine ⟨x.found.toList.map word, ?_, List.pairwise_map.2 h.found⟩
  rw [List.forall₂_map_right_iff, List.forall₂_same]
  exact fun state hstate => h.leadsFirst hx (Array.mem_toList_iff.1 hstate)

end Ordered

end Automaton

end PositionAutomaton
