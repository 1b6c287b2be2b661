import PositionAutomaton.Trace

/-!
# Outcomes of computations in a row

When computations that may fail are made one after the other, the last one has a result if
each of them has one. Where it is known what each step refuses, the first element that is refused
ends steps in a row (`foldlM_eq_error_iff_first`). Steps that go along with a change of what they
work on go along with it when they are made in a row (`foldlM_map_comm`).
-/

namespace PositionAutomaton

variable {α β : Type}

/-- A result `a` is passed on. -/
@[simp]
theorem ok_bind (a : α) (f : α → Except Error β) : (Except.ok a >>= f) = f a := rfl

/-- A failure with `error` ends the computation. -/
@[simp]
theorem error_bind (error : Error) (f : α → Except Error β) :
    (Except.error error >>= f) = .error error := rfl

/-- To return a value is to succeed with it. -/
@[simp]
theorem pure_eq_ok (a : α) : (pure a : Except Error α) = .ok a := rfl

/-- Two computations in a row succeed if `x` does, and `f` on its result. -/
theorem bind_eq_ok_iff {x : Except Error α} {f : α → Except Error β} {b : β} :
    x >>= f = .ok b ↔ ∃ a, x = .ok a ∧ f a = .ok b := by
  cases x <;> simp

/-- Traced computations in a row succeed if `x` does, and `f` on its result. -/
theorem Traced.outcome_bind_eq_ok_iff {x : Traced α} {f : α → Traced β} {b : β} :
    (x >>= f).outcome = .ok b ↔ ∃ a, x.outcome = .ok a ∧ (f a).outcome = .ok b := by
  rw [Traced.outcome_bind, bind_eq_ok_iff]

/-- A traced computation `x` that has a result `a` goes on with it. -/
theorem Traced.bind_of_outcome_eq_ok {x : Traced α} {a : α} (h : x.outcome = .ok a)
    (f : α → Traced β) : x >>= f = ⟨x.events ++ (f a).events, (f a).outcome⟩ := by
  simp [Bind.bind, Traced.bind, h]

/-- A change `g` of the result of a traced computation records nothing. -/
theorem Traced.bind_pure_eq_map (x : Traced α) (g : α → β) :
    (x >>= fun a => pure (g a)) = ⟨x.events, x.outcome.map g⟩ := by
  obtain ⟨events, outcome⟩ := x
  cases outcome <;> simp [Bind.bind, Traced.bind, pure, Traced.pure, Except.map]

/-- Two computations in a row fail if `x` does, or `f` on its result. -/
theorem bind_eq_error_iff {x : Except Error α} {f : α → Except Error β} {error : Error} :
    x >>= f = .error error ↔ x = .error error ∨ ∃ a, x = .ok a ∧ f a = .error error := by
  cases x <;> simp

variable {f : β → α → Except Error β} {xs : List α} {b c : β}

/-- If each step keeps up the property `P`, it holds after all of them. -/
theorem of_foldlM_eq_ok {P : β → Prop}
    (hstep : ∀ {b a c}, a ∈ xs → P b → f b a = .ok c → P c) (hb : P b)
    (h : xs.foldlM f b = .ok c) : P c := by
  induction xs generalizing b with
  | nil =>
    cases h
    exact hb
  | cons x xs ih =>
    rw [List.foldlM_cons] at h
    obtain ⟨d, hd, hc⟩ := bind_eq_ok_iff.1 h
    exact ih (fun ha => hstep (List.mem_cons_of_mem x ha)) (hstep List.mem_cons_self hb hd) hc

/-- Steps in a row succeed if those up to the last element `x` do, and then the one with `x`. -/
theorem foldlM_append_singleton_eq_ok_iff {x : α} :
    (xs ++ [x]).foldlM f b = .ok c ↔ ∃ d, xs.foldlM f b = .ok d ∧ f d x = .ok c := by
  simp only [List.foldlM_append, List.foldlM_cons, List.foldlM_nil, bind_pure, bind_eq_ok_iff]

/-- Steps in a row fail if the one with some `x` does, after those before it have not. -/
theorem foldlM_eq_error_iff {error : Error} :
    xs.foldlM f b = .error error ↔
      ∃ ys x zs c, xs = ys ++ x :: zs ∧ ys.foldlM f b = .ok c ∧ f c x = .error error := by
  constructor
  · intro h
    induction xs generalizing b with
    | nil => cases h
    | cons x xs ih =>
      rw [List.foldlM_cons] at h
      rcases bind_eq_error_iff.1 h with h | ⟨d, hd, h⟩
      · exact ⟨[], x, xs, b, rfl, rfl, h⟩
      · obtain ⟨ys, y, zs, c, rfl, hc, hy⟩ := ih h
        refine ⟨x :: ys, y, zs, c, rfl, ?_, hy⟩
        rw [List.foldlM_cons, hd]
        exact hc
  · rintro ⟨ys, x, zs, c, rfl, hc, hx⟩
    rw [List.foldlM_append, hc, ok_bind, List.foldlM_cons, hx, error_bind]

section Refusals

variable {R : List α → α → Error → Prop}
  (hR : ∀ ys x c error, ys.foldlM f b = .ok c → (f c x = .error error ↔ R ys x error))
include hR

/-- Where `R` says what is refused behind other elements, and why, steps in a row succeed if nothing
is refused. -/
theorem exists_foldlM_eq_ok_iff :
    (∃ c, xs.foldlM f b = .ok c) ↔ ∀ ys x zs error, xs = ys ++ x :: zs → ¬R ys x error := by
  constructor
  · rintro ⟨c, hc⟩ ys x zs error rfl hrefused
    rw [List.foldlM_append] at hc
    obtain ⟨d, hd, hc⟩ := bind_eq_ok_iff.1 hc
    rw [List.foldlM_cons, (hR ys x d error hd).2 hrefused] at hc
    cases hc
  · intro hnone
    cases hrun : xs.foldlM f b with
    | ok c => exact ⟨c, rfl⟩
    | error error =>
      obtain ⟨ys, x, zs, c, hsplit, hc, hx⟩ := foldlM_eq_error_iff.1 hrun
      exact absurd ((hR ys x c error hc).1 hx) (hnone ys x zs error hsplit)

/-- Where `R` says what is refused behind other elements, and why, steps in a row fail at the first
element that is refused. -/
theorem foldlM_eq_error_iff_first {error : Error} :
    xs.foldlM f b = .error error ↔
      ∃ ys x zs, xs = ys ++ x :: zs ∧ R ys x error ∧
        ∀ us u vs other, ys = us ++ u :: vs → ¬R us u other := by
  rw [foldlM_eq_error_iff]
  constructor
  · rintro ⟨ys, x, zs, c, hsplit, hc, hx⟩
    exact ⟨ys, x, zs, hsplit, (hR ys x c error hc).1 hx, (exists_foldlM_eq_ok_iff hR).1 ⟨c, hc⟩⟩
  · rintro ⟨ys, x, zs, hsplit, hx, hnone⟩
    obtain ⟨c, hc⟩ := (exists_foldlM_eq_ok_iff hR).2 hnone
    exact ⟨ys, x, zs, c, hsplit, hc, (hR ys x c error hc).2 hx⟩

end Refusals

/-- The outcome of traced steps `f` in a row is that of their outcomes in a row. -/
theorem Traced.outcome_foldlM (f : β → α → Traced β) (xs : List α) (b : β) :
    (xs.foldlM f b).outcome = xs.foldlM (fun b a => (f b a).outcome) b := by
  induction xs generalizing b with
  | nil => rfl
  | cons x xs ih => simp only [List.foldlM_cons, outcome_bind, ih]

/-! ### Changed results -/

section Map

variable {γ δ : Type}

/-- A result `a` is changed by `g`. -/
@[simp]
theorem map_ok (g : α → β) (a : α) : (Except.ok a : Except Error α).map g = .ok (g a) := rfl

/-- A failure stays what it is, whatever `g` does to results. -/
@[simp]
theorem map_error (g : α → β) (error : Error) :
    (Except.error error : Except Error α).map g = .error error := rfl

/-- What `g` makes of a result `a` is told by the changed result. -/
theorem apply_eq_of_map_eq_ok {x : Except Error α} {g : α → β} {a : α} {b : β} (ha : x = .ok a)
    (h : x.map g = .ok b) : g a = b := by
  rw [ha, map_ok] at h
  exact Except.ok.inj h

/-- Results that are changed by `g` are passed on. -/
theorem map_bind (x : Except Error α) (g : α → β) (k : β → Except Error γ) :
    x.map g >>= k = x >>= fun a => k (g a) := by
  cases x <;> rfl

/-- The results of `x >>= k` that `g` changes are those of `k`. -/
theorem bind_map (x : Except Error α) (k : α → Except Error β) (g : β → γ) :
    (x >>= k).map g = x >>= fun a => (k a).map g := by
  cases x <;> rfl

/-- A result `b` of `x.map g` is `g a` for a result `a` of `x`. -/
theorem map_eq_ok_iff {x : Except Error α} {g : α → β} {b : β} :
    x.map g = .ok b ↔ ∃ a, x = .ok a ∧ g a = b := by
  cases x <;> simp

/-- Computations that succeed with a result changed by `g` are those that succeed. -/
theorem exists_map_eq_ok_iff {x : Except Error α} {g : α → β} :
    (∃ b, x.map g = .ok b) ↔ ∃ a, x = .ok a := by
  cases x <;> simp

/-- Computations that fail with results changed by `g` fail as before. -/
theorem map_eq_error_iff {x : Except Error α} {g : α → β} {error : Error} :
    x.map g = .error error ↔ x = .error error := by
  cases x <;> simp

/-- If each step `f` goes along with a change `g` of its state and a change `m` of its input, so do
steps in a row. -/
theorem foldlM_map_comm {f : β → α → Except Error β} {k : δ → γ → Except Error δ} {g : β → δ}
    {m : α → γ} (hstep : ∀ b a, k (g b) (m a) = (f b a).map g) (xs : List α) (b : β) :
    (xs.map m).foldlM k (g b) = (xs.foldlM f b).map g := by
  induction xs generalizing b with
  | nil => rfl
  | cons x xs ih =>
    rw [List.map_cons, List.foldlM_cons, List.foldlM_cons, hstep, map_bind, bind_map]
    simp only [ih]

end Map

end PositionAutomaton
