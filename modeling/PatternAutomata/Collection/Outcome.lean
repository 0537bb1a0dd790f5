/-!
# Outcomes of computations that can fail

A computation made of steps succeeds when every step does, so from its success the success
of each step can be had, one after another. Where no step fails, a computation over a list
is the one without failure.
-/

namespace PatternAutomata

variable {ε α β : Type}

/-- What succeeds in two steps succeeds in each of them. -/
theorem exists_of_bind_eq_ok {x : Except ε α} {f : α → Except ε β} {b : β}
    (h : (x >>= f) = .ok b) : ∃ a, x = .ok a ∧ f a = .ok b := by
  cases x with
  | error e => cases h
  | ok a => exact ⟨a, rfl, h⟩

/-- What succeeds with its result transformed succeeds. -/
theorem exists_of_map_eq_ok {x : Except ε α} {f : α → β} {b : β} (h : f <$> x = .ok b) :
    ∃ a, x = .ok a ∧ f a = b := by
  cases x with
  | error e => cases h
  | ok a => exact ⟨a, rfl, Except.ok.inj h⟩

/-- What succeeds with its failures renamed succeeds. -/
theorem eq_ok_of_mapError {ε' : Type} {x : Except ε α} {f : ε → ε'} {a : α}
    (h : x.mapError f = .ok a) : x = .ok a := by
  cases x with
  | error e => cases h
  | ok b =>
    cases h
    rfl

/-- Every value of a successful transformation comes from one of the given values. -/
theorem exists_of_mem_mapM {f : α → Except ε β} {xs : List α} {ys : List β}
    (h : xs.mapM f = .ok ys) {y : β} (hy : y ∈ ys) : ∃ x ∈ xs, f x = .ok y := by
  induction xs generalizing ys with
  | nil =>
    cases h
    exact absurd hy List.not_mem_nil
  | cons x xs ih =>
    rw [List.mapM_cons] at h
    obtain ⟨z, hx, h⟩ := exists_of_bind_eq_ok h
    obtain ⟨zs, hxs, h⟩ := exists_of_bind_eq_ok h
    cases h
    rcases List.mem_cons.mp hy with rfl | hy
    · exact ⟨x, List.mem_cons_self, hx⟩
    · obtain ⟨u, hu, hfu⟩ := ih hxs hy
      exact ⟨u, List.mem_cons_of_mem _ hu, hfu⟩

/-- A filter whose test always answers keeps what passes. -/
theorem filterAuxM_eq_ok {f : α → Except ε Bool} {p : α → Bool} (h : ∀ x, f x = .ok (p x))
    (xs sofar : List α) : xs.filterAuxM f sofar = .ok ((xs.filter p).reverse ++ sofar) := by
  induction xs generalizing sofar with
  | nil => rfl
  | cons x xs ih =>
    rw [List.filterAuxM, h x]
    simp only [bind, Except.bind, ih]
    cases hx : p x with
    | true =>
      rw [List.filter_cons_of_pos hx, List.reverse_cons, List.append_assoc]
      rfl
    | false =>
      rw [List.filter_cons_of_neg (by rw [hx]; exact Bool.false_ne_true)]
      rfl

theorem filterM_eq_ok {f : α → Except ε Bool} {p : α → Bool} (h : ∀ x, f x = .ok (p x))
    (xs : List α) : xs.filterM f = .ok (xs.filter p) := by
  rw [List.filterM, filterAuxM_eq_ok h]
  simp only [bind, Except.bind, List.append_nil, List.reverse_reverse]
  rfl

end PatternAutomata
