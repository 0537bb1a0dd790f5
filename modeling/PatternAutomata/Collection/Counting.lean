/-!
# Counting what is left to do

A loop that crosses off members of a fixed list ends because the number of members
still to be crossed off falls. The one lemma here says when a count falls strictly.
-/

namespace PatternAutomata

/-- A stricter test that fails on some counted member of the list counts fewer. -/
theorem countP_lt_countP {α : Type} {p q : α → Bool} {xs : List α}
    (h : ∀ x ∈ xs, p x = true → q x = true) {y : α} (hy : y ∈ xs) (hq : q y = true)
    (hp : p y = false) : xs.countP p < xs.countP q := by
  induction xs with
  | nil => exact absurd hy List.not_mem_nil
  | cons x xs ih =>
    have hle : xs.countP p ≤ xs.countP q :=
      List.countP_mono_left fun z hz => h z (List.mem_cons_of_mem _ hz)
    rcases List.mem_cons.mp hy with hyx | hyx
    · subst hyx
      rw [List.countP_cons_of_neg (by simp only [hp, Bool.false_eq_true, not_false_eq_true]),
        List.countP_cons_of_pos hq]
      omega
    · have hlt := ih (fun z hz => h z (List.mem_cons_of_mem _ hz)) hyx
      cases hpx : p x with
      | true =>
        rw [List.countP_cons_of_pos hpx,
          List.countP_cons_of_pos (h x List.mem_cons_self hpx)]
        omega
      | false =>
        rw [List.countP_cons_of_neg (by simp only [hpx, Bool.false_eq_true, not_false_eq_true])]
        rw [List.countP_cons]
        omega

end PatternAutomata
