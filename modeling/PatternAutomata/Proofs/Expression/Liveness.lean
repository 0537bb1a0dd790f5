import PatternAutomata.Proofs.Expression.Automaton

/-!
# Every state of an expression's automaton leads to acceptance

A run can be finished from wherever it is: each state of a block leads to the exit of the
block. Operators keep this, since the exit of every operand leads on to the exit of what the
operator makes of it, and a new entry leads into an operand.
-/

namespace PatternAutomata

namespace Nfa

variable {nfa : Nfa}

/-- Some run leads from the state `p` to the state `q`. -/
def Reaches (nfa : Nfa) (p q : Nat) : Prop := ∃ word, nfa.Run p word q

/-- Some run leads from the state to acceptance. -/
def Live (nfa : Nfa) (p : Nat) : Prop := ∃ q, nfa.Reaches p q ∧ nfa.Accepting q

theorem Reaches.refl (p : Nat) : nfa.Reaches p p := ⟨[], .stay p⟩

theorem Reaches.trans {p q r : Nat} (hpq : nfa.Reaches p q) (hqr : nfa.Reaches q r) :
    nfa.Reaches p r := by
  obtain ⟨u, hu⟩ := hpq
  obtain ⟨v, hv⟩ := hqr
  exact ⟨u ++ v, hu.append hv⟩

/-- An ε-edge of a relay is the beginning of a run. -/
theorem reaches_of_relay {p q r : Nat} {targets : List Nat}
    (hp : nfa.states[p]? = some (State.relay targets)) (hq : q ∈ targets)
    (hqr : nfa.Reaches q r) : nfa.Reaches p r := by
  obtain ⟨word, hword⟩ := hqr
  have hjump : nfa.Jumps p q := ⟨_, hp, hq⟩
  exact ⟨word, .jump hjump hword⟩

/-- The symbol of a reader is a run to its target. -/
theorem reaches_of_reader {p q : Nat} {c : Char}
    (hp : nfa.states[p]? = some (State.reader c q)) : nfa.Reaches p q := by
  have hread : nfa.Reads p c q := ⟨_, hp, by rw [State.get?_reader, if_pos rfl]⟩
  exact ⟨[c], .read hread (.stay q)⟩

end Nfa

namespace Expr

/-- Every state of a block reaches the exit of the block. -/
theorem reaches_exit {nfa : Nfa} {e : Expr} {base : Nat}
    (h : Stands (fun q s => nfa.states[q]? = some s) base (e.body base)) {q : Nat}
    (hle : base ≤ q) (hlt : q < base + e.span) : nfa.Reaches q (base + e.span) := by
  induction e generalizing base q with
  | literal c =>
    have hq : q = base := by
      simp only [span] at hlt
      omega
    subst hq
    exact Nfa.reaches_of_reader (stands_cons.mp h).1
  | union left right ihl ihr =>
    let middle := base + (left.span + 1)
    have hend : base + (union left right).span = middle + (right.span + 1) + 1 := by
      simp only [span, middle]
      omega
    obtain ⟨hleft, hoverl, hright, hoverr, hfork⟩ := h.split_union
    simp only [length_body] at hoverl hright hoverr hfork
    have hexitl : nfa.Reaches (base + left.span) (middle + (right.span + 1) + 1) :=
      Nfa.reaches_of_relay hoverl (List.mem_singleton_self _) (.refl _)
    have hexitr : nfa.Reaches (middle + right.span) (middle + (right.span + 1) + 1) :=
      Nfa.reaches_of_relay hoverr (List.mem_singleton_self _) (.refl _)
    rw [hend] at hlt ⊢
    have hcases : q < base + left.span ∨ q = base + left.span ∨
        (middle ≤ q ∧ q < middle + right.span) ∨ q = middle + right.span ∨
        q = middle + (right.span + 1) := by
      simp only [middle] at hlt ⊢
      omega
    rcases hcases with hq | rfl | ⟨hle', hq⟩ | rfl | rfl
    · exact (ihl hleft hle hq).trans hexitl
    · exact hexitl
    · exact (ihr hright hle' hq).trans hexitr
    · exact hexitr
    · have hentry := left.entry_mem base
      exact Nfa.reaches_of_relay hfork List.mem_cons_self
        ((ihl hleft hentry.1 hentry.2).trans hexitl)
  | concat left right ihl ihr =>
    let middle := base + (left.span + 1)
    have hend : base + (concat left right).span = middle + right.span := by
      simp only [span, middle]
      omega
    obtain ⟨hleft, hover, hright⟩ := h.split_concat
    rw [length_body] at hover hright
    have hentry := right.entry_mem middle
    have hexit : nfa.Reaches (base + left.span) (middle + right.span) :=
      Nfa.reaches_of_relay hover (List.mem_singleton_self _) (ihr hright hentry.1 hentry.2)
    rw [hend] at hlt ⊢
    have hcases : q < base + left.span ∨ q = base + left.span ∨
        (middle ≤ q ∧ q < middle + right.span) := by
      simp only [middle] at hlt ⊢
      omega
    rcases hcases with hq | rfl | ⟨hle', hq⟩
    · exact (ihl hleft hle hq).trans hexit
    · exact hexit
    · exact ihr hright hle' hq
  | star inner ih =>
    let exit := base + (inner.span + 1) + 1
    obtain ⟨hinner, hover, hfork⟩ := h.split_star
    rw [length_body] at hover hfork
    have hexit : nfa.Reaches (base + inner.span) exit :=
      Nfa.reaches_of_relay hover List.mem_cons_self (.refl _)
    change q < exit at hlt
    change nfa.Reaches q exit
    have hcases : q < base + inner.span ∨ q = base + inner.span ∨
        q = base + (inner.span + 1) := by
      simp only [exit] at hlt
      omega
    rcases hcases with hq | rfl | rfl
    · exact (ih hinner hle hq).trans hexit
    · exact hexit
    · exact Nfa.reaches_of_relay hfork List.mem_cons_self (.refl _)

/-- Every state of an expression's automaton reaches the exit. -/
theorem reaches_final (e : Expr) {q : Nat} (hq : q < e.nfa.size) : e.nfa.Reaches q e.nfa.final := by
  change e.nfa.Reaches q e.span
  rw [size_nfa] at hq
  by_cases hexit : q = e.span
  · subst hexit
    exact .refl _
  · have hbody := (stands_append.mp e.stands_nfa).1
    have hreach := reaches_exit hbody (Nat.zero_le q) (by omega)
    rwa [Nat.zero_add] at hreach

/-- The exit of an expression's automaton accepts. -/
theorem accepting_final (e : Expr) : e.nfa.Accepting e.span := ⟨_, e.getElem?_exit, rfl⟩

/-- Every state of an expression's automaton leads to acceptance. -/
theorem live_nfa (e : Expr) {q : Nat} (hq : q < e.nfa.size) : e.nfa.Live q :=
  ⟨e.span, e.reaches_final hq, e.accepting_final⟩

end Expr

/-- Both states of the automaton that comes of no tokens reach the second one. -/
theorem reaches_final_emptyNfa {q : Nat} (hq : q < emptyNfa.size) :
    emptyNfa.Reaches q emptyNfa.final := by
  have hsize : emptyNfa.size = 2 := rfl
  have hcases : q = 0 ∨ q = 1 := by omega
  rcases hcases with rfl | rfl
  · exact Nfa.reaches_of_relay rfl (List.mem_singleton_self _) (.refl 1)
  · exact .refl 1

/-- Both states of the automaton that comes of no tokens lead to acceptance. -/
theorem live_emptyNfa {q : Nat} (hq : q < emptyNfa.size) : emptyNfa.Live q :=
  ⟨1, reaches_final_emptyNfa hq, _, rfl, rfl⟩

end PatternAutomata
