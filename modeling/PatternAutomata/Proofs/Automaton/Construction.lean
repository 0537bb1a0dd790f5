import PatternAutomata.Automaton.Arena
import PatternAutomata.Proofs.Automaton.Runs
import PatternAutomata.Proofs.Collection.Lookup

/-!
# Edges stay inside an arena

An edge is accepted only when the arena holds its target, and states are never taken away.
So every edit keeps the edges of all states inside the arena, and whatever edits are made,
an automaton that is frozen without a fault is in range.
-/

namespace PatternAutomata

namespace State

/-- The edges of a state lead below a bound. -/
structure Within (bound : Nat) (s : State) : Prop where
  transition_lt : ∀ e ∈ s.transitions.entries, e.2 < bound
  epsilon_lt : ∀ q ∈ s.epsilon, q < bound

/-- A state without edges leads nowhere. -/
theorem within_isolated (bound : Nat) (accepting : Bool) :
    (isolated accepting).Within bound := by
  constructor <;> rintro _ ⟨⟩

variable {bound target : Nat} {s : State}

/-- A bound of the edges can be raised. -/
theorem Within.mono {bound' : Nat} (h : s.Within bound) (hle : bound ≤ bound') :
    s.Within bound' where
  transition_lt e he := Nat.lt_of_lt_of_le (h.transition_lt e he) hle
  epsilon_lt q hq := Nat.lt_of_lt_of_le (h.epsilon_lt q hq) hle

/-- Acceptance has no part in where the edges lead. -/
theorem Within.setAccepting (h : s.Within bound) (accepting : Bool) :
    { s with accepting }.Within bound := ⟨h.transition_lt, h.epsilon_lt⟩

/-- A transition is added to a target below the bound. -/
theorem Within.insert (h : s.Within bound) (c : Char) (ht : target < bound) :
    { s with transitions := s.transitions.insert c target }.Within bound where
  transition_lt e he := by
    have hget := SortedMap.get?_eq_some_iff.mpr he
    rw [SortedMap.get?_insert] at hget
    split at hget
    case isTrue => exact Option.some.inj hget ▸ ht
    case isFalse => exact h.transition_lt e (SortedMap.get?_eq_some_iff.mp hget)
  epsilon_lt := h.epsilon_lt

/-- An ε-edge is added to a target below the bound. -/
theorem Within.append (h : s.Within bound) (ht : target < bound) :
    { s with epsilon := s.epsilon ++ [target] }.Within bound where
  transition_lt := h.transition_lt
  epsilon_lt q hq := by
    rcases List.mem_append.mp hq with hq | hq
    · exact h.epsilon_lt q hq
    · exact List.mem_singleton.mp hq ▸ ht

end State

namespace Arena

variable {a a' : Arena}

/-- The edges of an arena lead to its states. -/
def InRange (a : Arena) : Prop := ∀ s ∈ a.states, s.Within a.size

/-- The arena without states has no edges. -/
theorem inRange_empty : InRange ∅ := by
  rintro s hs
  exact absurd hs (Array.not_mem_empty s)

/-- A state more is a state without edges. -/
theorem InRange.addState (h : a.InRange) (accepting : Bool) : (a.addState accepting).2.InRange := by
  have hsize : (a.addState accepting).2.size = a.size + 1 := Array.size_push _
  intro s hs
  rw [hsize]
  rcases Array.mem_push.mp hs with hs | rfl
  · exact (h s hs).mono (Nat.le_succ _)
  · exact .mono (State.within_isolated a.size accepting) (Nat.le_succ _)

/-- A state is modified where it can be read and the modification succeeds. -/
theorem exists_of_modify {q : StateId} {f : State → Except Fault State}
    (h : a.modify q f = .ok a') :
    ∃ s s', a.states[q]? = some s ∧ f s = .ok s' ∧ a' = ⟨a.states.setIfInBounds q s'⟩ := by
  unfold modify at h
  split at h
  case h_1 => cases h
  case h_2 s hs =>
    split at h
    case h_1 => cases h
    case h_2 s' hs' =>
      cases h
      exact ⟨s, s', hs, hs', rfl⟩

/-- A modification that keeps edges inside the arena keeps the arena in range. -/
theorem InRange.modify (h : a.InRange) {q : StateId} {f : State → Except Fault State}
    (hf : ∀ s s', s.Within a.size → f s = .ok s' → s'.Within a.size)
    (hmodify : a.modify q f = .ok a') : a'.InRange := by
  obtain ⟨s, s', hs, hs', rfl⟩ := exists_of_modify hmodify
  have hsize : size ⟨a.states.setIfInBounds q s'⟩ = a.size := Array.size_setIfInBounds
  intro t ht
  rw [hsize]
  rcases Array.mem_or_eq_of_mem_setIfInBounds ht with ht | rfl
  · exact h t ht
  · exact hf s t (h s (Array.mem_of_getElem? hs)) hs'

/-- Setting acceptance leaves all edges. -/
theorem InRange.setAccepting (h : a.InRange) {q : StateId} {accepting : Bool}
    (hset : a.setAccepting q accepting = .ok a') : a'.InRange := by
  unfold Arena.setAccepting at hset
  refine h.modify (fun s s' hs hs' => ?_) hset
  cases hs'
  exact hs.setAccepting accepting

/-- An ε-edge is added only to a state of the arena. -/
theorem InRange.addEpsilon (h : a.InRange) {source target : StateId}
    (hadd : a.addEpsilon source target = .ok a') : a'.InRange := by
  unfold Arena.addEpsilon at hadd
  split at hadd
  case isTrue hlt =>
    refine h.modify (fun s s' hs hs' => ?_) hadd
    cases hs'
    exact hs.append hlt
  case isFalse => cases hadd

/-- A transition is added only to a state of the arena. -/
theorem InRange.addTransition (h : a.InRange) {source target : StateId} {c : Char}
    (hadd : a.addTransition source c target = .ok a') : a'.InRange := by
  unfold Arena.addTransition at hadd
  split at hadd
  case isTrue hlt =>
    refine h.modify (fun s s' hs hs' => ?_) hadd
    split at hs'
    case h_1 => cases hs'
    case h_2 =>
      cases hs'
      exact hs.insert c hlt
  case isFalse => cases hadd

/-- An edit that succeeds keeps the edges inside the arena. -/
theorem InRange.apply (h : a.InRange) {e : Edit} (he : a.apply e = .ok a') : a'.InRange := by
  cases e with
  | addState accepting =>
    cases he
    exact h.addState accepting
  | setAccepting q accepting => exact h.setAccepting he
  | addTransition source c target => exact h.addTransition he
  | addEpsilon source target => exact h.addEpsilon he

/-- Edits that all succeed keep the edges inside the arena. -/
theorem InRange.applyAll (h : a.InRange) {edits : List Edit}
    (hedits : a.applyAll edits = .ok a') : a'.InRange := by
  induction edits generalizing a with
  | nil =>
    cases hedits
    exact h
  | cons e edits ih =>
    rw [Arena.applyAll, List.foldlM_cons] at hedits
    obtain ⟨next, he, hrest⟩ := exists_of_bind_eq_ok hedits
    exact ih (h.apply he) hrest

/-- An arena that is frozen without a fault is an automaton in range, with its end. -/
theorem InRange.build (h : a.InRange) {start final : StateId} {nfa : Nfa}
    (hbuild : a.build start final = .ok nfa) : nfa.InRange ∧ nfa.final < nfa.size := by
  unfold Arena.build at hbuild
  split at hbuild
  case isTrue hlt =>
    cases hbuild
    exact ⟨⟨hlt.1, fun s hs => (h s hs).transition_lt, fun s hs => (h s hs).epsilon_lt⟩, hlt.2⟩
  case isFalse => cases hbuild

end Arena

end PatternAutomata
