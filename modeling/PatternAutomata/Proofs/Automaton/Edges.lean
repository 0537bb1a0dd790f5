import PatternAutomata.Proofs.Automaton.Fragments
import PatternAutomata.Proofs.Automaton.Runs
import PatternAutomata.Proofs.Collection.Lookup

/-!
# The edges of an automaton, listed

Whether a state is entered at all depends on where edges lead, not on what they read, so the
targets of a state are one list. The edges of all states are listed with every repetition, so
that they can be counted, and the alphabet is what stands on the transitions.
-/

namespace PatternAutomata

namespace State

/-- Where the edges of a state lead, the transitions before the ε-edges. -/
def targets (s : State) : List Nat := s.transitions.values ++ s.epsilon

/-- A target is where a transition or an ε-edge leads. -/
theorem mem_targets_iff {s : State} {q : Nat} :
    q ∈ s.targets ↔ (∃ c, s.transitions.get? c = some q) ∨ q ∈ s.epsilon := by
  simp only [targets, SortedMap.values, List.mem_append, List.mem_map, Prod.exists,
    exists_eq_right, SortedMap.get?_eq_some_iff]

@[simp] theorem targets_relay (targets : List Nat) : (relay targets).targets = targets := rfl

@[simp] theorem targets_reader (c : Char) (target : Nat) :
    (reader c target).targets = [target] := rfl

@[simp] theorem targets_isolated (accepting : Bool) : (isolated accepting).targets = [] := rfl

@[simp] theorem keys_relay (targets : List Nat) : (relay targets).transitions.keys = [] := rfl

@[simp] theorem keys_reader (c : Char) (target : Nat) :
    (reader c target).transitions.keys = [c] := rfl

@[simp] theorem keys_isolated (accepting : Bool) :
    (isolated accepting).transitions.keys = [] := rfl

/-- A state that reads one symbol and has no ε-edge, or reads nothing and has one or two. -/
def Slender (s : State) : Prop :=
  (s.transitions.entries.length = 1 ∧ s.epsilon = []) ∨
    (s.transitions.entries = [] ∧ (s.epsilon.length = 1 ∨ s.epsilon.length = 2))

theorem slender_reader (c : Char) (target : Nat) : (reader c target).Slender :=
  Or.inl ⟨rfl, rfl⟩

theorem slender_relay_singleton (q : Nat) : (relay [q]).Slender := Or.inr ⟨rfl, Or.inl rfl⟩

theorem slender_relay_pair (p q : Nat) : (relay [p, q]).Slender := Or.inr ⟨rfl, Or.inr rfl⟩

end State

namespace Nfa

variable {nfa : Nfa}

/-- The symbols that the transitions of all states read, one for each transition. -/
def transitionSymbols (nfa : Nfa) : List Char := nfa.states.toList.flatMap (·.transitions.keys)

/-- The targets of the ε-edges of all states, one for each ε-edge. -/
def epsilonTargets (nfa : Nfa) : List Nat := nfa.states.toList.flatMap (·.epsilon)

/-- A transition leads to a target of its state. -/
theorem Reads.exists_mem_targets {p q : StateId} {c : Char} (h : nfa.Reads p c q) :
    ∃ s ∈ nfa.states, q ∈ s.targets := by
  obtain ⟨s, hs, hq⟩ := h
  have hvalue : q ∈ s.transitions.values :=
    List.mem_map.mpr ⟨(c, q), SortedMap.get?_eq_some_iff.mp hq, rfl⟩
  exact ⟨s, Array.mem_of_getElem? hs, List.mem_append_left _ hvalue⟩

/-- An ε-edge leads to a target of its state. -/
theorem Jumps.exists_mem_targets {p q : StateId} (h : nfa.Jumps p q) :
    ∃ s ∈ nfa.states, q ∈ s.targets := by
  obtain ⟨s, hs, hq⟩ := h
  exact ⟨s, Array.mem_of_getElem? hs, List.mem_append_right _ hq⟩

/-- A state that is no target has no edge leading to it. -/
theorem not_entered {q : StateId} (h : ∀ s ∈ nfa.states, q ∉ s.targets) (p : StateId) :
    (∀ c, ¬ nfa.Reads p c q) ∧ ¬ nfa.Jumps p q := by
  refine ⟨fun c hread => ?_, fun hjump => ?_⟩
  · obtain ⟨s, hs, hq⟩ := hread.exists_mem_targets
    exact h s hs hq
  · obtain ⟨s, hs, hq⟩ := hjump.exists_mem_targets
    exact h s hs hq

/-- The alphabet holds each symbol that some transition reads. -/
theorem mem_alphabet_iff {c : Char} : c ∈ nfa.alphabet ↔ c ∈ nfa.transitionSymbols := by
  rw [alphabet, SortedMap.mem_keys_ofList, List.map_flatMap, transitionSymbols]
  simp only [List.map_map, Function.comp_def, List.map_id']

/-- The alphabet holds its symbols in order, each once. -/
theorem pairwise_alphabet (nfa : Nfa) : nfa.alphabet.Pairwise (· < ·) := SortedMap.sorted _

end Nfa

end PatternAutomata
