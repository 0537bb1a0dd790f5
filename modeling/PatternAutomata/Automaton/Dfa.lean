import PatternAutomata.Automaton.Reach

/-!
# Deterministic automata of subsets

A deterministic state stands for a set of states that runs of an automaton with ε-edges
can be in at the same time. It has at most one transition on each symbol; where there
is none, no run goes on.
-/

namespace PatternAutomata

/-- A deterministic state is named by the order of its discovery. -/
abbrev DfaStateId := Nat

/-- A deterministic state. -/
structure DfaState where
  /-- The states of the given automaton that it stands for. -/
  members : NatSet
  transitions : SortedMap Char DfaStateId
  accepting : Bool
  deriving DecidableEq

instance : Inhabited DfaState := ⟨⟨∅, ∅, false⟩⟩

/-- A deterministic automaton. -/
structure Dfa where
  states : Array DfaState
  start : DfaStateId
  deriving DecidableEq

namespace Dfa

/-- The number of states. -/
def size (dfa : Dfa) : Nat := dfa.states.size

/-- The state of a given name. -/
def state (dfa : Dfa) (q : DfaStateId) : Except Fault DfaState := readAt dfa.states q

/-- Where a state goes on reading `c`, if anywhere. -/
def next (dfa : Dfa) (q : DfaStateId) (c : Char) : Except Fault (Option DfaStateId) :=
  (·.transitions.get? c) <$> dfa.state q

/-- The accepting states in order. -/
def acceptingStates (dfa : Dfa) : List DfaStateId :=
  (dfa.states.toList.zipIdx.filter (·.1.accepting)).map Prod.snd

end Dfa

end PatternAutomata
