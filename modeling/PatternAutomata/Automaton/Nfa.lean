import PatternAutomata.Collection.SortedMap
import PatternAutomata.Collection.NatSet
import PatternAutomata.Automaton.Fault

/-!
# Automata with ε-edges

An automaton is an arena of states delimited by a start and an end. A state has at
most one transition on each symbol, and a list of ε-edges whose order is the order in
which a search tries them. Acceptance is a flag of each state: the end delimits the
automaton and need not be its only accepting state.
-/

namespace PatternAutomata

/-- A state is named by its position in the arena that holds it. -/
abbrev StateId := Nat

/-- A node of an automaton. -/
structure State where
  accepting : Bool
  /-- The target of the transition on each symbol that has one. -/
  transitions : SortedMap Char StateId
  /-- The targets of the ε-edges, in order of insertion. -/
  epsilon : List StateId
  deriving DecidableEq

namespace State

/-- A state without edges. -/
def isolated (accepting : Bool) : State := ⟨accepting, ∅, []⟩

instance : Inhabited State := ⟨isolated false⟩

end State

/-- Reads one element of a sequence. -/
def readAt {α : Type} (xs : Array α) (i : Nat) : Except Fault α :=
  match xs[i]? with
  | some x => .ok x
  | none => .error (.indexOutOfRange xs.size i)

theorem readAt_eq_ok_iff {α : Type} {xs : Array α} {i : Nat} {x : α} :
    readAt xs i = .ok x ↔ xs[i]? = some x := by
  unfold readAt
  cases xs[i]? with
  | none => simp only [reduceCtorEq]
  | some y => simp only [Except.ok.injEq, Option.some.injEq]

/-- A read succeeds only inside the sequence. -/
theorem lt_size_of_readAt {α : Type} {xs : Array α} {i : Nat} {x : α}
    (h : readAt xs i = .ok x) : i < xs.size := by
  have hx := readAt_eq_ok_iff.mp h
  exact (Array.getElem?_eq_some_iff.mp hx).1

/-- An automaton with ε-edges, delimited by its start and its end. -/
structure Nfa where
  states : Array State
  start : StateId
  final : StateId

namespace Nfa

/-- The number of states. -/
def size (nfa : Nfa) : Nat := nfa.states.size

/-- The state of a given name. -/
def state (nfa : Nfa) (q : StateId) : Except Fault State := readAt nfa.states q

/-- Whether the state of a given name accepts. -/
def isAccepting (nfa : Nfa) (q : StateId) : Except Fault Bool := State.accepting <$> nfa.state q

/-- Where the transition of a state on a symbol leads, if there is one. -/
def transition (nfa : Nfa) (q : StateId) (c : Char) : Except Fault (Option StateId) :=
  (·.transitions.get? c) <$> nfa.state q

/-- The symbols on at least one transition, in order and each once. -/
def alphabet (nfa : Nfa) : List Char :=
  (SortedMap.ofList (nfa.states.toList.flatMap fun s => s.transitions.keys.map (·, ()))).keys

end Nfa

end PatternAutomata
