import PatternAutomata.Automaton.Reach

/-!
# Simulation of all runs at once

The simulation keeps the set of all states that runs can be in. It notes after every
position how many states are active, and it stops at the first symbol that no run can
read. The notes are the whole history of a simulation, so where and why it stopped can
be read from them.
-/

namespace PatternAutomata.Simulation

/-- What a simulation notes about one position of the input. -/
inductive Note
  /-- So many states are active after the position. -/
  | active (count position : Nat)
  /-- No run can read the symbol at the position. -/
  | died (position : Nat) (symbol : Char)
  deriving DecidableEq

/-- The notes of a simulation in order, and its answer. -/
structure History where
  notes : List Note
  accepted : Bool
  deriving DecidableEq

/-- Simulates from a closed set of active states on. -/
def runFrom (nfa : Nfa) (active : NatSet) (position : Nat) :
    List Char → Except Fault History
  | [] => do
    pure ⟨[], ← nfa.containsAccepting active⟩
  | c :: rest => do
    let reached ← nfa.step active c
    if reached.isEmpty then pure ⟨[.died position c], false⟩
    else
      let active ← nfa.closeAll reached.toList
      let history ← runFrom nfa active (position + 1) rest
      pure ⟨.active active.size position :: history.notes, history.accepted⟩

/-- Simulates all runs on a word. -/
def run (nfa : Nfa) (word : List Char) : Except Fault History := do
  runFrom nfa (← nfa.close nfa.start) 0 word

/-- Some run reads the whole word and ends in an accepting state. -/
def accepts (nfa : Nfa) (word : List Char) : Except Fault Bool :=
  History.accepted <$> run nfa word

end PatternAutomata.Simulation
