import PatternAutomata.Automaton.Dfa

/-!
# Walking a deterministic automaton

A walk follows one transition for each symbol. It either arrives at a state or is stuck
at the first position whose symbol has no transition.
-/

namespace PatternAutomata

/-- How a walk ends. -/
inductive Walk
  | arrived (q : DfaStateId)
  | stuck (position : Nat)
  deriving DecidableEq

namespace Dfa

/-- Walks from a state on the symbols from `position` on. -/
def walkFrom (dfa : Dfa) (q : DfaStateId) (position : Nat) : List Char → Except Fault Walk
  | [] => .ok (.arrived q)
  | c :: rest => do
    match ← dfa.next q c with
    | some q => walkFrom dfa q (position + 1) rest
    | none => pure (.stuck position)

/-- Walks from the start. -/
def walk (dfa : Dfa) (word : List Char) : Except Fault Walk := dfa.walkFrom dfa.start 0 word

/-- The walk on the word arrives at an accepting state. -/
def accepts (dfa : Dfa) (word : List Char) : Except Fault Bool := do
  match ← dfa.walk word with
  | .arrived q => DfaState.accepting <$> dfa.state q
  | .stuck _ => pure false

end Dfa

end PatternAutomata
