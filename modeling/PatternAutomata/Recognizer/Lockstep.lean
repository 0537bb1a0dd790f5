import PatternAutomata.Recognizer.Matcher

/-!
# A simulation and a walk side by side

After each symbol of a word the two recognizers that read from left to right are in
corresponding places: the simulation in a set of states, the walk in the deterministic
state of that set. The record goes on after the set has become empty, where the walk
has nowhere to be.
-/

namespace PatternAutomata.Lockstep

/-- The places after some symbols. -/
structure Stage where
  /-- The states reached by the last symbol, before ε-edges; nothing before the first. -/
  reached : Option NatSet
  active : NatSet
  walk : Option DfaStateId
  accepting : Bool
  deriving DecidableEq

/-- The set of states after reading `c`, before and after ε-edges. -/
def nextActive (nfa : Nfa) (active : NatSet) (c : Char) : Except Fault (NatSet × NatSet) := do
  let reached ← nfa.step active c
  pure (reached, ← nfa.closeAll reached.toList)

/-- The place of the walk after reading `c`; from nowhere it goes nowhere. -/
def nextWalk (dfa : Dfa) (c : Char) : Option DfaStateId → Except Fault (Option DfaStateId)
  | none => .ok none
  | some q => dfa.next q c

/-- The stages after each symbol of the word. -/
def stagesFrom (m : Matcher) (active : NatSet) (walk : Option DfaStateId) :
    List Char → Except Fault (List Stage)
  | [] => .ok []
  | c :: rest => do
    let (reached, active) ← nextActive m.nfa active c
    let walk ← nextWalk m.dfa c walk
    let accepting ← m.nfa.containsAccepting active
    let stages ← stagesFrom m active walk rest
    pure (⟨some reached, active, walk, accepting⟩ :: stages)

/-- The stages before the first symbol and after each one. -/
def stages (m : Matcher) (word : List Char) : Except Fault (List Stage) := do
  let active ← m.nfa.close m.nfa.start
  let accepting ← m.nfa.containsAccepting active
  let rest ← stagesFrom m active (some m.dfa.start) word
  pure (⟨none, active, some m.dfa.start, accepting⟩ :: rest)

end PatternAutomata.Lockstep
