import PatternAutomata.Text.Quoted

/-!
# Misuse of an arena of states

States are named by their position in an arena, so a name can be wrong. Every read of
an arena reports a wrong name as a fault instead of answering for another state.
-/

namespace PatternAutomata

/-- How a name or an edge can be wrong. -/
inductive Fault
  /-- Position `index` was read in a sequence of `size` elements. -/
  | indexOutOfRange (size index : Nat)
  /-- An edge leads to a state that the arena does not hold. -/
  | targetOutOfRange
  /-- A state already has a transition on the symbol. -/
  | repeatedSymbol (symbol : Char)
  /-- The start or the end of an automaton is not one of its states. -/
  | endpointOutOfRange
  /-- A search over `positions` input positions was given `buffers` visited sets. -/
  | bufferMismatch (buffers positions : Nat)
  deriving DecidableEq

/-- The wording of a fault. -/
def Fault.message : Fault → String
  | .indexOutOfRange size index =>
    "index out of bounds: the len is " ++ toString size ++ " but the index is " ++ toString index
  | .targetOutOfRange => "assertion failed: target < self.states.len()"
  | .repeatedSymbol symbol => "two transitions on " ++ Quoted.character symbol
  | .endpointOutOfRange =>
    "assertion failed: start < self.states.len() && end < self.states.len()"
  | .bufferMismatch buffers positions =>
    toString buffers ++ " visited sets given for " ++ toString positions ++ " positions"

end PatternAutomata
