/-!
# Strategies to recognize a word

Three procedures decide the language of a compiled pattern. They are listed in one
fixed order, each has a name, and a name is read back by looking it up in that list.
-/

namespace PatternAutomata

/-- A way to decide whether a word belongs to the language of a pattern. -/
inductive Strategy
  /-- Search over the runs of the automaton with ε-edges, one at a time. -/
  | depthFirst
  /-- Simulation of all its runs at once. -/
  | simulation
  /-- Walk through the transitions of the deterministic automaton. -/
  | walk
  deriving DecidableEq

namespace Strategy

/-- All strategies in the order in which they are reported. -/
def all : List Strategy := [.depthFirst, .simulation, .walk]

/-- The name of a strategy. -/
def name : Strategy → String
  | .depthFirst => "dfs"
  | .simulation => "multi-state"
  | .walk => "dfa"

/-- The strategy used where none is asked for. -/
def default : Strategy := .simulation

/-- The strategy of a given name. -/
def ofName? (name : String) : Option Strategy := all.find? (·.name = name)

/-- The complaint about a name that no strategy has. -/
def unknownMessage (name : String) : String := "Unknown strategy: " ++ name

end Strategy

end PatternAutomata
