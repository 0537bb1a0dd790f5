import PatternAutomata.Automaton.Dfa

/-!
# Drawings of automata for Graphviz

A drawing lists the states with their numbers as labels, the accepting ones in a double
circle, then an arrow from nowhere to the start, then the edges state by state. Labels
stand in double quotes, so the quote and the backslash are escaped in them; a line break
in a label stays as it is.
-/

namespace PatternAutomata.Graphviz

/-- A label as it stands between double quotes. -/
def escapeLabel (label : List Char) : List Char :=
  label.flatMap fun c => if c = '\\' || c = '"' then ['\\', c] else [c]

/-- The line of a state. -/
def node (q : Nat) (accepting : Bool) : String :=
  let id := toString q
  let shape := if accepting then "doublecircle" else "circle"
  "\t" ++ id ++ " [label = \"" ++ id ++ "\", shape = " ++ shape ++ "];\n"

/-- The lines that point to the start. -/
def entry (start : Nat) : String :=
  "\tinit [label = \"\", shape = none];\n\tinit -> " ++ toString start ++ ";\n"

/-- The line of an edge. -/
def edge (source : Nat) (label : Char) (target : Nat) : String :=
  "\t" ++ toString source ++ " -> " ++ toString target ++ " [label = \"" ++
    String.ofList (escapeLabel [label]) ++ "\"];\n"

/-- What a drawing shows of a state: whether it accepts, and its labelled edges. -/
structure Shape where
  accepting : Bool
  edges : List (Char × Nat)
  deriving DecidableEq

/-- The text of a drawing. -/
def digraph (name : String) (start : Nat) (shapes : List Shape) : String :=
  "digraph " ++ name ++ " \x7b\n\trankdir = LR;\n" ++
    String.join (shapes.zipIdx.map fun (s, q) => node q s.accepting) ++
    entry start ++
    String.join (shapes.zipIdx.map fun (s, q) =>
      String.join (s.edges.map fun (label, target) => edge q label target)) ++
    "\x7d\n"

/-- The character that labels ε-edges. -/
def epsilonLabel : Char := 'ε'

end PatternAutomata.Graphviz

namespace PatternAutomata

open Graphviz

/-- The drawing of a state: its transitions in order of symbol, then its ε-edges. -/
def State.shape (s : State) : Shape :=
  ⟨s.accepting, s.transitions.entries ++ s.epsilon.map (epsilonLabel, ·)⟩

/-- The drawing of an automaton with ε-edges. -/
def Nfa.toDot (nfa : Nfa) : String :=
  digraph "nfa" nfa.start (nfa.states.toList.map State.shape)

/-- The drawing of a deterministic state. -/
def DfaState.shape (s : DfaState) : Shape := ⟨s.accepting, s.transitions.entries⟩

/-- The drawing of a deterministic automaton. -/
def Dfa.toDot (dfa : Dfa) : String :=
  digraph "dfa" dfa.start (dfa.states.toList.map DfaState.shape)

end PatternAutomata
