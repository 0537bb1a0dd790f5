import PatternAutomata.Automaton.Assembly
import PatternAutomata.Automaton.Discovery
import PatternAutomata.Recognizer.DepthFirst
import PatternAutomata.Recognizer.Simulation
import PatternAutomata.Recognizer.Strategy
import PatternAutomata.Recognizer.Walk

/-!
# Compiled patterns

A matcher holds the automaton of a pattern and the deterministic automaton of its
reachable subsets, and answers for a word by any of the strategies.
-/

namespace PatternAutomata

/-- An automaton together with the deterministic automaton of its subsets. -/
structure Matcher where
  nfa : Nfa
  dfa : Dfa

namespace Matcher

/-- Decides a word by one strategy. -/
def matchesWith (m : Matcher) (strategy : Strategy) (word : List Char) : Except Fault Bool :=
  match strategy with
  | .depthFirst => DepthFirst.accepts m.nfa word
  | .simulation => Simulation.accepts m.nfa word
  | .walk => m.dfa.accepts word

/-- Decides a word by the default strategy. -/
def matchesWord (m : Matcher) (word : List Char) : Except Fault Bool :=
  m.matchesWith Strategy.default word

/-- The matcher of an automaton. -/
def ofNfa (nfa : Nfa) : Except Fault Matcher := do
  pure ⟨nfa, ← Dfa.ofNfa nfa⟩

end Matcher

/-- The automaton of a pattern. -/
def compileNfa (pattern : String) : Except CompileError Nfa :=
  match postfixForm pattern with
  | .error cause => .error (.rejected cause)
  | .ok tokens => toNfa tokens

/-- The matcher of a pattern. -/
def compile (pattern : String) : Except CompileError Matcher :=
  match compileNfa pattern with
  | .error e => .error e
  | .ok nfa => (Matcher.ofNfa nfa).mapError .faulty

end PatternAutomata
