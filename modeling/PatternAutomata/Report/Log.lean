import PatternAutomata.Recognizer.Matcher
import PatternAutomata.Text.Quoted

/-!
# What compiling and matching write to the log

Compiling a pattern leaves one record for each of the two automata, and every position
of a simulation leaves one. A rejected pattern leaves none.
-/

namespace PatternAutomata.Log

/-- How much detail a record is. -/
inductive Level
  | debug
  | trace
  deriving DecidableEq

/-- The name of a level. -/
def Level.name : Level → String
  | .debug => "DEBUG"
  | .trace => "TRACE"

/-- One record of the log. -/
structure Record where
  level : Level
  target : String
  message : String
  deriving DecidableEq

/-- The record of an automaton built from a pattern in postfix form. -/
def ofNfa (pattern : String) (postfixed : List Token) (nfa : Nfa) : Record :=
  ⟨.debug, "thompson::regex",
    "compiled " ++ Quoted.text pattern ++ " (postfix " ++ Quoted.text (display postfixed) ++
      ") into an NFA of " ++ toString nfa.size ++ " states"⟩

/-- The record of a deterministic automaton. -/
def ofDfa (dfa : Dfa) : Record :=
  ⟨.debug, "thompson::automaton::dfa",
    "subset construction gave " ++ toString dfa.size ++ " DFA states"⟩

/-- The wording of a simulation's note. -/
def noteMessage : Simulation.Note → String
  | .active count position =>
    toString count ++ " active states after position " ++ toString position
  | .died position symbol =>
    "all runs died at position " ++ toString position ++ " (" ++ Quoted.character symbol ++ ")"

/-- The record of a simulation's note. -/
def ofNote (note : Simulation.Note) : Record :=
  ⟨.trace, "thompson::search::multi_state", noteMessage note⟩

/-- Compiles a pattern and keeps what is logged. -/
def compileLogged (pattern : String) : Except CompileError (Matcher × List Record) := do
  let postfixed ← (postfixForm pattern).mapError .rejected
  let nfa ← toNfa postfixed
  let m ← (Matcher.ofNfa nfa).mapError .faulty
  pure (m, [ofNfa pattern postfixed nfa, ofDfa m.dfa])

/-- Compiles a pattern, simulates it on words, and keeps the answers and what is logged. -/
def session (pattern : String) (words : List String) :
    Except CompileError (List Bool × List Record) := do
  let (m, compiling) ← compileLogged pattern
  let histories ← (words.mapM fun word => Simulation.run m.nfa word.toList).mapError .faulty
  pure (histories.map (·.accepted), compiling ++ histories.flatMap (·.notes.map ofNote))

end PatternAutomata.Log
