import PatternAutomata.CommandLine.Arguments
import PatternAutomata.Recognizer.Strategy

/-!
# Requests of the command line

Sorted arguments make a request if no option is repeated, every setting has a value that
it may have, and the options go together: a pattern is needed except for a
demonstration or a file of benchmarks, and with such a file nothing else may be asked.
-/

namespace PatternAutomata.CommandLine

/-- Who decides about words: one strategy, or all of them compared. -/
inductive Mode
  | single (strategy : Strategy)
  | all
  deriving DecidableEq

/-- What is to be done with a pattern. -/
structure Matching where
  pattern : String
  /-- The words to decide; they are read from the input where none is given. -/
  words : Option (List String)
  mode : Mode
  /-- Only the number of accepted words is shown. -/
  countOnly : Bool
  debugInfos : Bool
  /-- The file in which the automaton is drawn. -/
  dot : Option String
  /-- The file in which the deterministic automaton is drawn. -/
  dfaDot : Option String
  deriving DecidableEq

/-- What the command line asks for. -/
inductive Request
  | benchmarks (path : String)
  | demo
  | showForms (pattern : String)
  | matching (m : Matching)
  deriving DecidableEq

namespace Mode

/-- The name of the comparison of all strategies. -/
def allName : String := "all"

/-- The mode of a given name. -/
def ofName? (name : String) : Option Mode :=
  if name = allName then some .all else Mode.single <$> Strategy.ofName? name

/-- The mode that a setting chooses; without a value it is the default strategy. -/
def ofSetting (value : Option String) : Except Stop Mode :=
  match value with
  | none => .ok (.single Strategy.default)
  | some name =>
    match ofName? name with
    | some mode => .ok mode
    | none => .error .usage

end Mode

namespace Arguments

/-- No option is repeated, and only the strategy was given without a value. -/
def isWellFormed (a : Arguments) : Bool :=
  a.flags.Nodup && (a.settings.map Prod.fst).Nodup &&
    a.settings.all fun (s, value) => value.isSome || s = .strategy

/-- The options go together. -/
def goesTogether (a : Arguments) : Bool :=
  match a.value? .benchmarkFile with
  | some _ => a.words.isEmpty && !a.has .demo
  | none => !a.words.isEmpty || a.has .demo

/-- The request of arguments that were sorted. -/
def toRequest (a : Arguments) : Except Stop Request := do
  if !a.isWellFormed || !a.goesTogether then throw .usage
  let mode ← Mode.ofSetting (a.value? .strategy)
  match a.value? .benchmarkFile, a.words with
  | some path, _ => pure (.benchmarks path)
  | none, [] => pure .demo
  | none, pattern :: words =>
    if a.has .demo then pure .demo
    else if a.has .showForms then pure (.showForms pattern)
    else
      pure <| .matching
        { pattern
          words := if words.isEmpty then none else some words
          mode
          countOnly := a.has .count
          debugInfos := a.has .debugInfos
          dot := a.value? .dot
          dfaDot := a.value? .dfaDot }

end Arguments

/-- The request of a command line. -/
def Request.ofArguments (args : List String) : Except Stop Request := do
  (← Arguments.ofList args).toRequest

end PatternAutomata.CommandLine
