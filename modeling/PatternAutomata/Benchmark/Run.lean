import PatternAutomata.Benchmark.Result
import PatternAutomata.Files.IoError
import PatternAutomata.Files.Path
import PatternAutomata.Recognizer.Matcher
import PatternAutomata.Reference.Engine
import PatternAutomata.Text.Lines

/-!
# Reading and running benchmark cases

Cases are read from a file, and the files of words that they name are looked for beside
it. To run a case means to load its words, to compile its pattern, to have an engine search
for the reference expression, and to count the words that each recognizer matches. The
times that this takes are not part of the result, but where there are no words all delays
are zero.
-/

namespace PatternAutomata.Benchmark

/-- Why a case could not be run. -/
inductive RunError
  /-- The file of words could not be read. -/
  | file (e : IoError)
  | pattern (e : CompileError)
  /-- The reference expression was refused. -/
  | reference
  deriving DecidableEq

/-- The wording of a failure to run a case. -/
def RunError.message : RunError → String
  | .file e => e.message
  | .pattern e => e.message
  | .reference => "the reference expression is not well formed or nested too deep"

/-- Why no cases came of a file. -/
inductive FileError
  | file (e : IoError)
  | json (e : Json.ReadError)
  deriving DecidableEq

/-- The wording of a failure to read cases. -/
def FileError.message : FileError → String
  | .file e => e.message
  | .json .malformed => "the benchmarks are not well-formed JSON"
  | .json .truncated => "the benchmarks end too early"
  | .json .mismatched => "the benchmarks are JSON of another shape"

/-- A way to get the content of a file by its path. -/
abbrev FileReader (m : Type → Type) := String → m (Except IoError ByteArray)

/-- The text of a file. -/
def readFile {m : Type → Type} [Monad m] (read : FileReader m) (path : String) :
    m (Except IoError String) := do
  match ← read path with
  | .ok bytes => pure (decodeText bytes)
  | .error e => pure (.error e)

namespace Case

/-- The case with its file of words looked for in a directory. -/
def relocate (directory : List Char) (case : Case) : Case :=
  { case with
    filename := case.filename.map fun f => String.ofList (Path.join directory f.toList) }

/-- The cases that the text of a file at `path` lists. -/
def listOfFileText (path text : String) : Except Json.ReadError (List Case) := do
  let cases ← listOfJson text
  match Path.parent? path.toList with
  | some directory => pure (cases.map (relocate directory))
  | none => pure cases

/-- The cases that a file lists. -/
def readFrom {m : Type → Type} [Monad m] (read : FileReader m) (path : String) :
    m (Except FileError (List Case)) := do
  match ← readFile read path with
  | .error e => pure (.error (.file e))
  | .ok text => pure ((listOfFileText path text).mapError .json)

/-- The words of a case: those that it lists, then those of its file. -/
def loadWords {m : Type → Type} [Monad m] (read : FileReader m) (case : Case) :
    m (Except IoError (List String)) := do
  match case.filename with
  | none => pure (.ok case.words)
  | some path =>
    match ← readFile read path with
    | .error e => pure (.error e)
    | .ok text => pure (.ok (case.words ++ Lines.ofText text))

/-- The name of the reference among the recognizers. -/
def referenceName : String := "regex"

/-- What is known of the delays without a clock. -/
def knownDelays (words : List String) : Option Delays :=
  if words.isEmpty then some .idle else none

/-- The score of a strategy. -/
def scoreOf (m : Matcher) (words : List String) (strategy : Strategy) :
    Except Fault (Score (Option Delays)) := do
  let matched ← words.filterM fun word => m.matchesWith strategy word.toList
  pure ⟨strategy.name, matched.length, knownDelays words⟩

/-- The score of the search for the reference expression. -/
def referenceScore (search : List Char → Bool) (words : List String) : Score (Option Delays) :=
  ⟨referenceName, words.countP (search ·.toList), knownDelays words⟩

/-- The result of a case on its loaded words, by an engine. -/
def measure (engine : Reference.Engine) (case : Case) (words : List String) :
    Except RunError (Result (Option Delays)) := do
  let matcher ← (compile case.regex).mapError .pattern
  match engine.search? (Reference.anchoredText case.regex) with
  | none => throw .reference
  | some search =>
    let strategies ←
      (Strategy.all.mapM (scoreOf matcher words)).mapError (.pattern <| .faulty ·)
    pure
      { benchmark := case
        numWords := words.length
        nfaStates := matcher.nfa.size
        dfaStates := matcher.dfa.size
        strategies
        reference := referenceScore search words }

/-- Loads the words of a case and runs it by an engine. -/
def runWith {m : Type → Type} [Monad m] (engine : Reference.Engine) (read : FileReader m)
    (case : Case) : m (Except RunError (Result (Option Delays))) := do
  match ← case.loadWords read with
  | .error e => pure (.error (.file e))
  | .ok words => pure (case.measure engine words)

/-- Loads the words of a case and runs it by the engine of positions. -/
def run {m : Type → Type} [Monad m] (read : FileReader m) (case : Case) :
    m (Except RunError (Result (Option Delays))) :=
  case.runWith .positional read

end Case

end PatternAutomata.Benchmark
