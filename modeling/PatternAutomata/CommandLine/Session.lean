import PatternAutomata.Automaton.Graphviz
import PatternAutomata.Benchmark.Run
import PatternAutomata.CommandLine.Judgement
import PatternAutomata.Files.FileStore

/-!
# A session of the command line

A session answers one request with an exit code and what is to be shown. It reaches
files and the input through a host, so that it is the same session on any of them: the
drawings are written before the words are read, and the first failure ends it.
-/

namespace PatternAutomata.CommandLine

/-- What a session reaches outside itself. -/
structure Host (m : Type → Type) where
  read : Benchmark.FileReader m
  write : String → ByteArray → m (Except IoError Unit)
  input : m ByteArray

/-- What a session shows. -/
inductive Output
  | lines (ls : List String)
  | results (rs : List (Benchmark.Result (Option Benchmark.Delays)))
  deriving DecidableEq

/-- The answer to a request. -/
structure Answer where
  code : Nat
  output : Output
  complaints : List String
  deriving DecidableEq

namespace Answer

/-- The exit code of a session that did what was asked. -/
def success : Nat := 0

/-- The exit code of a session that failed. -/
def failure : Nat := 1

/-- The exit code of a session in which recognizers disagreed. -/
def disagreement : Nat := 2

/-- The exit code of a session that was broken off. -/
def aborted : Nat := 101

/-- An answer in lines. -/
def ofLines (ls : List String) : Answer := ⟨success, .lines ls, []⟩

/-- A failure after some lines and complaints were shown. -/
def fail (shown complaints : List String) (message : String) : Answer :=
  ⟨failure, .lines shown, complaints ++ ["error: " ++ message]⟩

/-- A session that was broken off after some lines and complaints were shown. Of its last
complaint only the reason is kept, not the place in the program. -/
def abort (shown complaints : List String) (reason : String) : Answer :=
  ⟨aborted, .lines shown, complaints ++ [reason]⟩

end Answer

/-- The name and version of the program. -/
def versionLine : String := "Thompson matcher 0.1"

/-- How the program is called. -/
def helpLines : List String :=
  [versionLine,
    "Decide if words belong to the language of a regular expression.",
    "",
    "USAGE: [OPTIONS] [--] <regex> [words]...",
    "",
    "  -c, --count                  show only the number of accepted words",
    "  -s, --strategy <strategy>    dfs, multi-state, dfa, or all to compare them",
    "  -i, --debug-infos            show sizes of the compiled pattern",
    "      --postfix                show the pattern with concatenations and in postfix order",
    "      --dot <file>             draw the automaton",
    "      --dfa-dot <file>         draw the deterministic automaton",
    "      --benchmark-file <file>  run the benchmarks of a JSON file",
    "      --demo                   match a few words by a*b",
    "  -h, --help                   show this text",
    "  -V, --version                show the version"]

/-- The complaint about arguments that are refused. -/
def usageMessage : String := "the arguments do not go together, see --help"

/-- The answer where no request comes of the arguments. -/
def Answer.ofStop : Stop → Answer
  | .usage => .fail [] [] usageMessage
  | .version => .ofLines [versionLine]
  | .help => .ofLines helpLines

/-- The pattern of the demonstration. -/
def demoPattern : String := "a*b"

/-- The words of the demonstration. -/
def demoWords : List String := ["", "b", "aab", "abb"]

/-- The answer of the demonstration. -/
def demoAnswer : Answer :=
  match compile demoPattern with
  | .error e => .fail [] [] e.message
  | .ok m =>
    match demoWords.mapM (Judgement.ofWord m (.single Strategy.default)) with
    | .error fault => .abort [] [] fault.message
    | .ok js => .ofLines (js.map (Judgement.line false))

/-- A pattern with its concatenations, and its postfix form. -/
def formsAnswer (pattern : String) : Answer :=
  let written := display (infixForm pattern)
  match postfixForm pattern with
  | .error e => .fail [written] [] e.message
  | .ok tokens => .ofLines [written, display tokens]

/-- The lines about a compiled pattern. -/
def debugLines (postfixed : List Token) (m : Matcher) : List String :=
  ["===== Debug Infos =====",
    " - Postfix form: " ++ display postfixed,
    " - NFA states: " ++ toString m.nfa.size ++ " (start: " ++ toString m.nfa.start ++
      ", end: " ++ toString m.nfa.final ++ ")",
    " - Alphabet: " ++ String.ofList m.nfa.alphabet,
    " - DFA states: " ++ toString m.dfa.size]

/-- The debug lines of a request. -/
def requestedDebugLines (r : Matching) (m : Matcher) : List String :=
  match r.debugInfos, postfixForm r.pattern with
  | true, .ok tokens => debugLines tokens m
  | _, _ => []

/-- The words that the input lists. -/
def wordsOfInput (bytes : ByteArray) : Except IoError (List String) := do
  pure ((Lines.ofText (← decodeText bytes)).map Lines.trimReturns)

/-- Judges words by a compiled pattern. -/
def judgeAnswer (r : Matching) (m : Matcher) (words : List String) : Answer :=
  let debug := requestedDebugLines r m
  let display := Display.ofWords r.countOnly words
  match words.foldlM (Progress.judge m r.mode display) .start with
  | .error e => .abort e.progress.shown.toList (debug ++ e.progress.complaints.toList) e.message
  | .ok p =>
    { code := if 0 < p.disagreements then Answer.disagreement else Answer.success
      output := .lines (p.shown.toList ++ display.total p.accepted)
      complaints := debug ++ p.complaints.toList }

/-- The answer to benchmarks that were all run. -/
def benchmarksAnswer (rs : List (Benchmark.Result (Option Benchmark.Delays))) : Answer :=
  { code := if rs.all (·.isConsistent) then Answer.success else Answer.disagreement
    output := .results rs
    complaints := [] }

namespace Host

variable {m : Type → Type} [Monad m] (host : Host m)

/-- Writes a drawing if a file is given for it. -/
def draw (path : Option String) (drawing : String) : m (Except IoError Unit) :=
  match path with
  | none => pure (.ok ())
  | some path => host.write path drawing.toUTF8

/-- Writes the drawings of a request, the one of the deterministic automaton last. -/
def drawAll (r : Matching) (matcher : Matcher) : m (Except IoError Unit) := do
  match ← host.draw r.dot matcher.nfa.toDot with
  | .error e => pure (.error e)
  | .ok () => host.draw r.dfaDot matcher.dfa.toDot

/-- The words of a request. -/
def words (r : Matching) : m (Except IoError (List String)) :=
  match r.words with
  | some words => pure (.ok words)
  | none => wordsOfInput <$> host.input

/-- Answers a request to judge words. -/
def answerMatching (r : Matching) : m Answer :=
  match compile r.pattern with
  | .error e => pure (.fail [] [] e.message)
  | .ok matcher => do
    match ← host.drawAll r matcher with
    | .error e => pure (.fail [] [] e.message)
    | .ok () =>
      match ← host.words r with
      | .error e => pure (.fail [] (requestedDebugLines r matcher) e.message)
      | .ok words => pure (judgeAnswer r matcher words)

/-- Runs benchmark cases up to the first failure. -/
def runCases : List Benchmark.Case →
    m (Except Benchmark.RunError (List (Benchmark.Result (Option Benchmark.Delays))))
  | [] => pure (.ok [])
  | case :: rest => do
    match ← case.run host.read with
    | .error e => pure (.error e)
    | .ok result => (Except.map (result :: ·)) <$> runCases rest

/-- Answers a request to run benchmarks. -/
def answerBenchmarks (path : String) : m Answer := do
  match ← Benchmark.Case.readFrom host.read path with
  | .error e => pure (.fail [] [] e.message)
  | .ok cases =>
    match ← host.runCases cases with
    | .error e => pure (.fail [] [] e.message)
    | .ok results => pure (benchmarksAnswer results)

/-- Answers a request. -/
def answer : Request → m Answer
  | .benchmarks path => host.answerBenchmarks path
  | .demo => pure demoAnswer
  | .showForms pattern => pure (formsAnswer pattern)
  | .matching r => host.answerMatching r

/-- Answers a command line. -/
def answerArguments (args : List String) : m Answer :=
  match Request.ofArguments args with
  | .error stop => pure (.ofStop stop)
  | .ok request => host.answer request

end Host

/-- The host whose files are those of a store and whose input is given. -/
def Host.ofStore (input : ByteArray) : Host (StateM FileStore) where
  read path := do
    pure ((← get).read path)
  write path content := do
    match (← get).write path content with
    | .ok store =>
      set store
      pure (.ok ())
    | .error e => pure (.error e)
  input := pure input

end PatternAutomata.CommandLine
