import PatternAutomata.CommandLine.Session

/-!
# The program

The arguments are answered on the files and the input of the system.
-/

namespace PatternAutomata.Program

open CommandLine

/-- The error of a file operation that failed. -/
def ioErrorOf : IO.Error → IoError
  | .noFileOrDirectory _ _ _ => .notFound
  | .inappropriateType _ code wording =>
    if code = 21 then .isDirectory
    else if code = 20 then .notDirectory
    else .other wording
  | .invalidArgument _ _ _ => .invalidInput
  | e => .other (toString e)

/-- An action with its failure as a value. -/
def attempt {α : Type} (action : IO α) : IO (Except IoError α) := do
  match ← action.toBaseIO with
  | .ok x => pure (.ok x)
  | .error e => pure (.error (ioErrorOf e))

/-- The rest of a stream. -/
partial def readAll (stream : IO.FS.Stream) (sofar : ByteArray) : IO ByteArray := do
  let chunk ← stream.read 65536
  if chunk.isEmpty then pure sofar else readAll stream (sofar ++ chunk)

/-- The files and the input of the system. -/
def host : Host IO where
  read path := attempt (IO.FS.readBinFile path)
  write path content := attempt (IO.FS.writeBinFile path content)
  input := do
    readAll (← IO.getStdin) .empty

/-- The text of an output. -/
def outputText : Output → String
  | .lines ls => String.join (ls.map (· ++ "\n"))
  | .results rs => (Json.Value.ofList (·.toSummary) rs).compact ++ "\n"

end PatternAutomata.Program

open PatternAutomata PatternAutomata.CommandLine in
/-- Answers the arguments of the program. -/
def main (args : List String) : IO UInt32 := do
  let answer ← Program.host.answerArguments args
  IO.print (Program.outputText answer.output)
  for complaint in answer.complaints do
    IO.eprintln complaint
  pure (.ofNat answer.code)
