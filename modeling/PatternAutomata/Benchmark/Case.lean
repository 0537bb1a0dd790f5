import PatternAutomata.Json.Decode
import PatternAutomata.Json.Value

/-!
# Benchmark cases and their JSON form

A case is a pattern with words to try on it, listed or kept in a file. It is written as
an object with all its keys. It is read from an object in which the list of words, the
file and the number of repetitions may be missing, or from the array of its six values.
-/

namespace PatternAutomata.Benchmark

open Json

/-- A pattern and the words to try on it. -/
structure Case where
  name : String
  comment : String
  regex : String
  words : List String
  /-- A file with more words, one on each line. -/
  filename : Option String
  repetitions : Option UInt64
  deriving DecidableEq

namespace Case

/-- The members of a case as they are written. -/
def members (case : Case) : List (String × Value) :=
  [("name", .text case.name), ("comment", .text case.comment), ("regex", .text case.regex),
    ("words", Value.ofList .text case.words), ("filename", Value.ofOption .text case.filename),
    ("repetitions", Value.ofOption (Value.ofNat ·.toNat) case.repetitions)]

/-- The JSON form of a case. -/
def toValue (case : Case) : Value := .object case.members

/-- The JSON text of a case. -/
def toJson (case : Case) : String := case.toValue.compact

/-- A case of which some keys have been read. -/
structure Draft where
  name : Option String
  comment : Option String
  regex : Option String
  words : Option (List String)
  filename : Option (Option String)
  repetitions : Option (Option UInt64)
  deriving DecidableEq

namespace Draft

/-- Reads the value at a key. -/
def put (d : Draft) (key : String) (t : Tree) : Option (Except ReadError Draft) :=
  match key with
  | "name" => RecordReader.fill d.name Tree.asText t ({ d with name := · })
  | "comment" => RecordReader.fill d.comment Tree.asText t ({ d with comment := · })
  | "regex" => RecordReader.fill d.regex Tree.asText t ({ d with regex := · })
  | "words" => RecordReader.fill d.words (Tree.asList Tree.asText) t ({ d with words := · })
  | "filename" =>
    RecordReader.fill d.filename (Tree.asOptional Tree.asText) t ({ d with filename := · })
  | "repetitions" =>
    RecordReader.fill d.repetitions (Tree.asOptional Tree.asWord) t ({ d with repetitions := · })
  | _ => none

/-- The case of a draft; what may be missing is empty. -/
def finish (d : Draft) : Except ReadError Case := do
  pure
    { name := ← RecordReader.require d.name
      comment := ← RecordReader.require d.comment
      regex := ← RecordReader.require d.regex
      words := d.words.getD []
      filename := d.filename.getD none
      repetitions := d.repetitions.getD none }

end Draft

/-- How a case is read. -/
def reader : RecordReader Draft Case where
  start := ⟨none, none, none, none, none, none⟩
  keys := ["name", "comment", "regex", "words", "filename", "repetitions"]
  put := Draft.put
  finish := Draft.finish

/-- Reads the JSON text of an array of cases. -/
def listOfJson (text : String) : Except ReadError (List Case) :=
  readText (Tree.asList reader.read) text

end Case

end PatternAutomata.Benchmark
