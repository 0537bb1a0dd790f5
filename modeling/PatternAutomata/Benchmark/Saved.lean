import PatternAutomata.Benchmark.Result

/-!
# Saved results of benchmarks

A result is saved as a JSON object together with all the times that were taken, and read
back from such an object or from the array of its values. Every key must be there.
-/

namespace PatternAutomata.Benchmark

open Json

/-- The time that a recognizer took over all words, and the delays between them. -/
structure Timing where
  total : Decimal
  delays : Delays
  deriving DecidableEq

/-- A result with the times that were taken to compile its pattern. -/
structure Saved where
  result : Result Timing
  compileRegex : Decimal
  compileReference : Decimal
  deriving DecidableEq

/-- Reads a count. -/
def asCount (t : Tree) : Except ReadError Nat := UInt64.toNat <$> t.asWord

namespace Score

/-- The JSON form of a saved score. -/
def toValue (s : Score Timing) : Value :=
  .object
    ([("strategy", .text s.strategy), ("num_matches", .ofNat s.numMatches),
      ("total", .ofDecimal s.timing.total)] ++ s.timing.delays.toMembers)

/-- A score of which some keys have been read. -/
structure Draft where
  strategy : Option String
  numMatches : Option Nat
  total : Option Decimal
  delayMin : Option Decimal
  delayMax : Option Decimal
  delayAvg : Option Decimal
  delayStddev : Option Decimal

namespace Draft

/-- Reads the value at a key. -/
def put (d : Draft) (key : String) (t : Tree) : Option (Except ReadError Draft) :=
  match key with
  | "strategy" => RecordReader.fill d.strategy Tree.asText t ({ d with strategy := · })
  | "num_matches" => RecordReader.fill d.numMatches asCount t ({ d with numMatches := · })
  | "total" => RecordReader.fill d.total Tree.asDecimal t ({ d with total := · })
  | "delay_min" => RecordReader.fill d.delayMin Tree.asDecimal t ({ d with delayMin := · })
  | "delay_max" => RecordReader.fill d.delayMax Tree.asDecimal t ({ d with delayMax := · })
  | "delay_avg" => RecordReader.fill d.delayAvg Tree.asDecimal t ({ d with delayAvg := · })
  | "delay_stddev" =>
    RecordReader.fill d.delayStddev Tree.asDecimal t ({ d with delayStddev := · })
  | _ => none

/-- The score of a draft. -/
def finish (d : Draft) : Except ReadError (Score Timing) := do
  let delays : Delays :=
    { min := ← RecordReader.require d.delayMin
      max := ← RecordReader.require d.delayMax
      avg := ← RecordReader.require d.delayAvg
      stddev := ← RecordReader.require d.delayStddev }
  pure
    { strategy := ← RecordReader.require d.strategy
      numMatches := ← RecordReader.require d.numMatches
      timing := ⟨← RecordReader.require d.total, delays⟩ }

end Draft

/-- How a saved score is read. -/
def reader : RecordReader Draft (Score Timing) where
  start := ⟨none, none, none, none, none, none, none⟩
  keys := ["strategy", "num_matches", "total", "delay_min", "delay_max", "delay_avg",
    "delay_stddev"]
  put := Draft.put
  finish := Draft.finish

end Score

namespace Saved

/-- The JSON form of a saved result. -/
def toValue (s : Saved) : Value :=
  .object
    [("benchmark", s.result.benchmark.toValue), ("num_words", .ofNat s.result.numWords),
      ("nfa_states", .ofNat s.result.nfaStates), ("dfa_states", .ofNat s.result.dfaStates),
      ("compile_regex", .ofDecimal s.compileRegex),
      ("compile_reference", .ofDecimal s.compileReference),
      ("strategies", Value.ofList Score.toValue s.result.strategies),
      ("reference", s.result.reference.toValue)]

/-- The JSON text of a saved result. -/
def toJson (s : Saved) : String := s.toValue.compact

/-- A saved result of which some keys have been read. -/
structure Draft where
  benchmark : Option Case
  numWords : Option Nat
  nfaStates : Option Nat
  dfaStates : Option Nat
  compileRegex : Option Decimal
  compileReference : Option Decimal
  strategies : Option (List (Score Timing))
  reference : Option (Score Timing)

namespace Draft

/-- Reads the value at a key. -/
def put (d : Draft) (key : String) (t : Tree) : Option (Except ReadError Draft) :=
  match key with
  | "benchmark" => RecordReader.fill d.benchmark Case.reader.read t ({ d with benchmark := · })
  | "num_words" => RecordReader.fill d.numWords asCount t ({ d with numWords := · })
  | "nfa_states" => RecordReader.fill d.nfaStates asCount t ({ d with nfaStates := · })
  | "dfa_states" => RecordReader.fill d.dfaStates asCount t ({ d with dfaStates := · })
  | "compile_regex" =>
    RecordReader.fill d.compileRegex Tree.asDecimal t ({ d with compileRegex := · })
  | "compile_reference" =>
    RecordReader.fill d.compileReference Tree.asDecimal t ({ d with compileReference := · })
  | "strategies" =>
    RecordReader.fill d.strategies (Tree.asList Score.reader.read) t ({ d with strategies := · })
  | "reference" => RecordReader.fill d.reference Score.reader.read t ({ d with reference := · })
  | _ => none

/-- The saved result of a draft. -/
def finish (d : Draft) : Except ReadError Saved := do
  let result : Result Timing :=
    { benchmark := ← RecordReader.require d.benchmark
      numWords := ← RecordReader.require d.numWords
      nfaStates := ← RecordReader.require d.nfaStates
      dfaStates := ← RecordReader.require d.dfaStates
      strategies := ← RecordReader.require d.strategies
      reference := ← RecordReader.require d.reference }
  pure
    { result
      compileRegex := ← RecordReader.require d.compileRegex
      compileReference := ← RecordReader.require d.compileReference }

end Draft

/-- How a saved result is read. -/
def reader : RecordReader Draft Saved where
  start := ⟨none, none, none, none, none, none, none, none⟩
  keys := ["benchmark", "num_words", "nfa_states", "dfa_states", "compile_regex",
    "compile_reference", "strategies", "reference"]
  put := Draft.put
  finish := Draft.finish

/-- Reads the JSON text of a saved result. -/
def ofJson (text : String) : Except ReadError Saved := readText reader.read text

end Saved

end PatternAutomata.Benchmark
