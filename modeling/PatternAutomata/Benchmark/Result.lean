import PatternAutomata.Benchmark.Case

/-!
# Results of benchmarks

A result says how many of the words of a case each recognizer matched, and what is known
of the time that it took. The recognizers answer for each other: a result is consistent
when all of them matched as many words as the reference.
-/

namespace PatternAutomata.Benchmark

open Json

/-- How many words a recognizer matched, with what is known of its time. -/
structure Score (τ : Type) where
  strategy : String
  numMatches : Nat
  timing : τ
  deriving DecidableEq

/-- The result of a case. -/
structure Result (τ : Type) where
  benchmark : Case
  numWords : Nat
  nfaStates : Nat
  dfaStates : Nat
  strategies : List (Score τ)
  reference : Score τ
  deriving DecidableEq

/-- All recognizers matched as many words as the reference. -/
def Result.isConsistent {τ : Type} (r : Result τ) : Bool :=
  r.strategies.all fun s => s.numMatches = r.reference.numMatches

/-- The delays between words, in seconds. -/
structure Delays where
  min : Decimal
  max : Decimal
  avg : Decimal
  stddev : Decimal
  deriving DecidableEq

namespace Delays

/-- The delays where there are no words. -/
def idle : Delays :=
  let zero : Decimal := ⟨false, 0, 0⟩
  ⟨zero, zero, zero, zero⟩

/-- The delays in the order in which they are reported. -/
def toList (d : Delays) : List Decimal := [d.min, d.max, d.avg, d.stddev]

/-- The members that show delays. -/
def toMembers (d : Delays) : List (String × Value) :=
  [("delay_min", .ofDecimal d.min), ("delay_max", .ofDecimal d.max),
    ("delay_avg", .ofDecimal d.avg), ("delay_stddev", .ofDecimal d.stddev)]

end Delays

/-- The JSON form of a score with the delays that are known. -/
def Score.toSummary (s : Score (Option Delays)) : Value :=
  .object
    ([("strategy", .text s.strategy), ("num_matches", .ofNat s.numMatches)] ++
      (s.timing.map Delays.toMembers).getD [])

/-- The JSON form of a result with the delays that are known. -/
def Result.toSummary (r : Result (Option Delays)) : Value :=
  .object
    [("benchmark", r.benchmark.toValue), ("num_words", .ofNat r.numWords),
      ("nfa_states", .ofNat r.nfaStates), ("dfa_states", .ofNat r.dfaStates),
      ("strategies", Value.ofList Score.toSummary r.strategies),
      ("reference", r.reference.toSummary)]

end PatternAutomata.Benchmark
