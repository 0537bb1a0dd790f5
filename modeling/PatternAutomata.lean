import PatternAutomata.Benchmark.Saved
import PatternAutomata.Collection.Tally
import PatternAutomata.Main
import PatternAutomata.Proofs.Automaton.Drawing
import PatternAutomata.Proofs.Automaton.Powerset
import PatternAutomata.Proofs.Automaton.Rounds
import PatternAutomata.Proofs.Benchmark.CaseFiles
import PatternAutomata.Proofs.Benchmark.Consistency
import PatternAutomata.Proofs.Benchmark.WordFiles
import PatternAutomata.Proofs.Expression.Composition
import PatternAutomata.Proofs.Expression.Postorder
import PatternAutomata.Proofs.Expression.Refusal
import PatternAutomata.Proofs.Expression.Shape
import PatternAutomata.Proofs.Json.Decode
import PatternAutomata.Proofs.Json.Numeral
import PatternAutomata.Proofs.Json.StringBody
import PatternAutomata.Proofs.Json.Tree
import PatternAutomata.Proofs.Pattern.Conservation
import PatternAutomata.Proofs.Pattern.Grouping
import PatternAutomata.Proofs.Pattern.Neighbours
import PatternAutomata.Proofs.Recognizer.EarliestRejection
import PatternAutomata.Proofs.Recognizer.FaultFree
import PatternAutomata.Proofs.Recognizer.Rejection
import PatternAutomata.Proofs.Recognizer.Renaming
import PatternAutomata.Proofs.Recognizer.SetReuse
import PatternAutomata.Proofs.Recognizer.SubsetCount
import PatternAutomata.Proofs.Recognizer.Termination
import PatternAutomata.Recognizer.Lockstep
import PatternAutomata.Report.Log
import PatternAutomata.Report.Workbench
import PatternAutomata.Proofs.Automaton.Closing
import PatternAutomata.Proofs.Expression.Partition
import PatternAutomata.Proofs.CommandLine.Agreement
