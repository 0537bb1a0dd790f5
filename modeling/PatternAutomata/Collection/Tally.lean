import PatternAutomata.Collection.SortedMap

/-!
# Running tallies over a sorted map

Every value is replaced by how many values have been visited and what they sum to, so
the tally shows in which order a transformation visits the values.
-/

namespace PatternAutomata

/-- The visits so far and the sum of the visited values. -/
structure Tally where
  visits : Nat
  sum : Int
  deriving DecidableEq

/-- The tally after one value more. -/
def Tally.add (t : Tally) (value : Int) : Tally := ⟨t.visits + 1, t.sum + value⟩

/-- The tally at every key, in order of key. -/
def SortedMap.tally (map : SortedMap String Int) : SortedMap String Tally :=
  (map.mapAccum (fun (t : Tally) value => (t.add value, t.add value)) ⟨0, 0⟩).1

end PatternAutomata
