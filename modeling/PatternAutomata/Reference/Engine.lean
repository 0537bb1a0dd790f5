import PatternAutomata.Reference.Anchored

/-!
# Engines for the common notation

An engine makes a search of a written expression: it says of a word whether the expression
matches somewhere in it. An engine refuses what it cannot read, and what is nested too deep
for it.
-/

namespace PatternAutomata.Reference

/-- What searches words for matches of written expressions. -/
structure Engine where
  /-- The search for the expression that a text spells, unless the engine refuses the text. -/
  search? : String → Option (List Char → Bool)

/-- The engine that follows the positions a match can lead to. -/
def Engine.positional : Engine := ⟨fun text => Regex.matchesIn <$> read? text⟩

end PatternAutomata.Reference
