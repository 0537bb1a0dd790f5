import PatternAutomata.Recognizer.Matcher

/-!
# Verdicts of all strategies

The strategies are compared on lists of words: words that are given, or all words over
an alphabet up to a length.
-/

namespace PatternAutomata

/-- One answer for each word, for every strategy and for the default one. -/
structure Verdicts where
  byStrategy : List (Strategy × List Bool)
  byDefault : List Bool
  deriving DecidableEq

namespace Matcher

/-- The answers of one strategy. -/
def answers (m : Matcher) (words : List String) (strategy : Strategy) :
    Except Fault (List Bool) :=
  words.mapM fun word => m.matchesWith strategy word.toList

/-- The answers of all strategies. -/
def verdicts (m : Matcher) (words : List String) : Except Fault Verdicts := do
  let byStrategy ← Strategy.all.mapM fun strategy => do
    pure (strategy, ← m.answers words strategy)
  pure ⟨byStrategy, ← m.answers words Strategy.default⟩

/-- The words that one strategy accepts. -/
def accepted (m : Matcher) (words : List String) (strategy : Strategy) :
    Except Fault (List String) :=
  words.filterM fun word => m.matchesWith strategy word.toList

/-- The words that each strategy accepts. -/
def acceptedByAll (m : Matcher) (words : List String) :
    Except Fault (List (Strategy × List String)) :=
  Strategy.all.mapM fun strategy => do
    pure (strategy, ← m.accepted words strategy)

end Matcher

/-- The words that extend `words` by one letter, in order of word and then of letter. -/
def extendWords (alphabet : List Char) (words : List (List Char)) : List (List Char) :=
  words.flatMap fun word => alphabet.map (word ++ [·])

/-- All words that extend `words` by at most `length` letters, shorter ones first. -/
def wordsFrom (alphabet : List Char) (words : List (List Char)) : Nat → List (List Char)
  | 0 => words
  | length + 1 => words ++ wordsFrom alphabet (extendWords alphabet words) length

/-- All words over an alphabet up to a length, by length and then in order of letters. -/
def wordsUpTo (alphabet : List Char) (length : Nat) : List String :=
  (wordsFrom alphabet [[]] length).map String.ofList

end PatternAutomata
