import PatternAutomata.CommandLine.Request
import PatternAutomata.Recognizer.Matcher
import PatternAutomata.Text.Quoted

/-!
# Judging words

Every word is judged by one strategy or by all of them. In the second case the default
one speaks, and the strategies that disagree with it are named. Words are judged one after
another, and what there is to show of a word is shown before the next one is judged. The
words that are accepted and those that are disagreed on are counted in 32 bits, so judging
is broken off by the word that would be one too many.
-/

namespace PatternAutomata.CommandLine

/-- The judgement of a word: whether it is accepted, and who disagrees. -/
structure Judgement where
  word : String
  accepted : Bool
  dissent : List Strategy
  deriving DecidableEq

namespace Judgement

/-- The strategies that do not answer `accepted`. -/
def dissenters (m : Matcher) (word : String) (accepted : Bool) : Except Fault (List Strategy) :=
  Strategy.all.filterM fun strategy => do
    pure ((← m.matchesWith strategy word.toList) != accepted)

/-- Judges a word. -/
def ofWord (m : Matcher) (mode : Mode) (word : String) : Except Fault Judgement :=
  match mode with
  | .single strategy => do
    pure ⟨word, ← m.matchesWith strategy word.toList, []⟩
  | .all => do
    let accepted ← m.matchesWord word.toList
    pure ⟨word, accepted, ← dissenters m word accepted⟩

/-- A truth value as it is shown. -/
def boolName (b : Bool) : String := if b then "true" else "false"

/-- The line that shows a judgement, with the word where there are several. -/
def line (showWord : Bool) (j : Judgement) : String :=
  if showWord then j.word ++ ": " ++ boolName j.accepted else boolName j.accepted

/-- The lines that complain about a disagreement. -/
def complaint (j : Judgement) : List String :=
  if j.dissent.isEmpty then []
  else
    ("recognizers disagree on " ++ Quoted.text j.word ++ ":") ::
      j.dissent.map fun s => " - " ++ s.name ++ ": " ++ boolName (!j.accepted)

end Judgement

/-- What is shown of the judgements. -/
inductive Display
  /-- The number of words that are accepted. -/
  | count
  /-- A line for each word, which it may name. -/
  | verdicts (showWord : Bool)
  deriving DecidableEq

namespace Display

/-- What a request shows of words; they are named where there are several. -/
def ofWords (countOnly : Bool) (words : List String) : Display :=
  if countOnly then .count else .verdicts (1 < words.length)

/-- The lines that are shown as soon as a word is judged. -/
def verdict (display : Display) (j : Judgement) : List String :=
  match display with
  | .count => []
  | .verdicts showWord => [j.line showWord]

/-- The lines that are shown when all words are judged. -/
def total (display : Display) (accepted : Int32) : List String :=
  match display with
  | .count => [toString accepted]
  | .verdicts _ => []

end Display

/-- How far a session has come in judging words. -/
structure Progress where
  accepted : Int32
  disagreements : Int32
  shown : Array String
  complaints : Array String

/-- How far a session had come when it was broken off, and why it was. -/
structure Interruption where
  progress : Progress
  message : String

/-- The wording of a count that is too large. -/
def overflowMessage : String := "attempt to add with overflow"

/-- A number with one more counted where `counts` says so; the largest number has no next. -/
def tally (counts : Bool) (n : Int32) : Except String Int32 :=
  if counts then
    if n = Int32.maxValue then .error overflowMessage else .ok (n + 1)
  else .ok n

namespace Progress

/-- No word is judged yet. -/
def start : Progress := ⟨0, 0, #[], #[]⟩

/-- Judges the next word. A disagreement is complained of before it is counted, and a word is
counted before its verdict is shown. -/
def judge (m : Matcher) (mode : Mode) (display : Display) (p : Progress) (word : String) :
    Except Interruption Progress := do
  let j ← (Judgement.ofWord m mode word).mapError fun fault => ⟨p, fault.message⟩
  let p := { p with complaints := p.complaints ++ j.complaint }
  let disagreements ← (tally (!j.dissent.isEmpty) p.disagreements).mapError (⟨p, ·⟩)
  let p := { p with disagreements }
  let accepted ← (tally j.accepted p.accepted).mapError (⟨p, ·⟩)
  pure { p with accepted, shown := p.shown ++ display.verdict j }

end Progress

end PatternAutomata.CommandLine
