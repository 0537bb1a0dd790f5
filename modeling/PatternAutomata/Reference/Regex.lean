import PatternAutomata.Collection.SortedMap
import PatternAutomata.Collection.NatSet

/-!
# Regular expressions with anchors, and where they match

An expression is understood by the positions that it can lead to: from a set of
positions of a text, `ends` gives all positions at which a match that begins in the set
can end. Anchors keep only the first or the last position, and a repetition is followed
until no new position turns up, which takes no more rounds than there are positions.
-/

namespace PatternAutomata

/-- A regular expression over characters. -/
inductive Regex
  | empty
  | literal (c : Char)
  | startOfText
  | endOfText
  | group (inner : Regex)
  | star (inner : Regex)
  | seq (left right : Regex)
  | alt (left right : Regex)
  deriving DecidableEq

namespace Regex

/-- How deep groups, repetitions, sequences and choices are nested. A chain of sequences
or of choices counts once, however long it is. -/
def nesting : Regex → Nat
  | .empty | .literal _ | .startOfText | .endOfText => 0
  | .group inner => inner.nesting + 1
  | .star inner => inner.nesting + 1
  | .seq left right =>
    let tail := match right with
      | .seq _ _ => right.nesting - 1
      | _ => right.nesting
    max left.nesting tail + 1
  | .alt left right =>
    let tail := match right with
      | .alt _ _ => right.nesting - 1
      | _ => right.nesting
    max left.nesting tail + 1

/-- A text as it is searched: its length, and the positions of each of its characters. -/
structure Text where
  length : Nat
  occurrences : SortedMap Char NatSet

namespace Text

/-- Notes that `c` stands at `position`. -/
def note (occurrences : SortedMap Char NatSet) (c : Char) (position : Nat) :
    SortedMap Char NatSet :=
  occurrences.insert c (((occurrences.get? c).getD ∅).insert position)

/-- The positions of each character. -/
def occurrencesOf (text : List Char) : SortedMap Char NatSet :=
  text.zipIdx.foldl (fun occurrences (c, position) => note occurrences c position) ∅

/-- Prepares a text. -/
def ofList (text : List Char) : Text := ⟨text.length, occurrencesOf text⟩

/-- The positions at which `c` stands. -/
def positionsOf (text : Text) (c : Char) : NatSet := (text.occurrences.get? c).getD ∅

end Text

/-- Adds to `seen` what repeated steps from `frontier` lead to, for at most so many
rounds, stopping when a round finds nothing new. -/
def saturate (step : NatSet → NatSet) : Nat → NatSet → NatSet → NatSet
  | 0, seen, _ => seen
  | rounds + 1, seen, frontier =>
    let fresh := (step frontier).diff seen
    if fresh.isEmpty then seen else saturate step rounds (seen.union fresh) fresh

/-- All positions at which a match that begins in `starts` can end. -/
def ends (text : Text) : Regex → NatSet → NatSet
  | .empty, starts => starts
  | .literal c, starts => (starts.inter (text.positionsOf c)).shift
  | .startOfText, starts => starts.inter (.ofList [0])
  | .endOfText, starts => starts.inter (.ofList [text.length])
  | .group inner, starts => inner.ends text starts
  | .star inner, starts => saturate (inner.ends text) (text.length + 1) starts starts
  | .seq left right, starts => right.ends text (left.ends text starts)
  | .alt left right, starts => (left.ends text starts).union (right.ends text starts)

/-- The expression matches somewhere in the text. -/
def matchesIn (r : Regex) (text : List Char) : Bool :=
  !((r.ends (.ofList text) (.below (text.length + 1))).isEmpty)

end Regex

end PatternAutomata
