import PatternAutomata.Pattern.Token
import PatternAutomata.Reference.Regex

/-!
# The anchored reference expression of a pattern

A pattern is also written as a regular expression in the common notation: literals that
the notation reserves get a backslash, and the whole stands in a group between the
anchors of the text. The written expression is then read by the rules of that notation,
which are not those of patterns: neighbours are joined without an operator, nothing may
stand where an operand is missing, and parentheses are matched across the enclosing
group, so a pattern with stray parentheses may still give a well-formed expression.
-/

namespace PatternAutomata.Reference

/-- The characters that need a backslash to stand for themselves. -/
def reserved : List Char :=
  ['\\', '.', '+', '*', '?', '(', ')', '|', '[', ']', '\x7b', '\x7d', '^', '$', '#', '&', '-', '~']

/-- A token in the common notation. -/
def spell : Token → List Char
  | .literal c => if c ∈ reserved then ['\\', c] else [c]
  | t => [t.toChar]

/-- The anchored expression of a pattern, in the common notation. -/
def anchoredText (pattern : String) : String :=
  "^(?:" ++ String.ofList ((tokenize pattern).flatMap spell) ++ ")$"

/-- A lexical unit of the common notation. -/
inductive Symbol
  | literal (c : Char)
  | startOfText
  | endOfText
  | opening
  | closing
  | bar
  | star
  deriving DecidableEq

/-- The units of a written expression; nothing when it uses a part of the notation that
no pattern is written in. -/
def symbols? : List Char → Option (List Symbol)
  | [] => some []
  | '\\' :: c :: rest => (Symbol.literal c :: ·) <$> symbols? rest
  | '(' :: '?' :: ':' :: rest => (Symbol.opening :: ·) <$> symbols? rest
  | '(' :: rest => (Symbol.opening :: ·) <$> symbols? rest
  | ')' :: rest => (Symbol.closing :: ·) <$> symbols? rest
  | '|' :: rest => (Symbol.bar :: ·) <$> symbols? rest
  | '*' :: rest => (Symbol.star :: ·) <$> symbols? rest
  | '^' :: rest => (Symbol.startOfText :: ·) <$> symbols? rest
  | '$' :: rest => (Symbol.endOfText :: ·) <$> symbols? rest
  | c :: rest =>
    if c ∈ ['\\', '.', '+', '?', '[', '\x7b'] then none
    else (Symbol.literal c :: ·) <$> symbols? rest

/-- The sequence of several expressions. -/
def sequence : List Regex → Regex
  | [] => .empty
  | [r] => r
  | r :: rs => .seq r (sequence rs)

/-- The choice between several expressions. -/
def choice : List Regex → Regex
  | [] => .empty
  | [r] => r
  | r :: rs => .alt r (choice rs)

/-- A group that is being read: its finished alternatives and the items of the
unfinished one, both the most recent first. -/
structure Frame where
  alternatives : List Regex
  items : List Regex
  deriving DecidableEq

namespace Frame

/-- A group of which nothing has been read. -/
def start : Frame := ⟨[], []⟩

/-- Adds an item to the unfinished alternative. -/
def push (f : Frame) (r : Regex) : Frame := { f with items := r :: f.items }

/-- Finishes the unfinished alternative. -/
def nextAlternative (f : Frame) : Frame := ⟨sequence f.items.reverse :: f.alternatives, []⟩

/-- The expression of a group that has been read. -/
def toRegex (f : Frame) : Regex := choice f.nextAlternative.alternatives.reverse

end Frame

/-- Reads the units of an expression inside the innermost open group, the other open
groups waiting. -/
def readFrom (outer : List Frame) (current : Frame) : List Symbol → Option Regex
  | [] => if outer.isEmpty then some current.toRegex else none
  | .literal c :: rest => readFrom outer (current.push (.literal c)) rest
  | .startOfText :: rest => readFrom outer (current.push .startOfText) rest
  | .endOfText :: rest => readFrom outer (current.push .endOfText) rest
  | .opening :: rest => readFrom (current :: outer) .start rest
  | .bar :: rest => readFrom outer current.nextAlternative rest
  | .closing :: rest =>
    match outer with
    | [] => none
    | enclosing :: outer => readFrom outer (enclosing.push (.group current.toRegex)) rest
  | .star :: rest =>
    match current.items with
    | [] => none
    | r :: items => readFrom outer { current with items := .star r :: items } rest

/-- The deepest nesting that is accepted. -/
def maxNesting : Nat := 250

/-- The expression that a text spells, unless it is malformed or nested too deep. -/
def read? (text : String) : Option Regex := do
  let r ← readFrom [] .start (← symbols? text.toList)
  if r.nesting ≤ maxNesting then some r else none

/-- The reference expression of a pattern. -/
def ofPattern? (pattern : String) : Option Regex := read? (anchoredText pattern)

end PatternAutomata.Reference
