/-!
# Lines of a text

A newline ends a line, and a carriage return right before it belongs to the end of the
line too. What follows the last newline is a line if it is not empty; a carriage return
at the very end of the text then belongs to that line.
-/

namespace PatternAutomata.Lines

/-- The lines of a text. -/
def cut : List Char → List (List Char)
  | [] => []
  | '\n' :: rest => [] :: cut rest
  | '\r' :: '\n' :: rest => [] :: cut rest
  | c :: rest =>
    match cut rest with
    | [] => [[c]]
    | line :: lines => (c :: line) :: lines

/-- The lines of a text. -/
def ofText (text : String) : List String := (cut text.toList).map String.ofList

/-- A line without the carriage returns at its end. -/
def trimReturns (line : String) : String :=
  String.ofList (line.toList.reverse.dropWhile (· = '\r')).reverse

end PatternAutomata.Lines
