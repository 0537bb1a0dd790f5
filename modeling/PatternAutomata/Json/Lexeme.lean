import PatternAutomata.Json.Numeral
import PatternAutomata.Json.StringBody

/-!
# Lexical units of JSON

A text is cut into brackets, commas, colons and scalar values. Nothing that follows a
unit changes what it is, and where a text is damaged beyond passing over, the units end.
-/

namespace PatternAutomata.Json

/-- A lexical unit. -/
inductive Lexeme
  | openArray
  | closeArray
  | openObject
  | closeObject
  | comma
  | colon
  | null
  | bool (b : Bool)
  | number (n : Numeral)
  | text (s : String)
  /-- What begins as a string and cannot be read as one. -/
  | brokenText (e : ReadError)
  /-- Anything else that cannot be read. -/
  | damaged (d : Damage)
  deriving DecidableEq

namespace Lexeme

/-- The character separates units. -/
def isBlank (c : Char) : Bool := c = ' ' || c = '\t' || c = '\n' || c = '\r'

/-- Reads the rest of a word that stands for a value. -/
def takeWord (meaning : Lexeme) : List Char → List Char → Lexeme × List Char
  | [], rest => (meaning, rest)
  | _ :: _, [] => (.damaged (.fatal .truncated), [])
  | w :: word, c :: rest =>
    if w = c then takeWord meaning word rest else (.damaged (.fatal .malformed), [])

/-- Reads a string after its opening quote. -/
def takeText (rest : List Char) : Lexeme × List Char :=
  match StringBody.read rest with
  | .ok (cs, after) => (.text (String.ofList cs), after)
  | .error e => (.brokenText e, [])

/-- The unit of a number, which must lie in the range of double precision. -/
def ofNumeral (n : Numeral) : Lexeme :=
  if n.toDecimal.inRange then .number n else .damaged (.passable .malformed)

/-- Reads a number. -/
def takeNumber (cs : List Char) : Lexeme × List Char :=
  match Numeral.take cs with
  | .ok (n, rest) => (ofNumeral n, rest)
  | .error d => (.damaged d, [])

/-- Reads the unit that begins with `c`, which is not blank. -/
def take (c : Char) (rest : List Char) : Lexeme × List Char :=
  match c with
  | '[' => (.openArray, rest)
  | ']' => (.closeArray, rest)
  | '\x7b' => (.openObject, rest)
  | '\x7d' => (.closeObject, rest)
  | ',' => (.comma, rest)
  | ':' => (.colon, rest)
  | '"' => takeText rest
  | 'n' => takeWord .null ['u', 'l', 'l'] rest
  | 't' => takeWord (.bool true) ['r', 'u', 'e'] rest
  | 'f' => takeWord (.bool false) ['a', 'l', 's', 'e'] rest
  | c =>
    if c = '-' || c.isDigit then takeNumber (c :: rest) else (.damaged (.fatal .malformed), [])

/-- A word leaves no more than it was read from. -/
theorem length_takeWord_le (meaning : Lexeme) (word rest : List Char) :
    (takeWord meaning word rest).2.length ≤ rest.length := by
  induction word generalizing rest with
  | nil => exact Nat.le_refl _
  | cons w word ih =>
    cases rest with
    | nil => exact Nat.le_refl _
    | cons c rest =>
      simp only [takeWord]
      split
      · exact Nat.le_succ_of_le (ih rest)
      · exact Nat.zero_le _

/-- A string leaves no more than it was read from. -/
theorem length_takeText_le (rest : List Char) : (takeText rest).2.length ≤ rest.length := by
  unfold takeText
  split
  · rename_i h
    exact StringBody.length_le_of_read h
  · exact Nat.zero_le _

/-- A number leaves less than it was read from. -/
theorem length_takeNumber_le (c : Char) (rest : List Char) :
    (takeNumber (c :: rest)).2.length ≤ rest.length := by
  unfold takeNumber
  split
  · rename_i h
    exact Nat.le_of_lt_succ (Numeral.length_lt_of_take h)
  · exact Nat.zero_le _

/-- Every unit takes at least its first character. -/
theorem length_take_le (c : Char) (rest : List Char) : (take c rest).2.length ≤ rest.length := by
  unfold take
  split
  all_goals try exact Nat.le_refl _
  · exact length_takeText_le rest
  · exact length_takeWord_le _ _ rest
  · exact length_takeWord_le _ _ rest
  · exact length_takeWord_le _ _ rest
  · split
    · exact length_takeNumber_le _ rest
    · exact Nat.zero_le _

/-- The units of a text. -/
def ofText : List Char → List Lexeme
  | [] => []
  | c :: rest =>
    if isBlank c then ofText rest
    else
      have := length_take_le c rest
      (take c rest).1 :: ofText (take c rest).2
termination_by cs => cs.length
decreasing_by
  · exact Nat.lt_succ_self _
  · exact Nat.lt_succ_of_le this

end Lexeme

end PatternAutomata.Json
