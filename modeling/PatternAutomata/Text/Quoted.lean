import PatternAutomata.Text.Unmarked

/-!
# Text in quotes, for messages

A quoted text shows every character so that it can be told apart on a line: the quote
in use, the backslash and the common controls have short escapes, characters that leave
no mark of their own are written by number in braces, and all others stand as they are.
-/

namespace PatternAutomata.Quoted

/-- The digits of a number to base sixteen, in lower case and without leading zeros. -/
def hexDigits (n : Nat) : List Char := Nat.toDigits 16 n

/-- A character as it stands between quotes. -/
def escape (quote c : Char) : List Char :=
  if c = quote || c = '\\' then ['\\', c]
  else if c = '\t' then ['\\', 't']
  else if c = '\r' then ['\\', 'r']
  else if c = '\n' then ['\\', 'n']
  else if c.toNat = 0 then ['\\', '0']
  else if Unmarked.contains c.toNat then "\\u\x7b".toList ++ hexDigits c.toNat ++ ['\x7d']
  else [c]

/-- Characters in quotes. -/
def enclose (quote : Char) (cs : List Char) : String :=
  String.ofList (quote :: (cs.flatMap (escape quote) ++ [quote]))

/-- One character, in single quotes. -/
def character (c : Char) : String := enclose '\'' [c]

/-- A text, in double quotes. -/
def text (s : String) : String := enclose '"' s.toList

end PatternAutomata.Quoted
