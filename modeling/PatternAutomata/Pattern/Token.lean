/-!
# The tokens of a pattern

A pattern is text in which `|`, `*`, `(` and `)` are reserved and every other character
stands for itself. Concatenation has no spelling in a pattern: it exists only as a
token, shown as `.`, so a written full stop stays a literal.
-/

namespace PatternAutomata

/-- The operators that join sub-expressions. -/
inductive Operator
  /-- Either of the two operands before it. -/
  | union
  /-- The first of the two operands before it, then the second. -/
  | concat
  /-- Any number of repetitions of the operand before it. -/
  | star
  deriving DecidableEq

namespace Operator

/-- Binding power; an operator of higher precedence binds tighter. -/
def precedence : Operator → Nat
  | .union => 0
  | .concat => 1
  | .star => 2

/-- The character that shows an operator. -/
def toChar : Operator → Char
  | .union => '|'
  | .concat => '.'
  | .star => '*'

end Operator

/-- A lexical unit of an expression. -/
inductive Token
  /-- Exactly one character of the input, which may be a reserved one. -/
  | literal (c : Char)
  | operator (o : Operator)
  /-- Opens a group. -/
  | lparen
  /-- Closes the innermost open group. -/
  | rparen
  deriving DecidableEq

namespace Token

/-- The token that a character of a pattern spells. -/
def ofChar : Char → Token
  | '|' => .operator .union
  | '*' => .operator .star
  | '(' => .lparen
  | ')' => .rparen
  | c => .literal c

/-- The character that shows a token. -/
def toChar : Token → Char
  | .literal c => c
  | .operator o => o.toChar
  | .lparen => '('
  | .rparen => ')'

/-- A token spelled by a character is shown by the same character. -/
@[simp] theorem toChar_ofChar (c : Char) : (ofChar c).toChar = c := by
  unfold ofChar
  split <;> rfl

end Token

/-- The tokens of a pattern, one for each character. -/
def tokenize (pattern : String) : List Token := pattern.toList.map Token.ofChar

/-- The text that shows a sequence of tokens. -/
def display (tokens : List Token) : String := String.ofList (tokens.map Token.toChar)

/-- The tokens of a pattern show the pattern itself. -/
theorem display_tokenize (pattern : String) : display (tokenize pattern) = pattern := by
  have hid : Token.toChar ∘ Token.ofChar = id := funext Token.toChar_ofChar
  rw [display, tokenize, List.map_map, hid, List.map_id, String.ofList_toList]

end PatternAutomata
