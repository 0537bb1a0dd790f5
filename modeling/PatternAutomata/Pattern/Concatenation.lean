import PatternAutomata.Pattern.Token

/-!
# Explicit concatenation

Two neighbouring tokens of a pattern are joined by a concatenation exactly when the
first can end an operand and the second can begin one. The rule looks at one token and
the token after it, so it is a single pass over the pattern.
-/

namespace PatternAutomata

/-- A token after which an operand may be complete. -/
def Token.endsOperand : Token → Bool
  | .lparen | .operator .union => false
  | _ => true

/-- A token with which an operand may begin; a written concatenation counts as one. -/
def Token.beginsOperand : Token → Bool
  | .operator .star | .operator .union | .rparen => false
  | _ => true

/-- Makes every concatenation of neighbouring operands explicit. -/
def insertConcat : List Token → List Token
  | [] => []
  | [t] => [t]
  | t :: u :: rest =>
    if t.endsOperand && u.beginsOperand then
      t :: .operator .concat :: insertConcat (u :: rest)
    else t :: insertConcat (u :: rest)

/-- The tokens of a pattern with its concatenations made explicit. -/
def infixForm (pattern : String) : List Token := insertConcat (tokenize pattern)

end PatternAutomata
