import PatternAutomata.Pattern.Token

/-!
# Reasons to reject a pattern

Only the structure of a pattern can be wrong: its parentheses, or the number of
operands that its operators find.
-/

namespace PatternAutomata

/-- Why a sequence of tokens is not an expression. -/
inductive PatternError
  /-- Some group is never closed. -/
  | unbalancedOpen
  /-- The token at `position` closes a group that was never opened. -/
  | unbalancedClose (position : Nat)
  /-- An operator finds fewer operands than it takes. -/
  | missingOperand (operator : Operator)
  /-- Operands are left over that no operator joins. -/
  | danglingOperands (count : Nat)
  deriving DecidableEq

/-- The wording of a rejection. -/
def PatternError.message : PatternError → String
  | .unbalancedOpen => "unclosed `(` in pattern"
  | .unbalancedClose position => "unmatched `)` at token " ++ toString position
  | .missingOperand operator =>
    "operator `" ++ operator.toChar.toString ++ "` is missing an operand"
  | .danglingOperands count =>
    toString count ++ " sub-expressions are not joined by any operator"

end PatternAutomata
