import PatternAutomata.Pattern.Concatenation
import PatternAutomata.Pattern.Error

/-!
# Postfix order by operator precedence

One pass over the tokens writes operands at once and holds operators and open groups
back on a stack. An operator releases those before it that bind at least as tightly,
so operators of equal precedence associate to the left; a closing parenthesis releases
everything down to its opening one. Only the parentheses can be found wrong here: a
misplaced operator passes through and is met when the operands are counted.
-/

namespace PatternAutomata

/-- What waits on the stack for its right-hand end. -/
inductive Pending
  /-- An open group. -/
  | group
  | operator (o : Operator)
  deriving DecidableEq

namespace Pending

/-- The operators that `o` releases, most recent first, and the stack that stays. -/
def release (o : Operator) : List Pending → List Operator × List Pending
  | [] => ([], [])
  | .group :: rest => ([], .group :: rest)
  | .operator p :: rest =>
    if p.precedence < o.precedence then ([], .operator p :: rest)
    else
      let (released, kept) := release o rest
      (p :: released, kept)

/-- The operators of the innermost open group, most recent first, and the stack below
that group; nothing when no group is open. -/
def closeGroup : List Pending → Option (List Operator × List Pending)
  | [] => none
  | .group :: rest => some ([], rest)
  | .operator p :: rest => (closeGroup rest).map fun (released, kept) => (p :: released, kept)

/-- All operators of a stack, most recent first; nothing when a group is still open. -/
def drain : List Pending → Option (List Operator)
  | [] => some []
  | .group :: _ => none
  | .operator p :: rest => (drain rest).map (p :: ·)

end Pending

/-- Puts operators in front of the tokens that follow them. -/
def prependOperators (os : List Operator) (tokens : List Token) : List Token :=
  os.map Token.operator ++ tokens

/-- The postfix form of the tokens from `position` on, below what is held on the stack. -/
def rearrange (position : Nat) (stack : List Pending) :
    List Token → Except PatternError (List Token)
  | [] =>
    match Pending.drain stack with
    | none => .error .unbalancedOpen
    | some released => .ok (prependOperators released [])
  | .literal c :: rest => (Token.literal c :: ·) <$> rearrange (position + 1) stack rest
  | .operator o :: rest =>
    let (released, kept) := Pending.release o stack
    prependOperators released <$> rearrange (position + 1) (.operator o :: kept) rest
  | .lparen :: rest => rearrange (position + 1) (.group :: stack) rest
  | .rparen :: rest =>
    match Pending.closeGroup stack with
    | none => .error (.unbalancedClose position)
    | some (released, kept) =>
      prependOperators released <$> rearrange (position + 1) kept rest

/-- The postfix form of an expression whose concatenations are explicit. -/
def toPostfix (tokens : List Token) : Except PatternError (List Token) := rearrange 0 [] tokens

/-- The postfix form of a pattern. -/
def postfixForm (pattern : String) : Except PatternError (List Token) :=
  toPostfix (infixForm pattern)

end PatternAutomata
