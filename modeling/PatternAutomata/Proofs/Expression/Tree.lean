import Mathlib.Computability.Language
import PatternAutomata.Pattern.Error

/-!
# Expression trees

A tree says which operands an operator joins, so it has a language. Its postfix form
lists every operator after its operands, and reading tokens in that order with a stack
of trees gives the tree back. Reading fails exactly where an operator finds too few
trees, or where a parenthesis is met.
-/

namespace PatternAutomata

/-- An expression whose operators have their operands. -/
inductive Expr
  | literal (c : Char)
  | union (left right : Expr)
  | concat (left right : Expr)
  | star (inner : Expr)
  deriving DecidableEq

namespace Expr

/-- The words that an expression describes. -/
def language : Expr → Language Char
  | literal c => {[c]}
  | union left right => left.language + right.language
  | concat left right => left.language * right.language
  | star inner => KStar.kstar inner.language

/-- The tokens of an expression, every operator after its operands. -/
def postorder : Expr → List Token
  | literal c => [.literal c]
  | union left right => left.postorder ++ right.postorder ++ [.operator .union]
  | concat left right => left.postorder ++ right.postorder ++ [.operator .concat]
  | star inner => inner.postorder ++ [.operator .star]

/-- Joins the trees on top of a stack, the most recent one being the right operand. -/
def join : Operator → List Expr → Except PatternError (List Expr)
  | .star, inner :: trees => .ok (star inner :: trees)
  | .union, right :: left :: trees => .ok (union left right :: trees)
  | .concat, right :: left :: trees => .ok (concat left right :: trees)
  | o, _ => .error (.missingOperand o)

/-- Takes up the token at a position. -/
def take (trees : List Expr) (position : Nat) : Token → Except PatternError (List Expr)
  | .literal c => .ok (literal c :: trees)
  | .operator o => join o trees
  | .lparen => .error .unbalancedOpen
  | .rparen => .error (.unbalancedClose position)

/-- Takes up all tokens from a position on. -/
def takeAll (trees : List Expr) (position : Nat) : List Token → Except PatternError (List Expr)
  | [] => .ok trees
  | t :: rest =>
    match take trees position t with
    | .error e => .error e
    | .ok trees => takeAll trees (position + 1) rest

/-- Tokens are taken up when the first one is, and then the others are. -/
theorem exists_of_takeAll_cons {trees trees' : List Expr} {position : Nat} {t : Token}
    {ts : List Token} (h : takeAll trees position (t :: ts) = .ok trees') :
    ∃ next, take trees position t = .ok next ∧ takeAll next (position + 1) ts = .ok trees' := by
  rw [takeAll] at h
  cases ht : take trees position t with
  | error e =>
    rw [ht] at h
    cases h
  | ok next =>
    rw [ht] at h
    exact ⟨next, rfl, h⟩

/-- Tokens one after another are taken up one after another. -/
theorem takeAll_append {trees trees' : List Expr} {position : Nat} {ts : List Token}
    (h : takeAll trees position ts = .ok trees') (rest : List Token) :
    takeAll trees position (ts ++ rest) = takeAll trees' (position + ts.length) rest := by
  induction ts generalizing trees position with
  | nil =>
    cases h
    rfl
  | cons t ts ih =>
    obtain ⟨next, ht, hts⟩ := exists_of_takeAll_cons h
    rw [List.cons_append, takeAll, List.length_cons, ht,
      show position + (ts.length + 1) = position + 1 + ts.length by omega]
    exact ih hts

/-- Where tokens are not all taken up, none behind them is. -/
theorem takeAll_append_error {trees : List Expr} {position : Nat} {ts : List Token}
    {e : PatternError} (h : takeAll trees position ts = .error e) (rest : List Token) :
    takeAll trees position (ts ++ rest) = .error e := by
  induction ts generalizing trees position with
  | nil => cases h
  | cons t ts ih =>
    rw [takeAll] at h
    rw [List.cons_append, takeAll]
    cases ht : take trees position t with
    | error e' => rwa [ht] at h
    | ok next =>
      rw [ht] at h
      exact ih h

/-- Taking up the postfix form of an expression puts the expression on the stack. -/
theorem takeAll_postorder (e : Expr) (trees : List Expr) (position : Nat) :
    takeAll trees position e.postorder = .ok (e :: trees) := by
  induction e generalizing trees position with
  | literal c => rfl
  | union left right ihl ihr =>
    rw [postorder, List.append_assoc, takeAll_append (ihl _ _), takeAll_append (ihr _ _)]
    rfl
  | concat left right ihl ihr =>
    rw [postorder, List.append_assoc, takeAll_append (ihl _ _), takeAll_append (ihr _ _)]
    rfl
  | star inner ih =>
    rw [postorder, takeAll_append (ih _ _)]
    rfl

end Expr

end PatternAutomata
