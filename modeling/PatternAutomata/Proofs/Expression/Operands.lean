import PatternAutomata.Proofs.Expression.Tree

/-!
# Counting operands

A literal is an operand of its own, and an operator between two operands makes one of
them. So the number of trees that tokens leave on a stack does not depend on the order of
the tokens, and only the operators can find the stack too short.
-/

namespace PatternAutomata

/-- The change in the number of operands at a token. -/
def Token.weight : Token → Int
  | .literal _ => 1
  | .operator .union => -1
  | .operator .concat => -1
  | .operator .star => 0
  | .lparen => 0
  | .rparen => 0

/-- The change in the number of operands at all tokens. -/
def totalWeight : List Token → Int
  | [] => 0
  | t :: ts => t.weight + totalWeight ts

/-- The order of tokens does not matter for their weight. -/
theorem totalWeight_of_perm {ts ts' : List Token} (h : ts.Perm ts') :
    totalWeight ts = totalWeight ts' := by
  induction h with
  | nil => rfl
  | cons t _ ih => rw [totalWeight, totalWeight, ih]
  | swap t u ts =>
    simp only [totalWeight]
    omega
  | trans _ _ ih ih' => exact ih.trans ih'

namespace Expr

/-- An operator that finds its operands leaves a tree, and takes away as many as it weighs. -/
theorem length_of_join {o : Operator} {trees trees' : List Expr} (h : join o trees = .ok trees') :
    trees' ≠ [] ∧ (trees'.length : Int) = trees.length + (Token.operator o).weight := by
  revert h
  fun_cases join o trees with
  | case1 inner trees | case2 right left trees | case3 right left trees =>
    rintro ⟨⟩
    exact ⟨List.cons_ne_nil _ _, by simp only [List.length_cons, Token.weight]; omega⟩
  | case4 => rintro ⟨⟩

/-- An operator fails only for want of operands. -/
theorem error_of_join {o : Operator} {trees : List Expr} {e : PatternError}
    (h : join o trees = .error e) : e = .missingOperand o := by
  revert h
  fun_cases join o trees with
  | case1 | case2 | case3 => rintro ⟨⟩
  | case4 => rintro ⟨⟩; rfl

/-- A token that is taken up leaves a tree, and changes their number by its weight. -/
theorem length_of_take {t : Token} {trees trees' : List Expr} {position : Nat}
    (h : take trees position t = .ok trees') :
    trees' ≠ [] ∧ (trees'.length : Int) = trees.length + t.weight := by
  cases t with
  | literal c =>
    cases h
    exact ⟨List.cons_ne_nil _ _, by simp [Token.weight]⟩
  | operator o => exact length_of_join h
  | lparen | rparen => cases h

/-- The number of trees that tokens leave on the stack. -/
theorem length_of_takeAll {ts : List Token} {trees trees' : List Expr} {position : Nat}
    (h : takeAll trees position ts = .ok trees') :
    (trees'.length : Int) = trees.length + totalWeight ts := by
  induction ts generalizing trees position with
  | nil =>
    cases h
    simp [totalWeight]
  | cons t ts ih =>
    obtain ⟨next, ht, hts⟩ := exists_of_takeAll_cons h
    have hnext := (length_of_take ht).2
    have hrest := ih hts
    rw [totalWeight]
    omega

/-- Tokens that are all taken up leave a tree. -/
theorem ne_nil_of_takeAll {ts : List Token} {trees trees' : List Expr} {position : Nat}
    (h : takeAll trees position ts = .ok trees') (hne : trees ≠ [] ∨ ts ≠ []) : trees' ≠ [] := by
  induction ts generalizing trees position with
  | nil =>
    cases h
    exact hne.resolve_right (absurd rfl)
  | cons t ts ih =>
    obtain ⟨next, ht, hts⟩ := exists_of_takeAll_cons h
    exact ih hts (Or.inl (length_of_take ht).1)

/-- Where no token is a parenthesis, an operator is missing an operand or all tokens are
taken up. -/
theorem error_of_takeAll {ts : List Token} {trees : List Expr} {position : Nat} {e : PatternError}
    (h : takeAll trees position ts = .error e) (hts : ∀ t ∈ ts, t ≠ .lparen ∧ t ≠ .rparen) :
    ∃ o, e = .missingOperand o := by
  induction ts generalizing trees position with
  | nil => cases h
  | cons t ts ih =>
    rw [List.forall_mem_cons] at hts
    rw [takeAll] at h
    cases ht : take trees position t with
    | error e' =>
      rw [ht] at h
      cases h
      cases t with
      | literal => cases ht
      | operator o => exact ⟨o, error_of_join ht⟩
      | lparen => exact absurd rfl hts.1.1
      | rparen => exact absurd rfl hts.1.2
    | ok next =>
      rw [ht] at h
      exact ih h hts.2

end Expr

end PatternAutomata
