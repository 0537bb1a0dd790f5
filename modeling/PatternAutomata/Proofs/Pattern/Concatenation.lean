import Mathlib.Data.List.Basic
import PatternAutomata.Pattern.Concatenation

/-!
# Where concatenations are made explicit

Whether a concatenation stands between two tokens depends on these two alone. So
concatenations can be made explicit in parts of a pattern apart, and then where the parts
meet.
-/

namespace PatternAutomata

/-- What stands between two neighbouring tokens once concatenations are explicit. -/
def joint (t u : Token) : List Token :=
  if t.endsOperand && u.beginsOperand then [.operator .concat] else []

/-- Nothing stands before a token that begins no operand. -/
theorem joint_of_not_begins (t : Token) {u : Token} (h : u.beginsOperand = false) :
    joint t u = [] := by
  rw [joint, h, Bool.and_false]
  rfl

/-- Concatenations are made explicit in two sequences apart, and where they meet. -/
theorem insertConcat_append {xs ys : List Token} {t u : Token} (ht : xs.getLast? = some t)
    (hu : ys.head? = some u) :
    insertConcat (xs ++ ys) = insertConcat xs ++ (joint t u ++ insertConcat ys) := by
  obtain ⟨rest, rfl⟩ : ∃ rest, ys = u :: rest := List.head?_eq_some_iff.mp hu
  induction xs with
  | nil => cases ht
  | cons x xs ih =>
    cases xs with
    | nil =>
      have hx : x = t := Option.some.inj ht
      subst hx
      rw [List.singleton_append, insertConcat, joint, insertConcat]
      split <;> rfl
    | cons y xs =>
      rw [List.getLast?_cons_cons] at ht
      have h := ih ht
      rw [List.cons_append] at h
      rw [List.cons_append, List.cons_append, insertConcat, insertConcat, h]
      split <;> rfl

/-- Nothing stands after a token that ends no operand. -/
theorem insertConcat_cons_of_not_ends {t : Token} {ts : List Token} (h : t.endsOperand = false) :
    insertConcat (t :: ts) = t :: insertConcat ts := by
  cases ts with
  | nil => rfl
  | cons u rest =>
    rw [insertConcat, h, Bool.false_and]
    rfl

/-- Nothing stands before a last token that begins no operand. -/
theorem insertConcat_append_of_not_begins (ts : List Token) {u : Token}
    (h : u.beginsOperand = false) : insertConcat (ts ++ [u]) = insertConcat ts ++ [u] := by
  cases ht : ts.getLast? with
  | none =>
    rw [List.getLast?_eq_none_iff.mp ht]
    rfl
  | some t => rw [insertConcat_append ht rfl, joint_of_not_begins t h]; rfl

end PatternAutomata
