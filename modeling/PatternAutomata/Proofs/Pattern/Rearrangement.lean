import PatternAutomata.Pattern.Postfix
import PatternAutomata.Proofs.Pattern.Balance

/-!
# What rearranging keeps

On any tokens whatever, the stack holds as many groups as are open, and every operator
is either written or held. So rearranging fails exactly where the parentheses do, and
otherwise it permutes the tokens other than parentheses.
-/

namespace PatternAutomata

/-- A token that is kept in postfix order. -/
def Token.isKept : Token → Bool
  | .lparen | .rparen => false
  | _ => true

/-- The tokens that are kept in postfix order. -/
def keptTokens (ts : List Token) : List Token := ts.filter Token.isKept

/-- No kept token is a parenthesis. -/
theorem ne_paren_of_mem_keptTokens {ts : List Token} {t : Token} (h : t ∈ keptTokens ts) :
    t ≠ .lparen ∧ t ≠ .rparen := by
  have hkept : t.isKept = true := (List.mem_filter.mp h).2
  constructor <;> rintro rfl <;> cases hkept

namespace Pending

/-- The operators on a stack as tokens, the most recent first. -/
def heldTokens : List Pending → List Token
  | [] => []
  | .group :: rest => heldTokens rest
  | .operator o :: rest => .operator o :: heldTokens rest

/-- The number of open groups. -/
def depth (stack : List Pending) : Nat := stack.count .group

@[simp] theorem depth_group (stack : List Pending) : depth (.group :: stack) = depth stack + 1 := by
  simp [depth]

@[simp] theorem depth_operator (o : Operator) (stack : List Pending) :
    depth (.operator o :: stack) = depth stack := by
  simp [depth]

/-- Releasing operators splits those on the stack and leaves the groups. -/
theorem release_spec (o : Operator) (stack : List Pending) :
    (release o stack).1.map .operator ++ heldTokens (release o stack).2 = heldTokens stack ∧
      depth (release o stack).2 = depth stack := by
  induction stack with
  | nil => exact ⟨rfl, rfl⟩
  | cons p rest ih =>
    cases p with
    | group => exact ⟨rfl, rfl⟩
    | operator p =>
      rw [release]
      split
      · exact ⟨rfl, rfl⟩
      · simp [heldTokens, ih]

/-- Closing a group fails only where none is open; it splits the operators on the stack and
takes one group away. -/
theorem closeGroup_spec (stack : List Pending) :
    (closeGroup stack = none ∧ depth stack = 0) ∨
      ∃ released kept, closeGroup stack = some (released, kept) ∧
        released.map .operator ++ heldTokens kept = heldTokens stack ∧
        depth stack = depth kept + 1 := by
  induction stack with
  | nil => exact Or.inl ⟨rfl, rfl⟩
  | cons p rest ih =>
    cases p with
    | group => exact Or.inr ⟨[], rest, rfl, rfl, depth_group rest⟩
    | operator p =>
      rcases ih with ⟨hclose, hdepth⟩ | ⟨released, kept, hclose, hheld, hdepth⟩
      · exact Or.inl ⟨by rw [closeGroup, hclose]; rfl, by simpa using hdepth⟩
      · refine Or.inr ⟨p :: released, kept, by rw [closeGroup, hclose]; rfl, ?_, ?_⟩
        · simp [heldTokens, hheld]
        · simpa using hdepth

/-- A stack is drained where no group is open. -/
theorem drain_spec (stack : List Pending) :
    (∃ n, drain stack = none ∧ depth stack = n + 1) ∨
      ∃ released, drain stack = some released ∧ released.map .operator = heldTokens stack ∧
        depth stack = 0 := by
  induction stack with
  | nil => exact Or.inr ⟨[], rfl, rfl, rfl⟩
  | cons p rest ih =>
    cases p with
    | group => exact Or.inl ⟨depth rest, rfl, depth_group rest⟩
    | operator p =>
      rcases ih with ⟨n, hdrain, hdepth⟩ | ⟨released, hdrain, hheld, hdepth⟩
      · exact Or.inl ⟨n, by rw [drain, hdrain]; rfl, by simpa using hdepth⟩
      · refine Or.inr ⟨p :: released, by rw [drain, hdrain]; rfl, ?_, by simpa using hdepth⟩
        simp [heldTokens, hheld]

end Pending

open Pending

/-- What comes of tokens, the first of them at a position, that are rearranged with a number
of groups open. The tokens `kept` are all that can be written. -/
inductive RearrangeOutcome (position depth : Nat) (ts kept : List Token) :
    Except PatternError (List Token) → Prop
  | overclosed {k : Nat} (h : remaining depth ts = none) (hk : IsLeast (surplus depth ts) k) :
    RearrangeOutcome position depth ts kept (.error (.unbalancedClose (position + k)))
  | unclosed {n : Nat} (h : remaining depth ts = some (n + 1)) :
    RearrangeOutcome position depth ts kept (.error .unbalancedOpen)
  | written {out : List Token} (h : remaining depth ts = some 0) (hperm : out.Perm kept) :
    RearrangeOutcome position depth ts kept (.ok out)

/-- A token that leads on, and what is written at it, go before what comes of the rest. -/
theorem RearrangeOutcome.cons {position depth depth' : Nat} {t : Token} {ts kept kept' : List Token}
    {result : Except PatternError (List Token)}
    (h : RearrangeOutcome (position + 1) depth' ts kept' result) (ht : t.deepen depth = some depth')
    {front : List Token} (hkept : (front ++ kept').Perm kept) :
    RearrangeOutcome position depth (t :: ts) kept ((front ++ ·) <$> result) := by
  have hrem : remaining depth (t :: ts) = remaining depth' ts := by
    rw [remaining, ht, Option.bind_some]
  cases h with
  | @overclosed k hnone hk =>
    rw [show position + 1 + k = position + (k + 1) by omega]
    exact .overclosed (hrem.trans hnone) (isLeast_surplus_cons ht hk)
  | unclosed hsome => exact .unclosed (hrem.trans hsome)
  | written hsome hperm => exact .written (hrem.trans hsome) ((hperm.append_left _).trans hkept)

/-- Rearranging fails exactly where the parentheses do, and otherwise writes a permutation of
the tokens other than parentheses and of the operators on the stack. -/
theorem rearrange_outcome (position : Nat) (stack : List Pending) (ts : List Token) :
    RearrangeOutcome position (depth stack) ts (keptTokens ts ++ heldTokens stack)
      (rearrange position stack ts) := by
  induction ts generalizing position stack with
  | nil =>
    rw [rearrange]
    rcases drain_spec stack with ⟨n, hdrain, hdepth⟩ | ⟨released, hdrain, hheld, hdepth⟩
    · rw [hdrain, hdepth]
      exact .unclosed rfl
    · rw [hdrain, hdepth, ← hheld]
      simp only [prependOperators, List.append_nil]
      exact .written rfl (List.Perm.refl _)
  | cons t ts ih =>
    cases t with
    | literal c =>
      have ht : (Token.literal c).deepen (depth stack) = some (depth stack) := rfl
      have hkept : ([Token.literal c] ++ (keptTokens ts ++ heldTokens stack)).Perm
          (keptTokens (.literal c :: ts) ++ heldTokens stack) := List.Perm.refl _
      exact (ih (position + 1) stack).cons ht hkept
    | operator o =>
      let released : List Token := (release o stack).1.map .operator
      let kept := heldTokens (release o stack).2
      obtain ⟨hheld, hdepth⟩ := release_spec o stack
      have ht : (Token.operator o).deepen (depth stack) = some (depth stack) := rfl
      have hkept : (released ++ (keptTokens ts ++ .operator o :: kept)).Perm
          (.operator o :: (keptTokens ts ++ heldTokens stack)) := by
        have hfront : (released ++ (keptTokens ts ++ .operator o :: kept)).Perm
            (keptTokens ts ++ (released ++ .operator o :: kept)) :=
          List.perm_append_comm_assoc _ _ _
        have hback : (released ++ .operator o :: kept).Perm (.operator o :: heldTokens stack) :=
          hheld ▸ List.perm_middle
        exact (hfront.trans (hback.append_left _)).trans List.perm_middle
      have h := ih (position + 1) (.operator o :: (release o stack).2)
      rw [depth_operator, hdepth] at h
      exact h.cons ht hkept
    | lparen =>
      have ht : Token.lparen.deepen (depth stack) = some (depth stack + 1) := rfl
      have hkept : ([] ++ (keptTokens ts ++ heldTokens stack)).Perm
          (keptTokens (.lparen :: ts) ++ heldTokens stack) := List.Perm.refl _
      have h := ih (position + 1) (.group :: stack)
      rw [depth_group] at h
      have hcons := h.cons ht hkept
      rwa [show (fun out : List Token => [] ++ out) = id from rfl, id_map] at hcons
    | rparen =>
      rw [rearrange]
      rcases closeGroup_spec stack with ⟨hclose, hdepth⟩ | ⟨released, kept, hclose, hheld, hdepth⟩
      · rw [hclose, hdepth]
        exact .overclosed rfl (isLeast_surplus_zero rfl ts)
      · have ht : Token.rparen.deepen (depth stack) = some (depth kept) := by
          simp [Token.deepen, hdepth]
        have hkept : (released.map Token.operator ++ (keptTokens ts ++ heldTokens kept)).Perm
            (keptTokens (.rparen :: ts) ++ heldTokens stack) := by
          rw [← hheld]
          exact List.perm_append_comm_assoc _ _ _
        rw [hclose]
        exact (ih (position + 1) kept).cons ht hkept

end PatternAutomata
