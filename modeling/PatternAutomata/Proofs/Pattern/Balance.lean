import Mathlib.Order.Bounds.Basic
import PatternAutomata.Pattern.Token

/-!
# Groups that are opened and closed

The number of open groups is all that the parentheses before a token come to. Going
through the tokens with this number finds a group that is closed and was never opened,
and it is the same thing as counting parentheses in the prefixes.
-/

namespace PatternAutomata

/-- The number of open groups after a token; nothing when it closes a group that was never
opened. -/
def Token.deepen (depth : Nat) : Token → Option Nat
  | .lparen => some (depth + 1)
  | .rparen => if depth = 0 then none else some (depth - 1)
  | _ => some depth

/-- The number of open groups after the last token; nothing when some token closes a group
that was never opened. -/
def remaining (depth : Nat) : List Token → Option Nat
  | [] => some depth
  | t :: ts => (t.deepen depth).bind (remaining · ts)

/-- The tokens close more groups than there are. -/
def Overclosed (depth : Nat) (ts : List Token) : Prop :=
  depth + ts.count .lparen < ts.count .rparen

/-- The positions of the tokens at which more groups have been closed than there are. -/
def surplus (depth : Nat) (ts : List Token) : Set Nat :=
  {i | ts[i]? = some .rparen ∧ Overclosed depth (ts.take (i + 1))}

variable {depth depth' : Nat} {t : Token} {ts : List Token}

/-- A token that leads to another depth stands for the difference. -/
theorem overclosed_cons (h : t.deepen depth = some depth') (ts : List Token) :
    Overclosed depth (t :: ts) ↔ Overclosed depth' ts := by
  cases t with
  | literal | operator =>
    cases h
    simp [Overclosed]
  | lparen =>
    cases h
    simp [Overclosed]
    omega
  | rparen =>
    rw [Token.deepen] at h
    split at h <;> cases h
    simp [Overclosed]
    omega

/-- A token that leads nowhere is a surplus. -/
theorem Token.deepen_eq_none_iff : t.deepen depth = none ↔ t = .rparen ∧ depth = 0 := by
  cases t <;> simp [Token.deepen]

/-- A prefix of the tokens closes too many groups exactly when some token leads nowhere. -/
theorem remaining_eq_none_iff :
    remaining depth ts = none ↔ ∃ k, Overclosed depth (ts.take k) := by
  induction ts generalizing depth with
  | nil => simp [remaining, Overclosed]
  | cons t ts ih =>
    rw [remaining]
    cases h : t.deepen depth with
    | none =>
      obtain ⟨rfl, rfl⟩ := Token.deepen_eq_none_iff.mp h
      exact iff_of_true rfl ⟨1, by simp [Overclosed]⟩
    | some depth' =>
      rw [Option.bind_some, ih]
      constructor
      · rintro ⟨k, hk⟩
        exact ⟨k + 1, (overclosed_cons h _).mpr hk⟩
      · rintro ⟨k, hk⟩
        cases k with
        | zero => simp [Overclosed] at hk
        | succ k => exact ⟨k, (overclosed_cons h _).mp hk⟩

/-- Groups are closed too often exactly where some prefix closes more than it opens. -/
theorem remaining_zero_eq_none_iff (ts : List Token) :
    remaining 0 ts = none ↔ ∃ k, (ts.take k).count .lparen < (ts.take k).count .rparen := by
  simp only [remaining_eq_none_iff, Overclosed, Nat.zero_add]

/-- Where some number of groups remains open, no prefix closes more than it opens. -/
theorem not_overclosed_of_remaining {n : Nat} (h : remaining 0 ts = some n) :
    ¬ ∃ k, (ts.take k).count .lparen < (ts.take k).count .rparen := by
  intro hover
  rw [(remaining_zero_eq_none_iff ts).mpr hover] at h
  cases h

/-- What remains open is what was opened and not closed. -/
theorem count_of_remaining {n : Nat} (h : remaining depth ts = some n) :
    depth + ts.count .lparen = ts.count .rparen + n := by
  induction ts generalizing depth with
  | nil =>
    cases h
    simp
  | cons t ts ih =>
    obtain ⟨depth', ht, hn⟩ := Option.bind_eq_some_iff.mp h
    have := ih hn
    cases t with
    | literal | operator =>
      cases ht
      simpa using this
    | lparen =>
      cases ht
      simp
      omega
    | rparen =>
      rw [Token.deepen] at ht
      split at ht <;> cases ht
      simp
      omega

/-- A token that leads on is no surplus, and the surplus tokens after it are the same. -/
theorem isLeast_surplus_cons (h : t.deepen depth = some depth') {k : Nat}
    (hk : IsLeast (surplus depth' ts) k) : IsLeast (surplus depth (t :: ts)) (k + 1) := by
  have hmem : ∀ i, i + 1 ∈ surplus depth (t :: ts) ↔ i ∈ surplus depth' ts := by
    intro i
    simp only [surplus, Set.mem_ofPred_eq, List.getElem?_cons_succ, List.take_succ_cons,
      overclosed_cons h]
  refine ⟨(hmem k).mpr hk.1, fun i hi => ?_⟩
  cases i with
  | zero =>
    have hnil : Overclosed depth' [] := (overclosed_cons h _).mp hi.2
    simp [Overclosed] at hnil
  | succ i => exact Nat.succ_le_succ (hk.2 ((hmem i).mp hi))

/-- A token that leads nowhere is the first surplus token. -/
theorem isLeast_surplus_zero (h : t.deepen depth = none) (ts : List Token) :
    IsLeast (surplus depth (t :: ts)) 0 := by
  obtain ⟨rfl, rfl⟩ := Token.deepen_eq_none_iff.mp h
  exact ⟨⟨rfl, by simp [Overclosed]⟩, fun i _ => Nat.zero_le i⟩

end PatternAutomata
