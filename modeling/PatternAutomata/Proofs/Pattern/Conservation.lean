import PatternAutomata.Collection.Outcome
import PatternAutomata.Proofs.Pattern.Rearrangement

/-!
# Tokens are conserved in postfix order

Any tokens can be put in postfix order, an expression or not. The parentheses alone decide
whether this succeeds, and if it does not, where it fails. If it does, nothing but
parentheses is lost, nothing is gained, and the literals, which are never held back, keep
their order.
-/

namespace PatternAutomata

/-- A token that stands for a character. -/
def Token.isLiteral : Token → Bool
  | .literal _ => true
  | _ => false

/-- The literals among tokens, in their order. -/
def literals (ts : List Token) : List Token := ts.filter Token.isLiteral

/-- Operators are no literals. -/
theorem literals_prependOperators (os : List Operator) (ts : List Token) :
    literals (prependOperators os ts) = literals ts := by
  have hnone : (os.map Token.operator).filter Token.isLiteral = [] := by
    rw [List.filter_eq_nil_iff]
    intro t ht
    obtain ⟨o, -, rfl⟩ := List.mem_map.mp ht
    exact Bool.false_ne_true
  rw [literals, prependOperators, List.filter_append, hnone, List.nil_append, literals]

/-- A token in front adds the same literals to tokens with the same literals. -/
theorem literals_cons_congr (t : Token) {ts us : List Token} (h : literals ts = literals us) :
    literals (t :: ts) = literals (t :: us) := by
  simp only [literals] at h
  simp only [literals, List.filter_cons, h]

/-- Concatenations that are made explicit are no literals. -/
theorem literals_insertConcat (ts : List Token) : literals (insertConcat ts) = literals ts := by
  fun_induction insertConcat ts with
  | case1 | case2 => rfl
  | case3 t u rest _ ih => exact literals_cons_congr t ih
  | case4 t u rest _ ih => exact literals_cons_congr t ih

/-- What is written holds the literals in the order in which they are met. -/
theorem literals_of_rearrange {position : Nat} {stack : List Pending} {ts out : List Token}
    (h : rearrange position stack ts = .ok out) : literals out = literals ts := by
  induction ts generalizing position stack out with
  | nil =>
    rw [rearrange] at h
    split at h
    case h_1 => cases h
    case h_2 released _ =>
      cases h
      exact literals_prependOperators released []
  | cons t ts ih =>
    cases t with
    | literal c =>
      obtain ⟨tail, htail, rfl⟩ := exists_of_map_eq_ok h
      exact congrArg (Token.literal c :: ·) (ih htail)
    | operator o =>
      obtain ⟨tail, htail, rfl⟩ := exists_of_map_eq_ok h
      exact (literals_prependOperators _ tail).trans (ih htail)
    | lparen => exact ih h
    | rparen =>
      rw [rearrange] at h
      split at h
      case h_1 => cases h
      case h_2 released kept _ =>
        obtain ⟨tail, htail, rfl⟩ := exists_of_map_eq_ok h
        exact (literals_prependOperators released tail).trans (ih htail)

/-- What comes of tokens that are put in postfix order: a failure exactly where the parentheses
fail, and else a permutation of the other tokens that keeps the order of the literals. -/
structure Conserves (ts : List Token) (outcome : Except PatternError (List Token)) : Prop where
  exists_unbalancedClose_iff : (∃ i, outcome = .error (.unbalancedClose i)) ↔
    ∃ k, (ts.take k).count .lparen < (ts.take k).count .rparen
  /-- The position is that of the first token that closes a group which was never opened. -/
  unbalancedClose_iff : ∀ i, outcome = .error (.unbalancedClose i) ↔
    IsLeast {i | ts[i]? = some .rparen ∧
      (ts.take (i + 1)).count .lparen < (ts.take (i + 1)).count .rparen} i
  unbalancedOpen_iff : outcome = .error .unbalancedOpen ↔
    (¬ ∃ k, (ts.take k).count .lparen < (ts.take k).count .rparen) ∧
      ts.count .rparen < ts.count .lparen
  ok_iff : (∃ out, outcome = .ok out) ↔
    (¬ ∃ k, (ts.take k).count .lparen < (ts.take k).count .rparen) ∧
      ¬ ts.count .rparen < ts.count .lparen
  ne_paren : ∀ out, outcome = .ok out → ∀ t ∈ out, t ≠ .lparen ∧ t ≠ .rparen
  perm : ∀ out, outcome = .ok out → out.Perm (keptTokens ts)
  literals_eq : ∀ out, outcome = .ok out → literals out = literals ts

/-- A surplus closing parenthesis closes more than the tokens up to it open. -/
theorem exists_overclosed_of_isLeast {ts : List Token} {i : Nat}
    (h : IsLeast {i | ts[i]? = some .rparen ∧
      (ts.take (i + 1)).count .lparen < (ts.take (i + 1)).count .rparen} i) :
    ∃ k, (ts.take k).count .lparen < (ts.take k).count .rparen := ⟨i + 1, h.1.2⟩

/-- An outcome conserves the tokens, where what is written keeps the order of the literals. -/
theorem RearrangeOutcome.conserves {ts : List Token} {outcome : Except PatternError (List Token)}
    (h : RearrangeOutcome 0 0 ts (keptTokens ts) outcome)
    (hliterals : ∀ out, outcome = .ok out → literals out = literals ts) :
    Conserves ts outcome := by
  cases h with
  | @overclosed k h hk =>
    have hover := (remaining_zero_eq_none_iff ts).mp h
    simp only [surplus, Overclosed, Nat.zero_add] at hk
    refine ⟨iff_of_true ⟨_, rfl⟩ hover, fun i => ?_, iff_of_false ?_ fun hopen => hopen.1 hover,
      iff_of_false ?_ fun hok => hok.1 hover, ?_, ?_, hliterals⟩
    · rw [Nat.zero_add]
      constructor
      · rintro ⟨⟩
        exact hk
      · intro hi
        rw [hk.unique hi]
    · rintro ⟨⟩
    · rintro ⟨out, ⟨⟩⟩
    · rintro out ⟨⟩
    · rintro out ⟨⟩
  | unclosed h =>
    have hcount := count_of_remaining h
    have hno := not_overclosed_of_remaining h
    refine ⟨iff_of_false ?_ hno, fun i => iff_of_false ?_ fun hi => ?_,
      iff_of_true rfl ⟨hno, by omega⟩, iff_of_false ?_ (by omega), ?_, ?_, hliterals⟩
    · rintro ⟨i, ⟨⟩⟩
    · rintro ⟨⟩
    · exact hno (exists_overclosed_of_isLeast hi)
    · rintro ⟨out, ⟨⟩⟩
    · rintro out ⟨⟩
    · rintro out ⟨⟩
  | written h hperm =>
    have hcount := count_of_remaining h
    have hno := not_overclosed_of_remaining h
    refine ⟨iff_of_false ?_ hno, fun i => iff_of_false ?_ fun hi => ?_,
      iff_of_false ?_ (by omega), iff_of_true ⟨_, rfl⟩ ⟨hno, by omega⟩, ?_, ?_, hliterals⟩
    · rintro ⟨i, ⟨⟩⟩
    · rintro ⟨⟩
    · exact hno (exists_overclosed_of_isLeast hi)
    · rintro ⟨⟩
    · rintro out ⟨⟩ t ht
      exact ne_paren_of_mem_keptTokens (hperm.mem_iff.mp ht)
    · rintro out ⟨⟩
      exact hperm

/-- Whatever the tokens are, putting them in postfix order fails exactly where their parentheses
fail, and else keeps every other token once and the literals in their order. -/
theorem toPostfix_conserves (ts : List Token) : Conserves ts (toPostfix ts) := by
  have h := rearrange_outcome 0 [] ts
  rw [show Pending.heldTokens [] = [] from rfl, List.append_nil] at h
  exact RearrangeOutcome.conserves h fun out hout => literals_of_rearrange hout

-- A misplaced operator and literals without a concatenation pass through.
example : toPostfix [.operator .star, .lparen, .literal 'b', .operator .union, .rparen,
    .literal 'a'] = .ok [.literal 'b', .operator .union, .literal 'a', .operator .star] := by
  decide

end PatternAutomata
