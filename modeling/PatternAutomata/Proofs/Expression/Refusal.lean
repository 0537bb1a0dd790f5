import PatternAutomata.Proofs.Expression.Layout
import PatternAutomata.Proofs.Expression.Operands
import PatternAutomata.Proofs.Pattern.Conservation

/-!
# Which tokens are refused

Assembling an automaton looks at the tokens one by one, but whether it succeeds can be told
from counts. A token stream leaves as many operands as it has literals, less the operators
that join two operands. An operator is refused where the tokens before it leave fewer operands
than it takes, a parenthesis is always refused, and the first refusal is what is reported.
Where nothing is refused, the operands that are left decide.
-/

namespace PatternAutomata

/-- The number of operands that an operator takes. -/
def Operator.arity : Operator → Nat
  | .union => 2
  | .concat => 2
  | .star => 1

/-- An operator that joins two operands. -/
def Token.isJoin : Token → Bool
  | .operator .union => true
  | .operator .concat => true
  | _ => false

/-- The literals among tokens, less the operators that join two operands. -/
def operandCount (ts : List Token) : Int := ts.countP Token.isLiteral - ts.countP Token.isJoin

/-- A token weighs one as a literal and minus one as an operator between two operands. -/
theorem Token.weight_eq (t : Token) :
    t.weight = (if t.isLiteral then 1 else 0) - (if t.isJoin then 1 else 0) := by
  cases t with
  | literal | lparen | rparen => rfl
  | operator o => cases o <;> rfl

/-- The weight of tokens counts the operands that they leave. -/
theorem totalWeight_eq_operandCount (ts : List Token) : totalWeight ts = operandCount ts := by
  induction ts with
  | nil => rfl
  | cons t ts ih =>
    rw [totalWeight, ih, t.weight_eq]
    simp only [operandCount, List.countP_cons]
    split <;> split <;> omega

/-- The token at a position is refused: any parenthesis, and an operator that takes more operands
than the tokens before it leave. -/
inductive Refused (ts : List Token) (k : Nat) : PatternError → Prop
  | lparen : ts[k]? = some .lparen → Refused ts k .unbalancedOpen
  | rparen : ts[k]? = some .rparen → Refused ts k (.unbalancedClose k)
  | operator {o : Operator} : ts[k]? = some (.operator o) →
    operandCount (ts.take k) < o.arity → Refused ts k (.missingOperand o)

/-- Only a token of the stream is refused. -/
theorem Refused.lt {ts : List Token} {k : Nat} {e : PatternError} (h : Refused ts k e) :
    k < ts.length := by
  cases h with
  | lparen ht | rparen ht | operator ht => exact (List.getElem?_eq_some_iff.mp ht).1

/-- A token is refused for one reason. -/
theorem Refused.unique {ts : List Token} {k : Nat} {e e' : PatternError} (h : Refused ts k e)
    (h' : Refused ts k e') : e = e' := by
  cases h with
  | lparen ht =>
    cases h' with
    | lparen => rfl
    | rparen ht' | operator ht' => cases ht.symm.trans ht'
  | rparen ht =>
    cases h' with
    | rparen => rfl
    | lparen ht' | operator ht' => cases ht.symm.trans ht'
  | operator ht =>
    cases h' with
    | operator ht' =>
      cases ht.symm.trans ht'
      rfl
    | lparen ht' | rparen ht' => cases ht.symm.trans ht'

/-- A token more has no part in what is refused before it. -/
theorem refused_append_iff {ts : List Token} {k : Nat} (hk : k < ts.length) (t : Token)
    (e : PatternError) : Refused (ts ++ [t]) k e ↔ Refused ts k e := by
  have hget : (ts ++ [t])[k]? = ts[k]? := List.getElem?_append_left hk
  have htake : (ts ++ [t]).take k = ts.take k := List.take_append_of_le_length hk.le
  constructor
  · intro h
    cases h with
    | lparen ht => exact .lparen (hget ▸ ht)
    | rparen ht => exact .rparen (hget ▸ ht)
    | operator ht hlt => exact .operator (hget ▸ ht) (htake ▸ hlt)
  · intro h
    cases h with
    | lparen ht => exact .lparen (hget.trans ht)
    | rparen ht => exact .rparen (hget.trans ht)
    | operator ht hlt => exact .operator (hget.trans ht) (htake.symm ▸ hlt)

/-- What is refused with a token more is refused without it, or is that token. -/
theorem refused_append_cases {ts : List Token} {t : Token} {k : Nat} {e : PatternError}
    (h : Refused (ts ++ [t]) k e) : Refused ts k e ∨ k = ts.length := by
  rcases Nat.lt_or_ge k ts.length with hlt | hge
  · exact Or.inl ((refused_append_iff hlt t e).mp h)
  · have hk := h.lt
    rw [List.length_append, List.length_singleton] at hk
    exact Or.inr (by omega)

namespace Expr

/-- An operator fails exactly on fewer trees than it takes. -/
theorem join_eq_error_iff {o : Operator} {trees : List Expr} {e : PatternError} :
    join o trees = .error e ↔ trees.length < o.arity ∧ e = .missingOperand o := by
  match o, trees with
  | .star, _ :: _ | .union, _ :: _ :: _ | .concat, _ :: _ :: _ => simp [join, Operator.arity]
  | .star, [] | .union, [] | .union, [_] | .concat, [] | .concat, [_] =>
    simp [join, Operator.arity, eq_comm]

end Expr

/-- The trees that are taken up are as many as the operands that the tokens leave. -/
theorem length_of_takeAll_nil {ts : List Token} {trees : List Expr}
    (h : Expr.takeAll [] 0 ts = .ok trees) : (trees.length : Int) = operandCount ts := by
  rw [Expr.length_of_takeAll h, totalWeight_eq_operandCount]
  simp

/-- A token is refused behind others when it can not be taken up with the trees that they
leave. -/
theorem refused_length_iff {ts : List Token} {trees : List Expr}
    (hcount : (trees.length : Int) = operandCount ts) (t : Token) (e : PatternError) :
    Refused (ts ++ [t]) ts.length e ↔ Expr.take trees ts.length t = .error e := by
  have hget : (ts ++ [t])[ts.length]? = some t := by simp
  have htake : (ts ++ [t]).take ts.length = ts := by simp
  constructor
  · intro h
    cases h with
    | lparen ht =>
      cases hget.symm.trans ht
      rfl
    | rparen ht =>
      cases hget.symm.trans ht
      rfl
    | @operator o ht hlt =>
      cases hget.symm.trans ht
      rw [htake, ← hcount] at hlt
      exact Expr.join_eq_error_iff.mpr ⟨by omega, rfl⟩
  · intro h
    cases t with
    | literal c => cases h
    | operator o =>
      obtain ⟨hlt, rfl⟩ := Expr.join_eq_error_iff.mp h
      refine .operator hget ?_
      rw [htake, ← hcount]
      omega
    | lparen =>
      cases h
      exact .lparen hget
    | rparen =>
      cases h
      exact .rparen hget

/-- What comes of taking up tokens: the first refusal, or trees where nothing is refused. -/
inductive TakeOutcome (ts : List Token) : Except PatternError (List Expr) → Prop
  | refused {k : Nat} {e : PatternError} : IsLeast {k | ∃ e, Refused ts k e} k →
    Refused ts k e → TakeOutcome ts (.error e)
  | taken {trees : List Expr} : (∀ k e, ¬ Refused ts k e) → TakeOutcome ts (.ok trees)

/-- Tokens are taken up until the first one is refused. -/
theorem takeAll_outcome (ts : List Token) : TakeOutcome ts (Expr.takeAll [] 0 ts) := by
  induction ts using List.reverseRecOn with
  | nil => exact .taken fun k e h => absurd h.lt (Nat.not_lt_zero k)
  | append_singleton ts t ih =>
    cases hts : Expr.takeAll [] 0 ts with
    | error e =>
      rw [hts] at ih
      rw [Expr.takeAll_append_error hts]
      cases ih with
      | @refused k _ hleast hk =>
        have hk' : Refused (ts ++ [t]) k e := (refused_append_iff hk.lt t e).mpr hk
        refine .refused ⟨⟨e, hk'⟩, ?_⟩ hk'
        rintro j ⟨e', hj⟩
        rcases refused_append_cases hj with hj | rfl
        · exact hleast.2 ⟨e', hj⟩
        · exact hk.lt.le
    | ok trees =>
      have hnone : ∀ k e, ¬ Refused ts k e := by
        rw [hts] at ih
        cases ih with
        | taken hnone => exact hnone
      have hlast := refused_length_iff (length_of_takeAll_nil hts) t
      rw [Expr.takeAll_append hts, Nat.zero_add, Expr.takeAll]
      cases ht : Expr.take trees ts.length t with
      | error e =>
        have hk := (hlast e).mpr ht
        refine .refused ⟨⟨e, hk⟩, ?_⟩ hk
        rintro j ⟨e', hj⟩
        rcases refused_append_cases hj with hj | rfl
        · exact absurd hj (hnone j e')
        · exact le_rfl
      | ok next =>
        refine .taken fun k e h => ?_
        rcases refused_append_cases h with hk | rfl
        · exact hnone k e hk
        · cases ht.symm.trans ((hlast e).mp h)

/-- What comes of assembling tokens, told from counts. -/
structure CountsOperands (ts : List Token) (outcome : Except CompileError Nfa) : Prop where
  of_nil : ts = [] → ∃ nfa, outcome = .ok nfa
  /-- The first refusal is reported. -/
  of_refused : ∀ k e, IsLeast {k | ∃ e, Refused ts k e} k → Refused ts k e →
    outcome = .error (.rejected e)
  of_one : ts ≠ [] → (∀ k e, ¬ Refused ts k e) → operandCount ts = 1 → ∃ nfa, outcome = .ok nfa
  /-- Operands that are left over are counted. -/
  of_ne_one : ts ≠ [] → (∀ k e, ¬ Refused ts k e) → operandCount ts ≠ 1 →
    ∃ n : Nat, n = operandCount ts ∧ 2 ≤ n ∧ outcome = .error (.rejected (.danglingOperands n))

/-- The outcome is the error of the first token that is refused. -/
theorem CountsOperands.of_isLeast {ts : List Token} {k : Nat} {e : PatternError}
    (hleast : IsLeast {k | ∃ e, Refused ts k e} k) (hk : Refused ts k e) :
    CountsOperands ts (.error (.rejected e)) where
  of_nil hnil := by
    subst hnil
    exact absurd hk.lt (Nat.not_lt_zero k)
  of_refused j e' hleast' hj := by
    cases hleast.unique hleast'
    cases hk.unique hj
    rfl
  of_one _ hnone _ := absurd hk (hnone k e)
  of_ne_one _ hnone _ := absurd hk (hnone k e)

/-- Where nothing is refused, the outcome is what the trees that are left are finished as. -/
theorem Expr.countsOperands_finish {ts : List Token} {trees : List Expr}
    (hts : Expr.takeAll [] 0 ts = .ok trees) (hne : ts ≠ []) (hnone : ∀ k e, ¬ Refused ts k e) :
    CountsOperands ts (finish trees) where
  of_nil hnil := absurd hnil hne
  of_refused k e _ hk := absurd hk (hnone k e)
  of_one _ _ hone := by
    rw [← length_of_takeAll_nil hts] at hone
    match trees with
    | [e] => exact ⟨e.nfa, rfl⟩
  of_ne_one _ _ hcount := by
    rw [← length_of_takeAll_nil hts] at hcount ⊢
    match trees with
    | [] => exact absurd rfl (ne_nil_of_takeAll hts (Or.inr hne))
    | _ :: _ :: rest => exact ⟨rest.length + 2, rfl, Nat.le_add_left 2 _, rfl⟩

/-- Tokens are assembled, whatever they are, up to the first one that is refused, and into an
automaton where nothing is refused and one operand is left, or where there are no tokens. -/
theorem toNfa_countsOperands (ts : List Token) : CountsOperands ts (toNfa ts) := by
  by_cases hnil : ts = []
  · subst hnil
    have hnone : ∀ k e, ¬ Refused [] k e := fun k e h => absurd h.lt (Nat.not_lt_zero k)
    exact ⟨fun _ => ⟨_, toNfa_nil⟩, fun k e _ h => absurd h (hnone k e), fun h => absurd rfl h,
      fun h => absurd rfl h⟩
  · have houtcome := takeAll_outcome ts
    rw [Expr.toNfa_eq hnil]
    cases hts : Expr.takeAll [] 0 ts with
    | error e =>
      rw [hts] at houtcome
      cases houtcome with
      | refused hleast hk => exact .of_isLeast hleast hk
    | ok trees =>
      rw [hts] at houtcome
      cases houtcome with
      | taken hnone => exact Expr.countsOperands_finish hts hnil hnone

-- The second operator finds one operand where it takes two, before the parenthesis is met.
example : toNfa [.literal 'a', .literal 'b', .operator .union, .operator .concat, .rparen] =
    .error (.rejected (.missingOperand .concat)) := rfl

end PatternAutomata
