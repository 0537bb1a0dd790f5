import PatternAutomata.Proofs.Expression.Automaton
import PatternAutomata.Proofs.Expression.Operands

/-!
# Token streams in postfix order

A token stream from which an automaton comes is the postfix form of exactly one expression:
taking up a token adds the token to what the trees on the stack list, so the one tree that
is left lists the stream, and the stack of an expression's postfix form is the expression.
The automaton then recognizes the language of that expression, whatever characters its
literals are.
-/

namespace PatternAutomata

namespace Expr

/-- The tokens that a stack of trees lists, the most recent tree last. -/
def listing : List Expr → List Token
  | [] => []
  | e :: trees => listing trees ++ e.postorder

/-- An operator that finds its operands is listed behind them. -/
theorem listing_of_join {o : Operator} {trees trees' : List Expr} (h : join o trees = .ok trees') :
    listing trees' = listing trees ++ [.operator o] := by
  revert h
  fun_cases join o trees with
  | case1 inner trees | case2 right left trees | case3 right left trees =>
    rintro ⟨⟩
    simp [listing, postorder]
  | case4 => rintro ⟨⟩

/-- A token that is taken up is listed behind the trees. -/
theorem listing_of_take {t : Token} {trees trees' : List Expr} {position : Nat}
    (h : take trees position t = .ok trees') : listing trees' = listing trees ++ [t] := by
  cases t with
  | literal c =>
    cases h
    rfl
  | operator o => exact listing_of_join h
  | lparen | rparen => cases h

/-- Tokens that are taken up one after another are listed in their order. -/
theorem listing_of_takeAll {ts : List Token} {trees trees' : List Expr} {position : Nat}
    (h : takeAll trees position ts = .ok trees') : listing trees' = listing trees ++ ts := by
  induction ts generalizing trees position with
  | nil =>
    cases h
    rw [List.append_nil]
  | cons t ts ih =>
    obtain ⟨next, ht, hts⟩ := exists_of_takeAll_cons h
    have hfirst := listing_of_take ht
    rw [ih hts, hfirst, List.append_assoc]
    rfl

/-- Tokens that leave one tree are the postfix form of the tree, and of no other. -/
theorem postorder_eq_iff {ts : List Token} {e : Expr} :
    e.postorder = ts ↔ takeAll [] 0 ts = .ok [e] := by
  constructor
  · rintro rfl
    exact takeAll_postorder e [] 0
  · intro h
    have hlisting := listing_of_takeAll h
    simpa [listing] using hlisting

/-- Expressions with the same postfix form are equal. -/
theorem postorder_injective {e e' : Expr} (h : e.postorder = e'.postorder) : e = e' := by
  have he := postorder_eq_iff.mp h
  have he' := postorder_eq_iff.mp (Eq.refl e'.postorder)
  have hstack : [e] = [e'] := Except.ok.inj (he.symm.trans he')
  exact List.singleton_inj.mp hstack

/-- A stack of trees is finished with an automaton when it holds one tree. -/
theorem finish_eq_ok_iff {trees : List Expr} {nfa : Nfa} :
    finish trees = .ok nfa ↔ ∃ e, trees = [e] ∧ e.nfa = nfa := by
  constructor
  · intro h
    match trees with
    | [e] => exact ⟨e, rfl, Except.ok.inj h⟩
    | [] => cases h
    | _ :: _ :: _ => cases h
  · rintro ⟨e, rfl, rfl⟩
    rfl

end Expr

/-- An automaton comes of no tokens and of the postfix forms of expressions, and of no other
token stream. -/
theorem toNfa_eq_ok_iff {tokens : List Token} {nfa : Nfa} :
    toNfa tokens = .ok nfa ↔
      (tokens = [] ∧ nfa = emptyNfa) ∨ ∃ e : Expr, e.postorder = tokens ∧ nfa = e.nfa := by
  constructor
  · intro h
    by_cases hempty : tokens = []
    · subst hempty
      have hnfa : emptyNfa = nfa := Except.ok.inj (toNfa_nil.symm.trans h)
      exact Or.inl ⟨rfl, hnfa.symm⟩
    · rw [Expr.toNfa_eq hempty] at h
      cases htrees : Expr.takeAll [] 0 tokens with
      | error e =>
        rw [htrees] at h
        cases h
      | ok trees =>
        rw [htrees] at h
        obtain ⟨e, rfl, hnfa⟩ := Expr.finish_eq_ok_iff.mp h
        exact Or.inr ⟨e, Expr.postorder_eq_iff.mpr htrees, hnfa.symm⟩
  · rintro (⟨rfl, rfl⟩ | ⟨e, rfl, rfl⟩)
    · exact toNfa_nil
    · exact e.toNfa_postorder

/-- A token stream from which an automaton comes is empty, and then the automaton recognizes
the empty word alone, or it is the postfix form of exactly one expression, and then the
automaton recognizes the language of that expression. -/
theorem toNfa_recognizes_expression (tokens : List Token) (nfa : Nfa) (h : toNfa tokens = .ok nfa) :
    (tokens = [] ∧ ∀ word, nfa.Recognizes word ↔ word = []) ∨
      ∃ e : Expr, e.postorder = tokens ∧ (∀ e' : Expr, e'.postorder = tokens → e' = e) ∧
        ∀ word, nfa.Recognizes word ↔ word ∈ e.language := by
  rcases toNfa_eq_ok_iff.mp h with ⟨htokens, rfl⟩ | ⟨e, rfl, rfl⟩
  · exact Or.inl ⟨htokens, recognizes_emptyNfa⟩
  · refine Or.inr ⟨e, rfl, ?_, e.recognizes_nfa⟩
    intro e' he'
    exact Expr.postorder_injective he'

/-- The repetition of a star character before an opening parenthesis, both literals. -/
theorem toNfa_recognizes_reserved :
    let tokens : List Token :=
      [.literal '*', .operator .star, .literal '(', .operator .concat]
    let tree : Expr := .concat (.star (.literal '*')) (.literal '(')
    toNfa tokens = .ok tree.nfa ∧
      ((tokens = [] ∧ ∀ word, tree.nfa.Recognizes word ↔ word = []) ∨
        ∃ e : Expr, e.postorder = tokens ∧ (∀ e' : Expr, e'.postorder = tokens → e' = e) ∧
          ∀ word, tree.nfa.Recognizes word ↔ word ∈ e.language) :=
  ⟨rfl, toNfa_recognizes_expression _ _ rfl⟩

end PatternAutomata
