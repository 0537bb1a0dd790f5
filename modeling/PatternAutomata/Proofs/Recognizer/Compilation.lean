import PatternAutomata.Proofs.Expression.Automaton
import PatternAutomata.Proofs.Pattern.Postfix
import PatternAutomata.Proofs.Recognizer.DepthFirst
import PatternAutomata.Recognizer.Matcher

/-!
# Compiled patterns decide their language

An automaton of plain states is decided by every strategy alike: it is in range, and
the search misses nothing since no state has both kinds of edges. So a derived pattern
is compiled, and its matcher answers for every word whether the derivation describes it.
Groups around nothing are no expression, yet they leave no tokens in postfix order and so
are compiled to the automaton of the empty word.
-/

namespace PatternAutomata

open Pending

/-- Every strategy and the default one answer whether a word belongs to the language. -/
def Matcher.Decides (m : Matcher) (words : Language Char) : Prop :=
  ∀ word : List Char, ∃ b, (∀ strategy, m.matchesWith strategy word = .ok b) ∧
    m.matchesWord word = .ok b ∧ (b = true ↔ word ∈ words)

/-- The pattern of `n` groups inside each other, around nothing. -/
def nested (n : Nat) : String := String.ofList (List.replicate n '(' ++ List.replicate n ')')

/-- The matcher of an automaton of plain states decides what the automaton recognizes. -/
theorem Matcher.exists_ofNfa {nfa : Nfa} (h : nfa.InRange)
    (hplain : ∀ s ∈ nfa.states, s.Plain nfa.size) {words : Language Char}
    (hwords : ∀ word, nfa.Recognizes word ↔ word ∈ words) :
    ∃ m, Matcher.ofNfa nfa = .ok m ∧ m.Decides words := by
  obtain ⟨dfa, hdfa, hrep⟩ := Dfa.exists_ofNfa h
  refine ⟨⟨nfa, dfa⟩, by rw [ofNfa, hdfa]; rfl, fun word => ?_⟩
  obtain ⟨b, hb, hbiff⟩ := Simulation.exists_accepts h word
  obtain ⟨b₁, hb₁, hbiff₁⟩ :=
    DepthFirst.exists_accepts_of_split h (Nfa.not_jumps_of_plain hplain) word
  obtain ⟨b₂, hb₂, hbiff₂⟩ := hrep.exists_accepts word
  have he₁ : b₁ = b := Bool.eq_iff_iff.mpr (hbiff₁.trans hbiff.symm)
  have he₂ : b₂ = b := Bool.eq_iff_iff.mpr (hbiff₂.trans hbiff.symm)
  refine ⟨b, fun strategy => ?_, hb, hbiff.trans (hwords word)⟩
  cases strategy with
  | depthFirst => exact he₁ ▸ hb₁
  | simulation => exact hb
  | walk => exact he₂ ▸ hb₂

/-- The automaton of a derived pattern is that of the expression of the derivation. -/
theorem Derivation.compileNfa_pattern {level : Level} (d : Derivation level) :
    compileNfa d.pattern = .ok d.expr.nfa := by
  rw [compileNfa, d.postfixForm_pattern]
  exact d.expr.toNfa_postorder

/-- A derived pattern is compiled to a matcher that decides the language of the derivation. -/
theorem Derivation.exists_compile {level : Level} (d : Derivation level) :
    ∃ m, compile d.pattern = .ok m ∧ m.Decides d.language := by
  have hwords : ∀ word, d.expr.nfa.Recognizes word ↔ word ∈ d.language := by
    intro word
    rw [Expr.recognizes_nfa, d.language_expr]
  obtain ⟨m, hm, hdecides⟩ := Matcher.exists_ofNfa d.expr.inRange_nfa d.expr.plain_nfa hwords
  refine ⟨m, ?_, hdecides⟩
  rw [compile, d.compileNfa_pattern]
  simp only [hm]
  rfl

/-- The tokens of groups around nothing. -/
theorem tokenize_nested (n : Nat) :
    tokenize (nested n) = List.replicate n .lparen ++ List.replicate n .rparen := by
  rw [tokenize, nested, String.toList_ofList, List.map_append, List.map_replicate,
    List.map_replicate]
  rfl

/-- One more group goes around groups around nothing. -/
theorem replicate_succ_append (n : Nat) :
    List.replicate (n + 1) Token.lparen ++ List.replicate (n + 1) .rparen =
      .lparen :: ((List.replicate n .lparen ++ List.replicate n .rparen) ++ [.rparen]) := by
  rw [List.replicate_succ, List.replicate_succ', List.cons_append, List.append_assoc]

/-- Groups around nothing have no concatenations. -/
theorem insertConcat_nested (n : Nat) :
    insertConcat (List.replicate n .lparen ++ List.replicate n .rparen) =
      List.replicate n .lparen ++ List.replicate n .rparen := by
  induction n with
  | zero => rfl
  | succ n ih =>
    rw [replicate_succ_append, insertConcat_cons_of_not_ends rfl,
      insertConcat_append_of_not_begins _ rfl, ih]

/-- Groups around nothing become nothing. -/
theorem becomes_nested (n : Nat) (stack : List Pending) :
    Becomes stack (List.replicate n .lparen ++ List.replicate n .rparen) [] stack := by
  induction n generalizing stack with
  | zero => exact fun position rest => (id_map (rearrange position stack rest)).symm
  | succ n ih =>
    rw [replicate_succ_append]
    have hclose : Becomes (.group :: stack) [.rparen] [] stack :=
      .rparen (closeGroup_append [] stack)
    exact (Becomes.lparen stack).append ((ih _).append hclose)

/-- Groups around nothing leave no tokens in postfix order. -/
theorem postfixForm_nested (n : Nat) : postfixForm (nested n) = .ok [] := by
  have h := becomes_nested n [] 0 []
  rw [List.append_nil] at h
  rw [postfixForm, infixForm, tokenize_nested, insertConcat_nested, toPostfix, h]
  rfl

/-- Groups around nothing are compiled to a matcher that accepts the empty word alone. -/
theorem exists_compile_nested (n : Nat) :
    ∃ m, compile (nested n) = .ok m ∧ m.Decides 1 := by
  have hwords : ∀ word, emptyNfa.Recognizes word ↔ word ∈ (1 : Language Char) :=
    recognizes_emptyNfa
  obtain ⟨m, hm, hdecides⟩ := Matcher.exists_ofNfa inRange_emptyNfa plain_emptyNfa hwords
  refine ⟨m, ?_, hdecides⟩
  rw [compile, compileNfa, postfixForm_nested]
  simp only [toNfa_nil, hm]
  rfl

/-- Every pattern of the grammar is compiled, and all strategies accept exactly the words
that its derivation describes. Groups around nothing accept the empty word alone. -/
theorem compile_exact :
    (∀ d : Derivation .expression, ∃ m, compile d.pattern = .ok m ∧ m.Decides d.language) ∧
      ∀ n : Nat, ∃ m, compile (nested n) = .ok m ∧ m.Decides 1 :=
  ⟨fun d => d.exists_compile, exists_compile_nested⟩

end PatternAutomata
