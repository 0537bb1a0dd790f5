import PatternAutomata.Proofs.Expression.Liveness
import PatternAutomata.Proofs.Recognizer.Rejection

/-!
# What a compiled pattern means

A pattern that is compiled describes one language, whichever of its derivations is looked at,
because the matcher decides it. The automaton of the matcher recognizes that language, and
every run of it can be finished.
-/

namespace PatternAutomata

/-- The words that a pattern describes: those of a derivation, or the empty word alone where
groups stand around nothing. -/
inductive Describes : String → Language Char → Prop
  | derived (d : Derivation .expression) : Describes d.pattern d.language
  | nested (n : Nat) : Describes (nested n) 1

/-- The parts of a matcher fit together: its automaton recognizes a language and can finish
every run, and its deterministic automaton is that of the sets of states. -/
structure Matcher.Realizes (m : Matcher) (words : Language Char) : Prop where
  inRange : m.nfa.InRange
  recognizes : ∀ word, m.nfa.Recognizes word ↔ word ∈ words
  live : ∀ q < m.nfa.size, m.nfa.Live q
  dfa_eq : Dfa.ofNfa m.nfa = .ok m.dfa

/-- A matcher holds the automaton that it is made of, and the deterministic one. -/
theorem Matcher.eq_of_ofNfa {nfa : Nfa} {m : Matcher} (h : Matcher.ofNfa nfa = .ok m) :
    m.nfa = nfa ∧ Dfa.ofNfa nfa = .ok m.dfa := by
  rw [ofNfa] at h
  obtain ⟨dfa, hdfa, h⟩ := exists_of_bind_eq_ok h
  cases h
  exact ⟨rfl, hdfa⟩

/-- The matcher of a pattern is made of the automaton of the pattern. -/
theorem ofNfa_of_compile {pattern : String} {m : Matcher} (h : compile pattern = .ok m) :
    ∃ nfa, compileNfa pattern = .ok nfa ∧ Matcher.ofNfa nfa = .ok m := by
  rw [compile] at h
  cases hnfa : compileNfa pattern with
  | error e =>
    rw [hnfa] at h
    cases h
  | ok nfa =>
    rw [hnfa] at h
    exact ⟨nfa, rfl, eq_ok_of_mapError h⟩

open Classical in
/-- What decides a language answers by every strategy whether a word belongs to it. -/
theorem Matcher.Decides.matchesWith_eq {m : Matcher} {language : Language Char}
    (h : m.Decides language) (strategy : Strategy) (word : List Char) :
    m.matchesWith strategy word = .ok (decide (word ∈ language)) := by
  obtain ⟨b, hb, -, hiff⟩ := h word
  have he : b = decide (word ∈ language) := by
    rw [Bool.eq_iff_iff, hiff, decide_eq_true_iff]
  rw [hb strategy, he]

namespace Describes

variable {pattern : String} {words words' : Language Char} {m : Matcher}

/-- A pattern that describes words is compiled to a matcher that decides them. -/
theorem exists_compile (h : Describes pattern words) :
    ∃ m, compile pattern = .ok m ∧ m.Decides words := by
  cases h with
  | derived d => exact d.exists_compile
  | nested n => exact exists_compile_nested n

/-- The matcher of a pattern decides what the pattern describes. -/
theorem decides (h : Describes pattern words) (hm : compile pattern = .ok m) :
    m.Decides words := by
  obtain ⟨m', hm', hdecides⟩ := h.exists_compile
  have he : m' = m := Except.ok.inj (hm'.symm.trans hm)
  exact he ▸ hdecides

/-- A pattern describes one language. -/
theorem unique (h : Describes pattern words) (h' : Describes pattern words') :
    words = words' := by
  obtain ⟨m, hm, hdecides⟩ := h.exists_compile
  have hdecides' := h'.decides hm
  ext word
  obtain ⟨b, -, hb, hiff⟩ := hdecides word
  obtain ⟨b', -, hb', hiff'⟩ := hdecides' word
  have he : b = b' := Except.ok.inj (hb.symm.trans hb')
  subst he
  exact hiff.symm.trans hiff'

/-- The matcher of a pattern realizes what the pattern describes. -/
theorem realizes (h : Describes pattern words) (hm : compile pattern = .ok m) :
    m.Realizes words := by
  obtain ⟨nfa, hnfa, hm⟩ := ofNfa_of_compile hm
  obtain ⟨rfl, hdfa⟩ := Matcher.eq_of_ofNfa hm
  cases h with
  | derived d =>
    have he : d.expr.nfa = m.nfa := Except.ok.inj (d.compileNfa_pattern.symm.trans hnfa)
    refine ⟨he ▸ d.expr.inRange_nfa, fun word => ?_, fun q hq => ?_, hdfa⟩
    · rw [← he, Expr.recognizes_nfa, d.language_expr]
    · rw [← he] at hq ⊢
      exact d.expr.live_nfa hq
  | nested n =>
    have hnested : compileNfa (PatternAutomata.nested n) = .ok emptyNfa := by
      rw [compileNfa, postfixForm_nested]
      exact toNfa_nil
    have he : emptyNfa = m.nfa := Except.ok.inj (hnested.symm.trans hnfa)
    refine ⟨he ▸ inRange_emptyNfa, fun word => ?_, fun q hq => ?_, hdfa⟩
    · rw [← he, recognizes_emptyNfa, Language.mem_one]
    · rw [← he] at hq ⊢
      exact live_emptyNfa hq

end Describes

/-- A compiled pattern describes a language. -/
theorem exists_describes {pattern : String} {m : Matcher} (h : compile pattern = .ok m) :
    ∃ words, Describes pattern words := by
  have houtcome := outcome_compile pattern
  rw [h] at houtcome
  cases houtcome with
  | compiled _ hyes =>
    rcases hyes with ⟨d, rfl⟩ | ⟨n, rfl⟩
    · exact ⟨d.language, .derived d⟩
    · exact ⟨1, .nested n⟩

end PatternAutomata
