import PatternAutomata.Proofs.Automaton.Rounds
import PatternAutomata.Proofs.Expression.Shape
import PatternAutomata.Proofs.Recognizer.Meaning

/-!
# How many subsets a pattern has

Each literal of a pattern becomes one transition, and only transitions bring a discovery to new
sets. So the literals of a pattern bound the states of its deterministic automaton, however many
operators join them.
-/

namespace PatternAutomata

/-- The number of literals that a pattern writes. -/
def literalCount (pattern : String) : Nat := pattern.toList.countP (· ∉ reserved)

/-- A character spells a literal unless it is reserved. -/
theorem Token.isLiteral_ofChar (c : Char) : (ofChar c).isLiteral = decide (c ∉ reserved) := by
  by_cases hc : c ∈ reserved
  · rw [decide_eq_false (not_not.mpr hc)]
    simp only [reserved, List.mem_cons, List.not_mem_nil, or_false] at hc
    rcases hc with rfl | rfl | rfl | rfl <;> rfl
  · rw [ofChar_of_notMem hc, decide_eq_true hc]
    rfl

/-- The literals among the tokens of a pattern are those that it writes. -/
theorem length_literals_tokenize (pattern : String) :
    (literals (tokenize pattern)).length = literalCount pattern := by
  rw [literals, ← List.countP_eq_length_filter, tokenize, List.countP_map, literalCount]
  congr 1
  funext c
  exact Token.isLiteral_ofChar c

/-- No more states are led to than there are transitions. -/
theorem Nfa.length_readTargets_le (nfa : Nfa) :
    nfa.readTargets.length ≤ nfa.transitionSymbols.length := by
  have hvalues : (nfa.states.toList.flatMap (·.transitions.values)).length =
      nfa.transitionSymbols.length := by
    simp only [transitionSymbols, List.length_flatMap, SortedMap.values, SortedMap.keys,
      List.length_map]
  rw [← hvalues]
  exact (List.dedup_sublist _).length_le

/-- The automaton of tokens has one transition for each literal. -/
theorem length_transitionSymbols_of_toNfa {tokens : List Token} {nfa : Nfa}
    (h : toNfa tokens = .ok nfa) : nfa.transitionSymbols.length = (literals tokens).length := by
  rw [literals, ← List.countP_eq_length_filter]
  rcases toNfa_eq_ok_iff.mp h with ⟨rfl, rfl⟩ | ⟨e, rfl, rfl⟩
  · exact shapedBy_emptyNfa.length_transitionSymbols
  · exact e.shapedBy_nfa.length_transitionSymbols

/-- The automaton of a pattern has one transition for each literal of the pattern. -/
theorem length_transitionSymbols_of_compileNfa {pattern : String} {nfa : Nfa}
    (h : compileNfa pattern = .ok nfa) : nfa.transitionSymbols.length = literalCount pattern := by
  rw [compileNfa] at h
  split at h
  case h_1 => cases h
  case h_2 tokens htokens =>
    have hliterals : literals tokens = literals (infixForm pattern) :=
      literals_of_rearrange htokens
    rw [length_transitionSymbols_of_toNfa h, hliterals, infixForm, literals_insertConcat,
      length_literals_tokenize]

/-- The deterministic automaton of a pattern has no more states than there are sets of literals
in the pattern. -/
theorem Matcher.size_le_of_compile {pattern : String} {m : Matcher}
    (h : compile pattern = .ok m) : m.dfa.size ≤ 2 ^ literalCount pattern := by
  obtain ⟨words, hwords⟩ := exists_describes h
  have hrealizes := hwords.realizes h
  obtain ⟨nfa, hnfa, hm⟩ := ofNfa_of_compile h
  obtain ⟨rfl, -⟩ := eq_of_ofNfa hm
  calc m.dfa.size
      ≤ 2 ^ m.nfa.readTargets.length := Dfa.size_le_of_ofNfa hrealizes.inRange hrealizes.dfa_eq
    _ ≤ 2 ^ m.nfa.transitionSymbols.length :=
      Nat.pow_le_pow_right Nat.two_pos m.nfa.length_readTargets_le
    _ = 2 ^ literalCount pattern := by rw [length_transitionSymbols_of_compileNfa hnfa]

/-- The discovery of sets ends on every automaton in range: waiting states are taken up in some
order, each state once, until none waits, and there are no more states than sets of states that
some transition leads to. For a pattern there are no more than sets of its literals. -/
theorem discovery_bounded :
    (∀ nfa : Nfa, nfa.InRange → ∃ dfa order, Dfa.ofNfa nfa = .ok dfa ∧
      dfa.DiscoveredBy nfa order ∧ order.Perm (List.range dfa.size) ∧
      dfa.size ≤ 2 ^ nfa.readTargets.length) ∧
    ∀ pattern m, compile pattern = .ok m → m.dfa.size ≤ 2 ^ literalCount pattern := by
  refine ⟨fun nfa h => ?_, fun pattern m hm => m.size_le_of_compile hm⟩
  obtain ⟨dfa, hdfa, -⟩ := Dfa.exists_ofNfa h
  obtain ⟨order, horder, hperm⟩ := Dfa.exists_discoveredBy hdfa
  exact ⟨dfa, order, hdfa, horder, hperm, Dfa.size_le_of_ofNfa h hdfa⟩

/-- The discovery of an automaton with an ε-cycle and states with both kinds of edges, and the
sets of a pattern with two literals. -/
theorem tangled_discovery_bounded : Nfa.tangled.InRange ∧
    (∃ dfa order, Dfa.ofNfa Nfa.tangled = .ok dfa ∧ dfa.DiscoveredBy Nfa.tangled order ∧
      order.Perm (List.range dfa.size) ∧ dfa.size ≤ 2 ^ Nfa.tangled.readTargets.length) ∧
    ∃ m, compile "a*b" = .ok m ∧ m.dfa.size ≤ 2 ^ literalCount "a*b" := by
  let repeated : Derivation .factor := .star (.literal 'a' (by decide))
  let d : Derivation .expression :=
    .ofTerm (.concat (.ofFactor repeated) (.literal 'b' (by decide)))
  have hpattern : d.pattern = "a*b" := rfl
  obtain ⟨m, hm, -⟩ := d.exists_compile
  rw [hpattern] at hm
  exact ⟨by decide, discovery_bounded.1 Nfa.tangled (by decide), m, hm,
    discovery_bounded.2 "a*b" m hm⟩

end PatternAutomata
