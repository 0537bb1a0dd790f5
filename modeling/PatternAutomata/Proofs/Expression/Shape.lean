import PatternAutomata.Proofs.Automaton.Edges
import PatternAutomata.Proofs.Expression.Liveness
import PatternAutomata.Proofs.Expression.Postorder
import PatternAutomata.Proofs.Pattern.Conservation

/-!
# The shape of an assembled automaton

The tokens of an expression determine how large its automaton is: an operator that makes a new
block adds two states, every operator adds ε-edges, and only literals add transitions. A block
is entered at one state, to which none of its edges leads, and all of it is reached from there;
it is left at its exit, which has no edges. Every other state reads one symbol or has one or
two ε-edges, never both, so a search loses nothing by following a transition at once.
-/

namespace PatternAutomata

namespace Expr

/-- The edges of a block stay in it, and none leads to its entry. -/
theorem targets_body (e : Expr) (base : Nat) : ∀ s ∈ e.body base, ∀ q ∈ s.targets,
    base ≤ q ∧ q ≤ base + e.span ∧ q ≠ e.entry base := by
  induction e generalizing base with
  | literal c => simp [body, span, entry]
  | union left right ihl ihr =>
    have hl := left.entry_mem base
    have hr := right.entry_mem (base + (left.span + 1))
    simp only [body, span, entry, List.forall_mem_append, List.forall_mem_cons,
      State.targets_relay, List.not_mem_nil, false_implies, implies_true, and_true]
    refine ⟨fun s hs q hq => ?_, by omega, fun s hs q hq => ?_, by omega, by omega, by omega⟩
    · have := ihl base s hs q hq
      omega
    · have := ihr _ s hs q hq
      omega
  | concat left right ihl ihr =>
    have hl := left.entry_mem base
    have hr := right.entry_mem (base + (left.span + 1))
    simp only [body, span, entry, List.forall_mem_append, List.forall_mem_cons,
      State.targets_relay, List.not_mem_nil, false_implies, implies_true, and_true]
    refine ⟨fun s hs q hq => ?_, by omega, fun s hs q hq => ?_⟩
    · have := ihl base s hs q hq
      omega
    · have := ihr _ s hs q hq
      omega
  | star inner ih =>
    have hi := inner.entry_mem base
    simp only [body, span, entry, List.forall_mem_append, List.forall_mem_cons,
      State.targets_relay, List.not_mem_nil, false_implies, implies_true, and_true]
    refine ⟨fun s hs q hq => ?_, by omega, by omega⟩
    have := ih base s hs q hq
    omega

/-- The states before the exit of a block read one symbol or have one or two ε-edges. -/
theorem slender_body (e : Expr) (base : Nat) : ∀ s ∈ e.body base, s.Slender := by
  induction e generalizing base with
  | literal c =>
    intro s hs
    rw [List.mem_singleton.mp hs]
    exact State.slender_reader c (base + 1)
  | union left right ihl ihr =>
    simp only [body, List.forall_mem_append, List.forall_mem_cons, List.not_mem_nil,
      false_implies, implies_true, and_true]
    exact ⟨ihl base, State.slender_relay_singleton _, ihr _, State.slender_relay_singleton _,
      State.slender_relay_pair _ _⟩
  | concat left right ihl ihr =>
    simp only [body, List.forall_mem_append, List.forall_mem_cons]
    exact ⟨ihl base, State.slender_relay_singleton _, ihr _⟩
  | star inner ih =>
    simp only [body, List.forall_mem_append, List.forall_mem_cons, List.not_mem_nil,
      false_implies, implies_true, and_true]
    exact ⟨ih base, State.slender_relay_pair _ _, State.slender_relay_pair _ _⟩

/-- The transitions of a block read the literals of the expression, in their order. -/
theorem literals_body (e : Expr) (base : Nat) :
    ((e.body base).flatMap (·.transitions.keys)).map Token.literal = literals e.postorder := by
  induction e generalizing base with
  | literal c => rfl
  | union left right ihl ihr | concat left right ihl ihr =>
    simp [body, postorder, literals, Token.isLiteral, ihl, ihr]
  | star inner ih =>
    simp [body, postorder, literals, Token.isLiteral, ih]

/-- A literal, a choice and a repetition take two states each. -/
theorem span_add_one (e : Expr) : e.span + 1 = 2 * (e.postorder.countP Token.isLiteral +
    e.postorder.count (.operator .union) + e.postorder.count (.operator .star)) := by
  induction e with
  | literal c => simp [span, postorder, Token.isLiteral]
  | union left right ihl ihr | concat left right ihl ihr =>
    simp [span, postorder, Token.isLiteral]
    omega
  | star inner ih =>
    simp [span, postorder, Token.isLiteral]
    omega

/-- A concatenation takes one ε-edge, a choice and a repetition take four each. -/
theorem length_epsilon_body (e : Expr) (base : Nat) :
    ((e.body base).flatMap (·.epsilon)).length = e.postorder.count (.operator .concat) +
      4 * e.postorder.count (.operator .union) + 4 * e.postorder.count (.operator .star) := by
  induction e generalizing base with
  | literal c => simp [body, postorder, State.reader]
  | union left right ihl ihr | concat left right ihl ihr =>
    simp [body, postorder, State.relay, ihl, ihr]
    omega
  | star inner ih =>
    simp [body, postorder, State.relay, ih]
    omega

/-- Every state of a block, and its exit, is reached from the entry of the block. -/
theorem reaches_of_entry {nfa : Nfa} {e : Expr} {base : Nat}
    (h : Stands (fun q s => nfa.states[q]? = some s) base (e.body base)) {q : Nat}
    (hle : base ≤ q) (hlt : q ≤ base + e.span) : nfa.Reaches (e.entry base) q := by
  induction e generalizing base q with
  | literal c =>
    have hcases : q = base ∨ q = base + 1 := by
      simp only [span] at hlt
      omega
    rcases hcases with rfl | rfl
    · exact .refl _
    · exact Nfa.reaches_of_reader (stands_cons.mp h).1
  | union left right ihl ihr =>
    let middle := base + (left.span + 1)
    obtain ⟨hleft, hoverl, hright, hoverr, hfork⟩ := h.split_union
    simp only [length_body] at hoverl hright hoverr hfork
    have hentryl : ∀ {p}, base ≤ p → p ≤ base + left.span →
        nfa.Reaches (middle + (right.span + 1)) p := fun hp hp' =>
      Nfa.reaches_of_relay hfork List.mem_cons_self (ihl hleft hp hp')
    have hentryr : ∀ {p}, middle ≤ p → p ≤ middle + right.span →
        nfa.Reaches (middle + (right.span + 1)) p := fun hp hp' =>
      Nfa.reaches_of_relay hfork (List.mem_cons_of_mem _ (List.mem_singleton_self _))
        (ihr hright hp hp')
    have hcases : q ≤ base + left.span ∨ (middle ≤ q ∧ q ≤ middle + right.span) ∨
        q = middle + (right.span + 1) ∨ q = middle + (right.span + 1) + 1 := by
      simp only [span, middle] at hlt ⊢
      omega
    rcases hcases with hq | ⟨hle', hq⟩ | rfl | rfl
    · exact hentryl hle hq
    · exact hentryr hle' hq
    · exact .refl _
    · exact (hentryl (Nat.le_add_right _ _) le_rfl).trans
        (Nfa.reaches_of_relay hoverl (List.mem_singleton_self _) (.refl _))
  | concat left right ihl ihr =>
    let middle := base + (left.span + 1)
    obtain ⟨hleft, hover, hright⟩ := h.split_concat
    rw [length_body] at hover hright
    have hcases : q ≤ base + left.span ∨ (middle ≤ q ∧ q ≤ middle + right.span) := by
      simp only [span, middle] at hlt ⊢
      omega
    rcases hcases with hq | ⟨hle', hq⟩
    · exact ihl hleft hle hq
    · exact (ihl hleft (Nat.le_add_right _ _) le_rfl).trans
        (Nfa.reaches_of_relay hover (List.mem_singleton_self _) (ihr hright hle' hq))
  | star inner ih =>
    obtain ⟨hinner, -, hfork⟩ := h.split_star
    rw [length_body] at hfork
    have hcases : q ≤ base + inner.span ∨ q = base + (inner.span + 1) ∨
        q = base + (inner.span + 1) + 1 := by
      simp only [span] at hlt
      omega
    rcases hcases with hq | rfl | rfl
    · exact Nfa.reaches_of_relay hfork (List.mem_cons_of_mem _ (List.mem_singleton_self _))
        (ih hinner hle hq)
    · exact .refl _
    · exact Nfa.reaches_of_relay hfork List.mem_cons_self (.refl _)

/-- The transitions of an expression's automaton read the literals of the expression. -/
theorem transitionSymbols_nfa (e : Expr) :
    e.nfa.transitionSymbols.map Token.literal = literals e.postorder := by
  rw [Nfa.transitionSymbols, nfa, List.flatMap_append, List.flatMap_singleton,
    State.keys_isolated, List.append_nil, literals_body]

/-- The start of an expression's automaton is no target of a state. -/
theorem start_notMem_targets (e : Expr) : ∀ s ∈ e.nfa.states, e.nfa.start ∉ s.targets := by
  intro s hs hq
  rcases List.mem_append.mp (List.mem_toArray.mp hs) with hs | hs
  · exact (e.targets_body 0 s hs _ hq).2.2 rfl
  · rw [List.mem_singleton.mp hs, State.targets_isolated] at hq
    cases hq

end Expr

/-- The shape of the automaton that comes of tokens. -/
structure Nfa.ShapedBy (tokens : List Token) (nfa : Nfa) : Prop where
  size_eq : tokens ≠ [] → nfa.size = 2 * (tokens.countP Token.isLiteral +
    tokens.count (.operator .union) + tokens.count (.operator .star))
  length_transitionSymbols : nfa.transitionSymbols.length = tokens.countP Token.isLiteral
  length_epsilonTargets : tokens ≠ [] → nfa.epsilonTargets.length =
    tokens.count (.operator .concat) + 4 * tokens.count (.operator .union) +
      4 * tokens.count (.operator .star)
  /-- No tokens give two states and an ε-edge. -/
  of_nil : tokens = [] → nfa.size = 2 ∧ nfa.epsilonTargets.length = 1
  /-- No edge leads to the start. -/
  start_not_target : ∀ p, (∀ c, ¬ nfa.Reads p c nfa.start) ∧ ¬ nfa.Jumps p nfa.start
  /-- The end has no edges. -/
  final_bare : ∃ s, nfa.states[nfa.final]? = some s ∧ s.transitions.entries = [] ∧ s.epsilon = []
  /-- All other states have one kind of edges. -/
  slender : ∀ q s, q ≠ nfa.final → nfa.states[q]? = some s → s.Slender
  reaches_of_start : ∀ q < nfa.size, nfa.Reaches nfa.start q
  reaches_final : ∀ q < nfa.size, nfa.Reaches q nfa.final
  alphabet_sorted : nfa.alphabet.Pairwise (· < ·)
  mem_alphabet : ∀ c, c ∈ nfa.alphabet ↔ .literal c ∈ tokens

/-- The automaton of an expression has the shape that its postfix form calls for. -/
theorem Expr.shapedBy_nfa (e : Expr) : e.nfa.ShapedBy e.postorder where
  size_eq _ := by rw [size_nfa, span_add_one]
  length_transitionSymbols := by
    rw [← List.length_map Token.literal, transitionSymbols_nfa, literals,
      List.countP_eq_length_filter]
  length_epsilonTargets _ := by
    rw [← length_epsilon_body e 0, Nfa.epsilonTargets, nfa, List.flatMap_append,
      List.length_append]
    rfl
  of_nil h := absurd h e.postorder_ne_nil
  start_not_target p := Nfa.not_entered e.start_notMem_targets p
  final_bare := ⟨_, e.getElem?_exit, rfl, rfl⟩
  slender q s hq hs := by
    have hsize : q < e.nfa.size := (Array.getElem?_eq_some_iff.mp hs).1
    rw [size_nfa] at hsize
    have hlt : q < e.span := Nat.lt_of_le_of_ne (Nat.le_of_lt_succ hsize) hq
    rw [nfa, List.getElem?_toArray, List.getElem?_append_left (by rwa [length_body])] at hs
    exact e.slender_body 0 s (List.mem_of_getElem? hs)
  reaches_of_start q hq := by
    rw [size_nfa] at hq
    exact reaches_of_entry (stands_append.mp e.stands_nfa).1 (Nat.zero_le q) (by omega)
  reaches_final q hq := e.reaches_final hq
  alphabet_sorted := e.nfa.pairwise_alphabet
  mem_alphabet c := by
    have hinj : Function.Injective Token.literal := fun _ _ h => Token.literal.inj h
    rw [Nfa.mem_alphabet_iff, ← List.mem_map_of_injective hinj, transitionSymbols_nfa]
    simp [literals, Token.isLiteral]

/-- The automaton that comes of no tokens has two states and an ε-edge between them. -/
theorem shapedBy_emptyNfa : emptyNfa.ShapedBy [] where
  size_eq h := absurd rfl h
  length_transitionSymbols := rfl
  length_epsilonTargets h := absurd rfl h
  of_nil _ := ⟨rfl, rfl⟩
  start_not_target p := by
    have hstart : ∀ s ∈ emptyNfa.states, emptyNfa.start ∉ s.targets := by decide
    exact Nfa.not_entered hstart p
  final_bare := ⟨_, rfl, rfl, rfl⟩
  slender q s hq hs := by
    have hsize : q < 2 := (Array.getElem?_eq_some_iff.mp hs).1
    have hlt : q < 1 := Nat.lt_of_le_of_ne (Nat.le_of_lt_succ hsize) hq
    cases Nat.lt_one_iff.mp hlt
    cases hs
    exact State.slender_relay_singleton 1
  reaches_of_start q hq := by
    have hlt : q < 2 := hq
    have hcases : q = 0 ∨ q = 1 := by omega
    rcases hcases with rfl | rfl
    · exact .refl 0
    · exact reaches_final_emptyNfa (Nat.zero_lt_two)
  reaches_final q hq := reaches_final_emptyNfa hq
  alphabet_sorted := emptyNfa.pairwise_alphabet
  mem_alphabet c := by
    rw [Nfa.mem_alphabet_iff]
    exact iff_of_false List.not_mem_nil List.not_mem_nil

/-- Whatever tokens an automaton comes of, their numbers determine its size and the number of
its edges, it is entered at the start alone and left at the end alone, all of it lies on the way
from one to the other, and no state has both kinds of edges. -/
theorem toNfa_shapedBy (tokens : List Token) (nfa : Nfa) (h : toNfa tokens = .ok nfa) :
    nfa.ShapedBy tokens := by
  rcases toNfa_eq_ok_iff.mp h with ⟨rfl, rfl⟩ | ⟨e, rfl, rfl⟩
  · exact shapedBy_emptyNfa
  · exact e.shapedBy_nfa

/-- The repetition of a choice between a literal and a concatenation that repeats the literal. -/
theorem toNfa_shapedBy_repeated_choice :
    let tokens : List Token := [.literal 'a', .literal 'b', .literal 'a', .operator .concat,
      .operator .union, .operator .star]
    let tree : Expr := .star (.union (.literal 'a') (.concat (.literal 'b') (.literal 'a')))
    toNfa tokens = .ok tree.nfa ∧ tree.nfa.ShapedBy tokens :=
  ⟨rfl, toNfa_shapedBy _ _ rfl⟩

end PatternAutomata
