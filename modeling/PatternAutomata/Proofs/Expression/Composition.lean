import PatternAutomata.Proofs.Collection.Lookup
import PatternAutomata.Proofs.Expression.Postorder

/-!
# Automata are assembled from the automata of their operands

What an operator makes of its operands can be told from the automata that the operands have on
their own. The states of the left operand come first, the states of the right one follow with
their edges shifted behind them, and then the states that the operator adds; of the old states
only the ends change. So it makes no difference for an operand what stands before it.
-/

namespace PatternAutomata

namespace State

/-- The state whose edges lead `n` states further. -/
def shift (n : Nat) (s : State) : State :=
  ⟨s.accepting, s.transitions.mapValues (n + ·), s.epsilon.map (n + ·)⟩

/-- The state that no longer accepts and has its ε-edges to the targets. -/
def lead (targets : List StateId) (s : State) : State := ⟨false, s.transitions, targets⟩

@[simp] theorem shift_relay (n : Nat) (targets : List StateId) :
    (relay targets).shift n = relay (targets.map (n + ·)) := rfl

@[simp] theorem shift_reader (n : Nat) (c : Char) (target : StateId) :
    (reader c target).shift n = reader c (n + target) :=
  congrArg (State.mk false · []) (SortedMap.ext_entries rfl)

@[simp] theorem shift_isolated (n : Nat) (accepting : Bool) :
    (isolated accepting).shift n = isolated accepting := rfl

@[simp] theorem lead_isolated (targets : List StateId) (accepting : Bool) :
    (isolated accepting).lead targets = relay targets := rfl

end State

namespace Nfa

/-- The states of two automata one after the other, the edges of the second shifted with them. -/
def juxtapose (X Y : Nfa) : Array State := X.states ++ Y.states.map (State.shift X.size)

/-- One automaton, then the other: the first one's end leads to the second one's start. -/
def concat (X Y : Nfa) : Nfa :=
  ⟨(X.juxtapose Y).modify X.final (State.lead [X.size + Y.start]), X.start, X.size + Y.final⟩

/-- Either of two automata: a new start leads to both starts, and both ends to a new end. -/
def union (X Y : Nfa) : Nfa :=
  let start := X.size + Y.size
  let final := X.size + Y.size + 1
  ⟨((X.juxtapose Y).modify X.final (State.lead [final])).modify (X.size + Y.final)
      (State.lead [final]) ++ #[State.relay [X.start, X.size + Y.start], State.isolated true],
    start, final⟩

/-- An automaton any number of times: a new start and the old end lead to a new end, which is
tried first, and to the old start. -/
def star (X : Nfa) : Nfa :=
  let start := X.size
  let final := X.size + 1
  ⟨X.states.modify X.final (State.lead [final, X.start]) ++
      #[State.relay [final, X.start], State.isolated true],
    start, final⟩

end Nfa

/-- A state behind others is modified in place. -/
theorem modify_toArray {before behind : List State} {s : State} {i : Nat}
    (hi : i = before.length) (f : State → State) :
    (before ++ s :: behind).toArray.modify i f = (before ++ f s :: behind).toArray := by
  subst hi
  rw [List.modify_toArray]
  congr 1
  induction before with
  | nil => rfl
  | cons t before ih => rw [List.cons_append, List.length_cons, List.modify_succ_cons, ih]; rfl

namespace Expr

/-- A block that begins further on is entered further on. -/
theorem entry_add (e : Expr) (n base : Nat) : e.entry (n + base) = n + e.entry base := by
  induction e generalizing base with
  | literal c => rfl
  | union left right => simp only [entry]; omega
  | concat left right ihl => exact ihl base
  | star inner => simp only [entry]; omega

/-- A block that begins further on has the same states with their edges shifted. -/
theorem body_add (e : Expr) (n base : Nat) :
    e.body (n + base) = (e.body base).map (State.shift n) := by
  induction e generalizing base with
  | literal c => simp [body, Nat.add_assoc]
  | union left right ihl ihr | concat left right ihl ihr =>
    simp only [body, List.map_append, List.map_cons, List.map_nil, State.shift_relay, ← ihl, ← ihr,
      ← entry_add, Nat.add_assoc]
  | star inner ih =>
    simp only [body, List.map_append, List.map_cons, List.map_nil, State.shift_relay, ← ih,
      ← entry_add, Nat.add_assoc]

/-- The states of two expressions' automata one after the other are the blocks of the expressions
one after the other. -/
theorem juxtapose_nfa (left right : Expr) : left.nfa.juxtapose right.nfa =
    (left.body 0 ++ State.isolated true ::
      (right.body (left.span + 1) ++ [State.isolated true])).toArray := by
  have hright : right.body (left.span + 1) = (right.body 0).map (State.shift (left.span + 1)) :=
    right.body_add (left.span + 1) 0
  rw [Nfa.juxtapose, size_nfa, nfa, nfa, hright]
  simp

/-- The automaton of a concatenation is the concatenation of the automata. -/
theorem nfa_concat (left right : Expr) :
    (concat left right).nfa = left.nfa.concat right.nfa := by
  have hentry : right.entry (left.span + 1) = left.span + 1 + right.entry 0 :=
    right.entry_add (left.span + 1) 0
  rw [Nfa.concat, juxtapose_nfa, size_nfa]
  simp only [nfa, modify_toArray (left.length_body 0).symm, State.lead_isolated, body, entry, span,
    Nat.zero_add, hentry, List.append_assoc, List.cons_append]

/-- The automaton of a choice is the choice between the automata. -/
theorem nfa_union (left right : Expr) : (union left right).nfa = left.nfa.union right.nfa := by
  have hentry : right.entry (left.span + 1) = left.span + 1 + right.entry 0 :=
    right.entry_add (left.span + 1) 0
  have hover : left.span + 1 + right.span = (left.body 0 ++ State.relay
      [left.span + 1 + (right.span + 1) + 1] :: right.body (left.span + 1)).length := by
    rw [List.length_append, List.length_cons, length_body, length_body]
    omega
  simp only [Nfa.union, juxtapose_nfa, size_nfa]
  simp only [nfa, modify_toArray (left.length_body 0).symm, State.lead_isolated]
  rw [← List.cons_append, ← List.append_assoc, modify_toArray hover]
  simp [body, entry, span, hentry]

/-- The automaton of a repetition is the repetition of the automaton. -/
theorem nfa_star (inner : Expr) : (star inner).nfa = inner.nfa.star := by
  simp only [Nfa.star, size_nfa]
  simp [nfa, modify_toArray (inner.length_body 0).symm, body, entry, span]

end Expr

/-- Tokens that an automaton comes of are the postfix form of an expression, if there are any. -/
theorem exists_postorder {tokens : List Token} {nfa : Nfa} (hne : tokens ≠ [])
    (h : toNfa tokens = .ok nfa) : ∃ e : Expr, e.postorder = tokens ∧ e.nfa = nfa := by
  rcases toNfa_eq_ok_iff.mp h with ⟨hnil, -⟩ | ⟨e, he, rfl⟩
  · exact absurd hnil hne
  · exact ⟨e, he, rfl⟩

/-- What comes of two token streams with an operator behind them is put together from the
automata that come of the streams, number by number. The ends of these accept and have no edges
that could be lost. -/
theorem toNfa_composes (x y : List Token) (X Y : Nfa) (hx : x ≠ []) (hy : y ≠ [])
    (hX : toNfa x = .ok X) (hY : toNfa y = .ok Y) :
    X.states[X.final]? = some (State.isolated true) ∧
      Y.states[Y.final]? = some (State.isolated true) ∧
      toNfa (x ++ y ++ [.operator .concat]) = .ok (X.concat Y) ∧
      toNfa (x ++ y ++ [.operator .union]) = .ok (X.union Y) ∧
      toNfa (x ++ [.operator .star]) = .ok X.star := by
  obtain ⟨left, rfl, rfl⟩ := exists_postorder hx hX
  obtain ⟨right, rfl, rfl⟩ := exists_postorder hy hY
  refine ⟨left.getElem?_exit, right.getElem?_exit, ?_, ?_, ?_⟩
  · rw [← Expr.nfa_concat]
    exact (Expr.concat left right).toNfa_postorder
  · rw [← Expr.nfa_union]
    exact (Expr.union left right).toNfa_postorder
  · rw [← Expr.nfa_star]
    exact (Expr.star left).toNfa_postorder

/-- The operands are a repetition, which is entered and left at new states, and a choice, whose
start is not its first state. -/
theorem toNfa_composes_repetition_choice :
    let x : List Token := [.literal 'a', .operator .star]
    let y : List Token := [.literal 'b', .literal 'c', .operator .union]
    let X : Nfa := (Expr.star (.literal 'a')).nfa
    let Y : Nfa := (Expr.union (.literal 'b') (.literal 'c')).nfa
    x ≠ [] ∧ y ≠ [] ∧ toNfa x = .ok X ∧ toNfa y = .ok Y ∧
      X.states[X.final]? = some (State.isolated true) ∧
      Y.states[Y.final]? = some (State.isolated true) ∧
      toNfa (x ++ y ++ [.operator .concat]) = .ok (X.concat Y) ∧
      toNfa (x ++ y ++ [.operator .union]) = .ok (X.union Y) ∧
      toNfa (x ++ [.operator .star]) = .ok X.star :=
  ⟨by decide, by decide, rfl, rfl, toNfa_composes _ _ _ _ (by decide) (by decide) rfl rfl⟩

end PatternAutomata
