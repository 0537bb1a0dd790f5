import PatternAutomata.Automaton.Nfa

/-!
# Depth-first search over the runs of an automaton

A branch of the search is a state and an input position. A transition on the symbol at
the position is followed at once, and the ε-edges of a state are tried only where it
has no such transition, the first edge first. One set for each position holds the
states already explored there, and following a transition clears the set of the next
position. The search ends although sets are cleared again and again: read as the digits
of one number, the earliest position first, the counts of unexplored states only fall.
-/

namespace PatternAutomata.DepthFirst

/-- The explored states of each position, and the branches that wait, the next first. -/
structure Config where
  visited : Array NatSet
  pending : List (StateId × Nat)
  deriving DecidableEq

/-- What one round of the search comes to. -/
inductive Round
  | onward (config : Config)
  | answer (accepted : Bool)
  deriving DecidableEq

/-- Puts the ε-edges of a state on top of the branches, the first edge topmost. -/
def pushEpsilon (s : State) (position : Nat) (pending : List (StateId × Nat)) :
    List (StateId × Nat) :=
  s.epsilon.map (·, position) ++ pending

/-- Follows a transition to the next position, whose explored states are forgotten. -/
def follow (visited : Array NatSet) (target : StateId) (position : Nat)
    (pending : List (StateId × Nat)) : Except Fault Round :=
  if position + 1 < visited.size then
    .ok (.onward ⟨visited.setIfInBounds (position + 1) ∅, (target, position + 1) :: pending⟩)
  else .error (.indexOutOfRange visited.size (position + 1))

/-- Explores a state that has not been explored at the position before. -/
def explore (word : Array Char) (visited : Array NatSet) (s : State) (position : Nat)
    (pending : List (StateId × Nat)) : Except Fault Round :=
  match word[position]? with
  | none =>
    if s.accepting then .ok (.answer true)
    else .ok (.onward ⟨visited, pushEpsilon s position pending⟩)
  | some c =>
    match s.transitions.get? c with
    | some target => follow visited target position pending
    | none => .ok (.onward ⟨visited, pushEpsilon s position pending⟩)

/-- One round: takes up the next branch. -/
def advance (nfa : Nfa) (word : Array Char) : Config → Except Fault Round
  | ⟨_, []⟩ => .ok (.answer false)
  | ⟨visited, (q, position) :: pending⟩ =>
    match visited[position]? with
    | none => .error (.indexOutOfRange visited.size position)
    | some explored =>
      if q ∈ explored then .ok (.onward ⟨visited, pending⟩)
      else
        match nfa.state q with
        | .error fault => .error fault
        | .ok s =>
          explore word (visited.setIfInBounds position (explored.insert q)) s position pending

/-- The counts of unexplored states among `n`, read as one number whose digits are the
counts, the earliest position first. -/
def weight (n : Nat) : List NatSet → Nat
  | [] => 0
  | s :: rest => s.absentBelow n * Nat.pow (n + 1) rest.length + weight n rest

/-- Fewer unexplored states at one position weigh less. -/
theorem weight_set_lt {n : Nat} {sets : List NatSet} {i : Nat} {s t : NatSet}
    (hi : sets[i]? = some s) (h : t.absentBelow n < s.absentBelow n) :
    weight n (sets.set i t) < weight n sets := by
  induction sets generalizing i with
  | nil => exact absurd hi (by simp only [List.getElem?_nil, reduceCtorEq, not_false_eq_true])
  | cons u rest ih =>
    cases i with
    | zero =>
      cases hi
      simp only [List.set_cons_zero, weight]
      exact Nat.add_lt_add_right
        (Nat.mul_lt_mul_of_pos_right h (Nat.pow_pos (Nat.succ_pos n))) _
    | succ i =>
      simp only [List.set_cons_succ, weight, List.length_set]
      exact Nat.add_lt_add_left (ih hi) _

/-- One explored state more at a position outweighs all states of the next position. -/
theorem weight_set_set_lt {n : Nat} {sets : List NatSet} {i : Nat} {s t u : NatSet}
    (hi : sets[i]? = some s) (h : t.absentBelow n < s.absentBelow n) :
    weight n ((sets.set i t).set (i + 1) u) < weight n sets := by
  induction sets generalizing i with
  | nil => exact absurd hi (by simp only [List.getElem?_nil, reduceCtorEq, not_false_eq_true])
  | cons v rest ih =>
    cases i with
    | zero =>
      cases hi
      cases rest with
      | nil =>
        simp only [List.set_cons_zero, List.set_cons_succ, List.set_nil, weight]
        exact Nat.add_lt_add_right
          (Nat.mul_lt_mul_of_pos_right h (Nat.pow_pos (Nat.succ_pos n))) _
      | cons w rest =>
        have hpos : 0 < Nat.pow (n + 1) rest.length := Nat.pow_pos (Nat.succ_pos n)
        have hpow : Nat.pow (n + 1) (rest.length + 1) = Nat.pow (n + 1) rest.length * (n + 1) := rfl
        simp only [List.set_cons_zero, List.set_cons_succ, weight, List.length_cons, hpow]
        generalize Nat.pow (n + 1) rest.length = x at hpos
        have hu : u.absentBelow n * x ≤ n * x := Nat.mul_le_mul_right x (u.absentBelow_le n)
        have hs : (t.absentBelow n + 1) * (x * (n + 1)) ≤ s.absentBelow n * (x * (n + 1)) :=
          Nat.mul_le_mul_right _ h
        have hx1 : x * (n + 1) = n * x + x := by rw [Nat.mul_succ, Nat.mul_comm]
        rw [Nat.add_mul, Nat.one_mul] at hs
        omega
    | succ i =>
      simp only [List.set_cons_succ, weight, List.length_set]
      exact Nat.add_lt_add_left (ih hi) _

/-- A round that goes on weighs less, or leaves fewer branches waiting. -/
theorem advance_decreases {nfa : Nfa} {word : Array Char} {c c' : Config}
    (h : advance nfa word c = .ok (.onward c')) :
    Prod.Lex (· < ·) (· < ·) (weight nfa.size c'.visited.toList, c'.pending.length)
      (weight nfa.size c.visited.toList, c.pending.length) := by
  unfold advance at h
  split at h
  · cases h
  · rename_i visited q position pending
    split at h
    · cases h
    · rename_i explored hv
      split at h
      · cases h
        exact Prod.Lex.right _ (Nat.lt_succ_self _)
      · rename_i hnot
        split at h
        · cases h
        · rename_i s hs
          have hlt : (explored.insert q).absentBelow nfa.size < explored.absentBelow nfa.size :=
            NatSet.absentBelow_insert_lt (lt_size_of_readAt hs) hnot
          have hv' : visited.toList[position]? = some explored := by
            rw [Array.getElem?_toList, hv]
          unfold explore at h
          split at h
          · split at h
            · cases h
            · cases h
              exact Prod.Lex.left _ _ (by
                rw [Array.toList_setIfInBounds]
                exact weight_set_lt hv' hlt)
          · split at h
            · unfold follow at h
              split at h
              · cases h
                exact Prod.Lex.left _ _ (by
                  rw [Array.toList_setIfInBounds, Array.toList_setIfInBounds]
                  exact weight_set_set_lt hv' hlt)
              · cases h
            · cases h
              exact Prod.Lex.left _ _ (by
                rw [Array.toList_setIfInBounds]
                exact weight_set_lt hv' hlt)

/-- Takes up branches until the search has an answer. -/
def run (nfa : Nfa) (word : Array Char) (c : Config) : Except Fault Bool :=
  match _ : advance nfa word c with
  | .error fault => .error fault
  | .ok (.answer accepted) => .ok accepted
  | .ok (.onward c') => run nfa word c'
termination_by (weight nfa.size c.visited.toList, c.pending.length)
decreasing_by
  rename_i h
  exact advance_decreases h

/-- Searches for an accepting run with the given sets, one for each input position. -/
def search (nfa : Nfa) (word : Array Char) (visited : Array NatSet) : Except Fault Bool :=
  if visited.size = word.size + 1 then
    run nfa word ⟨visited.setIfInBounds 0 ∅, [(nfa.start, 0)]⟩
  else .error (.bufferMismatch visited.size (word.size + 1))

/-- Searches for an accepting run that reads the word. -/
def accepts (nfa : Nfa) (word : List Char) : Except Fault Bool :=
  search nfa word.toArray (Array.replicate (word.length + 1) ∅)

end PatternAutomata.DepthFirst
