import PatternAutomata.Proofs.Recognizer.DepthFirst

/-!
# The depth-first search ends

Sets of explored states are cleared again and again, and a branch may be explored many times,
so no single count falls. But a set is cleared only when a state has been explored at the
position before it. Read as the digits of one number, the earliest position first, the counts
of unexplored states fall whenever a state is explored, and all other rounds take a branch away.
Weighing the number by the branches that one state can add, every round lowers one potential,
and the potential at the beginning bounds the number of rounds.
-/

namespace PatternAutomata

/-- The most branches that exploring a state adds: its ε-edges, or one transition. -/
def Nfa.branching (nfa : Nfa) : Nat := (nfa.states.toList.map (·.epsilon.length)).foldr max 1

/-- A state has no more ε-edges than the branching. -/
theorem Nfa.length_epsilon_le {nfa : Nfa} {s : State} (hs : s ∈ nfa.states) :
    s.epsilon.length ≤ nfa.branching := by
  have hmem : s.epsilon.length ∈ nfa.states.toList.map (·.epsilon.length) :=
    List.mem_map_of_mem (Array.mem_toList_iff.mpr hs)
  rw [branching]
  generalize nfa.states.toList.map (·.epsilon.length) = lengths at hmem
  induction lengths with
  | nil => cases hmem
  | cons n lengths ih =>
    rcases List.mem_cons.mp hmem with h | h
    · exact h ▸ le_max_left _ _
    · exact (ih h).trans (le_max_right _ _)

theorem Nfa.one_le_branching (nfa : Nfa) : 1 ≤ nfa.branching := by
  rw [branching]
  generalize nfa.states.toList.map (·.epsilon.length) = lengths
  induction lengths with
  | nil => exact le_rfl
  | cons n lengths ih => exact ih.trans (le_max_right _ _)

namespace DepthFirst

variable {nfa : Nfa} {word : List Char}

/-- The counts of unexplored states, read as one number, stay below the number of digits. -/
theorem weight_lt_pow (n : Nat) (sets : List NatSet) :
    weight n sets < Nat.pow (n + 1) sets.length := by
  induction sets with
  | nil => exact Nat.zero_lt_one
  | cons s sets ih =>
    have hs : s.absentBelow n * Nat.pow (n + 1) sets.length ≤
        n * Nat.pow (n + 1) sets.length := Nat.mul_le_mul_right _ (s.absentBelow_le n)
    calc weight n (s :: sets)
        < n * Nat.pow (n + 1) sets.length + Nat.pow (n + 1) sets.length :=
          Nat.add_lt_add_of_le_of_lt hs ih
      _ = (n + 1) * Nat.pow (n + 1) sets.length := (Nat.succ_mul _ _).symm
      _ = Nat.pow (n + 1) (sets.length + 1) := Nat.mul_comm _ _

/-- The most rounds that can follow. -/
def potential (nfa : Nfa) (config : Config) : Nat :=
  nfa.branching * weight nfa.size config.visited.toList + config.pending.length

/-- Exploring a state lowers the potential, if the counts fall and no more branches are added
than one state can add. -/
theorem potential_lt {visited visited' : Array NatSet} {branch : StateId × Nat}
    {fresh pending : List (StateId × Nat)}
    (hweight : weight nfa.size visited'.toList < weight nfa.size visited.toList)
    (hfresh : fresh.length ≤ nfa.branching) :
    potential nfa ⟨visited', fresh ++ pending⟩ < potential nfa ⟨visited, branch :: pending⟩ := by
  have hmul : nfa.branching * (weight nfa.size visited'.toList + 1) ≤
      nfa.branching * weight nfa.size visited.toList := Nat.mul_le_mul_left _ hweight
  rw [Nat.mul_add, Nat.mul_one] at hmul
  simp only [potential, List.length_append, List.length_cons]
  omega

/-- Every round lowers the potential. -/
theorem Takes.potential_lt {visited : Array NatSet} {q : StateId} {i : Nat}
    {pending : List (StateId × Nat)} {config : Config}
    (h : Takes nfa word visited q i pending (.onward config)) :
    potential nfa config < potential nfa ⟨visited, (q, i) :: pending⟩ := by
  cases h with
  | skip => exact Nat.lt_succ_self _
  | @read explored c t hold hq hc hr =>
    obtain ⟨s, hs, -⟩ := hr
    have hlt : (explored.insert q).absentBelow nfa.size < explored.absentBelow nfa.size :=
      NatSet.absentBelow_insert_lt (Array.getElem?_eq_some_iff.mp hs).1 hq
    have hfresh : [(t, i + 1)].length ≤ nfa.branching := nfa.one_le_branching
    refine DepthFirst.potential_lt ?_ hfresh
    rw [Array.toList_setIfInBounds, Array.toList_setIfInBounds]
    exact weight_set_set_lt (by rwa [Array.getElem?_toList]) hlt
  | @jump explored s hold hq hs _ _ =>
    have hlt : (explored.insert q).absentBelow nfa.size < explored.absentBelow nfa.size :=
      NatSet.absentBelow_insert_lt (Array.getElem?_eq_some_iff.mp hs).1 hq
    refine DepthFirst.potential_lt ?_ ?_
    · rw [Array.toList_setIfInBounds]
      exact weight_set_lt (by rwa [Array.getElem?_toList]) hlt
    · rw [List.length_map]
      exact Nfa.length_epsilon_le (Array.mem_of_getElem? hs)

/-- A search has its answer after so many rounds, the last one included. -/
inductive AnswersAfter (nfa : Nfa) (word : Array Char) : Nat → Config → Bool → Prop
  | answer {c : Config} {b : Bool} : advance nfa word c = .ok (.answer b) →
    AnswersAfter nfa word 1 c b
  | onward {c c' : Config} {n : Nat} {b : Bool} : advance nfa word c = .ok (.onward c') →
    AnswersAfter nfa word n c' b → AnswersAfter nfa word (n + 1) c b

/-- The rounds of a search end, and their number is bounded by the potential. -/
theorem exists_answersAfter (h : nfa.InRange) {explored : StateId × Nat → Prop} {config : Config}
    (hs : Sound nfa word explored config) :
    ∃ n b, n ≤ potential nfa config + 1 ∧ AnswersAfter nfa word.toArray n config b := by
  induction hp : potential nfa config using Nat.strong_induction_on
    generalizing explored config with
  | _ p ih =>
    subst hp
    rcases hs.round with ⟨visited, rfl, hok⟩ | ⟨visited, q, i, pending, r, rfl, hok, htakes⟩
    · exact ⟨1, false, Nat.le_add_left 1 _, .answer hok⟩
    · cases r with
      | answer b => exact ⟨1, b, Nat.le_add_left 1 _, .answer hok⟩
      | onward config =>
        have hlt := htakes.potential_lt
        obtain ⟨n, b, hn, hafter⟩ := ih _ hlt (hs.onward h htakes) rfl
        exact ⟨n + 1, b, by omega, .onward hok hafter⟩

/-- What the rounds come to is what the search answers. -/
theorem AnswersAfter.run_eq {word : Array Char} {n : Nat} {config : Config} {b : Bool}
    (h : AnswersAfter nfa word n config b) : run nfa word config = .ok b := by
  induction h with
  | answer hok => rw [run_of_round, hok]
  | onward hok _ ih =>
    rw [run_of_round, hok]
    exact ih

/-- The search ends on every automaton in range and every word, whatever its sets hold at first:
so many rounds lead to its answer, and what their number is at most depends on the automaton and
the length of the word alone. -/
theorem search_answersAfter (nfa : Nfa) (h : nfa.InRange) (word : List Char)
    (visited : Array NatSet) (hsize : visited.size = word.length + 1) :
    ∃ n b, n ≤ nfa.branching * Nat.pow (nfa.size + 1) (word.length + 1) + 1 ∧
      AnswersAfter nfa word.toArray n ⟨visited.setIfInBounds 0 ∅, [(nfa.start, 0)]⟩ b ∧
      search nfa word.toArray visited = .ok b := by
  obtain ⟨n, b, hn, hafter⟩ := exists_answersAfter h (sound_initial h hsize)
  refine ⟨n, b, hn.trans (Nat.add_le_add_right ?_ 1), hafter, ?_⟩
  · have hweight := weight_lt_pow nfa.size (visited.setIfInBounds 0 ∅).toList
    rw [Array.length_toList, Array.size_setIfInBounds, hsize] at hweight
    calc potential nfa ⟨visited.setIfInBounds 0 ∅, [(nfa.start, 0)]⟩
        ≤ nfa.branching * weight nfa.size (visited.setIfInBounds 0 ∅).toList + nfa.branching :=
          Nat.add_le_add_left nfa.one_le_branching _
      _ = nfa.branching * (weight nfa.size (visited.setIfInBounds 0 ∅).toList + 1) :=
          (Nat.mul_succ _ _).symm
      _ ≤ nfa.branching * Nat.pow (nfa.size + 1) (word.length + 1) := Nat.mul_le_mul_left _ hweight
  · have hsize' : visited.size = word.toArray.size + 1 := hsize
    rw [search, if_pos hsize']
    exact hafter.run_eq

/-- A search with states left in its sets, on an automaton with an ε-cycle, an ε-loop and a
repeated ε-edge. -/
theorem tangled_answersAfter : Nfa.tangled.InRange ∧
    (Array.replicate 3 ((∅ : NatSet).insert 1)).size = ['a', 'b'].length + 1 ∧
    ∃ n b, n ≤ Nfa.tangled.branching * Nat.pow (Nfa.tangled.size + 1) (['a', 'b'].length + 1) + 1 ∧
      AnswersAfter Nfa.tangled ['a', 'b'].toArray n
        ⟨(Array.replicate 3 ((∅ : NatSet).insert 1)).setIfInBounds 0 ∅, [(Nfa.tangled.start, 0)]⟩
        b ∧
      search Nfa.tangled ['a', 'b'].toArray (Array.replicate 3 ((∅ : NatSet).insert 1)) = .ok b :=
  ⟨by decide, rfl, search_answersAfter Nfa.tangled (by decide) ['a', 'b'] _ rfl⟩

end DepthFirst

end PatternAutomata
