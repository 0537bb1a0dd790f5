import PatternAutomata.Automaton.Nfa

/-!
# Sets of states that runs can be in

Before and after every symbol an automaton may follow ε-edges. `close` gathers all
states that a list of states leads to in this way, with a stack of states still to be
visited; it ends on every automaton because each visit that is not skipped adds a state
of the arena to the closure. Reading one symbol from a set of states is `step`, and
`successors` is the same for all symbols at once, with every result closed.
-/

namespace PatternAutomata.Nfa

/-- Puts the targets that are not in `closure` on top of the stack, the last one topmost. -/
def pushFresh (closure : NatSet) (targets stack : List StateId) : List StateId :=
  (targets.filter (decide <| · ∉ closure)).reverse ++ stack

/-- Visits the states on the stack, the topmost first, and adds to `closure` all states
they lead to by ε-edges. -/
def closeFrom (nfa : Nfa) (closure : NatSet) : List StateId → Except Fault NatSet
  | [] => .ok closure
  | q :: stack =>
    if q ∈ closure then closeFrom nfa closure stack
    else
      match _ : nfa.state q with
      | .error fault => .error fault
      | .ok s => closeFrom nfa (closure.insert q) (pushFresh (closure.insert q) s.epsilon stack)
termination_by stack => (closure.absentBelow nfa.size, stack.length)
decreasing_by
  · exact Prod.Lex.right _ (Nat.lt_succ_self _)
  · rename_i hnot hq
    exact Prod.Lex.left _ _ (NatSet.absentBelow_insert_lt (lt_size_of_readAt hq) hnot)

/-- All states that the listed states lead to by ε-edges, themselves included. -/
def closeAll (nfa : Nfa) (qs : List StateId) : Except Fault NatSet := nfa.closeFrom ∅ qs.reverse

/-- All states that one state leads to by ε-edges, itself included. -/
def close (nfa : Nfa) (q : StateId) : Except Fault NatSet := nfa.closeAll [q]

/-- A closure holds only states of the automaton, but for what it was started with. -/
theorem lt_size_of_mem_closeFrom {nfa : Nfa} {closure : NatSet} {stack : List StateId}
    {result : NatSet} (h : nfa.closeFrom closure stack = .ok result) {q : StateId}
    (hq : q ∈ result) : q ∈ closure ∨ q < nfa.size := by
  fun_induction closeFrom nfa closure stack with
  | case1 => exact Or.inl (Except.ok.inj h ▸ hq)
  | case2 _ _ _ _ ih => exact ih h
  | case3 => exact absurd h (by simp only [reduceCtorEq, not_false_eq_true])
  | case4 closure p stack _ s hp ih =>
    rcases ih h with hm | hm
    · rcases NatSet.mem_insert.mp hm with hm | hm
      · exact Or.inr (hm ▸ lt_size_of_readAt hp)
      · exact Or.inl hm
    · exact Or.inr hm

/-- A closure holds only states of the automaton. -/
theorem lt_size_of_mem_closeAll {nfa : Nfa} {qs : List StateId} {result : NatSet}
    (h : nfa.closeAll qs = .ok result) {q : StateId} (hq : q ∈ result) : q < nfa.size :=
  (lt_size_of_mem_closeFrom h hq).resolve_left (NatSet.not_mem_empty q)

/-- Adds to `reached` what the listed states reach by reading `c`. -/
def stepFrom (nfa : Nfa) (c : Char) (reached : NatSet) : List StateId → Except Fault NatSet
  | [] => .ok reached
  | q :: rest => do
    match ← nfa.transition q c with
    | some target => stepFrom nfa c (reached.insert target) rest
    | none => stepFrom nfa c reached rest

/-- The states reached from a set by reading `c`, without their ε-edges. -/
def step (nfa : Nfa) (states : NatSet) (c : Char) : Except Fault NatSet :=
  nfa.stepFrom c ∅ states.toList

/-- Adds a target to what a symbol leads to. -/
def addTarget (targets : SortedMap Char NatSet) (edge : Char × StateId) :
    SortedMap Char NatSet :=
  targets.insert edge.1 (((targets.get? edge.1).getD ∅).insert edge.2)

/-- Adds to `targets` what each symbol leads to from the listed states. -/
def targetsFrom (nfa : Nfa) (targets : SortedMap Char NatSet) :
    List StateId → Except Fault (SortedMap Char NatSet)
  | [] => .ok targets
  | q :: rest => do
    let s ← nfa.state q
    targetsFrom nfa (s.transitions.entries.foldl addTarget targets) rest

/-- For every symbol that can be read from a set of states, all states it leads to,
those behind ε-edges included. -/
def successors (nfa : Nfa) (states : NatSet) : Except Fault (SortedMap Char NatSet) := do
  let targets ← nfa.targetsFrom ∅ states.toList
  targets.mapValuesM fun set => nfa.closeAll set.toList

/-- What a symbol leads to holds only states of the automaton. -/
theorem lt_size_of_mem_successors {nfa : Nfa} {states : NatSet} {targets : SortedMap Char NatSet}
    (h : nfa.successors states = .ok targets) {set : NatSet} (hset : set ∈ targets.values)
    {q : StateId} (hq : q ∈ set) : q < nfa.size := by
  obtain ⟨unclosed, -, h⟩ := exists_of_bind_eq_ok h
  obtain ⟨_, _, hclose⟩ := SortedMap.exists_of_mem_mapValuesM h hset
  exact lt_size_of_mem_closeAll hclose hq

/-- Some listed state accepts; the states after the first such one are not read. -/
def anyAccepting (nfa : Nfa) : List StateId → Except Fault Bool
  | [] => .ok false
  | q :: rest => do
    if ← nfa.isAccepting q then pure true else anyAccepting nfa rest

/-- Some state of a set accepts. -/
def containsAccepting (nfa : Nfa) (states : NatSet) : Except Fault Bool :=
  nfa.anyAccepting states.toList

end PatternAutomata.Nfa
