import PatternAutomata.Automaton.Dfa

/-!
# Discovery of the reachable subsets

States are numbered in order of discovery: the closure of the start first, then,
whenever a state is taken up, the successors of that state in order of symbol. Each set
is numbered once, and the states that wait to be taken up are taken last in, first out.
The discovery ends because every round that adds to what waits also numbers a set that
had no number, and there are finitely many sets: `advance_decreases` is that argument.
-/

namespace PatternAutomata

/-- The numbered sets and those that wait for their transitions, the next one first. -/
structure Discovery where
  states : Array DfaState
  /-- The number of a set, found by its members in increasing order. -/
  index : SortedMap (List StateId) DfaStateId
  pending : List DfaStateId
  /-- A number is found for a set exactly when it is the number of the set. -/
  indexed : ∀ (set : NatSet) (i : DfaStateId),
    index.get? set.toList = some i ↔ states[i]?.map (·.members) = some set
  deriving DecidableEq

namespace Discovery

/-- Members are compared as lists are in the standard library, whatever other orders are known. -/
local instance instLEMembers : LE (List StateId) := List.instLE

/-- Nothing numbered yet. -/
def start : Discovery where
  states := #[]
  index := ∅
  pending := []
  indexed _ _ := iff_of_false nofun nofun

/-- No number is the next one. -/
theorem ne_size_of_subset {states : Array DfaState} {i : DfaStateId} {set : NatSet}
    (h : states[i]?.map (·.members) = some set) : i ≠ states.size := by
  rintro rfl
  rw [Array.getElem?_eq_none (Nat.le_refl _)] at h
  cases h

/-- Gives a set without a number the next one, and lets it wait. -/
def add (d : Discovery) (subset : NatSet) (accepting : Bool)
    (fresh : d.index.get? subset.toList = none) : Discovery where
  states := d.states.push ⟨subset, ∅, accepting⟩
  index := d.index.insert subset.toList d.states.size
  pending := d.states.size :: d.pending
  indexed set i := by
    rw [SortedMap.get?_insert, Array.getElem?_push]
    by_cases hset : subset = set
    · subst hset
      have hold : ¬ d.states[i]?.map (·.members) = some subset := by
        rw [← d.indexed, fresh]
        exact nofun
      rw [if_pos rfl, Option.some.injEq, eq_comm]
      split
      · exact iff_of_true (by assumption) rfl
      · exact iff_of_false (by assumption) hold
    · have hkey : ¬ subset.toList = set.toList := fun h => hset (NatSet.toList_inj.mp h)
      rw [if_neg hkey, d.indexed]
      split
      · refine iff_of_false (fun h => ne_size_of_subset h (by assumption)) fun h => ?_
        exact hset (Option.some.inj h)
      · exact Iff.rfl

@[simp] theorem states_add (d : Discovery) (subset : NatSet) (accepting : Bool)
    (fresh : d.index.get? subset.toList = none) :
    (d.add subset accepting fresh).states = d.states.push ⟨subset, ∅, accepting⟩ := rfl

@[simp] theorem pending_add (d : Discovery) (subset : NatSet) (accepting : Bool)
    (fresh : d.index.get? subset.toList = none) :
    (d.add subset accepting fresh).pending = d.states.size :: d.pending := rfl

/-- Gives the state `q` its transitions. -/
def setTransitions (d : Discovery) (q : DfaStateId)
    (transitions : SortedMap Char DfaStateId) : Discovery where
  states := d.states.modify q ({ · with transitions })
  index := d.index
  pending := d.pending
  indexed set i := by
    rw [d.indexed, Array.getElem?_modify]
    split
    · rw [Option.map_map]
      exact Iff.rfl
    · exact Iff.rfl

/-- The number of a set, which is new when the set is met for the first time. -/
def number (nfa : Nfa) (d : Discovery) (subset : NatSet) :
    Except Fault (DfaStateId × Discovery) :=
  match fresh : d.index.get? subset.toList with
  | some q => .ok (q, d)
  | none => do
    let accepting ← nfa.containsAccepting subset
    pure (d.states.size, d.add subset accepting fresh)

/-- Gives the state `q` its transitions, numbering the sets that they lead to. -/
def fill (nfa : Nfa) (d : Discovery) (q : DfaStateId) : Except Fault Discovery :=
  match readAt d.states q with
  | .error fault => .error fault
  | .ok s =>
    match nfa.successors s.members with
    | .error fault => .error fault
    | .ok targets =>
      match targets.mapAccumM (number nfa) d with
      | .error fault => .error fault
      | .ok (transitions, d) =>
        .ok (d.setTransitions q transitions)

/-- Takes up the next waiting state; nothing when none waits. -/
def advance (nfa : Nfa) (d : Discovery) : Option (Except Fault Discovery) :=
  match d.pending with
  | [] => none
  | q :: pending => some (fill nfa { d with pending } q)

/-- How many sets of states of the automaton have no number. -/
def unnumbered (nfa : Nfa) (d : Discovery) : Nat :=
  (List.range (1 <<< nfa.size)).countP fun bits => d.index.get? (NatSet.mk bits).toList = none

/-- A discovery has gone on: fewer sets are without a number, or nothing has changed in
what is numbered and what waits. -/
def Goes (nfa : Nfa) (d d' : Discovery) : Prop :=
  d'.unnumbered nfa < d.unnumbered nfa ∨ (d'.index = d.index ∧ d'.pending = d.pending)

theorem Goes.trans {nfa : Nfa} {d d' d'' : Discovery} (h : Goes nfa d d')
    (h' : Goes nfa d' d'') : Goes nfa d d'' := by
  rcases h with h | ⟨hi, hw⟩
  · rcases h' with h' | ⟨hi', _⟩
    · exact Or.inl (Nat.lt_trans h' h)
    · exact Or.inl (by rwa [unnumbered, hi'])
  · rcases h' with h' | ⟨hi', hw'⟩
    · exact Or.inl (by rwa [unnumbered, unnumbered, hi] at h')
    · exact Or.inr ⟨hi'.trans hi, hw'.trans hw⟩

/-- A set of states of the automaton that gets a number is without one no more. -/
theorem unnumbered_add_lt {nfa : Nfa} {d : Discovery} {subset : NatSet} {accepting : Bool}
    (hs : ∀ q, q ∈ subset → q < nfa.size) (fresh : d.index.get? subset.toList = none) :
    (d.add subset accepting fresh).unnumbered nfa < d.unnumbered nfa := by
  refine countP_lt_countP (y := subset.bits) ?_ ?_ (decide_eq_true fresh) ?_
  · intro bits _ hnone
    rw [decide_eq_true_eq, add, SortedMap.get?_insert] at hnone
    split at hnone
    · cases hnone
    · exact decide_eq_true hnone
  · exact List.mem_range.mpr (NatSet.bits_lt_of_forall_lt hs)
  · rw [decide_eq_false_iff_not, add, SortedMap.get?_insert, if_pos rfl]
    exact Option.some_ne_none _

/-- Numbering a set of states of the automaton goes on with the discovery. -/
theorem goes_of_number {nfa : Nfa} {d : Discovery} {subset : NatSet}
    {r : DfaStateId × Discovery} (hs : ∀ q, q ∈ subset → q < nfa.size)
    (h : number nfa d subset = .ok r) : Goes nfa d r.2 := by
  unfold number at h
  split at h
  case h_1 =>
    cases h
    exact Or.inr ⟨rfl, rfl⟩
  case h_2 fresh =>
    obtain ⟨accepting, -, h⟩ := exists_of_bind_eq_ok h
    cases h
    exact Or.inl (unnumbered_add_lt hs fresh)

/-- Numbering sets of states one after another goes on with the discovery. -/
theorem goes_of_accumulate {nfa : Nfa} {d : Discovery} {subsets : List NatSet}
    {r : List DfaStateId × Discovery} (hs : ∀ subset ∈ subsets, ∀ q, q ∈ subset → q < nfa.size)
    (h : SortedMap.accumulate (number nfa) d subsets = .ok r) : Goes nfa d r.2 := by
  induction subsets generalizing d r with
  | nil =>
    cases h
    exact Or.inr ⟨rfl, rfl⟩
  | cons subset subsets ih =>
    obtain ⟨q, d₁, rest, hn, ha, -⟩ := SortedMap.exists_of_accumulate_cons h
    have hfirst : Goes nfa d d₁ := goes_of_number (hs subset List.mem_cons_self) hn
    have hrest := ih (fun s hmem => hs s (List.mem_cons_of_mem _ hmem)) ha
    exact hfirst.trans hrest

/-- Filling a state's transitions goes on with the discovery. -/
theorem goes_of_fill {nfa : Nfa} {d d' : Discovery} {q : DfaStateId}
    (h : fill nfa d q = .ok d') : Goes nfa d d' := by
  unfold fill at h
  split at h
  · cases h
  · rename_i s hs
    split at h
    · cases h
    · rename_i targets ht
      split at h
      · cases h
      · rename_i transitions d1 hm
        cases h
        obtain ⟨⟨ids, d2⟩, ha, hm⟩ := exists_of_bind_eq_ok hm
        cases hm
        have hgoes := goes_of_accumulate
          (fun set hset _ hq => Nfa.lt_size_of_mem_successors ht hset hq) ha
        exact hgoes.trans (Or.inr ⟨rfl, rfl⟩)

/-- Taking up a waiting state leaves fewer sets without a number, or fewer states
waiting. -/
theorem advance_decreases {nfa : Nfa} {d d' : Discovery} (h : advance nfa d = some (.ok d')) :
    Prod.Lex (· < ·) (· < ·) (d'.unnumbered nfa, d'.pending.length)
      (d.unnumbered nfa, d.pending.length) := by
  unfold advance at h
  split at h
  · cases h
  · rename_i q pending hp
    rcases goes_of_fill (Option.some.inj h) with hlt | ⟨hindex, hpend⟩
    · exact Prod.Lex.left _ _ hlt
    · have hu : d'.unnumbered nfa = d.unnumbered nfa := by
        rw [unnumbered, hindex]
        rfl
      rw [hu, hpend, hp]
      exact Prod.Lex.right _ (Nat.lt_succ_self _)

/-- Takes up waiting states until none waits. -/
def run (nfa : Nfa) (d : Discovery) : Except Fault Discovery :=
  match _ : advance nfa d with
  | none => .ok d
  | some (.error fault) => .error fault
  | some (.ok d') => run nfa d'
termination_by (d.unnumbered nfa, d.pending.length)
decreasing_by
  rename_i h
  exact advance_decreases h

end Discovery

/-- The deterministic automaton of the subsets that are reachable from the closure of
the start. -/
def Dfa.ofNfa (nfa : Nfa) : Except Fault Dfa := do
  let (start, d) ← Discovery.start.number nfa (← nfa.close nfa.start)
  let d ← d.run nfa
  pure ⟨d.states, start⟩

end PatternAutomata
