import PatternAutomata.Proofs.Automaton.RenamedSubsets
import PatternAutomata.Proofs.Recognizer.DepthFirst

/-!
# Names of states and the order of ε-edges cannot be observed

A search takes up ε-edges in their order, and a discovery numbers sets by looking them up
among the numbered ones. Neither order nor names show in what comes out: a renaming carries
the moves of a search over, and the search answers by what its moves reach; the simulation
answers by runs, and the deterministic automata are the same but for names.
-/

namespace PatternAutomata

open Relation

variable {f : StateId → StateId} {A B : Nfa}

namespace DepthFirst

variable {word : List Char}

/-- The moves from a renamed node lead to the images of where the moves led. -/
theorem edge_image_iff (h : Nfa.Renames f A B) (hA : A.InRange) (hB : B.InRange)
    {a : StateId × Nat} (ha : a.1 < A.size) (y : StateId × Nat) :
    Edge B word (Prod.map f id a) y ↔ ∃ b, Edge A word a b ∧ Prod.map f id b = y := by
  obtain ⟨p, i⟩ := a
  have hreads := fun c => h.reads_image_iff hA hB ha c
  -- a renamed state is without a transition exactly where the state is
  have hstuck : (∃ c, word[i]? = some c ∧ ∀ t, ¬ B.Reads (f p) c t) ↔
      ∃ c, word[i]? = some c ∧ ∀ t, ¬ A.Reads p c t := by
    refine exists_congr fun c => and_congr_right fun _ => ⟨fun hno t ht => ?_, fun hno r hr => ?_⟩
    · exact hno (f t) ((hreads c (f t)).mpr ⟨t, ht, rfl⟩)
    · obtain ⟨t, ht, -⟩ := (hreads c r).mp hr
      exact hno t ht
  constructor
  · intro he
    cases he with
    | read hc hr =>
      obtain ⟨q, hq, rfl⟩ := (hreads _ _).mp hr
      exact ⟨(q, i + 1), .read hc hq, rfl⟩
    | jump hj hno =>
      obtain ⟨q, hq, rfl⟩ := (h.jumps_iff p ha _).mp hj
      exact ⟨(q, i), .jump hq (hno.imp id hstuck.mp), rfl⟩
  · rintro ⟨b, he, rfl⟩
    cases he with
    | read hc hr => exact .read hc ((hreads _ _).mpr ⟨_, hr, rfl⟩)
    | jump hj hno => exact .jump ((h.jumps_iff p ha _).mpr ⟨_, hj, rfl⟩) (hno.imp id hstuck.mpr)

/-- What the search can reach from the renamed start are the images of what it could reach. -/
theorem edges_image_iff (h : Nfa.Renames f A B) (hA : A.InRange) (hB : B.InRange)
    (y : StateId × Nat) : ReflTransGen (Edge B word) (B.start, 0) y ↔
      ∃ b, ReflTransGen (Edge A word) (A.start, 0) b ∧ Prod.map f id b = y := by
  have hinside : ∀ a b : StateId × Nat, a.1 < A.size ∧ a.2 ≤ word.length → Edge A word a b →
      b.1 < A.size ∧ b.2 ≤ word.length := fun a b ha he => he.lt hA ha.2
  have hstart : Prod.map f id (A.start, 0) = (B.start, 0) := congrArg (·, 0) h.start
  rw [← hstart]
  exact reflTransGen_image_iff hinside (fun a ha => edge_image_iff h hA hB ha.1)
    ⟨hA.start_lt, Nat.zero_le _⟩ y

/-- The search gives the same answer on the renamed automaton. -/
theorem exists_accepts_of_renames (h : Nfa.Renames f A B) (hA : A.InRange) (hB : B.InRange)
    (word : List Char) : ∃ b, accepts A word = .ok b ∧ accepts B word = .ok b := by
  obtain ⟨a, ha, hiffA⟩ := exists_accepts hA word
  obtain ⟨b, hb, hiffB⟩ := exists_accepts hB word
  have hlt : ∀ {q}, ReflTransGen (Edge A word) (A.start, 0) (q, word.length) → q < A.size :=
    fun hq => hA.run_lt hA.start_lt (run_of_edges hq)
  have hsame : b = true ↔ a = true := by
    rw [hiffA, hiffB]
    constructor
    · rintro ⟨r, hreach, hacc⟩
      obtain ⟨⟨q, i⟩, hq, himage⟩ := (edges_image_iff h hA hB _).mp hreach
      cases himage
      exact ⟨q, hq, (h.accepting_iff q (hlt hq)).mp hacc⟩
    · rintro ⟨q, hq, hacc⟩
      have hreach := (edges_image_iff h hA hB _).mpr ⟨_, hq, rfl⟩
      exact ⟨f q, hreach, (h.accepting_iff q (hlt hq)).mpr hacc⟩
  exact ⟨a, ha, Bool.eq_iff_iff.mpr hsame ▸ hb⟩

end DepthFirst

/-- The simulation gives the same answer on the renamed automaton. -/
theorem Simulation.exists_accepts_of_renames (h : Nfa.Renames f A B) (hA : A.InRange)
    (hB : B.InRange) (word : List Char) :
    ∃ b, Simulation.accepts A word = .ok b ∧ Simulation.accepts B word = .ok b := by
  obtain ⟨a, ha, hiffA⟩ := Simulation.exists_accepts hA word
  obtain ⟨b, hb, hiffB⟩ := Simulation.exists_accepts hB word
  have hsame : b = true ↔ a = true := by rw [hiffA, hiffB, h.recognizes_iff hA hB]
  exact ⟨a, ha, Bool.eq_iff_iff.mpr hsame ▸ hb⟩

/-- Neither the names of states nor the order and repetitions of ε-edges can be observed. The
deterministic automata have the same numbers, and under each number the same flag, the same
transitions, and a set of the renamed states; and every recognizer gives the same answer. -/
theorem names_unobservable (A B : Nfa) (f : StateId → StateId) (hA : A.InRange) (hB : B.InRange)
    (h : Nfa.Renames f A B) :
    ∃ dfaA dfaB : Dfa, Dfa.ofNfa A = .ok dfaA ∧ Dfa.ofNfa B = .ok dfaB ∧
      dfaB.size = dfaA.size ∧ dfaB.start = dfaA.start ∧
      (∀ (i : DfaStateId) (s t : DfaState), dfaA.states[i]? = some s →
        dfaB.states[i]? = some t → t.accepting = s.accepting ∧ t.transitions = s.transitions ∧
        ∀ r, r ∈ t.members ↔ ∃ q, q ∈ s.members ∧ f q = r) ∧
      ∀ word,
        (∃ b, dfaA.accepts word = .ok b ∧ dfaB.accepts word = .ok b) ∧
        (∃ b, Simulation.accepts A word = .ok b ∧ Simulation.accepts B word = .ok b) ∧
        ∃ b, DepthFirst.accepts A word = .ok b ∧ DepthFirst.accepts B word = .ok b := by
  obtain ⟨dfa, hdfaA, hdfaB⟩ := Dfa.exists_ofNfa_rename h hA hB
  have hsize : (dfa.rename f).size = dfa.size := Array.size_map
  refine ⟨dfa, dfa.rename f, hdfaA, hdfaB, hsize, rfl, ?_, fun word => ⟨?_, ?_, ?_⟩⟩
  · intro i s t hs ht
    change (dfa.states.map _)[i]? = some t at ht
    rw [Array.getElem?_map, hs] at ht
    cases ht
    exact ⟨rfl, rfl, fun r => NatSet.mem_image⟩
  · obtain ⟨dfa', hdfa', hrep⟩ := Dfa.exists_ofNfa hA
    cases hdfa'.symm.trans hdfaA
    obtain ⟨b, hb, -⟩ := hrep.exists_accepts word
    exact ⟨b, hb, by rw [Dfa.accepts_rename, hb]⟩
  · exact Simulation.exists_accepts_of_renames h hA hB word
  · exact DepthFirst.exists_accepts_of_renames h hA hB word

/-- An automaton with the states of `tangled` in the opposite order, each ε-edge once and in
another order. -/
def Nfa.tangledRenamed : Nfa :=
  ⟨#[⟨true, ∅, []⟩, ⟨false, .ofList [('a', 0)], []⟩, ⟨false, .ofList [('b', 2)], [3]⟩,
    ⟨false, .ofList [('a', 2)], [1, 3, 2]⟩], 3, 0⟩

/-- The states of `tangledRenamed` are those of `tangled` in the opposite order. -/
theorem Nfa.tangled_renames : Renames (3 - ·) tangled tangledRenamed := by
  have hcases : ∀ {q : Nat}, q < 4 → q = 0 ∨ q = 1 ∨ q = 2 ∨ q = 3 := by
    intro q hq
    omega
  have hmaps : Set.MapsTo (3 - · : Nat → Nat) (Set.Iio 4) (Set.Iio 4) := by
    intro q _
    exact Nat.lt_succ_of_le (Nat.sub_le 3 q)
  have hself : Set.LeftInvOn (3 - · : Nat → Nat) (3 - ·) (Set.Iio 4) := by
    intro q hq
    exact Nat.sub_sub_self (Nat.le_of_lt_succ hq)
  refine ⟨Set.InvOn.bijOn ⟨hself, hself⟩ hmaps hmaps, rfl, fun q hq => ?_,
    fun p hp q hq c => ?_, fun p hp r => ?_⟩
  · rcases hcases hq with rfl | rfl | rfl | rfl <;> simp [Accepting, tangled, tangledRenamed]
  · rcases hcases hp with rfl | rfl | rfl | rfl <;> rcases hcases hq with rfl | rfl | rfl | rfl <;>
      simp [Reads, tangled, tangledRenamed, SortedMap.ofList, SortedMap.get?_insert]
  · rcases hcases hp with rfl | rfl | rfl | rfl <;>
      simp [Jumps, tangled, tangledRenamed, eq_comm, or_comm, or_left_comm, or_assoc]

/-- The two automata cannot be told apart. -/
theorem tangled_names_unobservable :
    Nfa.tangled.InRange ∧ Nfa.tangledRenamed.InRange ∧
      Nfa.Renames (3 - ·) Nfa.tangled Nfa.tangledRenamed ∧
      ∃ dfaA dfaB : Dfa, Dfa.ofNfa Nfa.tangled = .ok dfaA ∧
        Dfa.ofNfa Nfa.tangledRenamed = .ok dfaB ∧
        dfaB.size = dfaA.size ∧ dfaB.start = dfaA.start ∧
        (∀ (i : DfaStateId) (s t : DfaState), dfaA.states[i]? = some s →
          dfaB.states[i]? = some t → t.accepting = s.accepting ∧ t.transitions = s.transitions ∧
          ∀ r, r ∈ t.members ↔ ∃ q, q ∈ s.members ∧ 3 - q = r) ∧
        ∀ word,
          (∃ b, dfaA.accepts word = .ok b ∧ dfaB.accepts word = .ok b) ∧
          (∃ b, Simulation.accepts Nfa.tangled word = .ok b ∧
            Simulation.accepts Nfa.tangledRenamed word = .ok b) ∧
          ∃ b, DepthFirst.accepts Nfa.tangled word = .ok b ∧
            DepthFirst.accepts Nfa.tangledRenamed word = .ok b :=
  ⟨by decide, by decide, Nfa.tangled_renames,
    names_unobservable Nfa.tangled Nfa.tangledRenamed (3 - ·) (by decide) (by decide)
      Nfa.tangled_renames⟩

end PatternAutomata
