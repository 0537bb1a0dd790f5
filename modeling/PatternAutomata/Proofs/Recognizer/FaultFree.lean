import PatternAutomata.Proofs.Automaton.Construction
import PatternAutomata.Proofs.Expression.Layout
import PatternAutomata.Proofs.Recognizer.DepthFirst

/-!
# Nothing faults once an automaton is built

Names can be wrong only while an automaton is built by hand: edits that succeed leave an
automaton in range. In such an automaton no operation on its states faults, and whatever an
operation gives are states again, so that operations can be made one after another. An
automaton that is assembled from tokens is not built by hand: the tokens can be wrong, but
the assembly never misuses its arena.
-/

namespace PatternAutomata

/-- No operation on states of the automaton faults, and no recognizer does on any word. -/
structure Nfa.FaultFree (nfa : Nfa) : Prop where
  close : ∀ q < nfa.size, ∃ set, nfa.close q = .ok set ∧ ∀ r, r ∈ set → r < nfa.size
  closeAll : ∀ qs : List StateId, (∀ q ∈ qs, q < nfa.size) →
    ∃ set, nfa.closeAll qs = .ok set ∧ ∀ r, r ∈ set → r < nfa.size
  step : ∀ set : NatSet, (∀ q, q ∈ set → q < nfa.size) → ∀ c,
    ∃ reached, nfa.step set c = .ok reached ∧ ∀ r, r ∈ reached → r < nfa.size
  successors : ∀ set : NatSet, (∀ q, q ∈ set → q < nfa.size) →
    ∃ table, nfa.successors set = .ok table ∧ ∀ next ∈ table.values, ∀ r, r ∈ next → r < nfa.size
  containsAccepting : ∀ set : NatSet, (∀ q, q ∈ set → q < nfa.size) →
    ∃ b, nfa.containsAccepting set = .ok b
  /-- The deterministic automaton is discovered, and every walk through it has an answer. -/
  walk : ∃ dfa, Dfa.ofNfa nfa = .ok dfa ∧ ∀ word, ∃ b, dfa.accepts word = .ok b
  simulation : ∀ word, ∃ b, Simulation.accepts nfa word = .ok b
  /-- The search reads and clears the sets of explored states inside the array of them,
  whatever they hold at first. -/
  search : ∀ (word : List Char) (visited : Array NatSet), visited.size = word.length + 1 →
    ∃ b, DepthFirst.search nfa word.toArray visited = .ok b
  depthFirst : ∀ word, ∃ b, DepthFirst.accepts nfa word = .ok b

/-- In an automaton in range nothing faults. -/
theorem Nfa.InRange.faultFree {nfa : Nfa} (h : nfa.InRange) : nfa.FaultFree where
  close q hq := by
    obtain ⟨set, hset, -⟩ := Nfa.exists_close h hq
    exact ⟨set, hset, fun r hr => Nfa.lt_size_of_mem_closeAll hset hr⟩
  closeAll qs hqs := by
    obtain ⟨set, hset, -⟩ := Nfa.exists_closeAll h hqs
    exact ⟨set, hset, fun r hr => Nfa.lt_size_of_mem_closeAll hset hr⟩
  step set hset c := by
    obtain ⟨reached, hreached, hmem⟩ := Nfa.exists_step hset c
    refine ⟨reached, hreached, fun r hr => ?_⟩
    obtain ⟨p, -, hread⟩ := (hmem r).mp hr
    exact h.reads_lt hread
  successors set hset := by
    obtain ⟨table, htable, -⟩ := Nfa.exists_successors h hset
    exact ⟨table, htable, fun next hnext r hr => Nfa.lt_size_of_mem_successors htable hnext hr⟩
  containsAccepting set hset := by
    obtain ⟨b, hb, -⟩ := Nfa.exists_containsAccepting hset
    exact ⟨b, hb⟩
  walk := by
    obtain ⟨dfa, hdfa, hrep⟩ := Dfa.exists_ofNfa h
    refine ⟨dfa, hdfa, fun word => ?_⟩
    obtain ⟨b, hb, -⟩ := hrep.exists_accepts word
    exact ⟨b, hb⟩
  simulation word := by
    obtain ⟨b, hb, -⟩ := Simulation.exists_accepts h word
    exact ⟨b, hb⟩
  search word visited hsize := by
    obtain ⟨b, hb, -⟩ := DepthFirst.exists_search h word hsize
    exact ⟨b, hb⟩
  depthFirst word := by
    obtain ⟨b, hb, -⟩ := DepthFirst.exists_accepts h word
    exact ⟨b, hb⟩

/-- A stack of trees is finished without a fault. -/
theorem Expr.finish_ne_faulty (trees : List Expr) (fault : Fault) :
    Expr.finish trees ≠ .error (.faulty fault) := by
  match trees with
  | [] | [_] | _ :: _ :: _ => rintro ⟨⟩

/-- Assembling tokens never misuses the arena, whatever the tokens are. -/
theorem toNfa_ne_faulty (tokens : List Token) (fault : Fault) :
    toNfa tokens ≠ .error (.faulty fault) := by
  by_cases hempty : tokens = []
  · subst hempty
    rw [toNfa_nil]
    rintro ⟨⟩
  · rw [Expr.toNfa_eq hempty]
    cases Expr.takeAll [] 0 tokens with
    | error cause => rintro ⟨⟩
    | ok trees => exact Expr.finish_ne_faulty trees fault

/-- Edits of an arena that succeed and end in an automaton leave nothing that could fault: all
edges, the start and the end are in range, and so every operation and every recognizer
succeeds. Assembling tokens never faults, whether they are well formed or not. -/
theorem build_faultFree :
    (∀ (edits : List Arena.Edit) (arena : Arena) (start final : StateId) (nfa : Nfa),
      (∅ : Arena).applyAll edits = .ok arena → arena.build start final = .ok nfa →
      nfa.InRange ∧ nfa.final < nfa.size ∧ nfa.FaultFree) ∧
    ∀ (tokens : List Token) (fault : Fault), toNfa tokens ≠ .error (.faulty fault) := by
  refine ⟨fun edits arena start final nfa hedits hbuild => ?_, toNfa_ne_faulty⟩
  obtain ⟨hrange, hfinal⟩ := (Arena.inRange_empty.applyAll hedits).build hbuild
  exact ⟨hrange, hfinal, hrange.faultFree⟩

/-- Edits that build an automaton with an ε-cycle, a repeated ε-edge and states with both kinds
of edges, edges out of a state being added before and after those of others. -/
theorem tangled_faultFree :
    let edits : List Arena.Edit :=
      [.addState false, .addState true, .addEpsilon 0 1, .addState false, .addEpsilon 0 0,
        .addTransition 1 'b' 1, .addEpsilon 0 2, .addEpsilon 0 2, .addEpsilon 1 0, .addState true,
        .addTransition 2 'a' 3, .setAccepting 1 false, .addTransition 0 'a' 1]
    (∅ : Arena).applyAll edits = .ok ⟨Nfa.tangled.states⟩ ∧
      Arena.build ⟨Nfa.tangled.states⟩ 0 3 = .ok Nfa.tangled ∧
      Nfa.tangled.InRange ∧ Nfa.tangled.final < Nfa.tangled.size ∧ Nfa.tangled.FaultFree := by
  intro edits
  have hedits : (∅ : Arena).applyAll edits = .ok ⟨Nfa.tangled.states⟩ := rfl
  have hbuild : Arena.build ⟨Nfa.tangled.states⟩ 0 3 = .ok Nfa.tangled := rfl
  exact ⟨hedits, hbuild, build_faultFree.1 edits _ 0 3 _ hedits hbuild⟩

end PatternAutomata
