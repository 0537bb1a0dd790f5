import Mathlib.Algebra.BigOperators.Fin
import PatternAutomata.Proofs.Automaton.Edges
import PatternAutomata.Proofs.Automaton.Reach

/-!
# Closing ends, and after how many visits

A state may wait on the stack several times, and a visit may put more on the stack than it takes
away. But the ε-edges of a state are looked at only when the state is gathered, which happens
once. So every visit beyond those of the listed states is paid for by an ε-edge of its own, and
closing ends however the edges run.
-/

namespace PatternAutomata.Nfa

open Relation

variable {nfa : Nfa}

/-- Closing comes to a result after so many states were taken from the stack. -/
inductive ClosesAfter (nfa : Nfa) : Nat → NatSet → List StateId → NatSet → Prop
  | done (closure : NatSet) : ClosesAfter nfa 0 closure [] closure
  | skip {n : Nat} {closure result : NatSet} {q : StateId} {stack : List StateId}
      (hq : q ∈ closure) (hrest : ClosesAfter nfa n closure stack result) :
      ClosesAfter nfa (n + 1) closure (q :: stack) result
  | gather {n : Nat} {closure result : NatSet} {q : StateId} {stack : List StateId} {s : State}
      (hq : q ∉ closure) (hs : nfa.state q = .ok s)
      (hrest : ClosesAfter nfa n (closure.insert q)
        (pushFresh (closure.insert q) s.epsilon stack) result) :
      ClosesAfter nfa (n + 1) closure (q :: stack) result

/-- The number of ε-edges of a state, which is zero where there is no such state. -/
def epsilonCount (nfa : Nfa) (q : StateId) : Nat := nfa.states[q]?.elim 0 (·.epsilon.length)

/-- The number of ε-edges of the states that are not gathered yet. -/
def edgesOutside (nfa : Nfa) (closure : NatSet) : Nat :=
  ∑ q ∈ (Finset.range nfa.size).filter (· ∉ closure), nfa.epsilonCount q

/-- Where nothing is gathered, all ε-edges are still to be looked at. -/
theorem edgesOutside_empty (nfa : Nfa) : nfa.edgesOutside ∅ = nfa.epsilonTargets.length := by
  have hall : (Finset.range nfa.size).filter (· ∉ (∅ : NatSet)) = Finset.range nfa.size :=
    Finset.filter_true_of_mem fun q _ => NatSet.not_mem_empty q
  have hcount : ∀ i : Fin nfa.states.toList.length,
      nfa.epsilonCount i = nfa.states.toList[i.1].epsilon.length := by
    intro i
    have hget : nfa.states[i.1]? = some nfa.states.toList[i.1] := Array.getElem?_eq_getElem i.isLt
    rw [epsilonCount, hget]
    rfl
  rw [edgesOutside, hall, Finset.sum_range, epsilonTargets, List.length_flatMap,
    ← Fin.sum_univ_fun_getElem]
  exact Finset.sum_congr rfl fun i _ => hcount i

/-- A state that is gathered takes its ε-edges with it. -/
theorem edgesOutside_insert {closure : NatSet} {q : StateId} {s : State}
    (hget : nfa.states[q]? = some s) (hq : q ∉ closure) :
    nfa.edgesOutside (closure.insert q) + s.epsilon.length = nfa.edgesOutside closure := by
  have hlt : q < nfa.size := (Array.getElem?_eq_some_iff.mp hget).1
  have hmem : q ∈ (Finset.range nfa.size).filter (· ∉ closure) :=
    Finset.mem_filter.mpr ⟨Finset.mem_range.mpr hlt, hq⟩
  have herase : (Finset.range nfa.size).filter (· ∉ closure.insert q) =
      ((Finset.range nfa.size).filter (· ∉ closure)).erase q := by
    ext p
    simp only [Finset.mem_filter, Finset.mem_erase, NatSet.mem_insert, not_or]
    tauto
  have hcount : nfa.epsilonCount q = s.epsilon.length := by
    rw [epsilonCount, hget]
    rfl
  rw [edgesOutside, herase, ← hcount, Finset.sum_erase_add _ _ hmem]
  rfl

/-- A visit puts no more on the stack than the state has ε-edges. -/
theorem length_pushFresh_le (closure : NatSet) (targets stack : List StateId) :
    (pushFresh closure targets stack).length ≤ targets.length + stack.length := by
  rw [pushFresh, List.length_append, List.length_reverse]
  exact Nat.add_le_add_right (List.length_filter_le _ _) _

/-- Closing that succeeds takes no more states from the stack than stand there and ε-edges are
still to be looked at. -/
theorem exists_closesAfter {closure result : NatSet} {stack : List StateId}
    (h : nfa.closeFrom closure stack = .ok result) :
    ∃ n, n ≤ stack.length + nfa.edgesOutside closure ∧
      nfa.ClosesAfter n closure stack result := by
  fun_induction closeFrom nfa closure stack with
  | case1 closure =>
    cases h
    exact ⟨0, Nat.zero_le _, .done _⟩
  | case2 closure q stack hq ih =>
    obtain ⟨n, hn, hafter⟩ := ih h
    refine ⟨n + 1, ?_, .skip hq hafter⟩
    rw [List.length_cons]
    omega
  | case3 => cases h
  | case4 closure q stack hq s hs ih =>
    obtain ⟨n, hn, hafter⟩ := ih h
    refine ⟨n + 1, ?_, .gather hq hs hafter⟩
    have hpush := length_pushFresh_le (closure.insert q) s.epsilon stack
    have hedges := edgesOutside_insert (readAt_eq_ok_iff.mp hs) hq
    rw [List.length_cons]
    omega

/-- The closure of listed states, whatever their order and however often they are listed, is
found after no more visits than there are listed states and ε-edges, and it holds exactly the
states that ε-edges lead to from a listed one. -/
theorem closeAll_exact (nfa : Nfa) (h : nfa.InRange) (qs : List StateId)
    (hqs : ∀ q ∈ qs, q < nfa.size) :
    ∃ n result, n ≤ qs.length + nfa.epsilonTargets.length ∧
      nfa.ClosesAfter n ∅ qs.reverse result ∧ nfa.closeAll qs = .ok result ∧
      ∀ q, q ∈ result ↔ ∃ p ∈ qs, ReflTransGen nfa.Jumps p q := by
  obtain ⟨result, hresult, hmem⟩ := exists_closeAll h hqs
  obtain ⟨n, hn, hafter⟩ := exists_closesAfter hresult
  rw [List.length_reverse, edgesOutside_empty] at hn
  exact ⟨n, result, hn, hafter, hresult, hmem⟩

/-- The closure of states of an automaton with an ε-cycle, an ε-loop and a repeated ε-edge, one
of them listed twice. -/
theorem tangled_closeAll_exact :
    tangled.InRange ∧ (∀ q ∈ [3, 1, 3], q < tangled.size) ∧
    ∃ n result, n ≤ [3, 1, 3].length + tangled.epsilonTargets.length ∧
      tangled.ClosesAfter n ∅ [3, 1, 3].reverse result ∧ tangled.closeAll [3, 1, 3] = .ok result ∧
      ∀ q, q ∈ result ↔ ∃ p ∈ [3, 1, 3], ReflTransGen tangled.Jumps p q :=
  ⟨by decide, by decide, closeAll_exact tangled (by decide) [3, 1, 3] (by decide)⟩

end PatternAutomata.Nfa
