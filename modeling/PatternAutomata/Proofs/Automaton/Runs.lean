import Mathlib.Logic.Relation
import PatternAutomata.Automaton.Nfa

/-!
# Runs of an automaton

The edges of an automaton are relations between the names of its states, and a run
follows edges freely: it reads one symbol at a transition and nothing at an ε-edge. This
is the meaning that every recognizer is measured against. Reads of the arena succeed for
every name that an automaton in range can lead to.
-/

namespace PatternAutomata.Nfa

open Relation

/-- The state `p` has a transition on `c` that leads to `q`. -/
def Reads (nfa : Nfa) (p : StateId) (c : Char) (q : StateId) : Prop :=
  ∃ s, nfa.states[p]? = some s ∧ s.transitions.get? c = some q

/-- The state `p` has an ε-edge to `q`. -/
def Jumps (nfa : Nfa) (p q : StateId) : Prop :=
  ∃ s, nfa.states[p]? = some s ∧ q ∈ s.epsilon

/-- The state `q` accepts. -/
def Accepting (nfa : Nfa) (q : StateId) : Prop :=
  ∃ s, nfa.states[q]? = some s ∧ s.accepting = true

/-- The start and the targets of all edges are names of states. -/
structure InRange (nfa : Nfa) : Prop where
  start_lt : nfa.start < nfa.size
  transition_lt : ∀ s ∈ nfa.states, ∀ e ∈ s.transitions.entries, e.2 < nfa.size
  epsilon_lt : ∀ s ∈ nfa.states, ∀ q ∈ s.epsilon, q < nfa.size

/-- Whether an automaton is in range can be computed. -/
instance (nfa : Nfa) : Decidable nfa.InRange :=
  decidable_of_iff
    (nfa.start < nfa.size ∧
      (∀ s ∈ nfa.states, ∀ e ∈ s.transitions.entries, e.2 < nfa.size) ∧
      ∀ s ∈ nfa.states, ∀ q ∈ s.epsilon, q < nfa.size)
    ⟨fun h => ⟨h.1, h.2.1, h.2.2⟩, fun h => ⟨h.start_lt, h.transition_lt, h.epsilon_lt⟩⟩

/-- An automaton with an ε-cycle, an ε-loop, a repeated ε-edge and states with both kinds of
edges. -/
def tangled : Nfa :=
  ⟨#[⟨false, .ofList [('a', 1)], [1, 0, 2, 2]⟩, ⟨false, .ofList [('b', 1)], [0]⟩,
    ⟨false, .ofList [('a', 3)], []⟩, ⟨true, ∅, []⟩], 0, 3⟩

/-- A run reads a word on the way from one state to another. -/
inductive Run (nfa : Nfa) : StateId → List Char → StateId → Prop
  | stay (q : StateId) : Run nfa q [] q
  | jump {p q r : StateId} {w : List Char} : nfa.Jumps p q → Run nfa q w r → Run nfa p w r
  | read {p q r : StateId} {c : Char} {w : List Char} :
    nfa.Reads p c q → Run nfa q w r → Run nfa p (c :: w) r

/-- Some run from the start reads the whole word and ends in an accepting state. -/
def Recognizes (nfa : Nfa) (word : List Char) : Prop :=
  ∃ q, nfa.Run nfa.start word q ∧ nfa.Accepting q

variable {nfa : Nfa}

/-- A transition leads to one state at most. -/
theorem Reads.unique {p q r : StateId} {c : Char} (hq : nfa.Reads p c q)
    (hr : nfa.Reads p c r) : q = r := by
  obtain ⟨s, hs, ht⟩ := hq
  obtain ⟨s', hs', ht'⟩ := hr
  have he : s = s' := Option.some.inj (hs.symm.trans hs')
  subst he
  exact Option.some.inj (ht.symm.trans ht')

/-- A transition of an automaton in range leads to one of its states. -/
theorem InRange.reads_lt (h : nfa.InRange) {p q : StateId} {c : Char}
    (hr : nfa.Reads p c q) : q < nfa.size := by
  obtain ⟨s, hs, ht⟩ := hr
  obtain ⟨e, he, heq⟩ := Option.map_eq_some_iff.mp ht
  have hmem := h.transition_lt s (Array.mem_of_getElem? hs) e (List.mem_of_find?_eq_some he)
  exact heq ▸ hmem

/-- An ε-edge of an automaton in range leads to one of its states. -/
theorem InRange.jumps_lt (h : nfa.InRange) {p q : StateId} (hj : nfa.Jumps p q) :
    q < nfa.size := by
  obtain ⟨s, hs, hq⟩ := hj
  exact h.epsilon_lt s (Array.mem_of_getElem? hs) q hq

/-- A state of an automaton can be read. -/
theorem exists_state {q : StateId} (h : q < nfa.size) :
    ∃ s, nfa.states[q]? = some s ∧ nfa.state q = .ok s := by
  have hs : nfa.states[q]? = some nfa.states[q] := Array.getElem?_eq_getElem h
  exact ⟨nfa.states[q], hs, readAt_eq_ok_iff.mpr hs⟩

/-- Acceptance of a state that can be read is its flag. -/
theorem accepting_iff {q : StateId} {s : State} (hs : nfa.states[q]? = some s) :
    nfa.Accepting q ↔ s.accepting = true := by
  simp only [Accepting, hs, Option.some.injEq, exists_eq_left']

/-- The transitions of a state that can be read are those of its map. -/
theorem reads_iff {p q : StateId} {c : Char} {s : State} (hs : nfa.states[p]? = some s) :
    nfa.Reads p c q ↔ s.transitions.get? c = some q := by
  simp only [Reads, hs, Option.some.injEq, exists_eq_left']

/-- The ε-edges of a state that can be read are those of its list. -/
theorem jumps_iff {p q : StateId} {s : State} (hs : nfa.states[p]? = some s) :
    nfa.Jumps p q ↔ q ∈ s.epsilon := by
  simp only [Jumps, hs, Option.some.injEq, exists_eq_left']

/-- Runs compose. -/
theorem Run.append {p q r : StateId} {u v : List Char} (hu : nfa.Run p u q)
    (hv : nfa.Run q v r) : nfa.Run p (u ++ v) r := by
  induction hu with
  | stay => exact hv
  | jump hj _ ih => exact .jump hj (ih hv)
  | read hr _ ih => exact .read hr (ih hv)

/-- A run of an automaton in range ends in one of its states. -/
theorem InRange.run_lt (h : nfa.InRange) {p q : StateId} {w : List Char} (hp : p < nfa.size)
    (hrun : nfa.Run p w q) : q < nfa.size := by
  induction hrun with
  | stay => exact hp
  | jump hj _ ih => exact ih (h.jumps_lt hj)
  | read hr _ ih => exact ih (h.reads_lt hr)

/-- ε-edges one after another are a run that reads nothing. -/
theorem run_of_jumps {p q : StateId} (h : ReflTransGen nfa.Jumps p q) : nfa.Run p [] q := by
  induction h using ReflTransGen.head_induction_on with
  | refl => exact .stay q
  | head hj _ ih => exact .jump hj ih

/-- A run that reads nothing follows ε-edges only. -/
theorem run_nil_iff {p q : StateId} : nfa.Run p [] q ↔ ReflTransGen nfa.Jumps p q := by
  constructor
  · intro h
    generalize hw : ([] : List Char) = w at h
    induction h with
    | stay => exact .refl
    | jump hj _ ih => exact .head hj (ih hw)
    | read => cases hw
  · exact run_of_jumps

/-- A run that reads a symbol follows ε-edges, then the transition, then the rest. -/
theorem run_cons_iff {p r : StateId} {c : Char} {w : List Char} :
    nfa.Run p (c :: w) r ↔
      ∃ p' q, ReflTransGen nfa.Jumps p p' ∧ nfa.Reads p' c q ∧ nfa.Run q w r := by
  constructor
  · intro h
    generalize hw : c :: w = cw at h
    induction h with
    | stay => cases hw
    | jump hj _ ih =>
      obtain ⟨p', q, hp, hr, hrun⟩ := ih hw
      exact ⟨p', q, .head hj hp, hr, hrun⟩
    | @read p q r d v hr hrun =>
      cases hw
      exact ⟨p, q, .refl, hr, hrun⟩
  · rintro ⟨p', q, hp, hr, hrun⟩
    exact (run_of_jumps hp).append (.read hr hrun)

/-- A run on two words one after the other passes through a state between them. -/
theorem run_append_iff {p r : StateId} {u v : List Char} :
    nfa.Run p (u ++ v) r ↔ ∃ q, nfa.Run p u q ∧ nfa.Run q v r := by
  constructor
  · intro h
    induction u generalizing p with
    | nil => exact ⟨p, .stay p, h⟩
    | cons c u ih =>
      obtain ⟨p', q, hp, hr, hrun⟩ := run_cons_iff.mp h
      obtain ⟨q', hu, hv⟩ := ih hrun
      exact ⟨q', run_cons_iff.mpr ⟨p', q, hp, hr, hu⟩, hv⟩
  · rintro ⟨q, hu, hv⟩
    exact hu.append hv

end PatternAutomata.Nfa
