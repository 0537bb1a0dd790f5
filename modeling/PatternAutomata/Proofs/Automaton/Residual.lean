import Mathlib.Computability.Language
import Mathlib.Order.CompletePartialOrder
import PatternAutomata.Proofs.Automaton.Fragments
import PatternAutomata.Proofs.Automaton.Runs

/-!
# Residual languages

The residual language of a state consists of the words that lead from it to acceptance.
Residual languages are the least labelling of the states by languages that every edge
respects: the label of a state includes what can be read from it, edge by edge. So a
labelling bounds what an automaton recognizes, whatever cycles it has.
-/

namespace PatternAutomata

/-- The label of a state includes what its acceptance and its edges call for. -/
structure State.Admits (label : Nat → Language Char) (s : State) (own : Language Char) : Prop where
  one_le : s.accepting = true → 1 ≤ own
  read_le : ∀ c q, s.transitions.get? c = some q → {[c]} * label q ≤ own
  jump_le : ∀ q ∈ s.epsilon, label q ≤ own

/-- A relay admits what includes the labels of its targets. -/
theorem State.admits_relay {label : Nat → Language Char} {targets : List Nat}
    {own : Language Char} (h : ∀ q ∈ targets, label q ≤ own) :
    (State.relay targets).Admits label own where
  one_le := by rintro ⟨⟩
  read_le := by rintro c q ⟨⟩
  jump_le := h

/-- The only transition of a reader is on its symbol. -/
theorem State.get?_reader (c d : Char) (target : Nat) :
    (State.reader c target).transitions.get? d = if c = d then some target else none := by
  change (([(c, target)] : List (Char × StateId)).find? (·.1 = d)).map Prod.snd = _
  rw [List.find?_singleton]
  by_cases h : c = d <;> simp [h]

/-- A reader admits what includes the label of its target after its symbol. -/
theorem State.admits_reader {label : Nat → Language Char} {c : Char} {target : Nat}
    {own : Language Char} (h : {[c]} * label target ≤ own) :
    (State.reader c target).Admits label own where
  one_le := by rintro ⟨⟩
  read_le := by
    intro d q hq
    rw [State.get?_reader] at hq
    split at hq
    case isTrue he =>
      cases he
      cases hq
      exact h
    case isFalse => cases hq
  jump_le := by rintro q ⟨⟩

/-- The accepting state without edges admits what includes the empty word. -/
theorem State.admits_isolated {label : Nat → Language Char} {own : Language Char} (h : 1 ≤ own) :
    (State.isolated true).Admits label own where
  one_le := fun _ => h
  read_le := by rintro c q ⟨⟩
  jump_le := by rintro q ⟨⟩

/-- A plain state has one kind of edges at most, and they lead below a bound. Automata are
assembled from plain states only. -/
inductive State.Plain (bound : Nat) : State → Prop
  | relay {targets : List Nat} (h : ∀ q ∈ targets, q < bound) : Plain bound (relay targets)
  | reader {c : Char} {target : Nat} (h : target < bound) : Plain bound (reader c target)
  | isolated (accepting : Bool) : Plain bound (isolated accepting)

/-- A bound of a plain state can be raised. -/
theorem State.Plain.mono {bound bound' : Nat} {s : State} (h : s.Plain bound)
    (hle : bound ≤ bound') : s.Plain bound' := by
  cases h with
  | relay h => exact .relay fun q hq => Nat.lt_of_lt_of_le (h q hq) hle
  | reader h => exact .reader (Nat.lt_of_lt_of_le h hle)
  | isolated accepting => exact .isolated accepting

namespace Nfa

/-- An automaton of plain states is in range. -/
theorem inRange_of_plain {nfa : Nfa} (hstart : nfa.start < nfa.size)
    (h : ∀ s ∈ nfa.states, s.Plain nfa.size) : nfa.InRange where
  start_lt := hstart
  transition_lt := by
    intro s hs e he
    cases h s hs with
    | relay => cases he
    | reader ht =>
      cases List.mem_singleton.mp he
      exact ht
    | isolated => cases he
  epsilon_lt := by
    intro s hs q hq
    cases h s hs with
    | relay ht => exact ht q hq
    | reader => cases hq
    | isolated => cases hq

/-- No plain state has both kinds of edges. -/
theorem not_jumps_of_plain {nfa : Nfa} (h : ∀ s ∈ nfa.states, s.Plain nfa.size) (p : StateId)
    (c : Char) (q r : StateId) (hr : nfa.Reads p c q) : ¬ nfa.Jumps p r := by
  obtain ⟨s, hs, hq⟩ := hr
  rw [jumps_iff hs]
  intro hmem
  cases h s (Array.mem_of_getElem? hs) with
  | relay => cases hq
  | reader => cases hmem
  | isolated => cases hmem

/-- The words that lead from a state to acceptance. -/
def residual (nfa : Nfa) (p : Nat) : Language Char :=
  {w | ∃ q, nfa.Run p w q ∧ nfa.Accepting q}

variable {nfa : Nfa}

/-- What an automaton recognizes is the residual language of its start. -/
theorem recognizes_iff (word : List Char) : nfa.Recognizes word ↔ word ∈ nfa.residual nfa.start :=
  Iff.rfl

/-- An ε-edge leads on to all that its target leads to. -/
theorem Jumps.residual_le {p q : Nat} (h : nfa.Jumps p q) : nfa.residual q ≤ nfa.residual p := by
  rintro w ⟨r, hrun, ha⟩
  exact ⟨r, .jump h hrun, ha⟩

/-- A transition leads on to all that its target leads to, after the symbol. -/
theorem Reads.residual_le {p q : Nat} {c : Char} (h : nfa.Reads p c q) :
    {[c]} * nfa.residual q ≤ nfa.residual p := by
  rintro w ⟨u, hu, v, ⟨r, hrun, ha⟩, rfl⟩
  cases Set.mem_singleton_iff.mp hu
  exact ⟨r, .read h hrun, ha⟩

/-- What leads through an exit leads through it to where the exit leads. -/
theorem mul_residual_le {words : Language Char} {entry exit target : Nat}
    (h : words * nfa.residual exit ≤ nfa.residual entry) (hout : nfa.Jumps exit target) :
    words * nfa.residual target ≤ nfa.residual entry :=
  (mul_le_mul_right hout.residual_le words).trans h

/-- A fork leads through each of its branches. -/
theorem add_mul_residual_le {left right : Language Char} {entry entry' target fork : Nat}
    (hl : left * nfa.residual target ≤ nfa.residual entry)
    (hr : right * nfa.residual target ≤ nfa.residual entry')
    (hforkl : nfa.Jumps fork entry) (hforkr : nfa.Jumps fork entry') :
    (left + right) * nfa.residual target ≤ nfa.residual fork := by
  rw [add_mul]
  exact sup_le (hl.trans hforkl.residual_le) (hr.trans hforkr.residual_le)

/-- A fork around a loop leads through the loop any number of times. -/
theorem kstar_mul_residual_le {words : Language Char} {entry exit target fork : Nat}
    (h : words * nfa.residual exit ≤ nfa.residual entry) (hout : nfa.Jumps exit target)
    (hback : nfa.Jumps exit entry) (hskip : nfa.Jumps fork target)
    (henter : nfa.Jumps fork entry) :
    KStar.kstar words * nfa.residual target ≤ nfa.residual fork := by
  have hround : words * nfa.residual exit ≤ nfa.residual exit := h.trans hback.residual_le
  have hloop : KStar.kstar words * nfa.residual target ≤ nfa.residual exit :=
    kstar_mul_le hout.residual_le hround
  rw [← one_add_mul_kstar, add_mul, one_mul, mul_assoc]
  refine sup_le hskip.residual_le ?_
  calc
    words * (KStar.kstar words * nfa.residual target)
        ≤ words * nfa.residual exit := mul_le_mul_right hloop words
    _ ≤ nfa.residual entry := h
    _ ≤ nfa.residual fork := henter.residual_le

/-- An accepting state leads to acceptance without reading. -/
theorem Accepting.one_le {p : Nat} (h : nfa.Accepting p) : 1 ≤ nfa.residual p := by
  rintro w rfl
  exact ⟨p, .stay p, h⟩

/-- A labelling that every state admits includes the residual languages. -/
theorem residual_le {label : Nat → Language Char}
    (hadmits : ∀ (p : Nat) (s : State), nfa.states[p]? = some s → s.Admits label (label p))
    (p : Nat) : nfa.residual p ≤ label p := by
  rintro w ⟨q, hrun, ha⟩
  induction hrun with
  | stay q =>
    obtain ⟨s, hs, hacc⟩ := ha
    exact (hadmits q s hs).one_le hacc rfl
  | jump hj _ ih =>
    obtain ⟨s, hs, hq⟩ := hj
    exact (hadmits _ s hs).jump_le _ hq (ih ha)
  | read hr _ ih =>
    obtain ⟨s, hs, hq⟩ := hr
    exact (hadmits _ s hs).read_le _ _ hq ⟨[_], rfl, _, ih ha, rfl⟩

end Nfa

end PatternAutomata
