import Mathlib.Combinatorics.Enumerative.DoubleCounting
import Mathlib.Data.Finset.Powerset
import Mathlib.Order.Interval.Finset.Nat
import PatternAutomata.Proofs.Automaton.Powerset

/-!
# The rounds of a discovery, and how many sets it numbers

A discovery that ends has taken up its numbers in some order. What was taken up and what still
waits are together all the numbers, each once, so at the end each number was taken up once.
Every number but the first stands for the closure of states that some transition leads to, and
no set has two numbers. So there are no more numbers than sets of such states, the empty set
making room for the first number.
-/

namespace PatternAutomata

namespace Discovery

variable {nfa : Nfa}

/-- Waiting states are taken up one after another, in the order listed, until none waits. -/
inductive TakesUp (nfa : Nfa) : Discovery → List DfaStateId → Discovery → Prop
  | done {d : Discovery} (h : d.pending = []) : TakesUp nfa d [] d
  | round {d d' d'' : Discovery} {i : DfaStateId} {pending order : List DfaStateId}
      (hpending : d.pending = i :: pending) (hfill : fill nfa { d with pending } i = .ok d')
      (hrest : TakesUp nfa d' order d'') : TakesUp nfa d (i :: order) d''

/-- A discovery that ends has taken up states in some order. -/
theorem exists_takesUp_of_run {d d' : Discovery} (h : run nfa d = .ok d') :
    ∃ order, TakesUp nfa d order d' := by
  fun_induction run nfa d with
  | case1 d hstop =>
    cases h
    exact ⟨[], .done (pending_eq_nil_of_advance hstop)⟩
  | case2 d fault hfault => cases h
  | case3 d d₁ hadvance ih =>
    obtain ⟨order, horder⟩ := ih h
    unfold advance at hadvance
    split at hadvance
    case h_1 => cases hadvance
    case h_2 i pending hpending =>
      exact ⟨i :: order, .round hpending (Option.some.inj hadvance) horder⟩

/-- What was taken up and what waits are together all numbers, each once. -/
def Accounts (taken : List DfaStateId) (d : Discovery) : Prop :=
  (taken ++ d.pending).Perm (List.range d.states.size)

/-- A set that is numbered waits if its number is new. -/
theorem Accounts.number {taken : List DfaStateId} {d d' : Discovery} (h : Accounts taken d)
    {subset : NatSet} {i : DfaStateId} (hnumber : Discovery.number nfa d subset = .ok (i, d')) :
    Accounts taken d' := by
  cases numbers_of_number hnumber with
  | known => exact h
  | fresh =>
    rw [Accounts, size_add, List.range_succ]
    exact List.perm_middle.trans ((h.cons _).trans (List.perm_append_singleton _ _).symm)

/-- All sets of a list that are numbered wait if their numbers are new. -/
theorem Accounts.accumulate {taken : List DfaStateId} {d d' : Discovery} (h : Accounts taken d)
    {subsets : List NatSet} {is : List DfaStateId}
    (hacc : SortedMap.accumulate (Discovery.number nfa) d subsets = .ok (is, d')) :
    Accounts taken d' := by
  induction subsets generalizing d is with
  | nil =>
    cases hacc
    exact h
  | cons subset subsets ih =>
    obtain ⟨i, d₁, is', hnumber, hrest, -⟩ := SortedMap.exists_of_accumulate_cons hacc
    exact ih (h.number hnumber) hrest

/-- Filling a state leaves the account of the numbers open. -/
theorem Accounts.fill {taken : List DfaStateId} {d d' : Discovery} (h : Accounts taken d)
    {i : DfaStateId} (hfill : Discovery.fill nfa d i = .ok d') : Accounts taken d' := by
  obtain ⟨s, table, is, d₁, -, -, hacc, rfl⟩ := exists_of_fill hfill
  have hd₁ := h.accumulate hacc
  rwa [Accounts, size_setTransitions]

/-- A round moves a number from what waits to what was taken up. -/
theorem Accounts.takeUp {taken pending : List DfaStateId} {d d' : Discovery} {i : DfaStateId}
    (h : Accounts taken d) (hpending : d.pending = i :: pending)
    (hfill : Discovery.fill nfa { d with pending } i = .ok d') : Accounts (taken ++ [i]) d' := by
  have hmoved : Accounts (taken ++ [i]) { d with pending } := by
    rw [Accounts, hpending] at h
    rwa [Accounts, List.append_assoc]
  exact hmoved.fill hfill

/-- The account holds through all rounds. -/
theorem Accounts.takesUp {taken order : List DfaStateId} {d d' : Discovery} (h : Accounts taken d)
    (horder : TakesUp nfa d order d') : Accounts (taken ++ order) d' := by
  induction horder generalizing taken with
  | done => rwa [List.append_nil]
  | round hpending hfill _ ih =>
    have hrest := ih (h.takeUp hpending hfill)
    rwa [List.append_assoc] at hrest

/-- After the last round nothing waits. -/
theorem TakesUp.pending_eq_nil {d d' : Discovery} {order : List DfaStateId}
    (h : TakesUp nfa d order d') : d'.pending = [] := by
  induction h with
  | done hnone => exact hnone
  | round _ _ _ ih => exact ih

/-- A discovery that begins with one set takes up each number once. -/
theorem perm_range_of_takesUp {subset : NatSet} {i : DfaStateId} {d d' : Discovery}
    {order : List DfaStateId} (hnumber : number nfa start subset = .ok (i, d))
    (horder : TakesUp nfa d order d') : order.Perm (List.range d'.states.size) := by
  have hstart : Accounts [] Discovery.start := List.Perm.refl []
  have hend := (hstart.number hnumber).takesUp horder
  rwa [Accounts, horder.pending_eq_nil, List.append_nil, List.nil_append] at hend

end Discovery

/-- A deterministic automaton comes of a discovery that begins with the closure of the start and
takes up states in the order listed. -/
def Dfa.DiscoveredBy (dfa : Dfa) (nfa : Nfa) (order : List DfaStateId) : Prop :=
  ∃ closed d d', nfa.close nfa.start = .ok closed ∧
    Discovery.start.number nfa closed = .ok (dfa.start, d) ∧ d.TakesUp nfa order d' ∧
    dfa.states = d'.states

/-- A deterministic automaton is discovered in some order, in which each of its states is taken
up once. -/
theorem Dfa.exists_discoveredBy {nfa : Nfa} {dfa : Dfa} (h : Dfa.ofNfa nfa = .ok dfa) :
    ∃ order, dfa.DiscoveredBy nfa order ∧ order.Perm (List.range dfa.size) := by
  obtain ⟨closed, hclosed, h⟩ := exists_of_bind_eq_ok h
  obtain ⟨⟨i, d⟩, hnumber, h⟩ := exists_of_bind_eq_ok h
  obtain ⟨d', hrun, h⟩ := exists_of_bind_eq_ok h
  cases h
  obtain ⟨order, horder⟩ := Discovery.exists_takesUp_of_run hrun
  exact ⟨order, ⟨closed, d, d', hclosed, hnumber, horder, rfl⟩,
    Discovery.perm_range_of_takesUp hnumber horder⟩

namespace Nfa

variable {nfa : Nfa}

/-- The states that some transition leads to, each listed once. -/
def readTargets (nfa : Nfa) : List StateId :=
  (nfa.states.toList.flatMap (·.transitions.values)).dedup

/-- A state is listed where some transition leads to it. -/
theorem mem_readTargets_iff {q : StateId} : q ∈ nfa.readTargets ↔ ∃ p c, nfa.Reads p c q := by
  rw [readTargets, List.mem_dedup, List.mem_flatMap]
  constructor
  · rintro ⟨s, hs, hq⟩
    obtain ⟨⟨c, q⟩, hentry, rfl⟩ := List.mem_map.mp hq
    obtain ⟨p, hp⟩ := List.mem_iff_getElem?.mp hs
    rw [Array.getElem?_toList] at hp
    exact ⟨p, c, s, hp, SortedMap.get?_eq_some_iff.mpr hentry⟩
  · rintro ⟨p, c, s, hs, hq⟩
    refine ⟨s, Array.mem_toList_iff.mpr (Array.mem_of_getElem? hs), ?_⟩
    exact List.mem_map.mpr ⟨(c, q), SortedMap.get?_eq_some_iff.mp hq, rfl⟩

theorem nodup_readTargets (nfa : Nfa) : nfa.readTargets.Nodup := List.nodup_dedup _

end Nfa

namespace Discovery

variable {nfa : Nfa} {d : Discovery}

/-- The number `k` stands for the closure of the states `reached`. -/
def ClosureOf (nfa : Nfa) (d : Discovery) (k : DfaStateId) (reached : Finset StateId) : Prop :=
  ∃ set closed : NatSet, (∀ q, q ∈ set ↔ q ∈ reached) ∧ nfa.closeAll set.toList = .ok closed ∧
    d.subset? k = some closed

/-- Every number but the first stands for the closure of states, at least one, that some
transition leads to. -/
theorem Grown.exists_closureOf (h : nfa.InRange) (hsound : Sound nfa d none)
    (hgrown : Grown nfa d d.states.size) (hrep : (⟨d.states, 0⟩ : Dfa).Represents nfa)
    {k : DfaStateId} (hpos : 0 < k) (hk : k < d.states.size) :
    ∃ reached ∈ nfa.readTargets.toFinset.powerset.erase ∅, ClosureOf nfa d k reached := by
  obtain ⟨j, -, s, c, hs, hc⟩ := hgrown.pointed k hpos hk
  have hlt : ∀ q, q ∈ s.members → q < nfa.size := hsound.members_lt hs
  obtain ⟨target, hnext, hsome, htarget⟩ := hrep.next_target h hs hlt c
  have htk : target = some k := by
    rw [Dfa.next_eq hs, hc] at hnext
    exact (Except.ok.inj hnext).symm
  obtain ⟨t, set, ht, hstep, hclose, -⟩ := htarget k htk
  obtain ⟨set', hstep', hmem⟩ := Nfa.exists_step hlt c
  have he : set' = set := Except.ok.inj (hstep'.symm.trans hstep)
  subst he
  refine ⟨set'.toList.toFinset, ?_, set', t.members, fun q => ?_, hclose, subset?_eq_some ht⟩
  · obtain ⟨p, q, hp, hread⟩ := hsome.mp (htk ▸ rfl)
    have hq : q ∈ set'.toList.toFinset :=
      List.mem_toFinset.mpr (NatSet.mem_toList.mpr ((hmem q).mpr ⟨p, hp, hread⟩))
    refine Finset.mem_erase.mpr ⟨Finset.ne_empty_of_mem hq, Finset.mem_powerset.mpr ?_⟩
    intro r hr
    obtain ⟨p, -, hread⟩ := (hmem r).mp (NatSet.mem_toList.mp (List.mem_toFinset.mp hr))
    exact List.mem_toFinset.mpr (Nfa.mem_readTargets_iff.mpr ⟨p, c, hread⟩)
  · rw [List.mem_toFinset, NatSet.mem_toList]

/-- The closure of a set of states has one number. -/
theorem eq_of_closureOf {j k : DfaStateId} {reached : Finset StateId}
    (hj : ClosureOf nfa d j reached) (hk : ClosureOf nfa d k reached) : j = k := by
  obtain ⟨set, closed, hmem, hclose, hj⟩ := hj
  obtain ⟨set', closed', hmem', hclose', hk⟩ := hk
  have he : set = set' := NatSet.ext fun q => (hmem q).trans (hmem' q).symm
  subst he
  have hclosed : closed = closed' := Except.ok.inj (hclose.symm.trans hclose')
  exact eq_of_subset? hj (hclosed ▸ hk)

/-- The numbers after the first are no more than the nonempty sets of states that some
transition leads to. -/
theorem Grown.size_le (h : nfa.InRange) (hsound : Sound nfa d none)
    (hgrown : Grown nfa d d.states.size) (hrep : (⟨d.states, 0⟩ : Dfa).Represents nfa) :
    d.states.size ≤ 2 ^ nfa.readTargets.length := by
  have hle : (Finset.Ico 1 d.states.size).card ≤
      (nfa.readTargets.toFinset.powerset.erase ∅).card := by
    refine Finset.card_le_card_of_forall_subsingleton (ClosureOf nfa d) ?_ ?_
    · intro k hk
      obtain ⟨hpos, hlt⟩ := Finset.mem_Ico.mp hk
      exact hgrown.exists_closureOf h hsound hrep hpos hlt
    · rintro reached - j ⟨-, hj⟩ k ⟨-, hk⟩
      exact eq_of_closureOf hj hk
  rw [Nat.card_Ico, Finset.card_erase_of_mem (Finset.empty_mem_powerset _), Finset.card_powerset,
    List.toFinset_card_of_nodup nfa.nodup_readTargets] at hle
  have hpos : 0 < 2 ^ nfa.readTargets.length := Nat.two_pow_pos _
  omega

end Discovery

/-- The deterministic automaton of an automaton in range has no more states than there are sets
of states that some transition leads to. -/
theorem Dfa.size_le_of_ofNfa {nfa : Nfa} (h : nfa.InRange) {dfa : Dfa}
    (hdfa : Dfa.ofNfa nfa = .ok dfa) : dfa.size ≤ 2 ^ nfa.readTargets.length := by
  obtain ⟨d, hok, hsound, hgrown⟩ := Discovery.exists_grown h
  obtain ⟨dfa', hok', hrep⟩ := Dfa.exists_ofNfa h
  have he : dfa = ⟨d.states, 0⟩ := Except.ok.inj (hdfa.symm.trans hok)
  have he' : dfa' = ⟨d.states, 0⟩ := Except.ok.inj (hok'.symm.trans hok)
  subst he he'
  exact hgrown.size_le h hsound hrep

end PatternAutomata
