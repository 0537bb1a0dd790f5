import PatternAutomata.Automaton.Discovery
import PatternAutomata.Proofs.Automaton.Reach

/-!
# The deterministic automaton stands for sets of states

While subsets are discovered, every numbered state keeps its set, and a state either
waits for its transitions or has exactly those of its set. The invariant holds after
every round, so it holds of the finished automaton, where nothing waits any more.
-/

namespace PatternAutomata

open Relation

/-- The set that a number stands for. -/
def Discovery.subset? (d : Discovery) (i : DfaStateId) : Option NatSet :=
  d.states[i]?.map (·.members)

namespace Discovery

variable {nfa : Nfa}

/-- Every symbol of a state leads to the number of exactly the set that the symbol leads
to, and no symbol is missing that leads anywhere. -/
def Filled (nfa : Nfa) (d : Discovery) (s : DfaState) : Prop :=
  ∀ c, (s.transitions.get? c = none ∧ ∀ q, ¬ nfa.Leads s.members c q) ∨
    ∃ j next, s.transitions.get? c = some j ∧ d.subset? j = some next ∧ (∃ q, q ∈ next) ∧
      ∀ q, q ∈ next ↔ nfa.Leads s.members c q

/-- The invariant of a discovery: sets of states with their acceptance, each of them
filled but for those that wait and the one in work. -/
structure Sound (nfa : Nfa) (d : Discovery) (busy : Option DfaStateId) : Prop where
  members_lt : ∀ {i : DfaStateId} {s : DfaState}, d.states[i]? = some s →
    ∀ q, q ∈ s.members → q < nfa.size
  accepting_iff : ∀ {i : DfaStateId} {s : DfaState}, d.states[i]? = some s →
    (s.accepting = true ↔ ∃ q, q ∈ s.members ∧ nfa.Accepting q)
  pending_lt : ∀ i ∈ d.pending, i < d.states.size
  filled : ∀ {i : DfaStateId} {s : DfaState}, d.states[i]? = some s →
    i ∈ d.pending ∨ busy = some i ∨ Filled nfa d s

/-- Before anything is numbered the invariant holds. -/
theorem sound_start : Sound nfa Discovery.start none := by
  refine ⟨?_, ?_, fun i hi => absurd hi List.not_mem_nil, ?_⟩ <;>
  · intro i s hs
    cases hs

/-- Numbered states stay as they are. -/
def Keeps (d d' : Discovery) : Prop :=
  ∀ (i : DfaStateId) (s : DfaState), d.states[i]? = some s → d'.states[i]? = some s

/-- Numbers keep standing for the same sets. -/
def Extends (d d' : Discovery) : Prop := ∀ i set, d.subset? i = some set → d'.subset? i = some set

/-- A filled state stays filled while more sets are numbered. -/
theorem Filled.mono {d d' : Discovery} {s : DfaState} (h : Filled nfa d s) (he : Extends d d') :
    Filled nfa d' s := by
  intro c
  refine (h c).imp id ?_
  rintro ⟨j, next, hj, hsub, hne, hmem⟩
  exact ⟨j, next, hj, he j next hsub, hne, hmem⟩

theorem subset?_eq_some {d : Discovery} {i : DfaStateId} {s : DfaState}
    (h : d.states[i]? = some s) : d.subset? i = some s.members := by
  rw [subset?, h, Option.map_some]

/-- The numbers of states that stay as they are stand for the same sets. -/
theorem Keeps.extends {d d' : Discovery} (h : Keeps d d') : Extends d d' := by
  intro i set hi
  obtain ⟨s, hs, rfl⟩ := Option.map_eq_some_iff.mp hi
  exact subset?_eq_some (h i s hs)

/-- No set has two numbers. -/
theorem eq_of_subset? {d : Discovery} {i j : DfaStateId} {set : NatSet}
    (hi : d.subset? i = some set) (hj : d.subset? j = some set) : i = j := by
  have hfound := (d.indexed set i).mpr hi
  rw [(d.indexed set j).mpr hj] at hfound
  exact (Option.some.inj hfound).symm

/-- What numbering a set comes to: its number when it has one, and else the next number. -/
inductive Numbers (d : Discovery) (subset : NatSet) : DfaStateId → Discovery → Prop
  | known {i : DfaStateId} (h : d.subset? i = some subset) : Numbers d subset i d
  | fresh {accepting : Bool} (h : d.index.get? subset.toList = none) :
    Numbers d subset d.states.size (d.add subset accepting h)

theorem numbers_of_number {d d' : Discovery} {subset : NatSet} {i : DfaStateId}
    (h : number nfa d subset = .ok (i, d')) : Numbers d subset i d' := by
  unfold number at h
  split at h
  case h_1 hfind =>
    cases h
    exact .known ((d.indexed subset i).mp hfind)
  case h_2 hfind =>
    obtain ⟨accepting, -, h⟩ := exists_of_bind_eq_ok h
    cases h
    exact .fresh hfind

/-- A set with a number keeps it, and nothing is numbered. -/
theorem number_of_known {d : Discovery} {subset : NatSet} {i : DfaStateId}
    (h : d.index.get? subset.toList = some i) : number nfa d subset = .ok (i, d) := by
  unfold number
  split
  case h_1 j hfind => rw [Option.some.inj (h.symm.trans hfind)]
  case h_2 hfind => cases h.symm.trans hfind

/-- A set without a number gets the next one. -/
theorem number_of_fresh {d : Discovery} {subset : NatSet} {accepting : Bool}
    (h : d.index.get? subset.toList = none) (hacc : nfa.containsAccepting subset = .ok accepting) :
    number nfa d subset = .ok (d.states.size, d.add subset accepting h) := by
  unfold number
  split
  case h_1 hfind => cases h.symm.trans hfind
  case h_2 => simp only [hacc, bind, Except.bind, pure, Except.pure]

/-- The states of a discovery with one number more. -/
theorem getElem?_add_cases {d : Discovery} {subset : NatSet} {accepting : Bool}
    {fresh : d.index.get? subset.toList = none} {t : DfaState} {j : DfaStateId}
    (h : (d.add subset accepting fresh).states[j]? = some t) :
    d.states[j]? = some t ∨ j = d.states.size ∧ t = ⟨subset, ∅, accepting⟩ := by
  rw [states_add, Array.getElem?_push] at h
  split at h
  case isTrue hj => exact Or.inr ⟨hj, (Option.some.inj h).symm⟩
  case isFalse => exact Or.inl h

@[simp] theorem size_add {d : Discovery} {subset : NatSet} {accepting : Bool}
    {fresh : d.index.get? subset.toList = none} :
    (d.add subset accepting fresh).states.size = d.states.size + 1 := by
  rw [states_add, Array.size_push]

/-- Numbered states stay as they are while a set is numbered. -/
theorem keeps_of_number {d d' : Discovery} {subset : NatSet} {i : DfaStateId}
    (h : number nfa d subset = .ok (i, d')) : Keeps d d' := by
  intro j s hj
  cases numbers_of_number h with
  | known => exact hj
  | fresh =>
    have hlt := (Array.getElem?_eq_some_iff.mp hj).1
    rw [states_add, Array.getElem?_push, if_neg (Nat.ne_of_lt hlt), hj]

/-- Numbering a set of states succeeds, gives a number that stands for the set, and
keeps the invariant. -/
theorem exists_number {d : Discovery} {busy : Option DfaStateId} (hd : Sound nfa d busy)
    {subset : NatSet} (hs : ∀ q, q ∈ subset → q < nfa.size) :
    ∃ i d', number nfa d subset = .ok (i, d') ∧ d'.subset? i = some subset ∧
      Sound nfa d' busy ∧ Keeps d d' := by
  cases hfind : d.index.get? subset.toList with
  | some i =>
    exact ⟨i, d, number_of_known hfind, (d.indexed subset i).mp hfind, hd, fun _ _ hj => hj⟩
  | none =>
    obtain ⟨b, hb, hiff⟩ := Nfa.exists_containsAccepting hs
    have hn := number_of_fresh hfind hb
    have hkeep := keeps_of_number hn
    have hnew : (d.add subset b hfind).states[d.states.size]? = some ⟨subset, ∅, b⟩ :=
      Array.getElem?_push_size
    refine ⟨_, _, hn, subset?_eq_some hnew, ⟨?_, ?_, ?_, ?_⟩, hkeep⟩
    · intro j t hj
      rcases getElem?_add_cases hj with hj | ⟨_, rfl⟩
      · exact hd.members_lt hj
      · exact hs
    · intro j t hj
      rcases getElem?_add_cases hj with hj | ⟨_, rfl⟩
      · exact hd.accepting_iff hj
      · exact hiff
    · intro j hj
      rw [size_add]
      rcases List.mem_cons.mp hj with rfl | hj
      · exact Nat.lt_succ_self _
      · exact Nat.lt_succ_of_lt (hd.pending_lt j hj)
    · intro j t hj
      rcases getElem?_add_cases hj with hj | ⟨rfl, _⟩
      · rcases hd.filled hj with hp | hb | hfill
        · exact Or.inl (List.mem_cons_of_mem _ hp)
        · exact Or.inr (Or.inl hb)
        · exact Or.inr (Or.inr (hfill.mono hkeep.extends))
      · exact Or.inl List.mem_cons_self

/-- Numbering sets one after another succeeds, gives numbers that stand for them, and
keeps the invariant. -/
theorem exists_accumulate {d : Discovery} {busy : Option DfaStateId} (hd : Sound nfa d busy)
    {subsets : List NatSet} (hs : ∀ subset ∈ subsets, ∀ q, q ∈ subset → q < nfa.size) :
    ∃ is d', SortedMap.accumulate (number nfa) d subsets = .ok (is, d') ∧
      List.Forall₂ (fun subset i => d'.subset? i = some subset) subsets is ∧
      Sound nfa d' busy ∧ Keeps d d' := by
  induction subsets generalizing d with
  | nil => exact ⟨[], d, rfl, .nil, hd, fun _ _ hj => hj⟩
  | cons subset subsets ih =>
    obtain ⟨i, d₁, hn, hi, hd₁, hkeep⟩ := exists_number hd (hs subset List.mem_cons_self)
    obtain ⟨is, d', hacc, hall, hd', hkeep'⟩ :=
      ih hd₁ fun set hset => hs set (List.mem_cons_of_mem _ hset)
    refine ⟨i :: is, d', ?_, .cons ?_ hall, hd',
      fun j s hj => hkeep' j s (hkeep j s hj)⟩
    · rw [SortedMap.accumulate, hn]
      simp only [bind, Except.bind, hacc]
      rfl
    · exact hkeep'.extends i subset hi

/-- A state that is given transitions is read with them, and all others as before. -/
theorem getElem?_setTransitions {d : Discovery} {i : DfaStateId} {s : DfaState}
    (hget : d.states[i]? = some s) (transitions : SortedMap Char DfaStateId) (j : DfaStateId) :
    (d.setTransitions i transitions).states[j]? =
      if i = j then some { s with transitions } else d.states[j]? := by
  rw [setTransitions, Array.getElem?_modify]
  split
  case isTrue hij => rw [← hij, hget, Option.map_some]
  case isFalse => rfl

@[simp] theorem size_setTransitions {d : Discovery} {i : DfaStateId}
    {transitions : SortedMap Char DfaStateId} :
    (d.setTransitions i transitions).states.size = d.states.size := Array.size_modify

/-- Numbers stand for the same sets when a state is given transitions. -/
@[simp] theorem subset?_setTransitions {d : Discovery} {i j : DfaStateId}
    {transitions : SortedMap Char DfaStateId} :
    (d.setTransitions i transitions).subset? j = d.subset? j := by
  apply Option.ext
  intro set
  exact ((d.setTransitions i transitions).indexed set j).symm.trans (d.indexed set j)

/-- A table of sets that becomes a table of their numbers fills the state. -/
theorem filled_of_rekey {d : Discovery} {s : DfaState} {table : SortedMap Char NatSet}
    {is : List DfaStateId}
    (hlook : ∀ c, (table.get? c = none ∧ ∀ q, ¬ nfa.Leads s.members c q) ∨
      ∃ next, table.get? c = some next ∧ (∃ q, q ∈ next) ∧
        ∀ q, q ∈ next ↔ nfa.Leads s.members c q)
    (hall : List.Forall₂ (fun set i => d.subset? i = some set) table.values is) :
    Filled nfa d { s with transitions := table.rekey is } := by
  intro c
  have hrel := SortedMap.get?_rekey hall c
  rcases hlook c with ⟨hn, hno⟩ | ⟨next, hn, hne, hmem⟩
  · rw [hn] at hrel
    cases hr : (table.rekey is).get? c with
    | none => exact Or.inl ⟨rfl, hno⟩
    | some j =>
      rw [hr] at hrel
      cases hrel
  · rw [hn] at hrel
    cases hr : (table.rekey is).get? c with
    | none =>
      rw [hr] at hrel
      cases hrel
    | some j =>
      rw [hr] at hrel
      cases hrel with
      | some hj => exact Or.inr ⟨j, next, rfl, hj, hne, hmem⟩

/-- Once the state in work is filled, no state is in work. -/
theorem Sound.settle {d : Discovery} {i : DfaStateId} {s : DfaState}
    {transitions : SortedMap Char DfaStateId} (hd : Sound nfa d (some i))
    (hget : d.states[i]? = some s) (hfilled : Filled nfa d { s with transitions }) :
    Sound nfa (d.setTransitions i transitions) none := by
  have hcases : ∀ {j : DfaStateId} {t : DfaState},
      (d.setTransitions i transitions).states[j]? = some t →
        i = j ∧ t = { s with transitions } ∨ i ≠ j ∧ d.states[j]? = some t := by
    intro j t hj
    rw [getElem?_setTransitions hget] at hj
    split at hj
    · exact Or.inl ⟨by assumption, (Option.some.inj hj).symm⟩
    · exact Or.inr ⟨by assumption, hj⟩
  have hext : Extends d (d.setTransitions i transitions) := fun j set hj => by
    rwa [subset?_setTransitions]
  have hlt := hd.members_lt hget
  have haccepting := hd.accepting_iff hget
  refine ⟨?_, ?_, ?_, ?_⟩
  · intro j t hj
    rcases hcases hj with ⟨rfl, rfl⟩ | ⟨_, hj⟩
    · exact hlt
    · exact hd.members_lt hj
  · intro j t hj
    rcases hcases hj with ⟨rfl, rfl⟩ | ⟨_, hj⟩
    · exact haccepting
    · exact hd.accepting_iff hj
  · intro j hj
    rw [size_setTransitions]
    exact hd.pending_lt j hj
  · intro j t hj
    rcases hcases hj with ⟨rfl, rfl⟩ | ⟨hij, hj⟩
    · exact Or.inr (Or.inr (hfilled.mono hext))
    · rcases hd.filled hj with hp | hb | hf
      · exact Or.inl hp
      · exact absurd (Option.some.inj hb) hij
      · exact Or.inr (Or.inr (hf.mono hext))

/-- A state that is filled reads its set's table and numbers the sets in it. -/
theorem exists_of_fill {d d' : Discovery} {i : DfaStateId} (h : fill nfa d i = .ok d') :
    ∃ s table is d₁, d.states[i]? = some s ∧ nfa.successors s.members = .ok table ∧
      SortedMap.accumulate (number nfa) d table.values = .ok (is, d₁) ∧
      d' = d₁.setTransitions i (table.rekey is) := by
  unfold fill at h
  split at h
  case h_1 => cases h
  case h_2 s hread =>
    have hs := readAt_eq_ok_iff.mp hread
    split at h
    case h_1 => cases h
    case h_2 table htable =>
      split at h
      case h_1 => cases h
      case h_2 transitions d₁ hmap =>
        obtain ⟨⟨is, d₂⟩, ha, hmap⟩ := exists_of_bind_eq_ok hmap
        cases hmap
        cases h
        exact ⟨s, table, is, d₁, hs, htable, ha, rfl⟩

/-- What filling a state comes to when the table of its set and the numbers of the sets in it
are known. -/
theorem fill_of_accumulate {d d₁ : Discovery} {i : DfaStateId} {s : DfaState}
    {table : SortedMap Char NatSet} {is : List DfaStateId} (hs : d.states[i]? = some s)
    (htable : nfa.successors s.members = .ok table)
    (ha : SortedMap.accumulate (number nfa) d table.values = .ok (is, d₁)) :
    fill nfa d i = .ok (d₁.setTransitions i (table.rekey is)) := by
  rw [fill, readAt_eq_ok_iff.mpr hs]
  simp only [htable, SortedMap.mapAccumM, ha, bind, Except.bind, pure, Except.pure]

/-- Filling the state in work succeeds and leaves no state in work. -/
theorem exists_fill (h : nfa.InRange) {d : Discovery} {i : DfaStateId}
    (hd : Sound nfa d (some i)) (hi : i < d.states.size) :
    ∃ d', fill nfa d i = .ok d' ∧ Sound nfa d' none ∧ Extends d d' := by
  have hget : d.states[i]? = some d.states[i] := Array.getElem?_eq_getElem hi
  generalize d.states[i] = s at hget
  obtain ⟨table, htable, hlook⟩ := Nfa.exists_successors h (hd.members_lt hget)
  have hvalues : ∀ set ∈ table.values, ∀ q, q ∈ set → q < nfa.size :=
    fun set hset q hq => Nfa.lt_size_of_mem_successors htable hset hq
  obtain ⟨is, d₁, hacc, hall, hd₁, hkeep⟩ := exists_accumulate hd hvalues
  have hget₁ : d₁.states[i]? = some s := hkeep i s hget
  refine ⟨_, fill_of_accumulate hget htable hacc,
    hd₁.settle hget₁ (filled_of_rekey hlook hall), fun j set hj => ?_⟩
  rw [subset?_setTransitions]
  exact hkeep.extends j set hj

/-- Taking up a waiting state puts it in work. -/
theorem Sound.takeUp {d : Discovery} {i : DfaStateId} {pending : List DfaStateId}
    (hd : Sound nfa d none) (hp : d.pending = i :: pending) :
    Sound nfa { d with pending } (some i) where
  members_lt := hd.members_lt
  accepting_iff := hd.accepting_iff
  pending_lt j hj := hd.pending_lt j (by rw [hp]; exact List.mem_cons_of_mem _ hj)
  filled {j t} hj := by
    rcases hd.filled hj with hmem | hb | hf
    · rw [hp] at hmem
      rcases List.mem_cons.mp hmem with rfl | hmem
      · exact Or.inr (Or.inl rfl)
      · exact Or.inl hmem
    · cases hb
    · exact Or.inr (Or.inr hf)

/-- A round fills a waiting state, unless none waits. -/
theorem exists_advance (h : nfa.InRange) {d : Discovery} (hd : Sound nfa d none) :
    (advance nfa d = none ∧ d.pending = []) ∨
      ∃ d', advance nfa d = some (.ok d') ∧ Sound nfa d' none ∧ Extends d d' := by
  cases hp : d.pending with
  | nil => exact Or.inl ⟨by rw [advance, hp], rfl⟩
  | cons i pending =>
    have hi : i < d.states.size := hd.pending_lt i (by rw [hp]; exact List.mem_cons_self)
    obtain ⟨d', hfill, hd', hext⟩ := exists_fill h (hd.takeUp hp) hi
    exact Or.inr ⟨d', by rw [advance, hp]; exact congrArg some hfill, hd', hext⟩

/-- A round that succeeds keeps the invariant, and every number keeps its set. -/
theorem Sound.of_advance (h : nfa.InRange) {d d' : Discovery} (hd : Sound nfa d none)
    (hadvance : advance nfa d = some (.ok d')) : Sound nfa d' none ∧ Extends d d' := by
  rcases exists_advance h hd with ⟨hstop, -⟩ | ⟨d₁, hnext, hd₁⟩
  · cases hstop.symm.trans hadvance
  · cases hnext.symm.trans hadvance
    exact hd₁

/-- There is no round only where nothing waits. -/
theorem pending_eq_nil_of_advance {d : Discovery} (h : advance nfa d = none) : d.pending = [] := by
  unfold advance at h
  split at h
  case h_1 hp => exact hp
  case h_2 => cases h

/-- A discovery with nothing waiting is over. -/
theorem run_of_pending_nil {d : Discovery} (h : d.pending = []) : run nfa d = .ok d := by
  have hadvance : advance nfa d = none := by rw [advance, h]
  rw [run]
  split
  case h_1 => rfl
  case h_2 hnext => cases hadvance.symm.trans hnext
  case h_3 hnext => cases hadvance.symm.trans hnext

/-- A discovery goes on from where a round ends. -/
theorem run_of_advance {d d' : Discovery} (h : advance nfa d = some (.ok d')) :
    run nfa d = run nfa d' := by
  rw [run]
  split
  case h_1 hnext => cases h.symm.trans hnext
  case h_2 hnext => cases h.symm.trans hnext
  case h_3 hnext =>
    cases h.symm.trans hnext
    rfl

/-- A discovery goes on until nothing waits, and every number keeps its set. -/
theorem exists_run (h : nfa.InRange) {d : Discovery} (hd : Sound nfa d none) :
    ∃ d', run nfa d = .ok d' ∧ Sound nfa d' none ∧ d'.pending = [] ∧ Extends d d' := by
  fun_induction run nfa d with
  | case1 d hstop => exact ⟨d, rfl, hd, pending_eq_nil_of_advance hstop, fun _ _ hi => hi⟩
  | case2 d fault hfault =>
    rcases exists_advance h hd with ⟨hstop, -⟩ | ⟨d', hnext, -⟩
    · cases hstop.symm.trans hfault
    · cases hnext.symm.trans hfault
  | case3 d d₁ hadvance ih =>
    obtain ⟨hd₁, hext⟩ := hd.of_advance h hadvance
    obtain ⟨d₂, hrun, hd₂, hdone, hext'⟩ := ih hd₁
    exact ⟨d₂, hrun, hd₂, hdone, fun j set hj => hext' j set (hext j set hj)⟩

end Discovery

/-- A deterministic automaton stands for the sets of states that runs can be in: the
start for the closure of the start, and each transition for the set its symbol leads to. -/
structure Dfa.Represents (dfa : Dfa) (nfa : Nfa) : Prop where
  start : ∃ s, dfa.states[dfa.start]? = some s ∧
    ∀ q, q ∈ s.members ↔ ReflTransGen nfa.Jumps nfa.start q
  accepting_iff : ∀ {i : DfaStateId} {s : DfaState}, dfa.states[i]? = some s →
    (s.accepting = true ↔ ∃ q, q ∈ s.members ∧ nfa.Accepting q)
  next : ∀ {i : DfaStateId} {s : DfaState}, dfa.states[i]? = some s → ∀ c,
    (s.transitions.get? c = none ∧ ∀ q, ¬ nfa.Leads s.members c q) ∨
      ∃ j t, s.transitions.get? c = some j ∧ dfa.states[j]? = some t ∧ (∃ q, q ∈ t.members) ∧
        ∀ q, q ∈ t.members ↔ nfa.Leads s.members c q

/-- The steps in which a deterministic automaton comes about. -/
theorem Dfa.ofNfa_eq_ok {nfa : Nfa} {closed : NatSet} {i : DfaStateId} {d d' : Discovery}
    (hclosed : nfa.close nfa.start = .ok closed)
    (hnumber : Discovery.start.number nfa closed = .ok (i, d)) (hrun : d.run nfa = .ok d') :
    Dfa.ofNfa nfa = .ok ⟨d'.states, i⟩ := by
  rw [Dfa.ofNfa, hclosed]
  simp only [bind, Except.bind, hnumber, hrun]
  rfl

/-- Every automaton in range has a deterministic automaton that stands for its sets. -/
theorem Dfa.exists_ofNfa {nfa : Nfa} (h : nfa.InRange) :
    ∃ dfa, Dfa.ofNfa nfa = .ok dfa ∧ dfa.Represents nfa := by
  obtain ⟨closed, hclosed, hmem⟩ := Nfa.exists_close h h.start_lt
  have hlt : ∀ q, q ∈ closed → q < nfa.size := by
    intro q hq
    exact h.run_lt h.start_lt (Nfa.run_of_jumps ((hmem q).mp hq))
  obtain ⟨i, d, hnumber, hi, hd, _⟩ := Discovery.exists_number Discovery.sound_start hlt
  obtain ⟨d', hrun, hd', hdone, hext⟩ := Discovery.exists_run h hd
  have hok := Dfa.ofNfa_eq_ok hclosed hnumber hrun
  refine ⟨⟨d'.states, i⟩, hok, ?_, hd'.accepting_iff, fun {j s} hj c => ?_⟩
  · obtain ⟨s, hs, rfl⟩ := Option.map_eq_some_iff.mp (hext i closed hi)
    exact ⟨s, hs, hmem⟩
  · rcases hd'.filled hj with hp | hb | hf
    · rw [hdone] at hp
      exact absurd hp List.not_mem_nil
    · cases hb
    · refine (hf c).imp id ?_
      rintro ⟨k, next, hk, hsub, hne, hnext⟩
      obtain ⟨t, ht, rfl⟩ := Option.map_eq_some_iff.mp hsub
      exact ⟨k, t, hk, ht, hne, hnext⟩

end PatternAutomata
