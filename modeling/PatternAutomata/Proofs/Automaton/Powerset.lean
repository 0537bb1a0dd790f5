import PatternAutomata.Proofs.Automaton.Subsets
import PatternAutomata.Recognizer.Walk

/-!
# The deterministic automaton of the reachable sets, each numbered once

Beside the sets that the numbers stand for, a discovery keeps track of how they came up.
What waits has no transitions yet and waits once, and every number but the first is where an
earlier one leads. The last holds again as soon as the state in work is filled: whatever was
numbered meanwhile is among the numbers that its transitions lead to. That no set has two
numbers needs no such account, because the index finds one number for a set.
-/

namespace PatternAutomata

open Relation

namespace Discovery

variable {nfa : Nfa}

/-- The state `j` has a transition to `k`. -/
def Points (d : Discovery) (j k : DfaStateId) : Prop :=
  ∃ s c, d.states[j]? = some s ∧ s.transitions.get? c = some k

/-- The states of a set lead only to states of the set by ε-edges. -/
def Closed (nfa : Nfa) (set : NatSet) : Prop :=
  (∃ q, q ∈ set) ∧ ∀ p q, p ∈ set → nfa.Jumps p q → q ∈ set

/-- How the numbers of a discovery came up: each set is closed, a number waits once and without
transitions, and all numbers below a limit but the first are where an earlier one leads. -/
structure Grown (nfa : Nfa) (d : Discovery) (limit : Nat) : Prop where
  closed : ∀ {i : DfaStateId} {set : NatSet}, d.subset? i = some set → Closed nfa set
  pending_lt : ∀ i ∈ d.pending, i < d.states.size
  pending_nodup : d.pending.Nodup
  blank : ∀ i ∈ d.pending, ∀ s, d.states[i]? = some s → s.transitions = ∅
  pointed : ∀ k, 0 < k → k < limit → ∃ j < k, d.Points j k

/-- Transitions stay while states stay. -/
theorem Points.mono {d d' : Discovery} {j k : DfaStateId} (h : d.Points j k)
    (hkeep : Keeps d d') : d'.Points j k := by
  obtain ⟨s, c, hs, hc⟩ := h
  exact ⟨s, c, hkeep j s hs, hc⟩

/-- Numbering a closed set keeps the way the numbers came up. -/
theorem Grown.number {d d' : Discovery} {limit : Nat} (hd : Grown nfa d limit) {subset : NatSet}
    (hsubset : Closed nfa subset) {i : DfaStateId}
    (h : Discovery.number nfa d subset = .ok (i, d')) : Grown nfa d' limit := by
  have hkeep := keeps_of_number h
  cases numbers_of_number h with
  | known => exact hd
  | fresh hfresh =>
    refine ⟨?_, ?_, ?_, ?_, ?_⟩
    · intro j set hj
      obtain ⟨s, hs, rfl⟩ := Option.map_eq_some_iff.mp hj
      rcases getElem?_add_cases hs with hs | ⟨-, rfl⟩
      · exact hd.closed (subset?_eq_some hs)
      · exact hsubset
    · intro j hj
      rw [size_add]
      rcases List.mem_cons.mp hj with rfl | hj
      · exact Nat.lt_succ_self _
      · exact Nat.lt_succ_of_lt (hd.pending_lt j hj)
    · apply List.nodup_cons.mpr
      refine ⟨fun hmem => ?_, hd.pending_nodup⟩
      exact Nat.lt_irrefl _ (hd.pending_lt _ hmem)
    · intro j hj s hs
      rcases getElem?_add_cases hs with hs | ⟨-, rfl⟩
      · rcases List.mem_cons.mp hj with rfl | hj
        · rw [Array.getElem?_eq_none (Nat.le_refl _)] at hs
          cases hs
        · exact hd.blank j hj s hs
      · rfl
    · intro k hpos hk
      obtain ⟨j, hjk, hj⟩ := hd.pointed k hpos hk
      exact ⟨j, hjk, hj.mono hkeep⟩

/-- What a discovery gathers while sets are numbered one after another: states stay, what is
numbered anew is among the numbers given, and only that waits in addition. -/
structure Gathers (d : Discovery) (is : List DfaStateId) (d' : Discovery) : Prop where
  keeps : Keeps d d'
  mem_of_new : ∀ k, d.states.size ≤ k → k < d'.states.size → k ∈ is
  pending : ∀ k ∈ d'.pending, k ∈ d.pending ∨ d.states.size ≤ k

/-- Numbering one set gathers its number. -/
theorem gathers_of_number {d d' : Discovery} {subset : NatSet} {i : DfaStateId}
    (h : number nfa d subset = .ok (i, d')) : Gathers d [i] d' := by
  refine ⟨keeps_of_number h, ?_, ?_⟩
  · intro k hle hlt
    cases numbers_of_number h with
    | known => omega
    | fresh =>
      rw [size_add] at hlt
      exact List.mem_singleton.mpr (by omega)
  · intro k hk
    cases numbers_of_number h with
    | known => exact Or.inl hk
    | fresh =>
      rcases List.mem_cons.mp hk with rfl | hk
      · exact Or.inr (Nat.le_refl _)
      · exact Or.inl hk

/-- States that stay are not fewer than before. -/
theorem Keeps.size_le {d d' : Discovery} (h : Keeps d d') : d.states.size ≤ d'.states.size := by
  by_contra hlt
  have hget := Array.getElem?_eq_getElem (Nat.lt_of_not_le hlt)
  have hout := (Array.getElem?_eq_some_iff.mp (h _ _ hget)).1
  exact Nat.lt_irrefl _ hout

/-- Gathering goes on from one number to the others. -/
theorem Gathers.cons {d d₁ d' : Discovery} {i : DfaStateId} {is : List DfaStateId}
    (h : Gathers d [i] d₁) (hrest : Gathers d₁ is d') : Gathers d (i :: is) d' := by
  refine ⟨fun j s hj => hrest.keeps j s (h.keeps j s hj), ?_, ?_⟩
  · intro k hle hlt
    by_cases hk : k < d₁.states.size
    · have hi : k = i := List.mem_singleton.mp (h.mem_of_new k hle hk)
      exact hi ▸ List.mem_cons_self
    · exact List.mem_cons_of_mem _ (hrest.mem_of_new k (Nat.le_of_not_lt hk) hlt)
  · intro k hk
    rcases hrest.pending k hk with hk | hk
    · exact h.pending k hk
    · exact Or.inr (Nat.le_trans h.keeps.size_le hk)

/-- Numbering closed sets one after another gathers one number for each, and keeps the way the
numbers came up. -/
theorem Grown.accumulate {d d' : Discovery} {limit : Nat} (hd : Grown nfa d limit)
    {subsets : List NatSet} (hsubsets : ∀ set ∈ subsets, Closed nfa set) {is : List DfaStateId}
    (h : SortedMap.accumulate (Discovery.number nfa) d subsets = .ok (is, d')) :
    Grown nfa d' limit ∧ Gathers d is d' ∧ is.length = subsets.length := by
  induction subsets generalizing d is with
  | nil =>
    cases h
    refine ⟨hd, ⟨fun _ _ hj => hj, ?_, fun k hk => Or.inl hk⟩, rfl⟩
    intro k hle hlt
    exact absurd hlt (Nat.not_lt.mpr hle)
  | cons subset subsets ih =>
    rw [List.forall_mem_cons] at hsubsets
    obtain ⟨i, d₁, is', hn, ha, rfl⟩ := SortedMap.exists_of_accumulate_cons h
    have hd₁ := hd.number hsubsets.1 hn
    obtain ⟨hd', hgathers, hlen⟩ := ih hd₁ hsubsets.2 ha
    refine ⟨hd', (gathers_of_number hn).cons hgathers, ?_⟩
    rw [List.length_cons, hlen, List.length_cons]

/-- What a symbol leads to from a set of states is closed. -/
theorem closed_of_successors (h : nfa.InRange) {set : NatSet}
    (hset : ∀ q, q ∈ set → q < nfa.size) {table : SortedMap Char NatSet}
    (htable : nfa.successors set = .ok table) {next : NatSet} (hnext : next ∈ table.values) :
    Closed nfa next := by
  obtain ⟨table', htable', hlook⟩ := Nfa.exists_successors h hset
  have he : table' = table := Except.ok.inj (htable'.symm.trans htable)
  subst he
  obtain ⟨⟨c, next⟩, hentry, rfl⟩ := List.mem_map.mp hnext
  have hget := SortedMap.get?_eq_some_iff.mpr hentry
  rcases hlook c with ⟨hnone, -⟩ | ⟨next', hsome, hne, hmem⟩
  · rw [hget] at hnone
    cases hnone
  · have he : next' = next := Option.some.inj (hsome.symm.trans hget)
    subst he
    refine ⟨hne, fun p q hp hj => (hmem q).mpr ?_⟩
    obtain ⟨t, hread, hreach⟩ := (hmem p).mp hp
    exact ⟨t, hread, hreach.tail hj⟩

/-- Filling a state that waits no more points to all that is numbered meanwhile, and keeps the
way the numbers came up. -/
theorem Grown.fill (h : nfa.InRange) {d d' : Discovery} {i : DfaStateId}
    (hd : Grown nfa d d.states.size) (hlt : ∀ {s}, d.states[i]? = some s →
      ∀ q, q ∈ s.members → q < nfa.size) (hwait : i ∉ d.pending)
    (hblank : ∀ s, d.states[i]? = some s → s.transitions = ∅)
    (hfill : Discovery.fill nfa d i = .ok d') : Grown nfa d' d'.states.size := by
  obtain ⟨s, table, is, d₁, hs, htable, hacc, rfl⟩ := exists_of_fill hfill
  have hclosed : ∀ set ∈ table.values, Closed nfa set :=
    fun set hset => closed_of_successors h (hlt hs) htable hset
  obtain ⟨hd₁, hgathers, hlen⟩ := hd.accumulate hclosed hacc
  have hi : i < d.states.size := (Array.getElem?_eq_some_iff.mp hs).1
  have hs₁ : d₁.states[i]? = some s := hgathers.keeps i s hs
  have hwait₁ : i ∉ d₁.pending := by
    intro hmem
    rcases hgathers.pending i hmem with hmem | hle
    · exact hwait hmem
    · exact Nat.not_le.mpr hi hle
  -- the state in work had no transitions, so nothing that was pointed to is lost
  have hpoints : ∀ {j k}, d₁.Points j k → (d₁.setTransitions i (table.rekey is)).Points j k := by
    rintro j k ⟨t, c, ht, hc⟩
    have hij : i ≠ j := by
      rintro rfl
      cases Option.some.inj (hs₁.symm.trans ht)
      rw [hblank s hs] at hc
      cases hc
    exact ⟨t, c, by rw [getElem?_setTransitions hs₁, if_neg hij, ht], hc⟩
  refine ⟨?_, ?_, hd₁.pending_nodup, ?_, ?_⟩
  · intro j set hj
    rw [subset?_setTransitions] at hj
    exact hd₁.closed hj
  · intro j hj
    rw [size_setTransitions]
    exact hd₁.pending_lt j hj
  · intro j hj t ht
    have hij : i ≠ j := by
      rintro rfl
      exact hwait₁ hj
    rw [getElem?_setTransitions hs₁, if_neg hij] at ht
    exact hd₁.blank j hj t ht
  · intro k hpos hk
    rw [size_setTransitions] at hk
    by_cases hold : k < d.states.size
    · obtain ⟨j, hjk, hj⟩ := hd₁.pointed k hpos hold
      exact ⟨j, hjk, hpoints hj⟩
    · have hmem := hgathers.mem_of_new k (Nat.le_of_not_lt hold) hk
      obtain ⟨c, hc⟩ := SortedMap.exists_get?_rekey hlen hmem
      let s' : DfaState := { s with transitions := table.rekey is }
      refine ⟨i, Nat.lt_of_lt_of_le hi (Nat.le_of_not_lt hold), s', c, ?_, hc⟩
      rw [getElem?_setTransitions hs₁, if_pos rfl]

/-- A round keeps the way the numbers came up. -/
theorem Grown.advance (h : nfa.InRange) {d d' : Discovery} (hd : Grown nfa d d.states.size)
    (hsound : Sound nfa d none) (hadvance : Discovery.advance nfa d = some (.ok d')) :
    Grown nfa d' d'.states.size := by
  unfold Discovery.advance at hadvance
  split at hadvance
  case h_1 => cases hadvance
  case h_2 i pending hp =>
    have hmem : i ∈ d.pending := by
      rw [hp]
      exact List.mem_cons_self
    have hnodup := hd.pending_nodup
    rw [hp, List.nodup_cons] at hnodup
    have hrest : ∀ j ∈ pending, j ∈ d.pending := by
      intro j hj
      rw [hp]
      exact List.mem_cons_of_mem _ hj
    have hd₀ : Grown nfa { d with pending } d.states.size :=
      ⟨hd.closed, fun j hj => hd.pending_lt j (hrest j hj), hnodup.2,
        fun j hj => hd.blank j (hrest j hj), hd.pointed⟩
    exact hd₀.fill h (fun hs => hsound.members_lt hs) hnodup.1 (hd.blank i hmem)
      (Option.some.inj hadvance)

/-- What every round keeps holds at the end of a discovery. -/
theorem invariant_of_run {P : Discovery → Prop}
    (hstep : ∀ d d', P d → advance nfa d = some (.ok d') → P d') {d d' : Discovery} (hd : P d)
    (h : run nfa d = .ok d') : P d' := by
  fun_induction run nfa d with
  | case1 d hadv =>
    cases h
    exact hd
  | case2 d fault hadv => cases h
  | case3 d d₁ hadv ih => exact ih (hstep d d₁ hd hadv) h

/-- The first set is numbered zero. -/
theorem Numbers.eq_zero {d : Discovery} {subset : NatSet} {i : DfaStateId}
    (h : Numbers Discovery.start subset i d) : i = 0 := by
  cases h with
  | known h => cases h
  | fresh => rfl

/-- Before anything is numbered, all numbers have come up as they should. -/
theorem grown_start : Grown nfa Discovery.start 1 := by
  refine ⟨?_, ?_, List.nodup_nil, ?_, ?_⟩
  · rintro i set ⟨⟩
  · rintro i ⟨⟩
  · rintro i ⟨⟩
  · intro k hpos hk
    omega

/-- A discovery ends with all numbers having come up as they should. -/
theorem exists_grown (h : nfa.InRange) :
    ∃ d, Dfa.ofNfa nfa = .ok ⟨d.states, 0⟩ ∧ Sound nfa d none ∧
      Grown nfa d d.states.size := by
  obtain ⟨closed, hclosed, hmem⟩ := Nfa.exists_close h h.start_lt
  have hlt : ∀ q, q ∈ closed → q < nfa.size := by
    intro q hq
    exact h.run_lt h.start_lt (Nfa.run_of_jumps ((hmem q).mp hq))
  have hsubset : Closed nfa closed := by
    refine ⟨⟨nfa.start, (hmem nfa.start).mpr .refl⟩, fun p q hp hj => ?_⟩
    exact (hmem q).mpr (((hmem p).mp hp).tail hj)
  obtain ⟨i, d, hnumber, -, hsound, -⟩ := exists_number sound_start hlt
  have hzero : i = 0 := (numbers_of_number hnumber).eq_zero
  subst hzero
  have hsize : d.states.size ≤ 1 := by
    by_contra hlarge
    have hlast : d.states.size - 1 < d.states.size := by omega
    have hnew := (gathers_of_number hnumber).mem_of_new _ (Nat.zero_le _) hlast
    have hfirst := List.mem_singleton.mp hnew
    omega
  have hgrown : Grown nfa d d.states.size := by
    have hd := grown_start.number hsubset hnumber
    refine ⟨hd.closed, hd.pending_lt, hd.pending_nodup, hd.blank, ?_⟩
    intro k hpos hk
    omega
  obtain ⟨d', hrun, -⟩ := exists_run h hsound
  have hstep : ∀ d₁ d₂, Sound nfa d₁ none ∧ Grown nfa d₁ d₁.states.size →
      advance nfa d₁ = some (.ok d₂) → Sound nfa d₂ none ∧ Grown nfa d₂ d₂.states.size := by
    rintro d₁ d₂ ⟨hs, hg⟩ hadv
    exact ⟨(hs.of_advance h hadv).1, hg.advance h hs hadv⟩
  exact ⟨d', Dfa.ofNfa_eq_ok hclosed hnumber hrun, invariant_of_run hstep ⟨hsound, hgrown⟩ hrun⟩

end Discovery

namespace Dfa

/-- The look-up of a transition is that of the state. -/
theorem next_eq {dfa : Dfa} {i : DfaStateId} {s : DfaState} (h : dfa.states[i]? = some s)
    (c : Char) : dfa.next i c = .ok (s.transitions.get? c) := by
  rw [next, state, readAt_eq_ok_iff.mpr h]
  rfl

/-- A walk that arrives has taken a transition on its first symbol and arrives from there. -/
theorem exists_of_walkFrom_cons {dfa : Dfa} {i j : DfaStateId} {position : Nat} {c : Char}
    {rest : List Char} (h : dfa.walkFrom i position (c :: rest) = .ok (.arrived j)) :
    ∃ k, dfa.next i c = .ok (some k) ∧ dfa.walkFrom k (position + 1) rest = .ok (.arrived j) := by
  rw [walkFrom] at h
  obtain ⟨target, hnext, h⟩ := exists_of_bind_eq_ok h
  cases target with
  | none => cases h
  | some k => exact ⟨k, hnext, h⟩

/-- A walk on two words one after the other goes on from where the first one arrives. -/
theorem walkFrom_append {dfa : Dfa} {i j : DfaStateId} {position : Nat} {word : List Char}
    (h : dfa.walkFrom i position word = .ok (.arrived j)) (rest : List Char) :
    dfa.walkFrom i position (word ++ rest) = dfa.walkFrom j (position + word.length) rest := by
  induction word generalizing i position with
  | nil =>
    cases h
    rfl
  | cons c word ih =>
    obtain ⟨k, hnext, hwalk⟩ := exists_of_walkFrom_cons h
    rw [List.cons_append, walkFrom, hnext, List.length_cons, Nat.add_comm word.length,
      ← Nat.add_assoc]
    exact ih hwalk

/-- The deterministic automaton of the sets of states that runs can be in: every state is a
set, no set is two states, every table is filled, and every state is reached. -/
structure IsPowerset (dfa : Dfa) (nfa : Nfa) : Prop where
  /-- The start is numbered zero and is the closure of the start. -/
  start : dfa.start = 0 ∧ ∃ s, dfa.states[0]? = some s ∧
    nfa.close nfa.start = .ok s.members ∧
    ∀ q, q ∈ s.members ↔ ReflTransGen nfa.Jumps nfa.start q
  nonempty : ∀ {i : DfaStateId} {s : DfaState}, dfa.states[i]? = some s → ∃ q, q ∈ s.members
  /-- Every set is its own closure. -/
  closed : ∀ {i : DfaStateId} {s : DfaState}, dfa.states[i]? = some s →
    nfa.closeAll s.members.toList = .ok s.members
  unique : ∀ {i j : DfaStateId} {s t : DfaState}, dfa.states[i]? = some s →
    dfa.states[j]? = some t → s.members = t.members → i = j
  accepting_iff : ∀ {i : DfaStateId} {s : DfaState}, dfa.states[i]? = some s →
    (s.accepting = true ↔ ∃ q, q ∈ s.members ∧ nfa.Accepting q)
  /-- A symbol has a target exactly where some member reads it. The target is the closure of
  the states read to. -/
  next : ∀ {i : DfaStateId} {s : DfaState}, dfa.states[i]? = some s → ∀ c, ∃ target,
    dfa.next i c = .ok target ∧
    (target.isSome = true ↔ ∃ p q, p ∈ s.members ∧ nfa.Reads p c q) ∧
    ∀ j, target = some j → ∃ t reached, dfa.states[j]? = some t ∧
      nfa.step s.members c = .ok reached ∧ nfa.closeAll reached.toList = .ok t.members ∧
      ∀ q, q ∈ t.members ↔ nfa.Leads s.members c q
  /-- Every number but the first is where an earlier one leads. -/
  pointed : ∀ k, 0 < k → k < dfa.size → ∃ j < k, ∃ c, dfa.next j c = .ok (some k)
  reachable : ∀ k < dfa.size, ∃ word, dfa.walk word = .ok (.arrived k)

/-- Where every number but the first is where an earlier one leads, some walk arrives at each. -/
theorem exists_walk {dfa : Dfa} (hstart : dfa.start = 0)
    (h : ∀ k, 0 < k → k < dfa.size → ∃ j < k, ∃ c, dfa.next j c = .ok (some k)) {k : DfaStateId}
    (hk : k < dfa.size) : ∃ word, dfa.walk word = .ok (.arrived k) := by
  induction k using Nat.strongRecOn with
  | ind k ih =>
    rcases Nat.eq_zero_or_pos k with rfl | hpos
    · refine ⟨[], ?_⟩
      rw [walk, walkFrom, hstart]
    · obtain ⟨j, hjk, c, hc⟩ := h k hpos hk
      obtain ⟨word, hword⟩ := ih j hjk (Nat.lt_trans hjk hk)
      refine ⟨word ++ [c], ?_⟩
      rw [walk, walkFrom_append hword, walkFrom, hc]
      rfl

/-- Every number of a discovered automaton but the first is where an earlier one leads. -/
theorem pointed_of_grown {nfa : Nfa} {d : Discovery} (h : Discovery.Grown nfa d d.states.size)
    (k : DfaStateId) (hpos : 0 < k) (hk : k < d.states.size) :
    ∃ j < k, ∃ c, (⟨d.states, 0⟩ : Dfa).next j c = .ok (some k) := by
  obtain ⟨j, hjk, s, c, hs, hc⟩ := h.pointed k hpos hk
  exact ⟨j, hjk, c, by rw [next_eq hs, hc]⟩

/-- Some walk arrives at every state of the deterministic automaton of an automaton in range. -/
theorem exists_walk_of_ofNfa {nfa : Nfa} (h : nfa.InRange) {dfa : Dfa}
    (hdfa : Dfa.ofNfa nfa = .ok dfa) {k : DfaStateId} (hk : k < dfa.size) :
    ∃ word, dfa.walk word = .ok (.arrived k) := by
  obtain ⟨d, hok, -, hgrown⟩ := Discovery.exists_grown h
  have he : dfa = ⟨d.states, 0⟩ := Except.ok.inj (hdfa.symm.trans hok)
  subst he
  have hstart : (⟨d.states, 0⟩ : Dfa).start = 0 := rfl
  exact exists_walk hstart (pointed_of_grown hgrown) hk

/-- A closed set is its own closure. -/
theorem closeAll_of_closed {nfa : Nfa} (h : nfa.InRange) {set : NatSet}
    (hlt : ∀ q, q ∈ set → q < nfa.size) (hclosed : Discovery.Closed nfa set) :
    nfa.closeAll set.toList = .ok set := by
  obtain ⟨closure, hclosure, hmem⟩ := Nfa.exists_closeAll_toList h hlt
  have he : closure = set := by
    apply NatSet.ext
    intro q
    rw [hmem]
    constructor
    · rintro ⟨p, hp, hreach⟩
      induction hreach with
      | refl => exact hp
      | tail _ hj ih => exact hclosed.2 _ _ ih hj
    · intro hq
      exact ⟨q, hq, .refl⟩
  exact he ▸ hclosure

/-- A symbol of a state that stands for a set leads to the closure of the states that members
read to, and has a target exactly where there is a member that reads it. -/
theorem Represents.next_target {dfa : Dfa} {nfa : Nfa} (hrep : dfa.Represents nfa)
    (h : nfa.InRange) {i : DfaStateId} {s : DfaState} (hs : dfa.states[i]? = some s)
    (hlt : ∀ q, q ∈ s.members → q < nfa.size) (c : Char) :
    ∃ target, dfa.next i c = .ok target ∧
      (target.isSome = true ↔ ∃ p q, p ∈ s.members ∧ nfa.Reads p c q) ∧
      ∀ j, target = some j → ∃ t reached, dfa.states[j]? = some t ∧
        nfa.step s.members c = .ok reached ∧ nfa.closeAll reached.toList = .ok t.members ∧
        ∀ q, q ∈ t.members ↔ nfa.Leads s.members c q := by
  refine ⟨_, next_eq hs c, ?_⟩
  obtain ⟨reached, active, hstep, hclose, -, hmem⟩ := Nfa.exists_closeAll_step h hlt c
  rcases hrep.next hs c with ⟨hnone, hno⟩ | ⟨j, t, hj, ht, hne, hmem'⟩
  · rw [hnone, ← Nfa.exists_leads_iff]
    refine ⟨iff_of_false Bool.false_ne_true ?_, ?_⟩
    · rintro ⟨q, hq⟩
      exact hno q hq
    · rintro j ⟨⟩
  · rw [hj, ← Nfa.exists_leads_iff]
    have he : active = t.members := NatSet.ext fun q => (hmem q).trans (hmem' q).symm
    refine ⟨iff_of_true rfl ?_, ?_⟩
    · obtain ⟨q, hq⟩ := hne
      exact ⟨q, (hmem' q).mp hq⟩
    · rintro j' ⟨⟩
      exact ⟨t, reached, ht, hstep, he ▸ hclose, hmem'⟩

/-- The start of an automaton that stands for sets is the closure of the start. -/
theorem Represents.close_start {dfa : Dfa} {nfa : Nfa} (hrep : dfa.Represents nfa)
    (h : nfa.InRange) : ∃ s, dfa.states[dfa.start]? = some s ∧
      nfa.close nfa.start = .ok s.members ∧
      ∀ q, q ∈ s.members ↔ ReflTransGen nfa.Jumps nfa.start q := by
  obtain ⟨s, hs, hmem⟩ := hrep.start
  obtain ⟨closure, hclosure, hmem'⟩ := Nfa.exists_close h h.start_lt
  have he : closure = s.members := NatSet.ext fun q => (hmem' q).trans (hmem q).symm
  exact ⟨s, hs, he ▸ hclosure, hmem⟩

/-- Every automaton in range has the deterministic automaton of its reachable sets of states,
each numbered once. -/
theorem ofNfa_isPowerset (nfa : Nfa) (h : nfa.InRange) :
    ∃ dfa, Dfa.ofNfa nfa = .ok dfa ∧ dfa.IsPowerset nfa := by
  obtain ⟨dfa, hok, hrep⟩ := exists_ofNfa h
  obtain ⟨d, hok', hsound, hgrown⟩ := Discovery.exists_grown h
  have he : dfa = ⟨d.states, 0⟩ := Except.ok.inj (hok.symm.trans hok')
  subst he
  have hclosed : ∀ {i : DfaStateId} {s : DfaState}, d.states[i]? = some s →
      Discovery.Closed nfa s.members := fun hs => hgrown.closed (Discovery.subset?_eq_some hs)
  refine ⟨_, hok, ⟨rfl, hrep.close_start h⟩, fun hs => (hclosed hs).1, ?_, ?_,
    hrep.accepting_iff, ?_, pointed_of_grown hgrown, fun k hk => exists_walk_of_ofNfa h hok hk⟩
  · intro i s hs
    exact closeAll_of_closed h (hsound.members_lt hs) (hclosed hs)
  · intro i j s t hs ht hst
    have hi := Discovery.subset?_eq_some hs
    have hj := Discovery.subset?_eq_some ht
    rw [← hst] at hj
    exact Discovery.eq_of_subset? hi hj
  · intro i s hs c
    exact hrep.next_target h hs (hsound.members_lt hs) c

/-- The deterministic automaton of an automaton with an ε-cycle and states with both kinds of
edges. -/
theorem tangled_isPowerset : Nfa.tangled.InRange ∧
    ∃ dfa, Dfa.ofNfa Nfa.tangled = .ok dfa ∧ dfa.IsPowerset Nfa.tangled :=
  ⟨by decide, ofNfa_isPowerset Nfa.tangled (by decide)⟩

end Dfa

end PatternAutomata
