import PatternAutomata.Automaton.Reach
import PatternAutomata.Proofs.Automaton.Runs
import PatternAutomata.Proofs.Collection.Lookup

/-!
# Closures and successors, exactly

In an automaton in range every operation on sets of its states succeeds. A closure holds
exactly the states that ε-edges lead to, a step exactly the targets of the transitions
on its symbol, and the successors are for each symbol the closure of the step on it.
-/

namespace PatternAutomata.Nfa

open Relation

variable {nfa : Nfa}

/-- The result of closing: it keeps what was there, visits the stack, leads nowhere
else, and holds nothing that neither was there nor is reached from the stack. -/
structure Closes (nfa : Nfa) (closure : NatSet) (stack : List StateId) (result : NatSet) :
    Prop where
  keeps : ∀ q, q ∈ closure → q ∈ result
  visits : ∀ q ∈ stack, q ∈ result
  closed : ∀ p q, p ∈ result → nfa.Jumps p q → q ∈ result
  reached : ∀ q, q ∈ result → q ∈ closure ∨ ∃ p ∈ stack, ReflTransGen nfa.Jumps p q

theorem mem_pushFresh {closure : NatSet} {targets stack : List StateId} {q : StateId} :
    q ∈ pushFresh closure targets stack ↔ (q ∈ targets ∧ q ∉ closure) ∨ q ∈ stack := by
  rw [pushFresh, List.mem_append, List.mem_reverse, List.mem_filter, decide_eq_true_eq]

/-- A state that is gathered already need not wait. -/
theorem Closes.skip {closure : NatSet} {q : StateId} {stack : List StateId} {result : NatSet}
    (hres : nfa.Closes closure stack result) (hq : q ∈ closure) :
    nfa.Closes closure (q :: stack) result where
  keeps := hres.keeps
  visits r hr := by
    rcases List.mem_cons.mp hr with rfl | hr
    · exact hres.keeps r hq
    · exact hres.visits r hr
  closed := hres.closed
  reached r hr := by
    refine (hres.reached r hr).imp id ?_
    rintro ⟨p, hp, hreach⟩
    exact ⟨p, List.mem_cons_of_mem _ hp, hreach⟩

/-- A waiting state is gathered, and the targets of its ε-edges wait instead. -/
theorem Closes.gather {closure : NatSet} {q : StateId} {stack : List StateId} {result : NatSet}
    {s : State} (hget : nfa.states[q]? = some s)
    (hres : nfa.Closes (closure.insert q) (pushFresh (closure.insert q) s.epsilon stack) result) :
    nfa.Closes closure (q :: stack) result where
  keeps r hr := hres.keeps r (NatSet.mem_insert.mpr (Or.inr hr))
  visits r hr := by
    rcases List.mem_cons.mp hr with rfl | hr
    · exact hres.keeps r (NatSet.mem_insert.mpr (Or.inl rfl))
    · exact hres.visits r (mem_pushFresh.mpr (Or.inr hr))
  closed := hres.closed
  reached r hr := by
    rcases hres.reached r hr with hr | ⟨p, hp, hreach⟩
    · rcases NatSet.mem_insert.mp hr with rfl | hr
      · exact Or.inr ⟨r, List.mem_cons_self, .refl⟩
      · exact Or.inl hr
    · rcases mem_pushFresh.mp hp with ⟨hp, _⟩ | hp
      · exact Or.inr ⟨q, List.mem_cons_self, .head ((jumps_iff hget).mpr hp) hreach⟩
      · exact Or.inr ⟨p, List.mem_cons_of_mem _ hp, hreach⟩

/-- Closing succeeds where the ε-edges of what is gathered so far lead to what is
gathered or waits on the stack. -/
theorem exists_closeFrom (h : nfa.InRange) {closure : NatSet} {stack : List StateId}
    (hs : ∀ q ∈ stack, q < nfa.size)
    (hc : ∀ p q, p ∈ closure → nfa.Jumps p q → q ∈ closure ∨ q ∈ stack) :
    ∃ result, nfa.closeFrom closure stack = .ok result ∧ nfa.Closes closure stack result := by
  fun_induction closeFrom nfa closure stack with
  | case1 closure =>
    refine ⟨closure, rfl, fun _ hq => hq, fun _ hq => absurd hq List.not_mem_nil, ?_,
      fun _ hq => Or.inl hq⟩
    intro p q hp hj
    exact (hc p q hp hj).resolve_right List.not_mem_nil
  | case2 closure q stack hq ih =>
    have hc' : ∀ p r, p ∈ closure → nfa.Jumps p r → r ∈ closure ∨ r ∈ stack := by
      intro p r hp hj
      rcases hc p r hp hj with hr | hr
      · exact Or.inl hr
      · rcases List.mem_cons.mp hr with rfl | hr
        · exact Or.inl hq
        · exact Or.inr hr
    obtain ⟨result, hok, hres⟩ := ih (fun r hr => hs r (List.mem_cons_of_mem _ hr)) hc'
    exact ⟨result, hok, hres.skip hq⟩
  | case3 closure q stack _ fault hfault =>
    obtain ⟨s, _, hok⟩ := exists_state (hs q List.mem_cons_self)
    rw [hok] at hfault
    cases hfault
  | case4 closure q stack hq s hstate ih =>
    have hget : nfa.states[q]? = some s := readAt_eq_ok_iff.mp hstate
    have hs' : ∀ r ∈ pushFresh (closure.insert q) s.epsilon stack, r < nfa.size := by
      intro r hr
      rcases mem_pushFresh.mp hr with ⟨hr, _⟩ | hr
      · exact h.jumps_lt ((jumps_iff hget).mpr hr)
      · exact hs r (List.mem_cons_of_mem _ hr)
    -- the edges of `q` are on the new stack unless they lead back into the closure
    have hc' : ∀ p r, p ∈ closure.insert q → nfa.Jumps p r →
        r ∈ closure.insert q ∨ r ∈ pushFresh (closure.insert q) s.epsilon stack := by
      intro p r hp hj
      by_cases hmem : r ∈ closure.insert q
      · exact Or.inl hmem
      · refine Or.inr (mem_pushFresh.mpr ?_)
        rcases NatSet.mem_insert.mp hp with rfl | hp
        · exact Or.inl ⟨(jumps_iff hget).mp hj, hmem⟩
        · rcases hc p r hp hj with hr | hr
          · exact absurd (NatSet.mem_insert.mpr (Or.inr hr)) hmem
          · rcases List.mem_cons.mp hr with rfl | hr
            · exact absurd (NatSet.mem_insert.mpr (Or.inl rfl)) hmem
            · exact Or.inr hr
    obtain ⟨result, hok, hres⟩ := ih hs' hc'
    exact ⟨result, hok, hres.gather hget⟩

/-- The closure of listed states holds exactly the states that ε-edges lead to from one
of them. -/
theorem exists_closeAll (h : nfa.InRange) {qs : List StateId} (hqs : ∀ q ∈ qs, q < nfa.size) :
    ∃ result, nfa.closeAll qs = .ok result ∧
      ∀ q, q ∈ result ↔ ∃ p ∈ qs, ReflTransGen nfa.Jumps p q := by
  have hreverse : ∀ q ∈ qs.reverse, q < nfa.size := fun q hq => hqs q (List.mem_reverse.mp hq)
  have hempty : ∀ p q, p ∈ (∅ : NatSet) → nfa.Jumps p q → q ∈ (∅ : NatSet) ∨ q ∈ qs.reverse :=
    fun p _ hp => absurd hp (NatSet.not_mem_empty p)
  obtain ⟨result, hok, hres⟩ := exists_closeFrom h hreverse hempty
  refine ⟨result, hok, fun q => ⟨fun hq => ?_, ?_⟩⟩
  · obtain ⟨p, hp, hreach⟩ := (hres.reached q hq).resolve_left (NatSet.not_mem_empty q)
    exact ⟨p, List.mem_reverse.mp hp, hreach⟩
  · rintro ⟨p, hp, hreach⟩
    have hpres : p ∈ result := hres.visits p (List.mem_reverse.mpr hp)
    induction hreach with
    | refl => exact hpres
    | tail _ hj ih => exact hres.closed _ _ ih hj

/-- The closure of a set holds exactly the states that ε-edges lead to from a member. -/
theorem exists_closeAll_toList (h : nfa.InRange) {set : NatSet}
    (hset : ∀ q, q ∈ set → q < nfa.size) :
    ∃ result, nfa.closeAll set.toList = .ok result ∧
      ∀ q, q ∈ result ↔ ∃ p, p ∈ set ∧ ReflTransGen nfa.Jumps p q := by
  have hlist : ∀ q ∈ set.toList, q < nfa.size := fun q hq => hset q (NatSet.mem_toList.mp hq)
  obtain ⟨result, hok, hres⟩ := exists_closeAll h hlist
  refine ⟨result, hok, fun q => (hres q).trans ?_⟩
  simp only [NatSet.mem_toList]

/-- The closure of a state holds exactly the states that ε-edges lead to from it. -/
theorem exists_close (h : nfa.InRange) {q : StateId} (hq : q < nfa.size) :
    ∃ result, nfa.close q = .ok result ∧ ∀ r, r ∈ result ↔ ReflTransGen nfa.Jumps q r := by
  obtain ⟨result, hok, hres⟩ := exists_closeAll h (List.forall_mem_singleton.mpr hq)
  refine ⟨result, hok, fun r => (hres r).trans ?_⟩
  simp only [List.mem_singleton, exists_eq_left]

/-- Reading a symbol from listed states adds exactly the targets of their transitions. -/
theorem exists_stepFrom (c : Char) (reached : NatSet) {qs : List StateId}
    (hqs : ∀ q ∈ qs, q < nfa.size) :
    ∃ result, nfa.stepFrom c reached qs = .ok result ∧
      ∀ q, q ∈ result ↔ q ∈ reached ∨ ∃ p ∈ qs, nfa.Reads p c q := by
  induction qs generalizing reached with
  | nil => exact ⟨reached, rfl, fun q => by simp only [List.not_mem_nil, false_and, exists_false,
      or_false]⟩
  | cons p qs ih =>
    obtain ⟨s, hget, hok⟩ := exists_state (hqs p List.mem_cons_self)
    have hrest : ∀ q ∈ qs, q < nfa.size := fun q hq => hqs q (List.mem_cons_of_mem _ hq)
    have htr : nfa.transition p c = .ok (s.transitions.get? c) := by
      rw [transition, hok]
      rfl
    cases ht : s.transitions.get? c with
    | none =>
      obtain ⟨result, hres, hmem⟩ := ih reached hrest
      refine ⟨result, ?_, fun q => (hmem q).trans ?_⟩
      · rw [stepFrom, htr, ht]
        exact hres
      · have hno : ¬ nfa.Reads p c q := by
          rw [reads_iff hget, ht]
          exact fun hn => nomatch hn
        simp only [List.mem_cons, exists_eq_or_imp, hno, false_or]
    | some t =>
      obtain ⟨result, hres, hmem⟩ := ih (reached.insert t) hrest
      refine ⟨result, ?_, fun q => (hmem q).trans ?_⟩
      · rw [stepFrom, htr, ht]
        exact hres
      · have hread : nfa.Reads p c q ↔ q = t := by
          rw [reads_iff hget, ht, Option.some.injEq, eq_comm]
        simp only [List.mem_cons, exists_eq_or_imp, NatSet.mem_insert, hread]
        tauto

/-- Reading a symbol from a set gives exactly the targets of its members' transitions. -/
theorem exists_step {set : NatSet} (hset : ∀ q, q ∈ set → q < nfa.size) (c : Char) :
    ∃ reached, nfa.step set c = .ok reached ∧
      ∀ q, q ∈ reached ↔ ∃ p, p ∈ set ∧ nfa.Reads p c q := by
  have hlist : ∀ q ∈ set.toList, q < nfa.size := fun q hq => hset q (NatSet.mem_toList.mp hq)
  obtain ⟨reached, hok, hmem⟩ := exists_stepFrom c ∅ hlist
  refine ⟨reached, hok, fun q => (hmem q).trans ?_⟩
  simp only [NatSet.not_mem_empty, false_or, NatSet.mem_toList]

/-- A table of targets holds exactly the related states of every symbol, and a symbol
only where it has one. -/
structure Collects (targets : SortedMap Char NatSet) (R : Char → StateId → Prop) : Prop where
  mem_iff : ∀ c q, q ∈ (targets.get? c).getD ∅ ↔ R c q
  exists_mem : ∀ c set, targets.get? c = some set → ∃ q, q ∈ set

/-- Adding an edge to a table relates its symbol to its target as well. -/
theorem Collects.addTarget {targets : SortedMap Char NatSet} {R : Char → StateId → Prop}
    (h : Collects targets R) (e : Char × StateId) :
    Collects (addTarget targets e) fun c q => R c q ∨ (c, q) = e := by
  have hget : ∀ c, (Nfa.addTarget targets e).get? c =
      if e.1 = c then some (((targets.get? e.1).getD ∅).insert e.2) else targets.get? c :=
    fun c => SortedMap.get?_insert _ _ _ _
  constructor
  · intro c q
    rw [hget]
    split
    · rename_i hc
      subst hc
      rw [Option.getD_some, NatSet.mem_insert, h.mem_iff, or_comm, Prod.ext_iff, eq_self,
        true_and]
    · rename_i hc
      have hne : ¬ (c, q) = e := fun he => hc (congrArg Prod.fst he).symm
      rw [h.mem_iff, or_iff_left hne]
  · intro c set hset
    rw [hget] at hset
    split at hset
    · cases hset
      exact ⟨e.2, NatSet.mem_insert.mpr (Or.inl rfl)⟩
    · exact h.exists_mem c set hset

/-- Adding edges one after another relates the symbols of all of them to their targets. -/
theorem Collects.foldl {targets : SortedMap Char NatSet} {R : Char → StateId → Prop}
    (h : Collects targets R) (es : List (Char × StateId)) :
    Collects (es.foldl Nfa.addTarget targets) fun c q => R c q ∨ (c, q) ∈ es := by
  induction es generalizing targets R with
  | nil => simpa only [List.foldl_nil, List.not_mem_nil, or_false] using h
  | cons e es ih =>
    have hes := ih (h.addTarget e)
    simpa only [List.foldl_cons, List.mem_cons, or_assoc] using hes

/-- The listed states add exactly their transitions to a table. -/
theorem exists_targetsFrom {targets : SortedMap Char NatSet} {R : Char → StateId → Prop}
    (h : Collects targets R) {qs : List StateId} (hqs : ∀ q ∈ qs, q < nfa.size) :
    ∃ result, nfa.targetsFrom targets qs = .ok result ∧
      Collects result fun c q => R c q ∨ ∃ p ∈ qs, nfa.Reads p c q := by
  induction qs generalizing targets R with
  | nil =>
    refine ⟨targets, rfl, ?_⟩
    simpa only [List.not_mem_nil, false_and, exists_false, or_false] using h
  | cons p qs ih =>
    obtain ⟨s, hget, hok⟩ := exists_state (hqs p List.mem_cons_self)
    obtain ⟨result, hres, hall⟩ := ih (h.foldl s.transitions.entries)
      fun q hq => hqs q (List.mem_cons_of_mem _ hq)
    refine ⟨result, ?_, ?_⟩
    · rw [targetsFrom, hok]
      exact hres
    · simpa only [← SortedMap.get?_eq_some_iff, ← reads_iff hget, List.mem_cons,
        exists_eq_or_imp, or_assoc] using hall

/-- The table of a set relates every symbol to the targets of its members' transitions. -/
theorem exists_targets {set : NatSet} (hset : ∀ q, q ∈ set → q < nfa.size) :
    ∃ targets, nfa.targetsFrom ∅ set.toList = .ok targets ∧
      Collects targets fun c t => ∃ p, p ∈ set ∧ nfa.Reads p c t := by
  have hempty : Collects ∅ fun _ _ => False :=
    ⟨fun c q => by rw [SortedMap.get?_empty]; exact iff_of_false (NatSet.not_mem_empty q) id,
      fun c set hc => by cases hc⟩
  have hlist : ∀ q ∈ set.toList, q < nfa.size := fun q hq => hset q (NatSet.mem_toList.mp hq)
  obtain ⟨targets, hok, hall⟩ := exists_targetsFrom hempty hlist
  exact ⟨targets, hok, by simpa only [false_or, NatSet.mem_toList] using hall⟩

/-- The state `q` is reached from some member of a set by reading `c` and following
ε-edges afterwards. -/
def Leads (nfa : Nfa) (set : NatSet) (c : Char) (q : StateId) : Prop :=
  ∃ t, (∃ p, p ∈ set ∧ nfa.Reads p c t) ∧ ReflTransGen nfa.Jumps t q

/-- A symbol leads somewhere from a set exactly where some member reads it. -/
theorem exists_leads_iff {set : NatSet} {c : Char} :
    (∃ q, nfa.Leads set c q) ↔ ∃ p q, p ∈ set ∧ nfa.Reads p c q := by
  constructor
  · rintro ⟨q, t, ⟨p, hp, hr⟩, -⟩
    exact ⟨p, t, hp, hr⟩
  · rintro ⟨p, q, hp, hr⟩
    exact ⟨q, q, ⟨p, hp, hr⟩, .refl⟩

/-- The successors of a set are found under exactly the symbols that lead anywhere, and
each holds exactly the states that its symbol leads to. -/
theorem exists_successors (h : nfa.InRange) {set : NatSet} (hset : ∀ q, q ∈ set → q < nfa.size) :
    ∃ table, nfa.successors set = .ok table ∧ ∀ c,
      (table.get? c = none ∧ ∀ q, ¬ nfa.Leads set c q) ∨
        ∃ next, table.get? c = some next ∧ (∃ q, q ∈ next) ∧
          ∀ q, q ∈ next ↔ nfa.Leads set c q := by
  obtain ⟨targets, htargets, hall⟩ := exists_targets hset
  have hread := hall.mem_iff
  have hlt : ∀ c s, targets.get? c = some s → ∀ q, q ∈ s → q < nfa.size := by
    intro c s hs q hq
    obtain ⟨p, _, hr⟩ := (hread c q).mp (by rw [hs]; exact hq)
    exact h.reads_lt hr
  have hclose : ∀ s ∈ targets.values, ∃ closed, nfa.closeAll s.toList = .ok closed := by
    intro s hs
    obtain ⟨⟨c, s⟩, he, rfl⟩ := List.mem_map.mp hs
    obtain ⟨closed, hok, _⟩ :=
      exists_closeAll_toList h (hlt c s (SortedMap.get?_eq_some_iff.mpr he))
    exact ⟨closed, hok⟩
  obtain ⟨table, htable, hrel⟩ := SortedMap.exists_mapValuesM hclose
  have hok : nfa.successors set = .ok table := by
    rw [successors, htargets]
    exact htable
  refine ⟨table, hok, fun c => ?_⟩
  have hc := hrel c
  generalize ht : targets.get? c = target at hc
  generalize table.get? c = closed at hc ⊢
  cases hc with
  | none =>
    refine Or.inl ⟨rfl, ?_⟩
    rintro q ⟨t, hp, _⟩
    have hmem := (hread c t).mpr hp
    rw [ht] at hmem
    exact NatSet.not_mem_empty t hmem
  | @some s next hnext =>
    obtain ⟨closed, hclosed, hmem⟩ := exists_closeAll_toList h (hlt c s ht)
    have he : closed = next := Except.ok.inj (hclosed.symm.trans hnext)
    subst he
    have hs : ∀ t, t ∈ s ↔ ∃ p, p ∈ set ∧ nfa.Reads p c t := by
      intro t
      simpa only [ht, Option.getD_some] using hread c t
    obtain ⟨t, hts⟩ := hall.exists_mem c s ht
    refine Or.inr ⟨closed, rfl, ⟨t, (hmem t).mpr ⟨t, hts, .refl⟩⟩, fun q => ?_⟩
    simp only [hmem, hs, Leads]

/-- The set of active states after a symbol holds exactly the states that the active
states before it lead to, and the step is empty where they lead nowhere. -/
theorem exists_closeAll_step (h : nfa.InRange) {set : NatSet}
    (hset : ∀ q, q ∈ set → q < nfa.size) (c : Char) :
    ∃ reached active, nfa.step set c = .ok reached ∧ nfa.closeAll reached.toList = .ok active ∧
      (reached = ∅ ↔ ∀ q, ¬ nfa.Leads set c q) ∧ ∀ q, q ∈ active ↔ nfa.Leads set c q := by
  obtain ⟨reached, hreached, hread⟩ := exists_step hset c
  have hlt : ∀ q, q ∈ reached → q < nfa.size := by
    intro q hq
    obtain ⟨p, _, hr⟩ := (hread q).mp hq
    exact h.reads_lt hr
  obtain ⟨active, hactive, hmem⟩ := exists_closeAll_toList h hlt
  have hiff : ∀ q, q ∈ active ↔ nfa.Leads set c q := by
    intro q
    simp only [hmem, hread, Leads]
  refine ⟨reached, active, hreached, hactive, ⟨?_, ?_⟩, hiff⟩
  · rintro rfl q hl
    obtain ⟨t, ht, _⟩ := (hmem q).mp ((hiff q).mpr hl)
    exact NatSet.not_mem_empty t ht
  · intro hno
    refine NatSet.ext fun q => iff_of_false (fun hq => ?_) (NatSet.not_mem_empty q)
    exact hno q ((hiff q).mp ((hmem q).mpr ⟨q, hq, .refl⟩))

/-- The symbols of the table of successors are those that lead anywhere. -/
theorem exists_successors_keys (h : nfa.InRange) {set : NatSet}
    (hset : ∀ q, q ∈ set → q < nfa.size) :
    ∃ table, nfa.successors set = .ok table ∧ ∀ c,
      (c ∈ table.keys ↔ ∃ q, nfa.Leads set c q) ∧
        ∀ next, table.get? c = some next → ∀ q, q ∈ next ↔ nfa.Leads set c q := by
  obtain ⟨table, htable, hlook⟩ := exists_successors h hset
  refine ⟨table, htable, fun c => ?_⟩
  rw [SortedMap.mem_keys_iff]
  rcases hlook c with ⟨hnone, hno⟩ | ⟨next, hsome, ⟨q, hq⟩, hiff⟩
  · rw [hnone]
    exact ⟨iff_of_false nofun (not_exists.mpr hno), nofun⟩
  · rw [hsome]
    refine ⟨iff_of_true ⟨next, rfl⟩ ⟨q, (hiff q).mp hq⟩, ?_⟩
    rintro next' ⟨⟩
    exact hiff

/-- The table of a set agrees with the steps from it, whether or not the set is closed: a symbol
stands in the table exactly where the step on it leads somewhere, and what stands there is the
closure of that step, which is never empty. -/
theorem successors_close_steps (nfa : Nfa) (h : nfa.InRange) (set : NatSet)
    (hset : ∀ q, q ∈ set → q < nfa.size) :
    ∃ table, nfa.successors set = .ok table ∧
      ∀ c, ∃ reached, nfa.step set c = .ok reached ∧ (c ∈ table.keys ↔ reached ≠ ∅) ∧
        ∀ next, table.get? c = some next → nfa.closeAll reached.toList = .ok next ∧ next ≠ ∅ := by
  obtain ⟨table, htable, hlook⟩ := exists_successors_keys h hset
  refine ⟨table, htable, fun c => ?_⟩
  obtain ⟨hkeys, hnext⟩ := hlook c
  obtain ⟨reached, active, hreached, hactive, hempty, hmem⟩ := exists_closeAll_step h hset c
  refine ⟨reached, hreached, ?_, fun next hsome => ?_⟩
  · rw [hkeys, Ne, hempty, not_forall_not]
  · have he : active = next := NatSet.ext fun q => (hmem q).trans (hnext next hsome q).symm
    obtain ⟨q, hq⟩ := hkeys.mp (SortedMap.mem_keys_iff.mpr ⟨next, hsome⟩)
    have hqnext : q ∈ next := (hnext next hsome q).mpr hq
    refine ⟨he ▸ hactive, ?_⟩
    rintro rfl
    exact NatSet.not_mem_empty q hqnext

/-- The successors of a set that is not closed: two of its states read the same symbol, one of
them into an ε-cycle. -/
theorem tangled_successors_close_steps :
    let set := NatSet.ofList [0, 2]
    tangled.InRange ∧ (∀ q, q ∈ set → q < tangled.size) ∧
    ∃ table, tangled.successors set = .ok table ∧
      ∀ c, ∃ reached, tangled.step set c = .ok reached ∧ (c ∈ table.keys ↔ reached ≠ ∅) ∧
        ∀ next, table.get? c = some next →
          tangled.closeAll reached.toList = .ok next ∧ next ≠ ∅ := by
  intro set
  have hset : ∀ q, q ∈ set → q < tangled.size := by
    intro q hq
    have hlisted : ∀ r ∈ [0, 2], r < tangled.size := by decide
    exact hlisted q (NatSet.mem_ofList.mp hq)
  exact ⟨by decide, hset, successors_close_steps tangled (by decide) set hset⟩

/-- The listed states are searched for an accepting one. -/
theorem exists_anyAccepting {qs : List StateId} (hqs : ∀ q ∈ qs, q < nfa.size) :
    ∃ b, nfa.anyAccepting qs = .ok b ∧ (b = true ↔ ∃ q ∈ qs, nfa.Accepting q) := by
  induction qs with
  | nil => exact ⟨false, rfl, by simp only [Bool.false_eq_true, List.not_mem_nil, false_and,
      exists_false]⟩
  | cons q qs ih =>
    obtain ⟨s, hget, hok⟩ := exists_state (hqs q List.mem_cons_self)
    have hacc : nfa.isAccepting q = .ok s.accepting := by
      rw [isAccepting, hok]
      rfl
    obtain ⟨b, hb, hiff⟩ := ih fun r hr => hqs r (List.mem_cons_of_mem _ hr)
    cases ha : s.accepting with
    | true =>
      refine ⟨true, ?_, iff_of_true rfl ⟨q, List.mem_cons_self, s, hget, ha⟩⟩
      rw [anyAccepting, hacc, ha]
      rfl
    | false =>
      refine ⟨b, ?_, hiff.trans ?_⟩
      · rw [anyAccepting, hacc, ha]
        exact hb
      · have hno : ¬ nfa.Accepting q := by
          rw [accepting_iff hget, ha]
          exact Bool.false_ne_true
        simp only [List.mem_cons, exists_eq_or_imp, hno, false_or]

/-- A set of states is searched for an accepting one. -/
theorem exists_containsAccepting {set : NatSet} (hset : ∀ q, q ∈ set → q < nfa.size) :
    ∃ b, nfa.containsAccepting set = .ok b ∧ (b = true ↔ ∃ q, q ∈ set ∧ nfa.Accepting q) := by
  have hlist : ∀ q ∈ set.toList, q < nfa.size := fun q hq => hset q (NatSet.mem_toList.mp hq)
  obtain ⟨b, hb, hiff⟩ := exists_anyAccepting hlist
  refine ⟨b, hb, hiff.trans ?_⟩
  simp only [NatSet.mem_toList]

end PatternAutomata.Nfa
