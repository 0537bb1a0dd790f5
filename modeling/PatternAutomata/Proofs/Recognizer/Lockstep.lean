import PatternAutomata.Proofs.Automaton.Subsets
import PatternAutomata.Recognizer.Matcher

/-!
# The walk and the simulation read a word in lockstep

After every prefix of a word the simulation is in the set of states that runs on the
prefix end in, and the walk is in the deterministic state of that set, or nowhere when
the set is empty. So both stop at the one position where all runs die, and otherwise
both decide whether some run on the whole word accepts.
-/

namespace PatternAutomata

open Relation

namespace Nfa

variable {nfa : Nfa}

/-- The states active after a word, from a set of active states on; the sets go on after
one of them is empty. -/
def activeFrom (nfa : Nfa) (active : NatSet) : List Char → Except Fault NatSet
  | [] => .ok active
  | c :: rest => do
    let reached ← nfa.step active c
    activeFrom nfa (← nfa.closeAll reached.toList) rest

/-- The states active after a word. -/
def activeAfter (nfa : Nfa) (word : List Char) : Except Fault NatSet := do
  nfa.activeFrom (← nfa.close nfa.start) word

/-- A set holds exactly the states in which runs on a word end. -/
def Follows (nfa : Nfa) (word : List Char) (active : NatSet) : Prop :=
  ∀ q, q ∈ active ↔ nfa.Run nfa.start word q

/-- All runs die at a position: some run reads the symbols before it, and no run reads
the symbol there as well. -/
def DiesAt (nfa : Nfa) (word : List Char) (position : Nat) : Prop :=
  position < word.length ∧ (∃ q, nfa.Run nfa.start (word.take position) q) ∧
    ∀ q, ¬ nfa.Run nfa.start (word.take (position + 1)) q

/-- Where runs on a word end, there are states. -/
theorem Follows.lt_size (h : nfa.InRange) {word : List Char} {active : NatSet}
    (hf : nfa.Follows word active) {q : StateId} (hq : q ∈ active) : q < nfa.size :=
  h.run_lt h.start_lt ((hf q).mp hq)

/-- Two sets that follow the same word are equal. -/
theorem Follows.unique {word : List Char} {active active' : NatSet}
    (h : nfa.Follows word active) (h' : nfa.Follows word active') : active = active' :=
  NatSet.ext fun q => (h q).trans (h' q).symm

/-- What a set leads to is where runs on one symbol more end. -/
theorem Follows.leads_iff {word : List Char} {active : NatSet} (h : nfa.Follows word active)
    (c : Char) (q : StateId) : nfa.Leads active c q ↔ nfa.Run nfa.start (word ++ [c]) q := by
  rw [run_append_iff]
  constructor
  · rintro ⟨t, ⟨p, hp, hr⟩, hreach⟩
    exact ⟨p, (h p).mp hp, .read hr (run_of_jumps hreach)⟩
  · rintro ⟨p, hp, hrun⟩
    obtain ⟨p', t, hp', hr, hrun⟩ := run_cons_iff.mp hrun
    have hmem : nfa.Run nfa.start word p' := by
      simpa only [List.append_nil] using hp.append (run_of_jumps hp')
    exact ⟨t, ⟨p', (h p').mpr hmem, hr⟩, run_nil_iff.mp hrun⟩

/-- The closure of the start follows the empty word. -/
theorem exists_follows_nil (h : nfa.InRange) :
    ∃ active, nfa.close nfa.start = .ok active ∧ nfa.Follows [] active := by
  obtain ⟨active, hok, hmem⟩ := exists_close h h.start_lt
  exact ⟨active, hok, fun q => (hmem q).trans run_nil_iff.symm⟩

/-- One step and closure follow one symbol more, and the step is empty exactly when all
runs die at the symbol. -/
theorem Follows.exists_step (h : nfa.InRange) {word : List Char} {active : NatSet}
    (hf : nfa.Follows word active) (c : Char) :
    ∃ reached next, nfa.step active c = .ok reached ∧ nfa.closeAll reached.toList = .ok next ∧
      nfa.Follows (word ++ [c]) next ∧
      (reached = ∅ ↔ ∀ q, ¬ nfa.Run nfa.start (word ++ [c]) q) := by
  obtain ⟨reached, next, hstep, hclose, hempty, hmem⟩ :=
    exists_closeAll_step h (fun q hq => hf.lt_size h hq) c
  refine ⟨reached, next, hstep, hclose, fun q => (hmem q).trans (hf.leads_iff c q), ?_⟩
  simp only [hempty, hf.leads_iff]

/-- The sets of active states follow the word. -/
theorem exists_activeFrom (h : nfa.InRange) {read : List Char} {active : NatSet}
    (hf : nfa.Follows read active) (word : List Char) :
    ∃ active', nfa.activeFrom active word = .ok active' ∧ nfa.Follows (read ++ word) active' := by
  induction word generalizing read active with
  | nil => exact ⟨active, rfl, by rwa [List.append_nil]⟩
  | cons c rest ih =>
    obtain ⟨reached, next, hstep, hclose, hnext, _⟩ := hf.exists_step h c
    obtain ⟨active', hok, hf'⟩ := ih hnext
    refine ⟨active', ?_, by rwa [List.append_assoc] at hf'⟩
    rw [activeFrom, hstep]
    simp only [bind, Except.bind, hclose, hok]

/-- The set of states active after a word holds exactly the states in which runs on the
word end. -/
theorem exists_activeAfter (h : nfa.InRange) (word : List Char) :
    ∃ active, nfa.activeAfter word = .ok active ∧ nfa.Follows word active := by
  obtain ⟨start, hstart, hf⟩ := exists_follows_nil h
  obtain ⟨active, hok, hf'⟩ := exists_activeFrom h hf word
  refine ⟨active, ?_, hf'⟩
  rw [activeAfter, hstart]
  exact hok

/-- A run on a word runs on every prefix of it. -/
theorem exists_run_take {p q : StateId} {word : List Char} (h : nfa.Run p word q) (i : Nat) :
    ∃ r, nfa.Run p (word.take i) r := by
  rw [← List.take_append_drop i word] at h
  obtain ⟨r, hr, _⟩ := run_append_iff.mp h
  exact ⟨r, hr⟩

/-- Where all runs die, no run reads more. -/
theorem DiesAt.not_run {word : List Char} {i j : Nat} (h : nfa.DiesAt word i) (hij : i < j)
    (q : StateId) : ¬ nfa.Run nfa.start (word.take j) q := by
  intro hrun
  obtain ⟨r, hr⟩ := exists_run_take hrun (i + 1)
  rw [List.take_take, Nat.min_eq_left hij] at hr
  exact h.2.2 r hr

/-- All runs die at one position at most. -/
theorem DiesAt.unique {word : List Char} {i j : Nat} (hi : nfa.DiesAt word i)
    (hj : nfa.DiesAt word j) : i = j := by
  obtain ⟨p, hp⟩ := hi.2.1
  obtain ⟨q, hq⟩ := hj.2.1
  rcases Nat.lt_trichotomy i j with hlt | heq | hlt
  · exact absurd hq (hi.not_run hlt q)
  · exact heq
  · exact absurd hp (hj.not_run hlt p)

/-- Where all runs die, no run reads the whole word. -/
theorem DiesAt.not_run_word {word : List Char} {i : Nat} (h : nfa.DiesAt word i)
    (q : StateId) : ¬ nfa.Run nfa.start word q := by
  have hw := h.not_run h.1 q
  rwa [List.take_length] at hw

/-- All runs die at a symbol that no run reads after the symbols before it. -/
theorem diesAt_of_append {read rest : List Char} {c : Char} {q : StateId}
    (hq : nfa.Run nfa.start read q) (hno : ∀ q, ¬ nfa.Run nfa.start (read ++ [c]) q) :
    nfa.DiesAt (read ++ c :: rest) read.length := by
  refine ⟨?_, ⟨q, ?_⟩, ?_⟩
  · rw [List.length_append, List.length_cons]
    omega
  · rwa [List.take_left]
  · have he : (read ++ c :: rest).take (read.length + 1) = read ++ [c] := by
      rw [List.take_length_add_append]
      rfl
    rwa [he]

end Nfa

/-- A walk arrives at the state whose set follows the word, or is stuck where all runs
die. -/
theorem Dfa.Represents.walkFrom {dfa : Dfa} {nfa : Nfa} (h : dfa.Represents nfa)
    {read : List Char} {i : DfaStateId} {s : DfaState} (hs : dfa.states[i]? = some s)
    (hf : nfa.Follows read s.members) (hne : ∃ q, q ∈ s.members) (word : List Char) :
    (∃ j t, dfa.walkFrom i read.length word = .ok (.arrived j) ∧ dfa.states[j]? = some t ∧
      nfa.Follows (read ++ word) t.members ∧ ∃ q, q ∈ t.members) ∨
    ∃ k, dfa.walkFrom i read.length word = .ok (.stuck k) ∧ nfa.DiesAt (read ++ word) k := by
  induction word generalizing read i s with
  | nil =>
    refine Or.inl ⟨i, s, rfl, hs, ?_, hne⟩
    rwa [List.append_nil]
  | cons c rest ih =>
    have hnext : dfa.next i c = .ok (s.transitions.get? c) := by
      rw [Dfa.next, Dfa.state, readAt_eq_ok_iff.mpr hs]
      rfl
    rcases h.next hs c with ⟨hn, hno⟩ | ⟨j, t, hj, ht, htne, hmem⟩
    · obtain ⟨q, hq⟩ := hne
      refine Or.inr ⟨read.length, ?_, Nfa.diesAt_of_append ((hf q).mp hq) ?_⟩
      · rw [Dfa.walkFrom, hnext, hn]
        rfl
      · intro r hr
        exact hno r ((hf.leads_iff c r).mpr hr)
    · have hft : nfa.Follows (read ++ [c]) t.members :=
        fun q => (hmem q).trans (hf.leads_iff c q)
      have hgo : dfa.walkFrom i read.length (c :: rest) =
          dfa.walkFrom j (read ++ [c]).length rest := by
        rw [Dfa.walkFrom, hnext, hj, List.length_append]
        rfl
      have hrec := ih ht hft htne
      rwa [hgo, List.append_cons read c rest]

/-- A walk from the start arrives at the state whose set follows the word, or is stuck
where all runs die. -/
theorem Dfa.Represents.walk {dfa : Dfa} {nfa : Nfa} (h : dfa.Represents nfa) (word : List Char) :
    (∃ i s, dfa.walk word = .ok (.arrived i) ∧ dfa.states[i]? = some s ∧
      nfa.Follows word s.members ∧ ∃ q, q ∈ s.members) ∨
    ∃ k, dfa.walk word = .ok (.stuck k) ∧ nfa.DiesAt word k := by
  obtain ⟨s, hs, hmem⟩ := h.start
  have hf : nfa.Follows [] s.members := fun q => (hmem q).trans Nfa.run_nil_iff.symm
  have hne : ∃ q, q ∈ s.members := ⟨nfa.start, (hmem nfa.start).mpr .refl⟩
  exact h.walkFrom hs hf hne word

/-- A walk is stuck exactly where all runs die. -/
theorem Dfa.Represents.walk_eq_stuck_iff {dfa : Dfa} {nfa : Nfa} (h : dfa.Represents nfa)
    (word : List Char) (k : Nat) : dfa.walk word = .ok (.stuck k) ↔ nfa.DiesAt word k := by
  rcases h.walk word with ⟨i, s, hw, _, hf, q, hq⟩ | ⟨j, hw, hd⟩
  · refine ⟨fun hk => ?_, fun hk => absurd ((hf q).mp hq) (hk.not_run_word q)⟩
    rw [hw] at hk
    cases hk
  · rw [hw]
    refine ⟨fun hk => ?_, fun hk => by rw [hd.unique hk]⟩
    cases hk
    exact hd

/-- The walk accepts exactly the words that some run accepts. -/
theorem Dfa.Represents.exists_accepts {dfa : Dfa} {nfa : Nfa} (h : dfa.Represents nfa)
    (word : List Char) :
    ∃ b, dfa.accepts word = .ok b ∧ (b = true ↔ nfa.Recognizes word) := by
  rcases h.walk word with ⟨i, s, hw, hs, hf, _⟩ | ⟨k, hw, hd⟩
  · refine ⟨s.accepting, ?_, (h.accepting_iff hs).trans ?_⟩
    · rw [Dfa.accepts, hw]
      simp only [bind, Except.bind, Dfa.state, readAt_eq_ok_iff.mpr hs]
      rfl
    · simp only [hf _, Nfa.Recognizes]
  · refine ⟨false, ?_, iff_of_false Bool.false_ne_true ?_⟩
    · rw [Dfa.accepts, hw]
      rfl
    · rintro ⟨q, hrun, _⟩
      exact hd.not_run_word q hrun

namespace Simulation

variable {nfa : Nfa}

/-- A simulation reads one symbol: either no run reads it and the simulation stops there, or
it goes on from the states in which runs on one symbol more end. -/
theorem runFrom_cons (h : nfa.InRange) {read : List Char} {active : NatSet}
    (hf : nfa.Follows read active) (c : Char) (rest : List Char) :
    ((∀ q, ¬ nfa.Run nfa.start (read ++ [c]) q) ∧
      runFrom nfa active read.length (c :: rest) = .ok ⟨[.died read.length c], false⟩) ∨
    ∃ next, nfa.Follows (read ++ [c]) next ∧ (∃ q, q ∈ next) ∧
      runFrom nfa active read.length (c :: rest) =
        (runFrom nfa next (read ++ [c]).length rest).map fun history =>
          ⟨.active next.size read.length :: history.notes, history.accepted⟩ := by
  obtain ⟨reached, next, hstep, hclose, hnext, hempty⟩ := hf.exists_step h c
  by_cases hr : reached = ∅
  · refine Or.inl ⟨hempty.mp hr, ?_⟩
    rw [runFrom, hstep]
    simp only [bind, Except.bind, NatSet.isEmpty_iff.mpr hr, if_true]
    rfl
  · have hlive : ∃ q, q ∈ next := by
      by_contra hno
      exact hr (hempty.mpr fun q hq => hno ⟨q, (hnext q).mpr hq⟩)
    have hb : reached.isEmpty = false := by
      rw [← Bool.not_eq_true, NatSet.isEmpty_iff]
      exact hr
    refine Or.inr ⟨next, hnext, hlive, ?_⟩
    rw [runFrom, hstep, List.length_append]
    simp only [bind, Except.bind, hb, Bool.false_eq_true, if_false, hclose]
    cases runFrom nfa next (read.length + 1) rest <;> rfl

/-- A simulation notes the death of all runs exactly where it happens, and its answer is
whether some run on the whole word accepts. -/
theorem exists_runFrom (h : nfa.InRange) {read : List Char} {active : NatSet}
    (hf : nfa.Follows read active) (hne : ∃ q, q ∈ active) (word : List Char) :
    ∃ history, runFrom nfa active read.length word = .ok history ∧
      (history.accepted = true ↔ ∃ q, nfa.Run nfa.start (read ++ word) q ∧ nfa.Accepting q) ∧
      ∀ k, (∃ c, .died k c ∈ history.notes) ↔ nfa.DiesAt (read ++ word) k := by
  induction word generalizing read active with
  | nil =>
    obtain ⟨b, hb, hiff⟩ := Nfa.exists_containsAccepting fun q hq => hf.lt_size h hq
    refine ⟨⟨[], b⟩, ?_, ?_, fun k => iff_of_false ?_ ?_⟩
    · rw [runFrom, hb]
      rfl
    · simp only [hiff, hf _, List.append_nil]
    · rintro ⟨c, hc⟩
      exact absurd hc List.not_mem_nil
    · intro hd
      obtain ⟨q, hq⟩ := hne
      rw [List.append_nil] at hd
      exact hd.not_run_word q ((hf q).mp hq)
  | cons c rest ih =>
    rcases runFrom_cons h hf c rest with ⟨hno, hstop⟩ | ⟨next, hnext, hlive, hgo⟩
    · obtain ⟨q, hq⟩ := hne
      have hdies : nfa.DiesAt (read ++ c :: rest) read.length :=
        Nfa.diesAt_of_append ((hf q).mp hq) hno
      refine ⟨_, hstop, iff_of_false Bool.false_ne_true ?_, fun k => ⟨?_, fun hk => ?_⟩⟩
      · rintro ⟨r, hrun, _⟩
        exact hdies.not_run_word r hrun
      · rintro ⟨d, hd⟩
        cases List.mem_singleton.mp hd
        exact hdies
      · cases hk.unique hdies
        exact ⟨c, List.mem_singleton.mpr rfl⟩
    · obtain ⟨history, hrun, hacc, hdied⟩ := ih hnext hlive
      rw [hrun] at hgo
      refine ⟨_, hgo, ?_, fun k => ?_⟩
      · rwa [List.append_cons read c rest]
      · rw [List.append_cons read c rest, ← hdied k]
        simp only [List.mem_cons, reduceCtorEq, false_or]

/-- The simulation of a word notes the death of all runs exactly where it happens, and
accepts exactly the words that some run accepts. -/
theorem exists_run (h : nfa.InRange) (word : List Char) :
    ∃ history, run nfa word = .ok history ∧
      (history.accepted = true ↔ nfa.Recognizes word) ∧
      ∀ k, (∃ c, .died k c ∈ history.notes) ↔ nfa.DiesAt word k := by
  obtain ⟨start, hstart, hf⟩ := Nfa.exists_follows_nil h
  obtain ⟨history, hrun, hacc, hdied⟩ :=
    exists_runFrom h hf ⟨nfa.start, (hf nfa.start).mpr (.stay _)⟩ word
  refine ⟨history, ?_, hacc, hdied⟩
  rw [run, hstart]
  exact hrun

/-- The simulation accepts exactly the words that some run accepts. -/
theorem exists_accepts (h : nfa.InRange) (word : List Char) :
    ∃ b, accepts nfa word = .ok b ∧ (b = true ↔ nfa.Recognizes word) := by
  obtain ⟨history, hrun, hacc, _⟩ := exists_run h word
  refine ⟨history.accepted, ?_, hacc⟩
  rw [accepts, hrun]
  rfl

end Simulation

/-- After every prefix the walk of the deterministic automaton is somewhere exactly when
the set of active states is not empty, and then in the state of that set, with its
acceptance. So the walk and the simulation stop at the same position or not at all, and
both give the same answer: whether some run on the word accepts. -/
theorem walk_simulation_lockstep (nfa : Nfa) (h : nfa.InRange) (word : List Char) :
    ∃ dfa, Dfa.ofNfa nfa = .ok dfa ∧
      (∀ i ≤ word.length, ∃ active, nfa.activeAfter (word.take i) = .ok active ∧
        ((∃ q, dfa.walk (word.take i) = .ok (.arrived q)) ↔ active ≠ ∅) ∧
        ∀ q, dfa.walk (word.take i) = .ok (.arrived q) →
          ∃ s, dfa.state q = .ok s ∧ s.members = active ∧
            nfa.containsAccepting active = .ok s.accepting) ∧
      (∃ history, Simulation.run nfa word = .ok history ∧
        ∀ i, dfa.walk word = .ok (.stuck i) ↔ ∃ c, .died i c ∈ history.notes) ∧
      ∃ answer, dfa.accepts word = .ok answer ∧ Simulation.accepts nfa word = .ok answer ∧
        (answer = true ↔ nfa.Recognizes word) := by
  obtain ⟨dfa, hdfa, hrep⟩ := Dfa.exists_ofNfa h
  refine ⟨dfa, hdfa, fun i _ => ?_, ?_, ?_⟩
  · obtain ⟨active, hactive, hf⟩ := Nfa.exists_activeAfter h (word.take i)
    refine ⟨active, hactive, ?_⟩
    rcases hrep.walk (word.take i) with ⟨q, s, hw, hs, hfs, r, hr⟩ | ⟨k, hw, hd⟩
    · have he : s.members = active := hfs.unique hf
      subst he
      obtain ⟨b, hb, hiff⟩ := Nfa.exists_containsAccepting fun q hq => hf.lt_size h hq
      have hbs : b = s.accepting := Bool.eq_iff_iff.mpr (hiff.trans (hrep.accepting_iff hs).symm)
      refine ⟨iff_of_true ⟨q, hw⟩ ?_, fun q' hq' => ?_⟩
      · intro hempty
        rw [hempty] at hr
        exact NatSet.not_mem_empty r hr
      · rw [hw] at hq'
        cases hq'
        exact ⟨s, readAt_eq_ok_iff.mpr hs, rfl, hbs ▸ hb⟩
    · have hno : ∀ q, dfa.walk (word.take i) ≠ .ok (.arrived q) := by
        intro q hq
        rw [hw] at hq
        cases hq
      refine ⟨iff_of_false (fun ⟨q, hq⟩ => hno q hq) ?_, fun q hq => absurd hq (hno q)⟩
      rw [not_not]
      refine NatSet.ext fun q => iff_of_false (fun hq => ?_) (NatSet.not_mem_empty q)
      exact hd.not_run_word q ((hf q).mp hq)
  · obtain ⟨history, hrun, _, hdied⟩ := Simulation.exists_run h word
    exact ⟨history, hrun, fun i => (hrep.walk_eq_stuck_iff word i).trans (hdied i).symm⟩
  · obtain ⟨b, hb, hbiff⟩ := hrep.exists_accepts word
    obtain ⟨b', hb', hbiff'⟩ := Simulation.exists_accepts h word
    have he : b' = b := Bool.eq_iff_iff.mpr (hbiff'.trans hbiff.symm)
    exact ⟨b, hb, he ▸ hb', hbiff⟩

/-- The lockstep on an automaton with an ε-cycle and states with both kinds of edges, on a
word at whose last symbol all runs die. -/
theorem tangled_lockstep : Nfa.tangled.InRange ∧
    ∃ dfa, Dfa.ofNfa Nfa.tangled = .ok dfa ∧
      (∀ i ≤ ['a', 'b', 'c'].length, ∃ active,
        Nfa.tangled.activeAfter (['a', 'b', 'c'].take i) = .ok active ∧
        ((∃ q, dfa.walk (['a', 'b', 'c'].take i) = .ok (.arrived q)) ↔ active ≠ ∅) ∧
        ∀ q, dfa.walk (['a', 'b', 'c'].take i) = .ok (.arrived q) →
          ∃ s, dfa.state q = .ok s ∧ s.members = active ∧
            Nfa.tangled.containsAccepting active = .ok s.accepting) ∧
      (∃ history, Simulation.run Nfa.tangled ['a', 'b', 'c'] = .ok history ∧
        ∀ i, dfa.walk ['a', 'b', 'c'] = .ok (.stuck i) ↔ ∃ c, .died i c ∈ history.notes) ∧
      ∃ answer, dfa.accepts ['a', 'b', 'c'] = .ok answer ∧
        Simulation.accepts Nfa.tangled ['a', 'b', 'c'] = .ok answer ∧
        (answer = true ↔ Nfa.tangled.Recognizes ['a', 'b', 'c']) :=
  ⟨by decide, walk_simulation_lockstep Nfa.tangled (by decide) ['a', 'b', 'c']⟩

end PatternAutomata
