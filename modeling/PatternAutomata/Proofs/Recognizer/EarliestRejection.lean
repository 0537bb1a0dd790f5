import PatternAutomata.Proofs.Automaton.Powerset
import PatternAutomata.Proofs.Recognizer.Lockstep
import PatternAutomata.Proofs.Recognizer.Meaning
import PatternAutomata.Report.Log

/-!
# A word is rejected at the first symbol that cannot be right

Every run of a compiled pattern can be finished, so a run on a prefix shows that some word
of the pattern begins with the prefix. The simulation therefore stops at the first symbol
with which no word of the pattern goes on, and the walk is stuck there as well.
-/

namespace PatternAutomata

/-- Some word of the language begins with the prefix. -/
def Viable (words : Language Char) (beginning : List Char) : Prop :=
  ∃ word ∈ words, beginning <+: word

namespace Simulation

variable {nfa : Nfa}

/-- The note about a position of a word tells how the runs on the word fare there. -/
inductive Tells (nfa : Nfa) (word : List Char) (position : Nat) : Note → Prop
  /-- Runs read the symbol, and end in so many states. -/
  | active {active : NatSet} {q : StateId} (hq : q ∈ active)
      (h : nfa.Follows (word.take (position + 1)) active) :
      Tells nfa word position (.active active.size position)
  /-- No run reads the symbol. -/
  | died {c : Char} (hc : word[position]? = some c) (h : nfa.DiesAt word position) :
      Tells nfa word position (.died position c)

/-- The notes from a position of a word on: there is one for every symbol that some run comes
before, and each tells how the runs fare. -/
structure Accounts (nfa : Nfa) (word : List Char) (start : Nat) (notes : List Note) : Prop where
  lt_length_iff : ∀ i, i < notes.length ↔ start + i < word.length ∧
    ∃ q, nfa.Run nfa.start (word.take (start + i)) q
  tells : ∀ i note, notes[i]? = some note → Tells nfa word (start + i) note

/-- A simulation that stops at a symbol accounts for the rest of the word. -/
theorem accounts_died {read rest : List Char} {c : Char}
    (h : nfa.DiesAt (read ++ c :: rest) read.length) :
    Accounts nfa (read ++ c :: rest) read.length [.died read.length c] := by
  constructor
  · intro i
    rw [List.length_singleton]
    constructor
    · intro hi
      have hzero : i = 0 := by omega
      subst hzero
      exact ⟨h.1, h.2.1⟩
    · rintro ⟨-, q, hq⟩
      by_contra hlarge
      have hlt : read.length < read.length + i := by omega
      exact h.not_run hlt q hq
  · intro i note hi
    cases i with
    | succ i => cases hi
    | zero =>
      cases hi
      have hc : (read ++ c :: rest)[read.length]? = some c := by
        rw [List.getElem?_append_right (Nat.le_refl _), Nat.sub_self]
        rfl
      exact .died hc h

/-- Where runs read on, a note of the active states accounts for one symbol more. -/
theorem Accounts.cons {word : List Char} {start : Nat} {notes : List Note} {active : NatSet}
    {q : StateId} (h : Accounts nfa word (start + 1) notes) (hq : q ∈ active)
    (hlt : start < word.length) (hf : nfa.Follows (word.take (start + 1)) active) :
    Accounts nfa word start (.active active.size start :: notes) := by
  constructor
  · intro i
    cases i with
    | zero =>
      obtain ⟨r, hr⟩ := Nfa.exists_run_take ((hf q).mp hq) start
      rw [List.take_take, Nat.min_eq_left (Nat.le_succ start)] at hr
      exact iff_of_true (Nat.succ_pos _) ⟨hlt, r, hr⟩
    | succ i =>
      have hshift : start + (i + 1) = start + 1 + i := by omega
      rw [List.length_cons, Nat.add_lt_add_iff_right, h.lt_length_iff, hshift]
  · intro i note hi
    cases i with
    | zero =>
      cases hi
      exact .active hq hf
    | succ i =>
      have hshift : start + (i + 1) = start + 1 + i := by omega
      rw [hshift]
      exact h.tells i note hi

/-- A simulation accounts for the symbols that it is given. -/
theorem exists_accounts_runFrom (h : nfa.InRange) {read : List Char} {active : NatSet}
    (hf : nfa.Follows read active) (hne : ∃ q, q ∈ active) (word : List Char) :
    ∃ history, runFrom nfa active read.length word = .ok history ∧
      Accounts nfa (read ++ word) read.length history.notes := by
  induction word generalizing read active with
  | nil =>
    obtain ⟨b, hb, -⟩ := Nfa.exists_containsAccepting fun q hq => hf.lt_size h hq
    refine ⟨⟨[], b⟩, ?_, ?_, ?_⟩
    · rw [runFrom, hb]
      rfl
    · intro i
      refine iff_of_false (Nat.not_lt_zero i) ?_
      rintro ⟨hlt, -⟩
      rw [List.append_nil] at hlt
      omega
    · rintro i note ⟨⟩
  | cons c rest ih =>
    rcases runFrom_cons h hf c rest with ⟨hno, hstop⟩ | ⟨next, hnext, ⟨q, hq⟩, hgo⟩
    · obtain ⟨q, hq⟩ := hne
      exact ⟨_, hstop, accounts_died (Nfa.diesAt_of_append ((hf q).mp hq) hno)⟩
    · obtain ⟨history, hrun, haccounts⟩ := ih hnext ⟨q, hq⟩
      rw [hrun] at hgo
      rw [List.length_append, List.length_singleton, List.append_assoc,
        List.singleton_append] at haccounts
      have hlt : read.length < (read ++ c :: rest).length := by
        rw [List.length_append, List.length_cons]
        omega
      have htake : (read ++ c :: rest).take (read.length + 1) = read ++ [c] := by
        rw [List.take_length_add_append]
        rfl
      exact ⟨_, hgo, haccounts.cons hq hlt (htake ▸ hnext)⟩

/-- A simulation accounts for the whole word. -/
theorem exists_accounts (h : nfa.InRange) (word : List Char) :
    ∃ history, run nfa word = .ok history ∧ Accounts nfa word 0 history.notes := by
  obtain ⟨start, hstart, hf⟩ := Nfa.exists_follows_nil h
  have hne : ∃ q, q ∈ start := ⟨nfa.start, (hf nfa.start).mpr (.stay _)⟩
  obtain ⟨history, hrun, haccounts⟩ := exists_accounts_runFrom h hf hne word
  refine ⟨history, ?_, haccounts⟩
  rw [run, hstart]
  exact hrun

/-- A note of the death of all runs is the last one, and names the symbol. -/
theorem Accounts.died_last {word : List Char} {notes : List Note} {i : Nat} {c : Char}
    (h : Accounts nfa word 0 notes) (hmem : Note.died i c ∈ notes) :
    word[i]? = some c ∧ notes.length = i + 1 ∧ notes[i]? = some (.died i c) := by
  obtain ⟨k, hk⟩ := List.mem_iff_getElem?.mp hmem
  have htells := h.tells k _ hk
  rw [Nat.zero_add] at htells
  cases htells with
  | died hc hdies =>
    have hlt := (List.getElem?_eq_some_iff.mp hk).1
    have hstop : ¬ i + 1 < notes.length := by
      intro hmore
      obtain ⟨-, q, hq⟩ := (h.lt_length_iff (i + 1)).mp hmore
      rw [Nat.zero_add] at hq
      exact hdies.2.2 q hq
    exact ⟨hc, by omega, hk⟩

/-- Before the position where all runs die, and everywhere if there is none, the notes count the
states in which runs end. -/
theorem Accounts.active_before {word : List Char} {notes : List Note}
    (h : Accounts nfa word 0 notes) {j : Nat} (hj : j < word.length)
    (hbefore : ∀ i, nfa.DiesAt word i → j < i) :
    ∃ active q, q ∈ active ∧ nfa.Follows (word.take (j + 1)) active ∧
      notes[j]? = some (.active active.size j) := by
  -- a first position without a run would be one where all runs die
  have hruns : ∀ k ≤ j, ∃ q, nfa.Run nfa.start (word.take k) q := by
    intro k
    induction k with
    | zero =>
      intro _
      exact ⟨nfa.start, .stay _⟩
    | succ k ih =>
      intro hk
      have hprevious := ih (by omega)
      by_contra hno
      have hdies : nfa.DiesAt word k := ⟨by omega, hprevious, fun q hq => hno ⟨q, hq⟩⟩
      have hlt := hbefore k hdies
      omega
  have hlt : j < notes.length := by
    have hrun := hruns j (Nat.le_refl j)
    rw [h.lt_length_iff, Nat.zero_add]
    exact ⟨hj, hrun⟩
  have hnote : notes[j]? = some notes[j] := List.getElem?_eq_getElem hlt
  have htells := h.tells j _ hnote
  rw [Nat.zero_add] at htells
  generalize notes[j] = note at hnote htells
  cases htells with
  | active hq hf => exact ⟨_, _, hq, hf, hnote⟩
  | died _ hdies => exact absurd (hbefore j hdies) (Nat.lt_irrefl j)

end Simulation

/-- An arrival does not depend on where the positions begin. -/
theorem Dfa.walkFrom_arrived {dfa : Dfa} {i j : DfaStateId} {position : Nat} {word : List Char}
    (h : dfa.walkFrom i position word = .ok (.arrived j)) (position' : Nat) :
    dfa.walkFrom i position' word = .ok (.arrived j) := by
  induction word generalizing i position position' with
  | nil => exact h
  | cons c rest ih =>
    obtain ⟨k, hnext, hwalk⟩ := exists_of_walkFrom_cons h
    rw [walkFrom, hnext]
    exact ih hwalk (position' + 1)

namespace Matcher.Realizes

variable {m : Matcher} {words : Language Char}

/-- A prefix is viable exactly when some run reads it. -/
theorem viable_iff (h : m.Realizes words) (beginning : List Char) :
    Viable words beginning ↔ ∃ q, m.nfa.Run m.nfa.start beginning q := by
  constructor
  · rintro ⟨word, hword, rest, rfl⟩
    obtain ⟨r, hrun, -⟩ := (h.recognizes _).mpr hword
    obtain ⟨q, hq, -⟩ := Nfa.run_append_iff.mp hrun
    exact ⟨q, hq⟩
  · rintro ⟨q, hq⟩
    have hlt := h.inRange.run_lt h.inRange.start_lt hq
    obtain ⟨r, ⟨rest, hrest⟩, haccepting⟩ := h.live q hlt
    have hrecognized : m.nfa.Recognizes (beginning ++ rest) := ⟨r, hq.append hrest, haccepting⟩
    exact ⟨_, (h.recognizes _).mp hrecognized, List.prefix_append _ _⟩

/-- All runs die at the symbol that makes a viable prefix one that is not viable. -/
theorem diesAt_iff (h : m.Realizes words) (word : List Char) (i : Nat) :
    m.nfa.DiesAt word i ↔ i < word.length ∧ Viable words (word.take i) ∧
      ¬ Viable words (word.take (i + 1)) := by
  rw [h.viable_iff, h.viable_iff, not_exists]
  exact Iff.rfl

/-- The deterministic automaton stands for the sets of states of the other. -/
theorem represents (h : m.Realizes words) : m.dfa.Represents m.nfa := by
  obtain ⟨dfa, hdfa, hrep⟩ := Dfa.exists_ofNfa h.inRange
  have he : dfa = m.dfa := Except.ok.inj (hdfa.symm.trans h.dfa_eq)
  exact he ▸ hrep

/-- A walk of a word that some run reads arrives at the state of the set in which runs end. -/
theorem exists_arrived (h : m.Realizes words) {word : List Char} {q : StateId}
    (hq : m.nfa.Run m.nfa.start word q) :
    ∃ k s, m.dfa.walk word = .ok (.arrived k) ∧ m.dfa.state k = .ok s ∧
      m.nfa.Follows word s.members ∧
      (s.accepting = true ↔ ∃ q, q ∈ s.members ∧ m.nfa.Accepting q) := by
  rcases h.represents.walk word with ⟨k, s, hk, hs, hf, -⟩ | ⟨k, -, hdies⟩
  · exact ⟨k, s, hk, readAt_eq_ok_iff.mpr hs, hf, h.represents.accepting_iff hs⟩
  · exact absurd hq (hdies.not_run_word q)

/-- Every state of the deterministic automaton leads to acceptance. -/
theorem exists_accepting (h : m.Realizes words) {q : DfaStateId} (hq : q < m.dfa.size) :
    ∃ rest r t, m.dfa.walkFrom q 0 rest = .ok (.arrived r) ∧ m.dfa.state r = .ok t ∧
      t.accepting = true := by
  obtain ⟨word, hword⟩ := Dfa.exists_walk_of_ofNfa h.inRange h.dfa_eq hq
  rcases h.represents.walk word with ⟨q', s, hs, -, hf, p, hp⟩ | ⟨k, hs, -⟩
  case inr =>
    rw [hword] at hs
    cases hs
  -- a run goes on from a member of the state to acceptance, and the walk follows the run
  obtain ⟨final, ⟨rest, hrest⟩, haccepting⟩ := h.live p (hf.lt_size h.inRange hp)
  have hrun : m.nfa.Run m.nfa.start (word ++ rest) final := ((hf p).mp hp).append hrest
  obtain ⟨r, t, hr, ht, hft, hiff⟩ := h.exists_arrived hrun
  rw [Dfa.walk, Dfa.walkFrom_append hword] at hr
  have hmem : final ∈ t.members := (hft final).mpr hrun
  exact ⟨rest, r, t, Dfa.walkFrom_arrived hr 0, ht, hiff.mpr ⟨final, hmem, haccepting⟩⟩

end Matcher.Realizes

/-- A simulation and a walk of a word stop at the first symbol with which no word of the language
goes on, and what the simulation logs tells so. -/
structure Matcher.RejectsEarliest (m : Matcher) (words : Language Char) (word : List Char)
    (history : Simulation.History) : Prop where
  /-- The simulation stops at a position exactly when the symbols before it begin a word of the
  language, and with its symbol they do not. -/
  died_iff : ∀ i < word.length, (∃ c, .died i c ∈ history.notes) ↔
    Viable words (word.take i) ∧ ¬ Viable words (word.take (i + 1))
  /-- Nothing comes after a stop, and the word is rejected. -/
  died_last : ∀ i c, .died i c ∈ history.notes →
    word[i]? = some c ∧ history.notes.length = i + 1 ∧ history.accepted = false ∧
      (history.notes.map Log.noteMessage)[i]? = some ("all runs died at position " ++ toString i ++
        " (" ++ Quoted.character c ++ ")")
  /-- Every position before a stop is logged with the number of states of the set that the walk
  arrives at, which is not empty. -/
  active : ∀ j < word.length, (∀ i c, .died i c ∈ history.notes → j < i) →
    ∃ q s, m.dfa.walk (word.take (j + 1)) = .ok (.arrived q) ∧ m.dfa.state q = .ok s ∧
      1 ≤ s.members.size ∧
      (history.notes.map Log.noteMessage)[j]? =
        some (toString s.members.size ++ " active states after position " ++ toString j)
  /-- The walk is stuck where the simulation stops. -/
  stuck_iff : ∀ i, m.dfa.walk word = .ok (.stuck i) ↔ ∃ c, .died i c ∈ history.notes
  /-- The walk arrives where the simulation does not stop. -/
  arrived_iff : (∃ q, m.dfa.walk word = .ok (.arrived q)) ↔ ∀ i c, .died i c ∉ history.notes

/-- What realizes a language rejects at the first symbol that cannot be right. -/
theorem Matcher.Realizes.exists_rejectsEarliest {m : Matcher} {words : Language Char}
    (h : m.Realizes words) (word : List Char) :
    ∃ history, Simulation.run m.nfa word = .ok history ∧ m.RejectsEarliest words word history := by
  obtain ⟨history, hrun, haccepted, hdied⟩ := Simulation.exists_run h.inRange word
  obtain ⟨history', hrun', haccounts⟩ := Simulation.exists_accounts h.inRange word
  have he : history' = history := Except.ok.inj (hrun'.symm.trans hrun)
  subst he
  have hstuck : ∀ i, m.dfa.walk word = .ok (.stuck i) ↔ ∃ c, .died i c ∈ history'.notes := by
    intro i
    rw [hdied]
    exact h.represents.walk_eq_stuck_iff word i
  refine ⟨history', hrun, ?_, ?_, ?_, hstuck, ?_⟩
  · intro i hi
    rw [hdied, h.diesAt_iff]
    exact and_iff_right hi
  · intro i c hmem
    obtain ⟨hc, hlength, hnote⟩ := haccounts.died_last hmem
    refine ⟨hc, hlength, ?_, ?_⟩
    · rw [← Bool.not_eq_true, haccepted]
      rintro ⟨q, hq, -⟩
      exact ((hdied i).mp ⟨c, hmem⟩).not_run_word q hq
    · rw [List.getElem?_map, hnote]
      rfl
  · intro j hj hbefore
    have hbefore' : ∀ i, m.nfa.DiesAt word i → j < i := by
      intro i hi
      obtain ⟨c, hc⟩ := (hdied i).mpr hi
      exact hbefore i c hc
    obtain ⟨active, q, hq, hf, hnote⟩ := haccounts.active_before hj hbefore'
    obtain ⟨k, s, hk, hs, hfs, -⟩ := h.exists_arrived ((hf q).mp hq)
    have hset : s.members = active := hfs.unique hf
    refine ⟨k, s, hk, hs, ?_, ?_⟩
    · rw [hset]
      exact NatSet.size_pos hq
    · rw [List.getElem?_map, hnote, hset]
      rfl
  · constructor
    · rintro ⟨q, hq⟩ i c hmem
      have hi := (hstuck i).mpr ⟨c, hmem⟩
      rw [hq] at hi
      cases hi
    · intro hno
      rcases h.represents.walk word with ⟨q, s, hq, -, -, -⟩ | ⟨k, hk, -⟩
      · exact ⟨q, hq⟩
      · obtain ⟨c, hc⟩ := (hstuck k).mp hk
        exact absurd hc (hno k c)

/-- A compiled pattern rejects every word at the first symbol with which no word of the pattern
goes on, and all states of its deterministic automaton lead to acceptance. -/
theorem compile_rejects_earliest {pattern : String} {m : Matcher}
    (h : compile pattern = .ok m) :
    ∃ words, Describes pattern words ∧ (∀ words', Describes pattern words' → words' = words) ∧
      (∀ word, ∃ history, Simulation.run m.nfa word = .ok history ∧
        m.RejectsEarliest words word history) ∧
      ∀ q < m.dfa.size, ∃ rest r t, m.dfa.walkFrom q 0 rest = .ok (.arrived r) ∧
        m.dfa.state r = .ok t ∧ t.accepting = true := by
  obtain ⟨words, hwords⟩ := exists_describes h
  have hrealizes := hwords.realizes h
  refine ⟨words, hwords, fun words' hwords' => hwords'.unique hwords, ?_, ?_⟩
  · intro word
    exact hrealizes.exists_rejectsEarliest word
  · intro q hq
    exact hrealizes.exists_accepting hq

/-- The rejections of a pattern that repeats one symbol before another. -/
theorem compiled_repetition_rejects_earliest :
    ∃ m, compile "a*b" = .ok m ∧
      ∃ words, Describes "a*b" words ∧ (∀ words', Describes "a*b" words' → words' = words) ∧
        (∀ word, ∃ history, Simulation.run m.nfa word = .ok history ∧
          m.RejectsEarliest words word history) ∧
        ∀ q < m.dfa.size, ∃ rest r t, m.dfa.walkFrom q 0 rest = .ok (.arrived r) ∧
          m.dfa.state r = .ok t ∧ t.accepting = true := by
  let repeated : Derivation .factor := .star (.literal 'a' (by decide))
  let d : Derivation .expression :=
    .ofTerm (.concat (.ofFactor repeated) (.literal 'b' (by decide)))
  have hpattern : d.pattern = "a*b" := rfl
  obtain ⟨m, hm, -⟩ := d.exists_compile
  rw [hpattern] at hm
  exact ⟨m, hm, compile_rejects_earliest hm⟩

end PatternAutomata
