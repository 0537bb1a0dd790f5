import PatternAutomata.Proofs.Automaton.Powerset
import PatternAutomata.Proofs.Automaton.Renaming

/-!
# The discovery of subsets does not see names

Two discoveries, one on an automaton and one on the automaton with other names, go through
the same rounds: what is numbered and what waits is the same at every moment, but for the
names in the sets. A set gets a new number in the one exactly when its image does in the
other, because the renaming tells states apart, and the sets a state leads to come up in the
order of their symbols in both. So the deterministic automata are the same but for names, and
a walk does not look at names.
-/

namespace PatternAutomata

/-- The deterministic state for the images of the states that it stands for. -/
def DfaState.rename (f : StateId → StateId) (s : DfaState) : DfaState :=
  { s with members := s.members.image f }

/-- The deterministic automaton for the images of the sets that its states stand for. -/
def Dfa.rename (f : StateId → StateId) (dfa : Dfa) : Dfa :=
  ⟨dfa.states.map (·.rename f), dfa.start⟩

namespace Discovery

/-- The discovery `e` stands at the images of the numbered sets of `d`. -/
structure Renamed (f : StateId → StateId) (d e : Discovery) : Prop where
  states : e.states = d.states.map (·.rename f)
  pending : e.pending = d.pending

variable {f : StateId → StateId} {A B : Nfa}

/-- Before anything is numbered there are no names. -/
theorem renamed_start (f : StateId → StateId) : Renamed f start start := ⟨Array.map_empty.symm, rfl⟩

theorem Renamed.getElem? {d e : Discovery} (he : Renamed f d e) (i : DfaStateId) :
    e.states[i]? = d.states[i]?.map (·.rename f) := by
  rw [he.states, Array.getElem?_map]

/-- The image of a set is found where the set is. -/
theorem Renamed.get?_index (h : Nfa.Renames f A B) {d e : Discovery} (he : Renamed f d e)
    {busy : Option DfaStateId} (hd : Sound A d busy) {subset : NatSet}
    (hs : ∀ q, q ∈ subset → q < A.size) :
    e.index.get? (subset.image f).toList = d.index.get? subset.toList := by
  apply Option.ext
  intro i
  rw [e.indexed, d.indexed, he.getElem?, Option.map_map, Option.map_eq_some_iff,
    Option.map_eq_some_iff]
  refine exists_congr fun s => and_congr_right fun hi => ?_
  exact NatSet.image_eq_image_iff h.bijOn.injOn (hd.members_lt hi) hs

/-- A set and its image without numbers get the same one. -/
theorem Renamed.add {d e : Discovery} (he : Renamed f d e) {subset : NatSet} {accepting : Bool}
    (fresh : d.index.get? subset.toList = none)
    (fresh' : e.index.get? (subset.image f).toList = none) :
    Renamed f (d.add subset accepting fresh) (e.add (subset.image f) accepting fresh') where
  states := by
    rw [states_add, states_add, he.states, Array.map_push]
    rfl
  pending := by
    rw [pending_add, pending_add, he.states, Array.size_map, he.pending]

/-- States and their images are given transitions alike. -/
theorem Renamed.setTransitions {d e : Discovery} (he : Renamed f d e) (i : DfaStateId)
    (transitions : SortedMap Char DfaStateId) :
    Renamed f (d.setTransitions i transitions) (e.setTransitions i transitions) where
  states := by
    apply Array.ext_getElem?
    intro j
    simp only [Discovery.setTransitions, Array.getElem?_modify, Array.getElem?_map, he.getElem?]
    split
    · rw [Option.map_map, Option.map_map]
      rfl
    · rfl
  pending := he.pending

/-- Numbering the image of a set goes as numbering the set. -/
theorem Renamed.number (h : Nfa.Renames f A B) {d d' e : Discovery} (he : Renamed f d e)
    {busy : Option DfaStateId} (hd : Sound A d busy) {subset : NatSet}
    (hs : ∀ q, q ∈ subset → q < A.size) {i : DfaStateId}
    (hn : number A d subset = .ok (i, d')) :
    ∃ e', number B e (subset.image f) = .ok (i, e') ∧ Renamed f d' e' := by
  have hfind := he.get?_index h hd hs
  cases hold : d.index.get? subset.toList with
  | some j =>
    rw [hold] at hfind
    cases hn.symm.trans (number_of_known hold)
    exact ⟨e, number_of_known hfind, he⟩
  | none =>
    rw [hold] at hfind
    obtain ⟨accepting, hacc, -⟩ := Nfa.exists_containsAccepting hs
    cases hn.symm.trans (number_of_fresh hold hacc)
    have hsize : e.states.size = d.states.size := by rw [he.states, Array.size_map]
    refine ⟨_, ?_, he.add hold hfind⟩
    rw [number_of_fresh hfind (h.containsAccepting_image hs hacc), hsize]

/-- Numbering the images of sets one after another goes as numbering the sets. -/
theorem Renamed.accumulate (h : Nfa.Renames f A B) {d d' e : Discovery} (he : Renamed f d e)
    {busy : Option DfaStateId} (hd : Sound A d busy) {subsets : List NatSet}
    (hs : ∀ subset ∈ subsets, ∀ q, q ∈ subset → q < A.size) {is : List DfaStateId}
    (ha : SortedMap.accumulate (Discovery.number A) d subsets = .ok (is, d')) :
    ∃ e', SortedMap.accumulate (Discovery.number B) e (subsets.map (NatSet.image f)) =
      .ok (is, e') ∧ Renamed f d' e' := by
  induction subsets generalizing d e is with
  | nil =>
    cases ha
    exact ⟨e, rfl, he⟩
  | cons subset subsets ih =>
    rw [List.forall_mem_cons] at hs
    obtain ⟨i, d₁, is', hn, hrest, rfl⟩ := SortedMap.exists_of_accumulate_cons ha
    obtain ⟨j, d₂, hn₂, -, hd₂, -⟩ := exists_number hd hs.1
    cases hn₂.symm.trans hn
    obtain ⟨e₁, hn', he₁⟩ := he.number h hd hs.1 hn
    obtain ⟨e', ha', he'⟩ := ih he₁ hd₂ hs.2 hrest
    refine ⟨e', ?_, he'⟩
    rw [List.map_cons, SortedMap.accumulate, hn']
    simp only [bind, Except.bind, ha']
    rfl

/-- Filling a renamed state goes as filling the state. -/
theorem Renamed.fill (h : Nfa.Renames f A B) (hA : A.InRange) (hB : B.InRange)
    {d d' e : Discovery} (he : Renamed f d e) {busy : Option DfaStateId} (hd : Sound A d busy)
    {i : DfaStateId} (hfill : fill A d i = .ok d') :
    ∃ e', Discovery.fill B e i = .ok e' ∧ Renamed f d' e' := by
  obtain ⟨s, table, is, d₁, hs, htable, ha, rfl⟩ := exists_of_fill hfill
  have hlt := hd.members_lt hs
  have hvalues : ∀ set ∈ table.values, ∀ q, q ∈ set → q < A.size :=
    fun set hset q hq => Nfa.lt_size_of_mem_successors htable hset hq
  obtain ⟨e₁, haccB, he₁⟩ := he.accumulate h hd hvalues ha
  rw [← SortedMap.values_mapValues] at haccB
  have htableB : B.successors (s.rename f).members = .ok (table.mapValues (NatSet.image f)) :=
    h.successors_image hA hB hlt htable
  have hsB : e.states[i]? = some (s.rename f) := by rw [he.getElem?, hs, Option.map_some]
  refine ⟨_, fill_of_accumulate hsB htableB haccB, ?_⟩
  rw [SortedMap.rekey_mapValues]
  exact he₁.setTransitions i _

/-- A round on the renamed automaton goes as the round on the given one. -/
theorem Renamed.advance (h : Nfa.Renames f A B) (hA : A.InRange) (hB : B.InRange)
    {d d' e : Discovery} (he : Renamed f d e) (hd : Sound A d none)
    (hadvance : advance A d = some (.ok d')) :
    ∃ e', Discovery.advance B e = some (.ok e') ∧ Renamed f d' e' := by
  unfold Discovery.advance at hadvance ⊢
  rw [he.pending]
  cases hp : d.pending with
  | nil =>
    rw [hp] at hadvance
    cases hadvance
  | cons i pending =>
    rw [hp] at hadvance
    have he₀ : Renamed f { d with pending } { e with pending } := ⟨he.states, rfl⟩
    obtain ⟨e', hfill, he'⟩ := he₀.fill h hA hB (hd.takeUp hp) (Option.some.inj hadvance)
    exact ⟨e', congrArg some hfill, he'⟩

/-- A discovery on the renamed automaton goes as the discovery on the given one. -/
theorem Renamed.run (h : Nfa.Renames f A B) (hA : A.InRange) (hB : B.InRange) {d d' e : Discovery}
    (he : Renamed f d e) (hd : Sound A d none) (hrun : run A d = .ok d') :
    ∃ e', Discovery.run B e = .ok e' ∧ Renamed f d' e' := by
  fun_induction Discovery.run A d generalizing e with
  | case1 d hstop =>
    cases hrun
    have hdone : e.pending = [] := he.pending.trans (pending_eq_nil_of_advance hstop)
    exact ⟨e, run_of_pending_nil hdone, he⟩
  | case2 d fault hfault => cases hrun
  | case3 d d₁ hadvance ih =>
    obtain ⟨e₁, hadvanceB, he₁⟩ := he.advance h hA hB hd hadvance
    rw [run_of_advance hadvanceB]
    exact ih he₁ (hd.of_advance hA hadvance).1 hrun

end Discovery

namespace Dfa

variable {f : StateId → StateId}

/-- A state is read as before, but for the names in its set. -/
theorem state_rename (dfa : Dfa) (i : DfaStateId) :
    (dfa.rename f).state i = DfaState.rename f <$> dfa.state i := by
  change readAt (dfa.states.map _) i = _ <$> readAt dfa.states i
  have hsize : (dfa.states.map (·.rename f)).size = dfa.states.size := Array.size_map
  rw [readAt, readAt, Array.getElem?_map, hsize]
  cases dfa.states[i]? <;> rfl

/-- Transitions lead where they led. -/
theorem next_rename (dfa : Dfa) (i : DfaStateId) (c : Char) :
    (dfa.rename f).next i c = dfa.next i c := by
  rw [next, next, state_rename]
  cases dfa.state i <;> rfl

/-- A walk ends as before. -/
theorem walkFrom_rename (dfa : Dfa) (i : DfaStateId) (position : Nat) (word : List Char) :
    (dfa.rename f).walkFrom i position word = dfa.walkFrom i position word := by
  induction word generalizing i position with
  | nil => rfl
  | cons c word ih =>
    rw [walkFrom, walkFrom, next_rename]
    simp only [ih]

/-- The words accepted are those accepted before. -/
theorem accepts_rename (dfa : Dfa) (word : List Char) :
    (dfa.rename f).accepts word = dfa.accepts word := by
  have hwalk : (dfa.rename f).walk word = dfa.walk word := walkFrom_rename dfa dfa.start 0 word
  rw [accepts, accepts, hwalk]
  cases dfa.walk word with
  | error fault => rfl
  | ok walk =>
    cases walk with
    | stuck position => rfl
    | arrived i =>
      simp only [bind, Except.bind, state_rename]
      cases dfa.state i <;> rfl

end Dfa

/-- The deterministic automaton of an automaton with other names for the same states is the
same but for the names in its sets. -/
theorem Dfa.exists_ofNfa_rename {f : StateId → StateId} {A B : Nfa} (h : Nfa.Renames f A B)
    (hA : A.InRange) (hB : B.InRange) :
    ∃ dfa, Dfa.ofNfa A = .ok dfa ∧ Dfa.ofNfa B = .ok (dfa.rename f) := by
  obtain ⟨closed, hclosed, hmem⟩ := Nfa.exists_close hA hA.start_lt
  have hlt : ∀ q, q ∈ closed → q < A.size := fun q hq => Nfa.lt_size_of_mem_closeAll hclosed hq
  obtain ⟨i, d, hnumber, -, hd, -⟩ := Discovery.exists_number Discovery.sound_start hlt
  obtain ⟨d', hrun, -⟩ := Discovery.exists_run hA hd
  have hcloseB := h.close_image hA hB hA.start_lt hclosed
  rw [h.start] at hcloseB
  obtain ⟨e, hnumberB, he⟩ :=
    (Discovery.renamed_start f).number h Discovery.sound_start hlt hnumber
  obtain ⟨e', hrunB, he'⟩ := he.run h hA hB hd hrun
  refine ⟨⟨d'.states, i⟩, Dfa.ofNfa_eq_ok hclosed hnumber hrun, ?_⟩
  rw [Dfa.ofNfa_eq_ok hcloseB hnumberB hrunB, he'.states]
  rfl

end PatternAutomata
