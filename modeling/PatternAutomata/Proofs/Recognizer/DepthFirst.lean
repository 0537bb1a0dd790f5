import PatternAutomata.Proofs.Recognizer.Lockstep
import PatternAutomata.Recognizer.DepthFirst

/-!
# Depth-first search, exactly

The search explores a graph whose nodes are a state and an input position. The sets of
explored states are cleared again and again, so they do not say what has been explored
so far; the invariant keeps the explored nodes beside them. Every edge out of an explored
node leads to an explored or a waiting one, and whatever stands in a set that a waiting
branch can still meet has been explored. So nothing is lost when a set is cleared, and a
search without an answer has explored everything reachable.
-/

namespace PatternAutomata.DepthFirst

open Relation

variable {nfa : Nfa} {word : List Char}

/-- One move of the search: a transition on the symbol at the position, or an ε-edge where
the word is over or the state has no such transition. -/
inductive Edge (nfa : Nfa) (word : List Char) : StateId × Nat → StateId × Nat → Prop
  | read {p q : StateId} {i : Nat} {c : Char} :
    word[i]? = some c → nfa.Reads p c q → Edge nfa word (p, i) (q, i + 1)
  | jump {p q : StateId} {i : Nat} :
    nfa.Jumps p q → (i = word.length ∨ ∃ c, word[i]? = some c ∧ ∀ t, ¬ nfa.Reads p c t) →
    Edge nfa word (p, i) (q, i)

/-- What a round makes of the branch it takes up. -/
inductive Takes (nfa : Nfa) (word : List Char) (visited : Array NatSet) (q : StateId) (i : Nat)
    (pending : List (StateId × Nat)) : Round → Prop
  /-- A state explored at the position is left out. -/
  | skip {explored : NatSet} : visited[i]? = some explored → q ∈ explored →
    Takes nfa word visited q i pending (.onward ⟨visited, pending⟩)
  /-- An accepting state at the end of the word is the answer. -/
  | accept {explored : NatSet} : visited[i]? = some explored → q ∉ explored →
    i = word.length → nfa.Accepting q → Takes nfa word visited q i pending (.answer true)
  /-- A transition is followed, and the set of the next position is cleared. -/
  | read {explored : NatSet} {c : Char} {t : StateId} : visited[i]? = some explored →
    q ∉ explored → word[i]? = some c → nfa.Reads q c t →
    Takes nfa word visited q i pending
      (.onward ⟨(visited.setIfInBounds i (explored.insert q)).setIfInBounds (i + 1) ∅,
        (t, i + 1) :: pending⟩)
  /-- The ε-edges are put on top where there is no transition. -/
  | jump {explored : NatSet} {s : State} : visited[i]? = some explored → q ∉ explored →
    nfa.states[q]? = some s → (i = word.length → ¬ nfa.Accepting q) →
    (i = word.length ∨ ∃ c, word[i]? = some c ∧ ∀ t, ¬ nfa.Reads q c t) →
    Takes nfa word visited q i pending
      (.onward ⟨visited.setIfInBounds i (explored.insert q), pushEpsilon s i pending⟩)

/-- With one set for each position, a round on a branch inside the automaton and the word
succeeds. -/
theorem exists_takes {visited : Array NatSet} (hsize : visited.size = word.length + 1)
    {q : StateId} (hq : q < nfa.size) {i : Nat} (hi : i ≤ word.length)
    (pending : List (StateId × Nat)) :
    ∃ r, advance nfa word.toArray ⟨visited, (q, i) :: pending⟩ = .ok r ∧
      Takes nfa word visited q i pending r := by
  have hv : visited[i]? = some visited[i] := Array.getElem?_eq_getElem (by omega)
  generalize visited[i] = explored at hv
  obtain ⟨s, hs, hstate⟩ := Nfa.exists_state hq
  simp only [advance, hv, hstate]
  by_cases hmem : q ∈ explored
  · rw [if_pos hmem]
    exact ⟨_, rfl, .skip hv hmem⟩
  · rw [if_neg hmem]
    simp only [explore, List.getElem?_toArray]
    cases hc : word[i]? with
    | none =>
      have hend : i = word.length := Nat.le_antisymm hi (List.getElem?_eq_none_iff.mp hc)
      cases ha : s.accepting with
      | true => exact ⟨_, rfl, .accept hv hmem hend ((Nfa.accepting_iff hs).mpr ha)⟩
      | false =>
        have hno : ¬ nfa.Accepting q := by
          rw [Nfa.accepting_iff hs, ha]
          exact Bool.false_ne_true
        exact ⟨_, rfl, .jump hv hmem hs (fun _ => hno) (Or.inl hend)⟩
    | some c =>
      have hlt : i < word.length := (List.getElem?_eq_some_iff.mp hc).1
      cases ht : s.transitions.get? c with
      | none =>
        have hno : ∀ t, ¬ nfa.Reads q c t := by
          intro t hr
          rw [Nfa.reads_iff hs, ht] at hr
          cases hr
        refine ⟨_, ?_, .jump hv hmem hs (fun he => absurd he (Nat.ne_of_lt hlt))
          (Or.inr ⟨c, hc, hno⟩)⟩
        simp only [ht]
      | some t =>
        have hnext : i + 1 < (visited.setIfInBounds i (explored.insert q)).size := by
          rw [Array.size_setIfInBounds, hsize]
          omega
        refine ⟨_, ?_, .read hv hmem hc ((Nfa.reads_iff hs).mpr ht)⟩
        simp only [ht, follow, hnext, if_true]

/-- The invariant of a search that has explored the given nodes. -/
structure Sound (nfa : Nfa) (word : List Char) (explored : StateId × Nat → Prop)
    (config : Config) : Prop where
  /-- There is one set for each position. -/
  size_eq : config.visited.size = word.length + 1
  /-- The branches stay inside the automaton and the word. -/
  pending_lt : ∀ b ∈ config.pending, b.1 < nfa.size ∧ b.2 ≤ word.length
  /-- The next branch is the deepest. -/
  deepest_first : config.pending.Pairwise fun a b => b.2 ≤ a.2
  /-- The branches are reachable. -/
  reached : ∀ b ∈ config.pending, ReflTransGen (Edge nfa word) (nfa.start, 0) b
  /-- The sets up to the position of a branch hold explored nodes only. -/
  visited : ∀ b ∈ config.pending, ∀ i ≤ b.2, ∀ set, config.visited[i]? = some set →
    ∀ q, q ∈ set → explored (q, i)
  /-- No explored node is an answer. -/
  rejects : ∀ q, explored (q, word.length) → ¬ nfa.Accepting q
  /-- Edges lead from explored nodes to explored or waiting ones. -/
  covered : ∀ a b, explored a → Edge nfa word a b → explored b ∨ b ∈ config.pending
  /-- The search begins at the start. -/
  start : explored (nfa.start, 0) ∨ (nfa.start, 0) ∈ config.pending

/-- The moves of a search in an automaton in range stay inside it and the word. -/
theorem Edge.lt (h : nfa.InRange) {a b : StateId × Nat} (he : Edge nfa word a b)
    (ha : a.2 ≤ word.length) : b.1 < nfa.size ∧ b.2 ≤ word.length := by
  cases he with
  | read hc hr => exact ⟨h.reads_lt hr, (List.getElem?_eq_some_iff.mp hc).1⟩
  | jump hj _ => exact ⟨h.jumps_lt hj, ha⟩

/-- A node without a transition on the symbol at its position moves along its ε-edges. -/
theorem edge_iff_of_jump {q : StateId} {i : Nat} {s : State} (hs : nfa.states[q]? = some s)
    (hno : i = word.length ∨ ∃ c, word[i]? = some c ∧ ∀ t, ¬ nfa.Reads q c t)
    (b : StateId × Nat) : Edge nfa word (q, i) b ↔ b ∈ s.epsilon.map (·, i) := by
  rw [List.mem_map]
  constructor
  · intro he
    cases he with
    | read hc hr =>
      rcases hno with rfl | ⟨d, hd, hno⟩
      · exact absurd (List.getElem?_eq_some_iff.mp hc).1 (Nat.lt_irrefl _)
      · cases hc.symm.trans hd
        exact absurd hr (hno _)
    | jump hj _ => exact ⟨_, (Nfa.jumps_iff hs).mp hj, rfl⟩
  · rintro ⟨t, ht, rfl⟩
    exact .jump ((Nfa.jumps_iff hs).mpr ht) hno

/-- A node with a transition on the symbol at its position moves along it alone. -/
theorem edge_iff_of_read {q t : StateId} {i : Nat} {c : Char} (hc : word[i]? = some c)
    (hr : nfa.Reads q c t) (b : StateId × Nat) :
    Edge nfa word (q, i) b ↔ b ∈ [(t, i + 1)] := by
  rw [List.mem_singleton]
  constructor
  · intro he
    cases he with
    | read hd hr' =>
      cases hc.symm.trans hd
      rw [hr'.unique hr]
    | jump _ hno =>
      rcases hno with rfl | ⟨d, hd, hno⟩
      · exact absurd (List.getElem?_eq_some_iff.mp hc).1 (Nat.lt_irrefl _)
      · cases hc.symm.trans hd
        exact absurd hr (hno t)
  · rintro rfl
    exact .read hc hr

/-- Exploring the next branch keeps the invariant if exactly its moves are put on top, all
at one position, and the sets up to that position hold explored nodes and the branch. -/
theorem Sound.explore (h : nfa.InRange) {explored : StateId × Nat → Prop}
    {visited visited' : Array NatSet} {q : StateId} {i : Nat} {pending : List (StateId × Nat)}
    (hs : Sound nfa word explored ⟨visited, (q, i) :: pending⟩)
    (fresh : List (StateId × Nat)) (top : Nat)
    (hsize : visited'.size = visited.size) (hacc : i = word.length → ¬ nfa.Accepting q)
    (hedge : ∀ b, Edge nfa word (q, i) b ↔ b ∈ fresh) (htop : i ≤ top)
    (hfresh : ∀ b ∈ fresh, b.2 = top)
    (hvisited : ∀ j ≤ top, ∀ set, visited'[j]? = some set →
      ∀ r, r ∈ set → explored (r, j) ∨ (r, j) = (q, i)) :
    Sound nfa word (fun b => explored b ∨ b = (q, i)) ⟨visited', fresh ++ pending⟩ where
  size_eq := hsize.trans hs.size_eq
  pending_lt b hb := by
    rcases List.mem_append.mp hb with hb | hb
    · exact ((hedge b).mpr hb).lt h (hs.pending_lt (q, i) List.mem_cons_self).2
    · exact hs.pending_lt b (List.mem_cons_of_mem _ hb)
  deepest_first := by
    obtain ⟨hhead, htail⟩ := List.pairwise_cons.mp hs.deepest_first
    refine List.pairwise_append.mpr ⟨?_, htail, fun a ha b hb => ?_⟩
    · refine List.pairwise_of_forall_mem_list fun a ha b hb => ?_
      exact Nat.le_of_eq ((hfresh b hb).trans (hfresh a ha).symm)
    · rw [hfresh a ha]
      exact Nat.le_trans (hhead b hb) htop
  reached b hb := by
    rcases List.mem_append.mp hb with hb | hb
    · exact (hs.reached (q, i) List.mem_cons_self).tail ((hedge b).mpr hb)
    · exact hs.reached b (List.mem_cons_of_mem _ hb)
  visited b hb j hj := by
    refine hvisited j ?_
    rcases List.mem_append.mp hb with hb | hb
    · rwa [hfresh b hb] at hj
    · have hle : b.2 ≤ i := (List.pairwise_cons.mp hs.deepest_first).1 b hb
      exact Nat.le_trans hj (Nat.le_trans hle htop)
  rejects r hr := by
    rcases hr with hr | hr
    · exact hs.rejects r hr
    · cases hr
      exact hacc rfl
  covered a b ha hab := by
    rcases ha with ha | rfl
    · rcases hs.covered a b ha hab with hb | hb
      · exact Or.inl (Or.inl hb)
      · rcases List.mem_cons.mp hb with rfl | hb
        · exact Or.inl (Or.inr rfl)
        · exact Or.inr (List.mem_append_right _ hb)
    · exact Or.inr (List.mem_append_left _ ((hedge b).mp hab))
  start := by
    rcases hs.start with hb | hb
    · exact Or.inl (Or.inl hb)
    · rcases List.mem_cons.mp hb with hb | hb
      · exact Or.inl (Or.inr hb)
      · exact Or.inr (List.mem_append_right _ hb)

/-- Marking the next branch leaves explored nodes and the branch in the sets up to its
position. -/
theorem Sound.mark {explored : StateId × Nat → Prop} {visited : Array NatSet} {q : StateId}
    {i : Nat} {pending : List (StateId × Nat)}
    (hs : Sound nfa word explored ⟨visited, (q, i) :: pending⟩) {old : NatSet}
    (hold : visited[i]? = some old) {j : Nat} (hj : j ≤ i) {set : NatSet}
    (hset : (visited.setIfInBounds i (old.insert q))[j]? = some set) {r : StateId}
    (hr : r ∈ set) : explored (r, j) ∨ (r, j) = (q, i) := by
  have hvisited := hs.visited (q, i) List.mem_cons_self
  by_cases hij : i = j
  · subst hij
    have hlt : i < visited.size := (Array.getElem?_eq_some_iff.mp hold).1
    rw [Array.getElem?_setIfInBounds_self_of_lt hlt] at hset
    cases hset
    rcases NatSet.mem_insert.mp hr with rfl | hr
    · exact Or.inr rfl
    · exact Or.inl (hvisited i (Nat.le_refl i) old hold r hr)
  · rw [Array.getElem?_setIfInBounds_ne hij] at hset
    exact Or.inl (hvisited j hj set hset r hr)

/-- A branch that has been explored already can be left out. -/
theorem Sound.leave {explored : StateId × Nat → Prop} {visited : Array NatSet}
    {branch : StateId × Nat} {pending : List (StateId × Nat)}
    (hs : Sound nfa word explored ⟨visited, branch :: pending⟩) (hdone : explored branch) :
    Sound nfa word explored ⟨visited, pending⟩ where
  size_eq := hs.size_eq
  pending_lt b hb := hs.pending_lt b (List.mem_cons_of_mem _ hb)
  deepest_first := (List.pairwise_cons.mp hs.deepest_first).2
  reached b hb := hs.reached b (List.mem_cons_of_mem _ hb)
  visited b hb := hs.visited b (List.mem_cons_of_mem _ hb)
  rejects := hs.rejects
  covered a b ha hab := by
    rcases hs.covered a b ha hab with hb | hb
    · exact Or.inl hb
    · exact (List.mem_cons.mp hb).imp (fun he => by rwa [he]) id
  start := by
    rcases hs.start with hb | hb
    · exact Or.inl hb
    · exact (List.mem_cons.mp hb).imp (fun he => by rwa [he]) id

/-- A round keeps the invariant; the branch it takes up has been explored afterwards. -/
theorem Sound.onward (h : nfa.InRange) {explored : StateId × Nat → Prop}
    {visited : Array NatSet} {q : StateId} {i : Nat} {pending : List (StateId × Nat)}
    (hs : Sound nfa word explored ⟨visited, (q, i) :: pending⟩) {config : Config}
    (ht : Takes nfa word visited q i pending (.onward config)) :
    Sound nfa word (fun b => explored b ∨ b = (q, i)) config := by
  cases ht with
  | skip hold hq =>
    have hdone : explored (q, i) :=
      hs.visited (q, i) List.mem_cons_self i (Nat.le_refl i) _ hold q hq
    have he : (fun b => explored b ∨ b = (q, i)) = explored := by
      funext b
      exact propext ⟨fun hb => hb.elim id fun hb => hb ▸ hdone, Or.inl⟩
    rw [he]
    exact hs.leave hdone
  | @read old c t hold hq hc hr =>
    have hlt : i < word.length := (List.getElem?_eq_some_iff.mp hc).1
    refine hs.explore h [(t, i + 1)] (i + 1) ?_
      (fun hend => absurd hend (Nat.ne_of_lt hlt)) (edge_iff_of_read hc hr) (Nat.le_succ i)
      (fun b hb => by rw [List.mem_singleton.mp hb]) fun j hj set hset r hr => ?_
    · rw [Array.size_setIfInBounds, Array.size_setIfInBounds]
    · rcases Nat.le_succ_iff.mp hj with hj | rfl
      · rw [Array.getElem?_setIfInBounds_ne (by omega)] at hset
        exact hs.mark hold hj hset hr
      · have hsize : i + 1 < (visited.setIfInBounds i (old.insert q)).size := by
          have hvs : visited.size = word.length + 1 := hs.size_eq
          rw [Array.size_setIfInBounds, hvs]
          omega
        rw [Array.getElem?_setIfInBounds_self_of_lt hsize] at hset
        cases hset
        exact absurd hr (NatSet.not_mem_empty r)
  | @jump old s hold hq hstate hacc hno =>
    refine hs.explore h (s.epsilon.map (·, i)) i Array.size_setIfInBounds hacc
      (edge_iff_of_jump hstate hno) (Nat.le_refl i) (fun b hb => ?_)
      fun j hj set hset r hr => hs.mark hold hj hset hr
    obtain ⟨t, _, rfl⟩ := List.mem_map.mp hb
    rfl

/-- A search with nothing left to explore has explored everything reachable, and found no
answer. -/
theorem Sound.not_reached {explored : StateId × Nat → Prop} {visited : Array NatSet}
    (hs : Sound nfa word explored ⟨visited, []⟩) {q : StateId}
    (hreach : ReflTransGen (Edge nfa word) (nfa.start, 0) (q, word.length)) :
    ¬ nfa.Accepting q := by
  have hall : ∀ b, ReflTransGen (Edge nfa word) (nfa.start, 0) b → explored b := by
    intro b hb
    induction hb with
    | refl => exact hs.start.resolve_right List.not_mem_nil
    | tail _ hab ih => exact (hs.covered _ _ ih hab).resolve_right List.not_mem_nil
  exact hs.rejects q (hall _ hreach)

/-- A round of a search either finds nothing waiting or takes up the next branch. -/
theorem Sound.round {explored : StateId × Nat → Prop} {config : Config}
    (hs : Sound nfa word explored config) :
    (∃ visited, config = ⟨visited, []⟩ ∧
      advance nfa word.toArray config = .ok (.answer false)) ∨
    ∃ visited q i pending r, config = ⟨visited, (q, i) :: pending⟩ ∧
      advance nfa word.toArray config = .ok r ∧ Takes nfa word visited q i pending r := by
  obtain ⟨visited, pending⟩ := config
  cases pending with
  | nil => exact Or.inl ⟨visited, rfl, rfl⟩
  | cons b pending =>
    obtain ⟨hq, hi⟩ := hs.pending_lt b List.mem_cons_self
    obtain ⟨r, hok, htakes⟩ := exists_takes hs.size_eq hq hi pending
    exact Or.inr ⟨visited, b.1, b.2, pending, r, rfl, hok, htakes⟩

/-- A search goes on as its first round says. -/
theorem run_of_round {word : Array Char} (config : Config) : run nfa word config =
    match advance nfa word config with
    | .error fault => .error fault
    | .ok (.answer accepted) => .ok accepted
    | .ok (.onward config') => run nfa word config' := by
  rw [run]
  split <;> rename_i hround <;> rw [hround]

/-- A search goes on to an answer, which says whether an accepting node is reachable at the
end of the word. -/
theorem exists_run (h : nfa.InRange) {explored : StateId × Nat → Prop} {config : Config}
    (hs : Sound nfa word explored config) :
    ∃ b, run nfa word.toArray config = .ok b ∧
      (b = true ↔ ∃ q, ReflTransGen (Edge nfa word) (nfa.start, 0) (q, word.length) ∧
        nfa.Accepting q) := by
  fun_induction run nfa word.toArray config generalizing explored with
  | case1 config fault hadv =>
    rcases hs.round with ⟨_, _, hok⟩ | ⟨_, _, _, _, _, _, hok, _⟩ <;> cases hok.symm.trans hadv
  | case2 config accepted hadv =>
    rcases hs.round with ⟨visited, rfl, hok⟩ | ⟨visited, q, i, pending, r, rfl, hok, htakes⟩
    · cases hok.symm.trans hadv
      refine ⟨false, rfl, iff_of_false Bool.false_ne_true ?_⟩
      rintro ⟨q, hreach, ha⟩
      exact hs.not_reached hreach ha
    · cases hok.symm.trans hadv
      cases htakes with
      | accept _ _ hend ha =>
        have hreach := hs.reached (q, i) List.mem_cons_self
        refine ⟨true, rfl, iff_of_true rfl ⟨q, ?_, ha⟩⟩
        rwa [← hend]
  | case3 config config' hadv ih =>
    rcases hs.round with ⟨_, _, hok⟩ | ⟨visited, q, i, pending, r, rfl, hok, htakes⟩
    · cases hok.symm.trans hadv
    · cases hok.symm.trans hadv
      exact ih (hs.onward h htakes)

/-- A search begins with nothing explored, whatever the sets hold: only the first one can be met
before it is cleared. -/
theorem sound_initial (h : nfa.InRange) {visited : Array NatSet}
    (hsize : visited.size = word.length + 1) :
    Sound nfa word (fun _ => False) ⟨visited.setIfInBounds 0 ∅, [(nfa.start, 0)]⟩ := by
  refine ⟨by rwa [Array.size_setIfInBounds], fun b hb => ?_, List.pairwise_singleton _ _,
    fun b hb => ?_, fun b hb i hi set hset q hq => ?_, fun _ => False.elim,
    fun _ _ => False.elim, Or.inr List.mem_cons_self⟩
  · rw [List.mem_singleton.mp hb]
    exact ⟨h.start_lt, Nat.zero_le _⟩
  · rw [List.mem_singleton.mp hb]
  · rw [List.mem_singleton.mp hb] at hi
    have hzero : i = 0 := Nat.le_zero.mp hi
    subst hzero
    rw [Array.getElem?_setIfInBounds_self_of_lt (by omega)] at hset
    cases hset
    exact NatSet.not_mem_empty q hq

/-- A search succeeds with any sets, one for each position, and answers whether an accepting
node is reachable at the end of the word: what the sets hold at first does not matter. -/
theorem exists_search (h : nfa.InRange) (word : List Char) {visited : Array NatSet}
    (hsize : visited.size = word.length + 1) :
    ∃ b, search nfa word.toArray visited = .ok b ∧
      (b = true ↔ ∃ q, ReflTransGen (Edge nfa word) (nfa.start, 0) (q, word.length) ∧
        nfa.Accepting q) := by
  obtain ⟨b, hrun, hiff⟩ := exists_run h (sound_initial h hsize)
  refine ⟨b, ?_, hiff⟩
  have hsize' : visited.size = word.toArray.size + 1 := hsize
  rw [search, if_pos hsize']
  exact hrun

/-- The search answers whether an accepting node is reachable at the end of the word. -/
theorem exists_accepts (h : nfa.InRange) (word : List Char) :
    ∃ b, accepts nfa word = .ok b ∧
      (b = true ↔ ∃ q, ReflTransGen (Edge nfa word) (nfa.start, 0) (q, word.length) ∧
        nfa.Accepting q) :=
  exists_search h word (Array.size_replicate)

/-- Moves of a search to the end of the word are a run on the rest of the word. -/
theorem run_of_edges {p q : StateId} {i : Nat}
    (h : ReflTransGen (Edge nfa word) (p, i) (q, word.length)) :
    nfa.Run p (word.drop i) q := by
  generalize ha : (p, i) = a at h
  induction h using ReflTransGen.head_induction_on generalizing p i with
  | refl =>
    cases ha
    rw [List.drop_length]
    exact .stay q
  | head hab _ ih =>
    cases hab with
    | @read p' t j c hc hr =>
      cases ha
      obtain ⟨hlt, hget⟩ := List.getElem?_eq_some_iff.mp hc
      rw [List.drop_eq_getElem_cons hlt, hget]
      exact .read hr (ih rfl)
    | jump hj _ =>
      cases ha
      exact .jump hj (ih rfl)

/-- Where no state has both kinds of edges, every run is made of moves of a search. -/
theorem edges_of_run (hsplit : ∀ p c q r, nfa.Reads p c q → ¬ nfa.Jumps p r) {p q : StateId}
    {rest : List Char} (h : nfa.Run p rest q) {i : Nat} (hi : i ≤ word.length)
    (hrest : rest = word.drop i) :
    ReflTransGen (Edge nfa word) (p, i) (q, word.length) := by
  induction h generalizing i with
  | stay q =>
    have hend : i = word.length := Nat.le_antisymm hi (List.drop_eq_nil_iff.mp hrest.symm)
    rw [hend]
  | @jump p t r w hj _ ih =>
    refine .head (.jump hj ?_) (ih hi hrest)
    cases hc : word[i]? with
    | none => exact Or.inl (Nat.le_antisymm hi (List.getElem?_eq_none_iff.mp hc))
    | some c => exact Or.inr ⟨c, rfl, fun t' hr => hsplit p c t' t hr hj⟩
  | @read p t r c w hr _ ih =>
    have hc : word[i]? = some c := by
      rw [← List.head?_drop, ← hrest]
      rfl
    have hw : w = word.drop (i + 1) := by
      rw [← List.tail_drop, ← hrest]
      rfl
    exact .head (.read hc hr) (ih (List.getElem?_eq_some_iff.mp hc).1 hw)

/-- Where no state has both kinds of edges, the search accepts exactly the words that some
run accepts. -/
theorem exists_accepts_of_split (h : nfa.InRange)
    (hsplit : ∀ p c q r, nfa.Reads p c q → ¬ nfa.Jumps p r) (word : List Char) :
    ∃ b, accepts nfa word = .ok b ∧ (b = true ↔ nfa.Recognizes word) := by
  obtain ⟨b, hb, hiff⟩ := exists_accepts h word
  refine ⟨b, hb, hiff.trans ⟨?_, ?_⟩⟩
  · rintro ⟨q, hreach, ha⟩
    exact ⟨q, run_of_edges hreach, ha⟩
  · rintro ⟨q, hrun, ha⟩
    exact ⟨q, edges_of_run hsplit hrun (Nat.zero_le _) rfl, ha⟩

/-- The search accepts a word exactly when an accepting state at its end is reachable by
moves that try ε-edges only where there is no transition. So the simulation accepts what
the search accepts, and both agree where no state has both kinds of edges. -/
theorem search_exact (nfa : Nfa) (h : nfa.InRange) (word : List Char) :
    ∃ found simulated, accepts nfa word = .ok found ∧ Simulation.accepts nfa word = .ok simulated ∧
      (found = true ↔ ∃ q, ReflTransGen (Edge nfa word) (nfa.start, 0) (q, word.length) ∧
        nfa.Accepting q) ∧
      (found = true → simulated = true) ∧
      ((∀ p c q r, nfa.Reads p c q → ¬ nfa.Jumps p r) → found = simulated) := by
  obtain ⟨found, hfound, hiff⟩ := exists_accepts h word
  obtain ⟨simulated, hsimulated, hrec⟩ := Simulation.exists_accepts h word
  refine ⟨found, simulated, hfound, hsimulated, hiff, fun htrue => ?_, fun hsplit => ?_⟩
  · obtain ⟨q, hreach, ha⟩ := hiff.mp htrue
    exact hrec.mpr ⟨q, run_of_edges hreach, ha⟩
  · obtain ⟨found', hfound', hrec'⟩ := exists_accepts_of_split h hsplit word
    have he : found = found' := Except.ok.inj (hfound.symm.trans hfound')
    exact Bool.eq_iff_iff.mpr (he ▸ hrec'.trans hrec.symm)

/-- The search on an automaton where it follows a transition and misses the ε-edge that the
simulation takes. -/
theorem tangled_search : Nfa.tangled.InRange ∧
    ∃ found simulated, accepts Nfa.tangled ['a'] = .ok found ∧
      Simulation.accepts Nfa.tangled ['a'] = .ok simulated ∧
      (found = true ↔
        ∃ q, ReflTransGen (Edge Nfa.tangled ['a']) (Nfa.tangled.start, 0) (q, ['a'].length) ∧
          Nfa.tangled.Accepting q) ∧
      (found = true → simulated = true) ∧
      ((∀ p c q r, Nfa.tangled.Reads p c q → ¬ Nfa.tangled.Jumps p r) → found = simulated) :=
  ⟨by decide, search_exact Nfa.tangled (by decide) ['a']⟩

example : accepts Nfa.tangled ['a'] = .ok false := by cbv

example : Simulation.accepts Nfa.tangled ['a'] = .ok true := by cbv

end PatternAutomata.DepthFirst
