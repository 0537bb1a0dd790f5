import PatternAutomata.Proofs.Recognizer.DepthFirst

/-!
# Sets of explored states can be reused

A search reads a set only at the position of a waiting branch, and it clears the set of a
position before the first branch waits there. So two searches whose sets differ only behind all
waiting branches go on in step, whatever the sets hold there. The branches wait in the order of
their positions, the deepest on top: when the set of the next position is cleared, nothing waits
at that position or behind it, and no other round forgets an explored state.
-/

namespace PatternAutomata.DepthFirst

open Relation

variable {nfa : Nfa}

section Lockstep

variable {word : Array Char} {visited visited' : Array NatSet} {pending : List (StateId × Nat)}

/-- Sets that are the same up to the position of every waiting branch. -/
structure Alike (pending : List (StateId × Nat)) (visited visited' : Array NatSet) : Prop where
  size_eq : visited'.size = visited.size
  sets_eq : ∀ b ∈ pending, ∀ i ≤ b.2, visited'[i]? = visited[i]?

/-- Rounds that come to the same fault or answer, or go on with the same branches and sets that
are alike. -/
inductive RoundsAlike : Except Fault Round → Except Fault Round → Prop
  | fault (f : Fault) : RoundsAlike (.error f) (.error f)
  | answer (b : Bool) : RoundsAlike (.ok (.answer b)) (.ok (.answer b))
  | onward {pending : List (StateId × Nat)} {visited visited' : Array NatSet} :
    Alike pending visited visited' →
    RoundsAlike (.ok (.onward ⟨visited, pending⟩)) (.ok (.onward ⟨visited', pending⟩))

/-- Sets that are alike stay so for branches that are no deeper than the waiting ones. -/
theorem Alike.of_le {pending' : List (StateId × Nat)} (h : Alike pending visited visited')
    (hle : ∀ b ∈ pending', ∃ a ∈ pending, b.2 ≤ a.2) : Alike pending' visited visited' where
  size_eq := h.size_eq
  sets_eq b hb i hi := by
    obtain ⟨a, ha, hba⟩ := hle b hb
    exact h.sets_eq a ha i (hi.trans hba)

/-- After the same set has been put at one position of both arrays, they agree there, and wherever
else they agreed before. -/
theorem getElem?_set_eq {i j : Nat} (hsize : visited'.size = visited.size)
    (h : i ≠ j → visited'[j]? = visited[j]?) (s : NatSet) :
    (visited'.setIfInBounds i s)[j]? = (visited.setIfInBounds i s)[j]? := by
  rw [Array.getElem?_setIfInBounds, Array.getElem?_setIfInBounds, hsize]
  by_cases hij : i = j
  · rw [if_pos hij, if_pos hij]
  · rw [if_neg hij, if_neg hij, h hij]

/-- Sets stay alike when the same set replaces one in both arrays. -/
theorem Alike.set (h : Alike pending visited visited') (i : Nat) (s : NatSet) :
    Alike pending (visited.setIfInBounds i s) (visited'.setIfInBounds i s) where
  size_eq := by rw [Array.size_setIfInBounds, Array.size_setIfInBounds, h.size_eq]
  sets_eq b hb j hj := getElem?_set_eq h.size_eq (fun _ => h.sets_eq b hb j hj) s

/-- Following a transition makes the sets alike one position further, since both are empty there. -/
theorem Alike.follows {q : StateId} {i : Nat} (h : Alike ((q, i) :: pending) visited visited')
    (target : StateId) :
    RoundsAlike (follow visited target i pending) (follow visited' target i pending) := by
  rw [follow, follow, h.size_eq]
  split
  · refine .onward ⟨(h.set (i + 1) ∅).size_eq, fun b hb j hj => ?_⟩
    rcases List.mem_cons.mp hb with rfl | hb
    · refine getElem?_set_eq h.size_eq (fun hne => ?_) ∅
      -- before the cleared set, the sets agree because a branch waited at `i`
      exact h.sets_eq (q, i) List.mem_cons_self j (Nat.le_of_lt_succ (lt_of_le_of_ne hj hne.symm))
    · exact (h.set (i + 1) ∅).sets_eq b (List.mem_cons_of_mem _ hb) j hj
  · exact .fault _

/-- Pushing the ε-edges of a branch in its place keeps sets alike. -/
theorem Alike.pushes {q : StateId} {i : Nat} (h : Alike ((q, i) :: pending) visited visited')
    (s : State) : Alike (pushEpsilon s i pending) visited visited' := by
  refine h.of_le fun b hb => ?_
  rcases List.mem_append.mp hb with hb | hb
  · obtain ⟨t, _, rfl⟩ := List.mem_map.mp hb
    exact ⟨(q, i), List.mem_cons_self, le_rfl⟩
  · exact ⟨b, List.mem_cons_of_mem _ hb, le_rfl⟩

/-- Exploring a state comes to the same with sets that are alike. -/
theorem Alike.explores {q : StateId} {i : Nat} (h : Alike ((q, i) :: pending) visited visited')
    (s : State) :
    RoundsAlike (explore word visited s i pending) (explore word visited' s i pending) := by
  rw [explore, explore]
  cases word[i]? with
  | none =>
    cases s.accepting with
    | true => exact .answer true
    | false => exact .onward (h.pushes s)
  | some c =>
    dsimp only
    cases s.transitions.get? c with
    | none => exact .onward (h.pushes s)
    | some target => exact h.follows target

/-- A round comes to the same with sets that are alike. -/
theorem Alike.advances (h : Alike pending visited visited') (nfa : Nfa) (word : Array Char) :
    RoundsAlike (advance nfa word ⟨visited, pending⟩) (advance nfa word ⟨visited', pending⟩) := by
  cases pending with
  | nil => exact .answer false
  | cons branch pending =>
    obtain ⟨q, i⟩ := branch
    rw [advance, advance, h.sets_eq (q, i) List.mem_cons_self i le_rfl, h.size_eq]
    cases visited[i]? with
    | none => exact .fault _
    | some explored =>
      dsimp only
      split
      · exact .onward (h.of_le fun b hb => ⟨b, List.mem_cons_of_mem _ hb, le_rfl⟩)
      · cases nfa.state q with
        | error fault => exact .fault fault
        | ok s => exact (h.set i (explored.insert q)).explores s

/-- Searches whose sets are alike come to the same. -/
theorem Alike.run_eq (h : Alike pending visited visited') :
    run nfa word ⟨visited', pending⟩ = run nfa word ⟨visited, pending⟩ := by
  generalize hconfig : (⟨visited, pending⟩ : Config) = config
  -- the rounds of the first search lead; the second one follows them with sets that stay alike
  fun_induction run nfa word config generalizing visited visited' pending with
  | case1 _ fault hround | case2 _ accepted hround =>
    subst hconfig
    have halike := h.advances nfa word
    rw [hround] at halike
    rw [run_of_round]
    generalize advance nfa word ⟨visited', pending⟩ = round at halike ⊢
    cases halike
    rfl
  | case3 _ next hround ih =>
    subst hconfig
    have halike := h.advances nfa word
    rw [hround] at halike
    rw [run_of_round]
    generalize advance nfa word ⟨visited', pending⟩ = round at halike ⊢
    cases halike with
    | onward hnext => exact ih hnext rfl

/-- What a search comes to does not depend on what its sets hold at first: each is cleared before a
branch can meet it. -/
theorem search_eq_search (hsize : visited'.size = visited.size) :
    search nfa word visited' = search nfa word visited := by
  rw [search, search, hsize]
  split
  · refine Alike.run_eq ⟨by rw [Array.size_setIfInBounds, Array.size_setIfInBounds, hsize],
      fun b hb j hj => ?_⟩
    rw [List.mem_singleton.mp hb] at hj
    exact getElem?_set_eq hsize (fun hne => absurd (Nat.le_zero.mp hj).symm hne) ∅
  · rfl

end Lockstep

section Order

variable {word : List Char}

/-- A round after which the search goes on. -/
def Onward (nfa : Nfa) (word : Array Char) (config config' : Config) : Prop :=
  advance nfa word config = .ok (.onward config')

/-- A search that answers does so in the last of its rounds. -/
theorem exists_last_of_run {word : Array Char} {config : Config} {b : Bool}
    (h : run nfa word config = .ok b) :
    ∃ last, ReflTransGen (Onward nfa word) config last ∧
      advance nfa word last = .ok (.answer b) := by
  fun_induction run nfa word config with
  | case1 _ fault hround => cases h
  | case2 config accepted hround =>
    cases h
    exact ⟨config, .refl, hround⟩
  | case3 _ next hround ih =>
    obtain ⟨last, hreached, hanswer⟩ := ih h
    exact ⟨last, .head hround hreached, hanswer⟩

/-- The round clears the set of the position after `i` while `rest` waits: it takes up a branch
at `i` whose state is not yet explored there and has a transition on the symbol. -/
inductive Clears (nfa : Nfa) (word : List Char) : Config → Nat → List (StateId × Nat) → Prop
  | follow {visited : Array NatSet} {explored : NatSet} {q t : StateId} {i : Nat} {c : Char}
    {rest : List (StateId × Nat)} : visited[i]? = some explored → q ∉ explored →
    word[i]? = some c → nfa.Reads q c t → Clears nfa word ⟨visited, (q, i) :: rest⟩ i rest

/-- What holds of the waiting branches and of the sets when a round begins. -/
structure Orderly (nfa : Nfa) (word : List Char) (config : Config) : Prop where
  /-- From the first branch to be taken up to the last, the positions do not increase. -/
  deepest_first : config.pending.Pairwise fun a b => b.2 ≤ a.2
  /-- No branch waits behind the end of the word. -/
  le_length : ∀ b ∈ config.pending, b.2 ≤ word.length
  /-- Where the set of the next position is cleared, no other branch waits at that position or
  behind it. -/
  clears : ∀ {i : Nat} {rest : List (StateId × Nat)}, Clears nfa word config i rest →
    (∃ visited t, Onward nfa word.toArray config ⟨visited, (t, i + 1) :: rest⟩ ∧
      visited[i + 1]? = some ∅) ∧
    ∀ b ∈ rest, b.2 ≤ i
  /-- A state that is explored at a position remains so until the set is cleared. -/
  remembers : ∀ {config' : Config}, Onward nfa word.toArray config config' →
    ∀ {j : Nat} {set set' : NatSet}, config.visited[j]? = some set →
      config'.visited[j]? = some set' → ∀ q ∈ set, q ∈ set' ∨
        ∃ i rest, j = i + 1 ∧ Clears nfa word config i rest

/-- The rounds of a search keep its invariant. -/
theorem Sound.exists_of_reached (h : nfa.InRange) {explored : StateId × Nat → Prop}
    {config config' : Config} (hs : Sound nfa word explored config)
    (hreached : ReflTransGen (Onward nfa word.toArray) config config') :
    ∃ explored, Sound nfa word explored config' := by
  induction hreached with
  | refl => exact ⟨explored, hs⟩
  | tail _ hround ih =>
    obtain ⟨explored', hs'⟩ := ih
    rcases hs'.round with ⟨_, rfl, hok⟩ | ⟨_, _, _, _, _, rfl, hok, htakes⟩
    · cases hok.symm.trans hround
    · cases hok.symm.trans hround
      exact ⟨_, hs'.onward h htakes⟩

/-- A round that follows a transition leaves the set of the next position empty. -/
theorem Clears.exists_onward {explored : StateId × Nat → Prop} {config : Config} {i : Nat}
    {rest : List (StateId × Nat)} (hc : Clears nfa word config i rest)
    (hs : Sound nfa word explored config) :
    ∃ visited t, Onward nfa word.toArray config ⟨visited, (t, i + 1) :: rest⟩ ∧
      visited[i + 1]? = some ∅ := by
  cases hc with
  | @follow visited old q t _ c _ hold hq hc hr =>
    have hlt : i < word.length := (List.getElem?_eq_some_iff.mp hc).1
    have hsize : visited.size = word.length + 1 := hs.size_eq
    obtain ⟨hqlt, hi⟩ := hs.pending_lt (q, i) List.mem_cons_self
    obtain ⟨r, hok, htakes⟩ := exists_takes hsize hqlt hi rest
    cases htakes with
    | skip hold' hmem =>
      cases hold.symm.trans hold'
      exact absurd hmem hq
    | accept _ _ hend _ => exact absurd hend (Nat.ne_of_lt hlt)
    | read _ _ _ _ =>
      refine ⟨_, _, hok, Array.getElem?_setIfInBounds_self_of_lt ?_⟩
      rw [Array.size_setIfInBounds, hsize]
      exact Nat.succ_lt_succ hlt
    | jump _ _ _ _ hno =>
      rcases hno with rfl | ⟨d, hd, hno⟩
      · exact absurd hlt (Nat.lt_irrefl _)
      · cases hc.symm.trans hd
        exact absurd hr (hno t)

/-- Marking a state forgets none. -/
theorem mem_of_mark {visited : Array NatSet} {i j : Nat} {old set set' : NatSet} {q r : StateId}
    (hold : visited[i]? = some old) (hset : visited[j]? = some set)
    (hset' : (visited.setIfInBounds i (old.insert q))[j]? = some set') (hr : r ∈ set) :
    r ∈ set' := by
  by_cases hij : i = j
  · subst hij
    rw [Array.getElem?_setIfInBounds_self_of_lt (Array.getElem?_eq_some_iff.mp hold).1] at hset'
    cases hset'
    cases hold.symm.trans hset
    exact NatSet.mem_insert.mpr (Or.inr hr)
  · rw [Array.getElem?_setIfInBounds_ne hij] at hset'
    cases hset.symm.trans hset'
    exact hr

/-- A round forgets explored states only where it clears a set. -/
theorem Takes.remembers {visited : Array NatSet} {q : StateId} {i : Nat}
    {pending : List (StateId × Nat)} {config : Config}
    (ht : Takes nfa word visited q i pending (.onward config)) {j : Nat} {set set' : NatSet}
    (hset : visited[j]? = some set) (hset' : config.visited[j]? = some set') {r : StateId}
    (hr : r ∈ set) :
    r ∈ set' ∨ ∃ i' rest, j = i' + 1 ∧ Clears nfa word ⟨visited, (q, i) :: pending⟩ i' rest := by
  cases ht with
  | skip =>
    cases hset.symm.trans hset'
    exact Or.inl hr
  | read hold hq hc hread =>
    by_cases hij : i + 1 = j
    · exact Or.inr ⟨i, pending, hij.symm, .follow hold hq hc hread⟩
    · rw [Array.getElem?_setIfInBounds_ne hij] at hset'
      exact Or.inl (mem_of_mark hold hset hset' hr)
  | jump hold => exact Or.inl (mem_of_mark hold hset hset' hr)

/-- The invariant of a search keeps its branches in order. -/
theorem Sound.orderly {explored : StateId × Nat → Prop} {config : Config}
    (hs : Sound nfa word explored config) : Orderly nfa word config where
  deepest_first := hs.deepest_first
  le_length b hb := (hs.pending_lt b hb).2
  clears hc := by
    refine ⟨hc.exists_onward hs, fun b hb => ?_⟩
    cases hc with
    | follow => exact (List.pairwise_cons.mp hs.deepest_first).1 b hb
  remembers hround j set set' hset hset' r hr := by
    rcases hs.round with ⟨_, rfl, hok⟩ | ⟨_, _, _, _, _, rfl, hok, htakes⟩
    · cases hok.symm.trans hround
    · cases hok.symm.trans hround
      exact htakes.remembers hset hset' hr

/-- A search answers the same whatever its sets hold at first, namely what its last round answers.
At the beginning of every round the branches wait in the order of their positions inside the word,
and nothing waits at a position whose set is cleared or behind it. -/
theorem search_reuses_sets (nfa : Nfa) (h : nfa.InRange) (word : List Char)
    (visited : Array NatSet) (hsize : visited.size = word.length + 1) :
    (∃ b last, search nfa word.toArray visited = .ok b ∧
      search nfa word.toArray (Array.replicate (word.length + 1) ∅) = .ok b ∧
      ReflTransGen (Onward nfa word.toArray)
        ⟨visited.setIfInBounds 0 ∅, [(nfa.start, 0)]⟩ last ∧
      advance nfa word.toArray last = .ok (.answer b)) ∧
    ∀ config, ReflTransGen (Onward nfa word.toArray)
      ⟨visited.setIfInBounds 0 ∅, [(nfa.start, 0)]⟩ config → Orderly nfa word config := by
  have hempty : (Array.replicate (word.length + 1) (∅ : NatSet)).size = visited.size :=
    Array.size_replicate.trans hsize.symm
  obtain ⟨b, hb, _⟩ := exists_search h word hsize
  have hrun : run nfa word.toArray ⟨visited.setIfInBounds 0 ∅, [(nfa.start, 0)]⟩ = .ok b := by
    have hsize' : visited.size = word.toArray.size + 1 := hsize
    rwa [search, if_pos hsize'] at hb
  obtain ⟨last, hlast, hanswer⟩ := exists_last_of_run hrun
  refine ⟨⟨b, last, hb, (search_eq_search hempty).trans hb, hlast, hanswer⟩,
    fun config hreached => ?_⟩
  obtain ⟨explored, hs⟩ := (sound_initial h hsize).exists_of_reached h hreached
  exact hs.orderly

/-- A search whose sets say of every state that it has been explored at every position. -/
theorem tangled_reuses_sets : Nfa.tangled.InRange ∧
    (Array.replicate 3 (NatSet.below Nfa.tangled.size)).size = ['a', 'b'].length + 1 ∧
    (∃ b last, search Nfa.tangled ['a', 'b'].toArray
        (Array.replicate 3 (NatSet.below Nfa.tangled.size)) = .ok b ∧
      search Nfa.tangled ['a', 'b'].toArray (Array.replicate (['a', 'b'].length + 1) ∅) = .ok b ∧
      ReflTransGen (Onward Nfa.tangled ['a', 'b'].toArray)
        ⟨(Array.replicate 3 (NatSet.below Nfa.tangled.size)).setIfInBounds 0 ∅,
          [(Nfa.tangled.start, 0)]⟩ last ∧
      advance Nfa.tangled ['a', 'b'].toArray last = .ok (.answer b)) ∧
    ∀ config, ReflTransGen (Onward Nfa.tangled ['a', 'b'].toArray)
      ⟨(Array.replicate 3 (NatSet.below Nfa.tangled.size)).setIfInBounds 0 ∅,
        [(Nfa.tangled.start, 0)]⟩ config → Orderly Nfa.tangled ['a', 'b'] config :=
  ⟨by decide, rfl, search_reuses_sets Nfa.tangled (by decide) ['a', 'b'] _ rfl⟩

end Order

end PatternAutomata.DepthFirst
