import PatternAutomata.Proofs.Expression.Shape

/-!
# The operands of an assembly share out the arena

Between two tokens the arena is cut into blocks, one for each operand that waits, in the order in
which the operands were put on the stack. No edge leads from one block to another, so what is done
to the operands on top leaves those below as they are. A block is entered at a state that no edge
leads to, and left at its only accepting state, which has no edges.
-/

namespace PatternAutomata

namespace Arena

/-- An edge leads from the state `p` to the state `q`, by a symbol or without one. -/
def HasEdge (a : Arena) (p q : StateId) : Prop :=
  ∃ s, a.states[p]? = some s ∧ ((∃ c, s.transitions.get? c = some q) ∨ q ∈ s.epsilon)

/-- The state `q` accepts. -/
def Accepting (a : Arena) (q : StateId) : Prop :=
  ∃ s, a.states[q]? = some s ∧ s.accepting = true

/-- The states from `base` on and below `bound` are the block of a fragment. -/
structure Block (a : Arena) (base bound : Nat) (fragment : Fragment) : Prop where
  entry_mem : base ≤ fragment.entry ∧ fragment.entry < bound
  exit_mem : base ≤ fragment.exit ∧ fragment.exit < bound
  entry_ne_exit : fragment.entry ≠ fragment.exit
  /-- An edge that begins or ends in the block does both. -/
  edge_iff : ∀ p q : Nat, a.HasEdge p q → (base ≤ p ∧ p < bound ↔ base ≤ q ∧ q < bound)
  accepting_iff : ∀ q : Nat, base ≤ q → q < bound → (a.Accepting q ↔ q = fragment.exit)
  /-- No edge leaves the exit. -/
  exit_bare : ∀ q, ¬ a.HasEdge fragment.exit q
  /-- No edge leads to the entry. -/
  entry_fresh : ∀ p, ¬ a.HasEdge p fragment.entry

/-- The states below a bound are blocks without a gap, one for each fragment of a stack. The
block of the fragment on top is the last one. -/
inductive Tiled (a : Arena) : Nat → List Fragment → Prop
  | nil : Tiled a 0 []
  | cons {base bound : Nat} {fragment : Fragment} {rest : List Fragment}
      (hrest : a.Tiled base rest) (hblock : a.Block base bound fragment) :
      Tiled a bound (fragment :: rest)

/-- The edges of listed states lead to their targets. -/
theorem hasEdge_ofList {states : List State} {p q : StateId} :
    (ofList states).HasEdge p q ↔ ∃ s, states[p]? = some s ∧ q ∈ s.targets := by
  simp only [HasEdge, ofList, List.getElem?_toArray, State.mem_targets_iff]

end Arena

namespace Assembly

/-- Tokens one after another are taken up one after another. -/
theorem run_append {s s' : Assembly} {position : Nat} {tokens : List Token}
    (h : s.run position tokens = .ok s') (rest : List Token) :
    s.run position (tokens ++ rest) = s'.run (position + tokens.length) rest := by
  induction tokens generalizing s position with
  | nil =>
    cases h
    rfl
  | cons t ts ih =>
    rw [run] at h
    rw [List.cons_append, run, List.length_cons]
    cases ht : s.step position t with
    | error e =>
      rw [ht] at h
      cases h
    | ok next =>
      rw [ht] at h
      rw [show position + (ts.length + 1) = position + 1 + ts.length by omega]
      exact ih h

end Assembly

namespace Expr

/-- No state before the exit of a block accepts. -/
theorem accepting_body (e : Expr) (base : Nat) : ∀ s ∈ e.body base, s.accepting = false := by
  induction e generalizing base with
  | literal c =>
    intro s hs
    rw [List.mem_singleton.mp hs]
    rfl
  | union left right ihl ihr =>
    simp only [body, List.forall_mem_append, List.forall_mem_cons, List.not_mem_nil,
      false_implies, implies_true, and_true]
    exact ⟨ihl base, rfl, ihr _, rfl, rfl⟩
  | concat left right ihl ihr =>
    simp only [body, List.forall_mem_append, List.forall_mem_cons]
    exact ⟨ihl base, rfl, ihr _⟩
  | star inner ih =>
    simp only [body, List.forall_mem_append, List.forall_mem_cons, List.not_mem_nil,
      false_implies, implies_true, and_true]
    exact ⟨ih base, rfl, rfl⟩

/-- The edges of the blocks of a stack stay in them. -/
theorem targets_blocks (trees : List Expr) :
    ∀ s ∈ blocks trees, ∀ q ∈ s.targets, q < (blocks trees).length := by
  induction trees with
  | nil => simp only [blocks, List.not_mem_nil, false_implies, implies_true]
  | cons e trees ih =>
    rw [length_blocks_cons]
    simp only [blocks, List.forall_mem_append, List.forall_mem_singleton, State.targets_isolated,
      List.not_mem_nil, false_implies, implies_true, and_true]
    refine ⟨fun s hs q hq => ?_, fun s hs q hq => ?_⟩
    · have := ih s hs q hq
      omega
    · have := e.targets_body _ s hs q hq
      omega

variable {e : Expr} {trees : List Expr} {behind : List State}

/-- The block on top of a stack with more states behind it. -/
theorem blocks_cons_append (e : Expr) (trees : List Expr) (behind : List State) :
    blocks (e :: trees) ++ behind = blocks trees ++
      (e.body (blocks trees).length ++ State.isolated true :: behind) := by
  simp only [blocks, List.append_assoc, List.singleton_append]

/-- Below the block on top, inside it, and behind it: no edge leads from one of the three to
another, none leaves the exit and none leads to the entry. -/
theorem edge_cases {base : Nat} (hbase : base = (blocks trees).length)
    (hbehind : ∀ s ∈ behind, ∀ q ∈ s.targets, base + e.span < q) {p q : Nat}
    (h : (Arena.ofList (blocks (e :: trees) ++ behind)).HasEdge p q) :
    (p < base ∧ q < base) ∨
      (base ≤ p ∧ p < base + e.span ∧ base ≤ q ∧ q ≤ base + e.span ∧ q ≠ e.entry base) ∨
        (base + e.span < p ∧ base + e.span < q) := by
  obtain ⟨s, hs, hq⟩ := Arena.hasEdge_ofList.mp h
  rw [blocks_cons_append, ← hbase] at hs
  rcases Nat.lt_or_ge p base with hbelow | hge
  · rw [List.getElem?_append_left (hbase ▸ hbelow)] at hs
    exact Or.inl ⟨hbelow, hbase ▸ targets_blocks trees s (List.mem_of_getElem? hs) q hq⟩
  · rw [List.getElem?_append_right (hbase ▸ hge), ← hbase] at hs
    rcases Nat.lt_or_ge (p - base) e.span with hinside | hover
    · rw [List.getElem?_append_left (by rwa [length_body])] at hs
      have htargets := e.targets_body base s (List.mem_of_getElem? hs) q hq
      exact Or.inr (Or.inl ⟨hge, by omega, htargets⟩)
    · rw [List.getElem?_append_right (by rwa [length_body]), length_body] at hs
      rcases hi : p - base - e.span with _ | i
      · -- the exit has no edges
        rw [hi] at hs
        cases hs
        cases hq
      · rw [hi, List.getElem?_cons_succ] at hs
        exact Or.inr (Or.inr ⟨by omega, hbehind s (List.mem_of_getElem? hs) q hq⟩)

/-- In the block on top the exit alone accepts. -/
theorem accepting_cases {base : Nat} (hbase : base = (blocks trees).length) {q : Nat}
    (hge : base ≤ q) (hle : q ≤ base + e.span) :
    (Arena.ofList (blocks (e :: trees) ++ behind)).Accepting q ↔ q = base + e.span := by
  have hget : (Arena.ofList (blocks (e :: trees) ++ behind)).states[q]? =
      (e.body base ++ State.isolated true :: behind)[q - base]? := by
    rw [Arena.ofList, List.getElem?_toArray, blocks_cons_append, hbase,
      List.getElem?_append_right (hbase ▸ hge)]
  rw [Arena.Accepting, hget]
  rcases Nat.lt_or_ge (q - base) e.span with hinside | hover
  · rw [List.getElem?_append_left (by rwa [length_body])]
    refine iff_of_false ?_ (by omega)
    rintro ⟨s, hs, haccepting⟩
    rw [e.accepting_body base s (List.mem_of_getElem? hs)] at haccepting
    cases haccepting
  · have hq : q - base = e.span := by omega
    rw [List.getElem?_append_right (by rwa [length_body]), length_body, hq, Nat.sub_self]
    exact iff_of_true ⟨_, rfl, rfl⟩ (by omega)

/-- The block of the tree on top belongs to the fragment on top. -/
theorem block_blocks (e : Expr) (trees : List Expr)
    (hbehind : ∀ s ∈ behind, ∀ q ∈ s.targets, (blocks trees).length + e.span < q) :
    (Arena.ofList (blocks (e :: trees) ++ behind)).Block (blocks trees).length
      (blocks (e :: trees)).length
      ⟨e.entry (blocks trees).length, (blocks trees).length + e.span⟩ := by
  have hentry := e.entry_mem (blocks trees).length
  have hedge (p q : Nat) (h : (Arena.ofList (blocks (e :: trees) ++ behind)).HasEdge p q) :=
    edge_cases rfl hbehind h
  rw [length_blocks_cons]
  constructor
  case entry_mem => exact ⟨hentry.1, Nat.lt_succ_of_lt hentry.2⟩
  case exit_mem => exact ⟨Nat.le_add_right _ _, Nat.lt_succ_self _⟩
  case entry_ne_exit => exact Nat.ne_of_lt hentry.2
  case edge_iff =>
    intro p q h
    have := hedge p q h
    omega
  case accepting_iff =>
    intro q hge hlt
    exact accepting_cases rfl hge (by omega)
  case exit_bare =>
    intro q h
    have := hedge ((blocks trees).length + e.span) q h
    omega
  case entry_fresh =>
    intro p h
    have := hedge p (e.entry (blocks trees).length) h
    omega

/-- The blocks of a stack share out the states before the others, whatever these do among
themselves. -/
theorem tiled_blocks (trees : List Expr)
    (hbehind : ∀ s ∈ behind, ∀ q ∈ s.targets, (blocks trees).length ≤ q) :
    (Arena.ofList (blocks trees ++ behind)).Tiled (blocks trees).length (fragments trees) := by
  induction trees generalizing behind with
  | nil => exact .nil
  | cons e trees ih =>
    rw [length_blocks_cons] at hbehind
    refine .cons ?_ (block_blocks e trees hbehind)
    rw [blocks_cons_append]
    apply ih
    simp only [List.forall_mem_append, List.forall_mem_cons, State.targets_isolated,
      List.not_mem_nil, false_implies, implies_true, true_and]
    refine ⟨fun s hs q hq => (e.targets_body _ s hs q hq).1, fun s hs q hq => ?_⟩
    have := hbehind s hs q hq
    omega

/-- The operands of an assembly of trees share out its arena. -/
theorem tiled_assembly (trees : List Expr) :
    (assembly trees).arena.Tiled (assembly trees).arena.size (assembly trees).operands := by
  have hnone : ∀ s ∈ ([] : List State), ∀ q ∈ s.targets, (blocks trees).length ≤ q :=
    fun _ hs => nomatch hs
  have htiled := tiled_blocks trees hnone
  rwa [List.append_nil] at htiled

/-- Tokens that are all taken up leave the assembly of a stack of trees. -/
theorem exists_assembly_of_run {tokens : List Token} {s : Assembly}
    (h : Assembly.start.run 0 tokens = .ok s) : ∃ trees, s = assembly trees := by
  have hrun : Assembly.start.run 0 tokens =
      ((takeAll [] 0 tokens).map assembly).mapError CompileError.rejected :=
    run_assembly [] 0 tokens
  have hmap : assembly <$> takeAll [] 0 tokens = .ok s := eq_ok_of_mapError (hrun.symm.trans h)
  obtain ⟨trees, -, he⟩ := exists_of_map_eq_ok hmap
  exact ⟨trees, he.symm⟩

end Expr

/-- Between any two tokens of a stream, whether or not they are all taken up later, the operands
share out the arena: its states are blocks without a gap, one for each operand in the order of
the stack, and no edge leads from one block to another. Every block has one accepting state, at
which it is left, and no edge leads to the state at which it is entered. -/
theorem run_tiles_arena (tokens rest : List Token) (s : Assembly)
    (h : Assembly.start.run 0 tokens = .ok s) :
    Assembly.start.run 0 (tokens ++ rest) = s.run tokens.length rest ∧
      s.arena.Tiled s.arena.size s.operands := by
  refine ⟨?_, ?_⟩
  · have hrest := Assembly.run_append h rest
    rwa [Nat.zero_add] at hrest
  · obtain ⟨trees, rfl⟩ := Expr.exists_assembly_of_run h
    exact Expr.tiled_assembly trees

/-- A choice and a repetition wait for their concatenation, and another one that comes after it
will find them joined and fail. -/
theorem run_tiles_arena_before_failure :
    let tokens : List Token := [.literal 'a', .literal 'b', .operator .union, .literal 'c',
      .operator .star]
    let rest : List Token := [.operator .concat, .operator .concat]
    let s := Expr.assembly [.star (.literal 'c'), .union (.literal 'a') (.literal 'b')]
    Assembly.start.run 0 (tokens ++ rest) = .error (.rejected (.missingOperand .concat)) ∧
      Assembly.start.run 0 tokens = .ok s ∧
      Assembly.start.run 0 (tokens ++ rest) = s.run tokens.length rest ∧
      s.arena.Tiled s.arena.size s.operands :=
  ⟨rfl, rfl, run_tiles_arena _ _ _ rfl⟩

end PatternAutomata
